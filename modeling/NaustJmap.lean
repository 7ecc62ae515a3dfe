import NaustJmap.Library.Reads
import NaustJmap.Library.Map
import NaustJmap.Library.Maintain
import NaustJmap.Library.Fencing
import NaustJmap.ObjectDB.KeySpace
import NaustJmap.ObjectDB.Paging
import NaustJmap.ObjectDB.Trimming
import NaustJmap.ObjectDB.Overlay
import NaustJmap.ObjectDB.Admission
import NaustJmap.ObjectDB.KeyDecode
import NaustJmap.ObjectDB.Dates
import NaustJmap.Lease.Safety
import NaustJmap.Blobs.Drain
import NaustJmap.Submit.Reports
import NaustJmap.Submit.Hold
import NaustJmap.Submit.EndOfData
import NaustJmap.Lmtp.Framing
import NaustJmap.Mail.UpdatedProperties
import NaustJmap.Mail.Requests
import NaustJmap.Runtime.GetFresh
import NaustJmap.Runtime.Pipeline
import NaustJmap.Runtime.Outcomes
import NaustJmap.Runtime.Backref
import NaustJmap.Mdn.Keyword
import NaustJmap.Deliver.Vacation
import NaustJmap.Message.BodyValue
import NaustJmap.Message.Preview
import NaustJmap.Message.Flatten
import NaustJmap.Lmtp.Transcript
import NaustJmap.Message.TextEncoding
import NaustJmap.Message.AngleList
import NaustJmap.Wire.Response
import NaustJmap.Jsonscan.Words
import NaustJmap.Jsonscan.Integers
import NaustJmap.Report.HeaderBlock
