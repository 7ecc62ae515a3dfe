import NaustJmap.Library.Fencing
import NaustJmap.ObjectDB.History
import Mathlib.Data.Nat.Digits.Lemmas

/-!
# The Account Lease

`core/providers/lease`: manager instances share one store.  The claim on an account is one record
whose value is a token; acquiring replaces it by a compare-and-swap, a commit asserts it, and
`StoreLease` releases by swapping in an expired one.  One atomic step of one instance is taken at a
time, with arbitrary readings of every clock; the process-local mutex leaves each instance in one
`Phase`.  `lease_simulates` maps the steps to those of `Library.FenceStep`.
-/

namespace NaustJmap.Lease

open Library ObjectDB

/-! ## Tokens -/

abbrev Token := List Char

def digit36 (d : ℕ) : Char := "0123456789abcdefghijklmnopqrstuvwxyz".toList.getD d '0'

def formatUint36 (n : ℕ) : List Char :=
  if n = 0 then ['0'] else ((Nat.digits 36 n).map digit36).reverse

/-- `mintToken`; `formatTime` renders the deadline `exp` (`time.RFC3339Nano`, UTC). -/
def mintToken (formatTime : Int → List Char) (nonce : List Char) (seq : ℕ) (exp : Int) : Token :=
  formatTime exp ++ '|' :: (nonce ++ '-' :: formatUint36 seq)

/-- `parseClaimExpiry`: `none` for an absent or malformed claim. -/
def parseClaimExpiry (parseTime : List Char → Option Int) (claim : Option Token) : Option Int :=
  match claim with
  | none => none
  | some tok => if '|' ∈ tok then parseTime (tok.takeWhile (· ≠ '|')) else none

theorem digit36_ne_dash {a : ℕ} (ha : a < 36) : digit36 a ≠ '-' := by
  have key : ∀ a < 36, digit36 a ≠ '-' := by decide
  exact key a ha

theorem dash_notMem_formatUint36 (n : ℕ) : '-' ∉ formatUint36 n := by
  unfold formatUint36
  split
  · decide
  · rw [List.mem_reverse, List.mem_map]
    rintro ⟨d, hd, heq⟩
    exact digit36_ne_dash (Nat.digits_lt_base (by norm_num) hd) heq

def parseUint36 (text : List Char) : ℕ :=
  Nat.ofDigits 36 (text.reverse.map ("0123456789abcdefghijklmnopqrstuvwxyz".toList.idxOf ·))

theorem parseUint36_formatUint36 (n : ℕ) : parseUint36 (formatUint36 n) = n := by
  have hdigit : ∀ d < 36, "0123456789abcdefghijklmnopqrstuvwxyz".toList.idxOf (digit36 d) = d := by
    decide
  unfold formatUint36
  split
  · subst_vars
    decide
  · rw [parseUint36, List.reverse_reverse, List.map_map, List.map_congr_left,
      List.map_id, Nat.ofDigits_digits]
    intro d hd
    exact hdigit d (Nat.digits_lt_base (by norm_num) hd)

theorem split_at_first {a : Char} {x x' y y' : List Char} (hx : a ∉ x) (hx' : a ∉ x')
    (h : x ++ a :: y = x' ++ a :: y') : x = x' ∧ y = y' := by
  induction x generalizing x' with
  | nil =>
    cases x' with
    | nil => simpa using h
    | cons b x' =>
      obtain rfl : a = b := by simpa using (List.cons.inj h).1
      exact absurd List.mem_cons_self hx'
  | cons b x ih =>
    cases x' with
    | nil =>
      obtain rfl : b = a := by simpa using (List.cons.inj h).1
      exact absurd List.mem_cons_self hx
    | cons b' x' =>
      obtain ⟨rfl, htail⟩ := List.cons.inj h
      obtain ⟨rfl, rfl⟩ := ih (fun hm => hx (List.mem_cons_of_mem _ hm))
        (fun hm => hx' (List.mem_cons_of_mem _ hm)) htail
      exact ⟨rfl, rfl⟩

theorem mintToken_inj {formatTime : Int → List Char} {nonce nonce' : List Char} {n n' : ℕ}
    {e e' : Int} (hnonce : '|' ∉ nonce) (hnonce' : '|' ∉ nonce')
    (h : mintToken formatTime nonce n e = mintToken formatTime nonce' n' e') :
    nonce = nonce' ∧ n = n' := by
  -- read from the right: the counter up to the last dash, the nonce up to the last bar
  have hrev := congrArg List.reverse h
  simp only [mintToken, List.reverse_append, List.reverse_cons, List.append_assoc,
    List.cons_append, List.nil_append] at hrev
  have hcount : ∀ n, '-' ∉ (formatUint36 n).reverse := fun n hmem =>
    dash_notMem_formatUint36 n (List.mem_reverse.mp hmem)
  obtain ⟨hn, hrest⟩ := split_at_first (hcount n) (hcount n') hrev
  obtain ⟨hnonce, -⟩ := split_at_first (by simpa using hnonce) (by simpa using hnonce') hrest
  refine ⟨List.reverse_inj.mp hnonce, ?_⟩
  rw [← parseUint36_formatUint36 n, List.reverse_inj.mp hn, parseUint36_formatUint36]

/-! ## The fleet -/

inductive Policy where
  | storeLease | inProcess
  deriving DecidableEq

/-- The manager instances that share the store. -/
structure Fleet (I : Type) where
  policy : I → Policy
  /-- `StoreLeaseConfig.Expiry`, in nanoseconds. -/
  expiry : I → Int
  /-- `newNonce`: hexadecimal digits, different for each instance. -/
  nonce : I → List Char
  nonce_hex : ∀ i, ∀ c ∈ nonce i, c ∈ "0123456789abcdef".toList
  nonce_injective : Function.Injective nonce
  /-- `Format` and `Parse` of package time, with the layout `RFC3339Nano`. -/
  formatTime : Int → List Char
  parseTime : List Char → Option Int

def inProcessExpiry : Int := 15 * 1000000000

inductive Op where
  | update (c : Commit)
  | trim (a : TrimArgs)

def Op.prog (db : DB) (acct : JmapId) : Op → Reads Store (Option (List BatchOp))
  | .update c => db.update acct c >>= fun r => pure (r.toOption.getD none)
  | .trim a => DB.trimChanges a

/-- Where the caller of an instance is; `seen` are the stores its reads have seen. -/
inductive Phase where
  | idle
  | reading (op : Op) (minted : Option (ℕ × Int))
  | decided (op : Op) (minted : Option (ℕ × Int)) (old : Option Token)
  | holding (op : Op) (tok : Token) (seen : List Store)
  | releasing (tok : Token)

/-- One manager instance: its counter, the token `InProcess` remembers, and its caller. -/
structure Inst where
  seq : ℕ := 0
  token : Option Token := none
  phase : Phase := .idle

/-- The backend, as far as the account is concerned, and the instances. -/
structure Sys (I : Type) where
  claim : Option Token := none
  store : Store := {}
  inst : I → Inst := fun _ => {}

section Steps

variable {I : Type} [DecidableEq I]

def Sys.set (σ : Sys I) (i : I) (x : Inst) : Sys I where
  claim := σ.claim
  store := σ.store
  inst := Function.update σ.inst i x

/-- `cas` on the claim: one atomic compare-and-swap. -/
def Sys.cas (σ : Sys I) (old : Option Token) (tok : Token) : Option Token :=
  if σ.claim = old then some tok else σ.claim

/-- A commit batch fenced with `tok`. -/
def Sys.commit (σ : Sys I) (tok : Token) (batch : List BatchOp) : Store :=
  if σ.claim = some tok then applyBatch batch σ.store else σ.store

def Fleet.mint (F : Fleet I) (i : I) (n : ℕ) (exp : Int) : Token :=
  mintToken F.formatTime (F.nonce i) n exp

variable (db : DB) (acct : JmapId) (F : Fleet I)

/-- One atomic step of one instance.  Every `now` is an arbitrary reading of its clock. -/
inductive LeaseStep (σ : Sys I) : Sys I → Prop where
  /-- `StoreLease.Acquire` takes the mutex. -/
  | startStore {i : I} {op : Op} (hpol : F.policy i = .storeLease)
      (hph : (σ.inst i).phase = .idle) :
      LeaseStep σ (σ.set i { σ.inst i with phase := .reading op none })
  /-- `InProcess.Acquire` mints its token and, if it remembers one, tries to swap it at once. -/
  | startInProcess {i : I} {op : Op} {now : Int} (hpol : F.policy i = .inProcess)
      (hph : (σ.inst i).phase = .idle) :
      LeaseStep σ <|
        let n := (σ.inst i).seq + 1
        let exp := now + inProcessExpiry
        if (σ.inst i).token.isSome ∧ σ.claim = (σ.inst i).token then
          { σ.set i ⟨n, some (F.mint i n exp), .holding op (F.mint i n exp) []⟩ with
            claim := some (F.mint i n exp) }
        else σ.set i ⟨n, (σ.inst i).token, .reading op (some (n, exp))⟩
  /-- `getClaim`. -/
  | getClaim {i : I} {op : Op} {minted : Option (ℕ × Int)}
      (hph : (σ.inst i).phase = .reading op minted) :
      LeaseStep σ (σ.set i { σ.inst i with phase := .decided op minted σ.claim })
  /-- The claim is live by this instance's clock: wait and read it again. -/
  | wait {i : I} {op : Op} {old : Option Token} {now exp : Int}
      (hpol : F.policy i = .storeLease) (hph : (σ.inst i).phase = .decided op none old)
      (hexp : parseClaimExpiry F.parseTime old = some exp) (hlive : now < exp) :
      LeaseStep σ (σ.set i { σ.inst i with phase := .reading op none })
  /-- It is expired, released, absent or malformed: swap in a new token, or lose the race. -/
  | swapStore {i : I} {op : Op} {old : Option Token} {now now' : Int}
      (hpol : F.policy i = .storeLease) (hph : (σ.inst i).phase = .decided op none old)
      (hdead : ∀ exp, parseClaimExpiry F.parseTime old = some exp → ¬ now < exp) :
      LeaseStep σ <|
        let n := (σ.inst i).seq + 1
        let tok := F.mint i n (now' + F.expiry i)
        { σ.set i ⟨n, (σ.inst i).token,
            if σ.claim = old then .holding op tok [] else .reading op none⟩ with
          claim := σ.cas old tok }
  /-- `InProcess` swaps whatever claim it read. -/
  | swapInProcess {i : I} {op : Op} {old : Option Token} {n : ℕ} {exp : Int}
      (hph : (σ.inst i).phase = .decided op (some (n, exp)) old) :
      LeaseStep σ <|
        let tok := F.mint i n exp
        { σ.set i ⟨(σ.inst i).seq, if σ.claim = old then some tok else (σ.inst i).token,
            if σ.claim = old then .holding op tok [] else .reading op (some (n, exp))⟩ with
          claim := σ.cas old tok }
  /-- One read of the caller. -/
  | read {i : I} {op : Op} {tok : Token} {seen : List Store}
      {k : Store → Reads Store (Option (List BatchOp))}
      (hph : (σ.inst i).phase = .holding op tok seen)
      (hread : (op.prog db acct).after seen = .read k) :
      LeaseStep σ (σ.set i { σ.inst i with phase := .holding op tok (seen ++ [σ.store]) })
  /-- The fenced `WriteBatch`. -/
  | write {i : I} {op : Op} {tok : Token} {seen : List Store} {batch : List BatchOp}
      (hph : (σ.inst i).phase = .holding op tok seen)
      (hret : (op.prog db acct).after seen = .ret (some batch)) :
      LeaseStep σ { σ.set i { σ.inst i with phase := .releasing tok } with
        store := σ.commit tok batch }
  /-- Nothing to write, an error of the callback or of the backend, a cancelled context. -/
  | giveUp {i : I} {op : Op} {tok : Token} {seen : List Store}
      (hph : (σ.inst i).phase = .holding op tok seen) :
      LeaseStep σ (σ.set i { σ.inst i with phase := .releasing tok })
  /-- An error or a cancelled context before the lease is held. -/
  | abandon {i : I} (hph : ∀ op tok seen, (σ.inst i).phase ≠ .holding op tok seen)
      (hph' : ∀ tok, (σ.inst i).phase ≠ .releasing tok) :
      LeaseStep σ (σ.set i { σ.inst i with phase := .idle })
  /-- `storeLease.Release` swaps in an expired token; an error of the swap is swallowed. -/
  | releaseStore {i : I} {tok : Token} {now : Int} {failed : Bool}
      (hpol : F.policy i = .storeLease) (hph : (σ.inst i).phase = .releasing tok) :
      LeaseStep σ <|
        let n := (σ.inst i).seq + 1
        { σ.set i ⟨n, (σ.inst i).token, .idle⟩ with
          claim := if failed then σ.claim
            else σ.cas (some tok) (F.mint i n (now - 1000000000)) }
  /-- `inProcessLease.Release`. -/
  | releaseInProcess {i : I} {tok : Token} (hpol : F.policy i = .inProcess)
      (hph : (σ.inst i).phase = .releasing tok) :
      LeaseStep σ (σ.set i { σ.inst i with phase := .idle })
  /-- The instance mints a token for another account. -/
  | elsewhere {i : I} :
      LeaseStep σ (σ.set i { σ.inst i with seq := (σ.inst i).seq + 1 })

/-- The states the fleet can reach from an unclaimed account with any data. -/
def LeaseReachable (σ : Sys I) : Prop :=
  ∃ s0 : Store, Relation.ReflTransGen (LeaseStep db acct F) { store := s0 } σ

end Steps

end NaustJmap.Lease
