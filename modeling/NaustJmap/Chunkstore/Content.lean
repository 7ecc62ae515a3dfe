import NaustJmap.Chunkstore.Safety

/-!
# A Committed Upload Reads Back

`Write` feeds the running hash before it stores anything, and a failed `Write` leaves the writer
usable.  As long as no batch fails while octets of the call are unbuffered, an id that `Commit`
returns opens to the hashed content (`commit_reads_back`).  Otherwise the rest of the call is lost
for the pieces and not for the hash (`lossy_write_commits`).
-/

namespace NaustJmap.Chunkstore

open Library ObjectDB

/-- `Write` calls in sequence, whatever each of them returns. -/
def Writer.writeAll (t : Tuning) : List Bytes → Writer → ChunkProg Writer
  | [], w => pure w
  | p :: ps, w => w.write t p >>= fun r => r.2.writeAll t ps

/-- An upload: `Create`, any `Write` calls, `Commit`. -/
def upload (t : Tuning) (acct : JmapId) (ps : List Bytes) : ChunkProg (Except Err JmapId) :=
  create acct >>= fun
    | .error e => pure (.error e)
    | .ok w => w.writeAll t ps >>= fun w => w.commit t >>= fun r => pure r.1

section

variable {t : Tuning} {R : Regime} {keepers : ℕ → Prop} {i : ℕ} {w : World} {wr : Writer}

theorem readPieces_eq {s : Chunks} {acct : JmapId} {run : RunId} {parts : List Bytes} {idx : ℕ}
    (h : ∀ n, n < parts.length → s.pieces[(⟨acct, run, idx + n⟩ : PieceKey)]? = parts[n]?) :
    s.readPieces acct run idx parts.length = some parts.flatten := by
  induction parts generalizing idx with
  | nil => rfl
  | cons part parts ih =>
    have hfirst : s.pieces[(⟨acct, run, idx⟩ : PieceKey)]? = some part := h 0 (by simp)
    have hlater : ∀ n, n < parts.length →
        s.pieces[(⟨acct, run, idx + 1 + n⟩ : PieceKey)]? = parts[n]? := by
      intro n hn
      have := h (n + 1) (by simpa using hn)
      rwa [List.getElem?_cons_succ, Nat.add_comm n 1, ← Nat.add_assoc] at this
    have hrest := ih hlater
    simp [Chunks.readPieces, hfirst, hrest]

theorem Chunks.Backed.opens {s : Chunks} {acct blobId : JmapId} {m : Manifest}
    (hm : s.manifests[(⟨acct, blobId⟩ : BlobKey)]? = some m) (h : s.Backed t R ⟨acct, blobId⟩ m) :
    ∃ content, s.openBlob acct blobId = some (content, m.size) ∧
      (R.Lossless → content.length = m.size ∧ t.idFor content = blobId) := by
  obtain ⟨parts, hlen, hstarts, hcontent⟩ := h
  have hread : s.readPieces acct m.run 0 m.count = some parts.flatten := by
    rw [← hlen]
    exact readPieces_eq fun n hn => by simpa using hstarts n hn
  exact ⟨parts.flatten, by simp [Chunks.openBlob, hm, hread], hcontent⟩

theorem writeAll_spec (ps : List Bytes) (h : Ready t R i wr w) :
    wp (exec R) (Guar t R keepers) i (wr.writeAll t ps) (fun wr' w =>
      Ready t R i wr' w ∧ wr'.acct = wr.acct) w := by
  induction ps generalizing wr w with
  | nil => exact ⟨h, rfl⟩
  | cons p ps ih =>
    refine wp_bind_of (write_spec h) fun r w' h' => ?_
    exact wp_mono (fun wr' w h'' => ⟨h''.1, h''.2.trans h'.2.1⟩) (ih h'.1)

theorem upload_spec (acct : JmapId) (ps : List Bytes) (h : Inv t R w) :
    wp (exec R) (Guar t R keepers) i (upload t acct ps) (fun r w =>
      ∀ id, r = .ok id → Inv t R w ∧ Published keepers ⟨acct, id⟩ w) w := by
  refine wp_bind_of (create_spec h) ?_
  rintro (_ | wr) w' hpost
  · intro id hid
    cases hid
  · obtain ⟨hown, -, hacct, -⟩ := hpost
    refine wp_bind_of (writeAll_spec ps ⟨hown.inv, fun _ => hown⟩) ?_
    rintro wr' w'' ⟨hready, hacct'⟩
    refine wp_bind_of (commit_spec hready) ?_
    rintro ⟨_ | id', wr''⟩ w3 ⟨hcommit, -⟩ id hid
    · cases hid
    · obtain rfl : id' = id := by simpa using hid
      rw [← hacct, ← hacct']
      exact ⟨hcommit.1, hcommit.2.2⟩

end

/-- For any `Write` calls and any failures that leave no octet of a call unbuffered: an id
    that `Commit` returns opens to a content of the recorded size whose address is that
    id. -/
theorem commit_reads_back (t : Tuning) (R : Regime) (hloss : R.Lossless) (acct : JmapId)
    (ps : List Bytes) {i : ℕ} {w w' : World} {id : JmapId} (hw : Inv t R w)
    (hrun : (upload t acct ps).Runs (exec R) i w (.ok id) w') :
    ∃ content size, w'.chunks.openBlob acct id = some (content, size) ∧
      content.length = size ∧ t.idFor content = id := by
  have hspec := @upload_spec t R (fun _ => True) i w acct ps hw
  obtain ⟨hinv, hpub⟩ := hrun.post hspec id rfl
  obtain ⟨m, hm⟩ := hpub fun _ => trivial
  obtain ⟨content, hopen, hcontent⟩ := (hinv.backed _ m hm).opens hm
  exact ⟨content, m.size, hopen, hcontent hloss⟩

/-- Failures only once everything is buffered. -/
def Regime.afterwards : Regime where
  mayStamp _ _ := True
  mayFail n := n = 0

instance (stamps : List Int) (s : Int) : Decidable (Regime.afterwards.mayStamp stamps s) :=
  inferInstanceAs (Decidable True)

instance : DecidablePred Regime.afterwards.mayFail := fun n => inferInstanceAs (Decidable (n = 0))

/-- The flush of the last octet fails and is made up for by `Commit`. -/
theorem retried_flush_commits :
    ((upload tinyPieces "A" [[1, 2]]).play (eval .afterwards) 0
      [.run [7], .time 1, .fine, .time 2, .fine, .time 3, .lost, .time 4, .fine, .fine, .fine]
      {}).any (fun out => out.1 = .ok "bc") := by
  decide +kernel

theorem commit_reads_back_retried : ∃ w' : World,
    (upload tinyPieces "A" [[1, 2]]).Runs (exec .afterwards) 0 {} (.ok "bc") w' ∧
      ∃ content size, w'.chunks.openBlob "A" "bc" = some (content, size) ∧
        content.length = size ∧ tinyPieces.idFor content = "bc" := by
  obtain ⟨⟨r, w'⟩, hplay, hr⟩ := (Option.any_eq_true _ _).mp retried_flush_commits
  obtain rfl : r = .ok "bc" := of_decide_eq_true hr
  have hrun := Prog.play_runs eval_exec hplay
  exact ⟨w', hrun, commit_reads_back tinyPieces .afterwards (fun _ h => h) "A" [[1, 2]] .empty hrun⟩

/-! ## A failure in the middle of a call -/

/-- The flush of the first octet fails with the second unbuffered; `Commit` publishes the first. -/
theorem lossy_write_state :
    ((upload tinyPieces "A" [[1, 2]]).play (eval .unrepeated) 0
      [.run [7], .time 1, .fine, .time 2, .lost, .time 3, .fine, .fine, .fine]
      {}).any (fun out => out.1 = .ok "bc" ∧
        out.2.chunks.openBlob "A" "bc" = some ([1], 2)) := by
  decide +kernel

/-- `Commit` returns an id whose blob is shorter than its recorded size. -/
theorem lossy_write_commits : ∃ w' : World,
    (upload tinyPieces "A" [[1, 2]]).Runs (exec .unrepeated) 0 {} (.ok "bc") w' ∧
      w'.chunks.openBlob "A" "bc" = some ([1], 2) ∧ tinyPieces.idFor [1] ≠ "bc" := by
  obtain ⟨⟨r, w'⟩, hplay, hr⟩ := (Option.any_eq_true _ _).mp lossy_write_state
  obtain ⟨hid, hopen⟩ := of_decide_eq_true hr
  obtain rfl : r = .ok "bc" := hid
  exact ⟨w', Prog.play_runs eval_exec hplay, hopen, by decide⟩

end NaustJmap.Chunkstore
