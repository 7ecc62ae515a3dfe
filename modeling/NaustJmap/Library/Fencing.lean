import NaustJmap.Library.Reads
import Mathlib.Data.Set.Insert

/-!
# Fenced Transactions

A worker claims shared data by writing a fresh token, reads it at separate instants, and submits a
write that is applied only if its token is still the claim.  While it is, every state it has read is
the current one (`FenceInv`); so a write that is applied is the one the whole program computes on
the current data (`FenceInv.write_atomic`), and a lost claim never comes back (`FenceStep.stale`).
-/

namespace NaustJmap.Library

/-! ## A program in progress -/

namespace Reads

variable {S α : Type}

/-- What is left of a program after its first reads saw `seen`. -/
def after : Reads S α → List S → Reads S α
  | p, [] => p
  | .ret a, _ :: _ => .ret a
  | .read k, s :: seen => (k s).after seen

@[simp] theorem after_nil (p : Reads S α) : p.after [] = p := by
  cases p <;> rfl

theorem run_after {p : Reads S α} {seen : List S} {s : S} (h : ∀ s' ∈ seen, s' = s) :
    run s (p.after seen) = run s p := by
  induction seen generalizing p with
  | nil => rw [after_nil]
  | cons s0 seen ih =>
    obtain rfl := h s0 List.mem_cons_self
    cases p with
    | ret a => rfl
    | read k => exact ih fun s' hs' => h s' (List.mem_cons_of_mem _ hs')

end Reads

/-! ## Workers over a fenced datum -/

/-- A worker in progress: its token, its program and the states its reads have seen. -/
structure Work (Tok D B : Type) where
  tok : Tok
  prog : Reads D (Option B)
  seen : List D

/-- The claim, the data, the tokens ever minted and the work of each worker. -/
structure FenceState (Tok D B W : Type) where
  claim : Option Tok
  data : D
  used : Set Tok
  work : W → Option (Work Tok D B)

section

variable {Tok D B W : Type}

inductive FenceStep [DecidableEq Tok] [DecidableEq W] (apply : B → D → D)
    (σ : FenceState Tok D B W) :
    FenceState Tok D B W → Prop where
  /-- A worker replaces the claim, whoever holds it, by a fresh token and starts. -/
  | acquire {w : W} {tok : Tok} {used' : Set Tok} {prog : Reads D (Option B)}
      (hfresh : tok ∉ σ.used) (hused : insert tok σ.used ⊆ used') :
      FenceStep apply σ ⟨some tok, σ.data, used', Function.update σ.work w (some ⟨tok, prog, []⟩)⟩
  /-- Tokens are minted that do not become the claim. -/
  | mint {used' : Set Tok} (hused : σ.used ⊆ used') :
      FenceStep apply σ ⟨σ.claim, σ.data, used', σ.work⟩
  /-- One read of a worker. -/
  | read {w : W} {wk : Work Tok D B} {k : D → Reads D (Option B)} (hw : σ.work w = some wk)
      (hp : wk.prog.after wk.seen = .read k) :
      FenceStep apply σ ⟨σ.claim, σ.data, σ.used,
        Function.update σ.work w (some ⟨wk.tok, wk.prog, wk.seen ++ [σ.data]⟩)⟩
  /-- A worker submits its write and stops. -/
  | write {w : W} {wk : Work Tok D B} {b : B} (hw : σ.work w = some wk)
      (hp : wk.prog.after wk.seen = .ret (some b)) :
      FenceStep apply σ ⟨σ.claim, if σ.claim = some wk.tok then apply b σ.data else σ.data,
        σ.used, Function.update σ.work w none⟩
  /-- A worker stops without a write and may leave a fresh token behind. -/
  | stop {w : W} {claim' : Option Tok} {used' : Set Tok} (hused : σ.used ⊆ used')
      (hclaim : claim' = σ.claim ∨ ∃ tok ∉ σ.used, tok ∈ used' ∧ claim' = some tok) :
      FenceStep apply σ ⟨claim', σ.data, used', Function.update σ.work w none⟩

/-- Tokens are unique, and a worker whose token is the claim has only seen current data. -/
structure FenceInv (σ : FenceState Tok D B W) : Prop where
  claim_used : ∀ {tok}, σ.claim = some tok → tok ∈ σ.used
  work_used : ∀ {w wk}, σ.work w = some wk → wk.tok ∈ σ.used
  work_unique : ∀ {w w' wk wk'}, σ.work w = some wk → σ.work w' = some wk' →
    wk.tok = wk'.tok → w = w'
  current : ∀ {w wk}, σ.work w = some wk → σ.claim = some wk.tok → ∀ d ∈ wk.seen, d = σ.data

variable {apply : B → D → D} {σ σ' : FenceState Tok D B W}

theorem update_eq_some [DecidableEq W] {f : W → Option (Work Tok D B)} {w w' : W}
    {v : Option (Work Tok D B)}
    {wk : Work Tok D B} (h : Function.update f w v w' = some wk) :
    w' = w ∧ v = some wk ∨ w' ≠ w ∧ f w' = some wk := by
  by_cases hw : w' = w
  · subst hw
    exact .inl ⟨rfl, by simpa using h⟩
  · exact .inr ⟨hw, by simpa [hw] using h⟩

theorem FenceInv.stop [DecidableEq W] (h : FenceInv σ) {w : W} {used' : Set Tok}
    (hused : σ.used ⊆ used') :
    FenceInv ⟨σ.claim, σ.data, used', Function.update σ.work w none⟩ where
  claim_used hc := hused (h.claim_used hc)
  work_used hwk := by
    rcases update_eq_some hwk with ⟨-, hv⟩ | ⟨-, hwk⟩
    · cases hv
    · exact hused (h.work_used hwk)
  work_unique hwk hwk' htok := by
    rcases update_eq_some hwk with ⟨-, hv⟩ | ⟨-, hwk⟩
    · cases hv
    · rcases update_eq_some hwk' with ⟨-, hv⟩ | ⟨-, hwk'⟩
      · cases hv
      · exact h.work_unique hwk hwk' htok
  current hwk hc := by
    rcases update_eq_some hwk with ⟨-, hv⟩ | ⟨-, hwk⟩
    · cases hv
    · exact h.current hwk hc

theorem FenceInv.reclaim (h : FenceInv σ) {tok : Tok} {used' : Set Tok} (hfresh : tok ∉ σ.used)
    (htok : tok ∈ used') (hused : σ.used ⊆ used') :
    FenceInv ⟨some tok, σ.data, used', σ.work⟩ where
  claim_used hc := Option.some.inj hc ▸ htok
  work_used hwk := hused (h.work_used hwk)
  work_unique := h.work_unique
  current hwk hc := absurd (Option.some.inj hc ▸ h.work_used hwk) hfresh

theorem FenceInv.step [DecidableEq Tok] [DecidableEq W] (h : FenceInv σ)
    (hstep : FenceStep apply σ σ') : FenceInv σ' := by
  cases hstep with
  | @acquire w tok used' prog hfresh hused =>
    have htok : tok ∈ used' := hused (Set.mem_insert tok _)
    have hold : σ.used ⊆ used' := (Set.subset_insert tok _).trans hused
    refine ⟨fun hc => Option.some.inj hc ▸ htok, fun hwk => ?_, fun hwk hwk' heq => ?_,
      fun hwk hc => ?_⟩
    · rcases update_eq_some hwk with ⟨-, hv⟩ | ⟨-, hwk⟩
      · exact Option.some.inj hv ▸ htok
      · exact hold (h.work_used hwk)
    · rcases update_eq_some hwk with ⟨h1, hv⟩ | ⟨-, hwk1⟩ <;>
        rcases update_eq_some hwk' with ⟨h2, hv'⟩ | ⟨-, hwk2⟩
      · exact h1.trans h2.symm
      · cases hv
        have htok : tok = _ := heq
        exact absurd (htok ▸ h.work_used hwk2) hfresh
      · cases hv'
        have htok : _ = tok := heq
        exact absurd (htok ▸ h.work_used hwk1) hfresh
      · exact h.work_unique hwk1 hwk2 heq
    · rcases update_eq_some hwk with ⟨-, hv⟩ | ⟨-, hwk⟩
      · cases hv
        simp
      · exact absurd (Option.some.inj hc ▸ h.work_used hwk) hfresh
  | mint hused =>
    exact ⟨fun hc => hused (h.claim_used hc), fun hwk => hused (h.work_used hwk),
      h.work_unique, h.current⟩
  | @read w wk k hw hp =>
    -- the worker keeps its token
    have hsame : ∀ {w' wk'}, Function.update σ.work w
        (some ⟨wk.tok, wk.prog, wk.seen ++ [σ.data]⟩) w' = some wk' →
        ∃ wk0, σ.work w' = some wk0 ∧ wk0.tok = wk'.tok ∧
          (wk'.seen = wk0.seen ∨ wk'.seen = wk0.seen ++ [σ.data]) := by
      intro w' wk' hwk
      rcases update_eq_some hwk with ⟨rfl, hv⟩ | ⟨-, hwk⟩
      · cases hv
        exact ⟨wk, hw, rfl, .inr rfl⟩
      · exact ⟨wk', hwk, rfl, .inl rfl⟩
    refine ⟨h.claim_used, fun hwk => ?_, fun hwk hwk' heq => ?_, fun hwk hc d hd => ?_⟩
    · obtain ⟨wk0, hwk0, htok, -⟩ := hsame hwk
      exact htok ▸ h.work_used hwk0
    · obtain ⟨wk0, hwk0, htok, -⟩ := hsame hwk
      obtain ⟨wk1, hwk1, htok', -⟩ := hsame hwk'
      exact h.work_unique hwk0 hwk1 (htok.trans (heq.trans htok'.symm))
    · obtain ⟨wk0, hwk0, htok, hseen⟩ := hsame hwk
      have hcur := h.current hwk0 (hc.trans (congrArg some htok.symm))
      rcases hseen with hseen | hseen
      · exact hcur d (hseen ▸ hd)
      · rcases List.mem_append.mp (hseen ▸ hd) with hd | hd
        · exact hcur d hd
        · exact List.mem_singleton.mp hd
  | @write w wk b hw hp =>
    obtain ⟨h1, h2, h3, h4⟩ := h.stop (le_refl σ.used)
    refine ⟨h1, h2, h3, fun {w' wk'} hwk hc => ?_⟩
    -- if the write is applied, no other worker carries the claim
    have hne : σ.claim ≠ some wk.tok := by
      intro hclaim
      rcases update_eq_some hwk with ⟨-, hv⟩ | ⟨hw', hwk⟩
      · cases hv
      · exact hw' (h.work_unique hwk hw (Option.some.inj (hc.symm.trans hclaim)))
    simpa [hne] using h4 hwk hc
  | @stop w claim' used' hused hclaim =>
    rcases hclaim with rfl | ⟨tok, hfresh, htok, rfl⟩
    · exact h.stop hused
    · exact (h.stop (le_refl σ.used)).reclaim hfresh htok hused

/-- **An applied write is atomic**: the whole program computes it on the present data. -/
theorem FenceInv.write_atomic (h : FenceInv σ) {w : W} {wk : Work Tok D B} {b : B}
    (hw : σ.work w = some wk) (hp : wk.prog.after wk.seen = .ret (some b))
    (hclaim : σ.claim = some wk.tok) :
    wk.prog.run σ.data = some b ∧ ∀ d ∈ wk.seen, d = σ.data := by
  have hseen := h.current hw hclaim
  refine ⟨?_, hseen⟩
  rw [← Reads.run_after hseen, hp]
  rfl

/-- **A lost claim stays lost** for a worker in progress. -/
theorem FenceStep.stale [DecidableEq Tok] [DecidableEq W] (hstep : FenceStep apply σ σ')
    {tok : Tok} (hused : tok ∈ σ.used) (hstale : σ.claim ≠ some tok) :
    tok ∈ σ'.used ∧ σ'.claim ≠ some tok := by
  cases hstep with
  | acquire hfresh hsub =>
    refine ⟨hsub (.inr hused), fun heq => hfresh ?_⟩
    exact Option.some.inj heq ▸ hused
  | mint hsub => exact ⟨hsub hused, hstale⟩
  | read => exact ⟨hused, hstale⟩
  | write => exact ⟨hused, hstale⟩
  | stop hsub hclaim =>
    refine ⟨hsub hused, ?_⟩
    rcases hclaim with rfl | ⟨tok', hfresh, -, rfl⟩
    · exact hstale
    · exact fun heq => hfresh (Option.some.inj heq ▸ hused)

end

end NaustJmap.Library
