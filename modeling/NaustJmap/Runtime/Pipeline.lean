import NaustJmap.Library.Map
import Mathlib.Data.List.Basic
import Mathlib.Logic.Relation

/-!
# Request Slots

`core/runtime/pipeline.go`: a request runs while it holds one unit of its user's semaphore and one
of the shared pool.  A user's semaphore is created on first use and dropped, by reference count,
when the last goroutine leaves it.  What a call does is cut at its atomic steps: the sections under
`userMu`, and the sends and receives on the channels.
-/

namespace NaustJmap.Runtime

open Library

/-! ## The server -/

structure SlotLimits where
  perUserSlots : ℕ
  /-- The capacity of `apiSlots`. -/
  poolSlots : ℕ

inductive Phase where
  /-- Counted by `userSem`; the send on the user's semaphore is next. -/
  | waitUser
  /-- The user's unit is held; the send on the pool is next. -/
  | waitPool
  /-- Both units are held; `AcquireSlot` looks at its context once more. -/
  | checkContext
  /-- The caller has the slot. -/
  | held
  /-- The receive from the pool is next. -/
  | returnPool
  /-- The receive from the user's semaphore is next. -/
  | returnUser
  /-- `userDone` is next. -/
  | leave
  | finished
  deriving DecidableEq, Repr

/-- The call is counted in `refs`. -/
def Phase.refers : Phase → Bool
  | .finished => false
  | _ => true

def Phase.holdsUser : Phase → Bool
  | .waitPool | .checkContext | .held | .returnPool | .returnUser => true
  | _ => false

def Phase.holdsPool : Phase → Bool
  | .checkContext | .held | .returnPool => true
  | _ => false

/-- The phases in which a call gives back what it has, with the one that comes next. -/
def Phase.unwinding : Phase → Option Phase
  | .returnPool => some .returnUser
  | .returnUser => some .leave
  | .leave => some .finished
  | _ => none

/-- A call of `AcquireSlot`, or of `TryAcquireSlot`; `sem` is what `userSem` gave it. -/
structure SlotCall where
  user : String
  blocking : Bool
  sem : ℕ
  phase : Phase
  deriving DecidableEq, Repr

/-- `userSlots`: a user's semaphore and the number of calls that refer to it. -/
structure UserSlots where
  sem : ℕ
  refs : ℕ
  deriving DecidableEq, Repr

/-- The server's slots.  Semaphores are channels, numbered as they are made. -/
structure Slots where
  userSlots : Map String UserSlots := ∅
  made : ℕ := 0
  /-- The number of units in each semaphore. -/
  units : ℕ → ℕ := fun _ => 0
  /-- The number of units in `apiSlots`. -/
  pool : ℕ := 0
  calls : List SlotCall := []

/-- `Server.userSem`: the semaphore for the caller, and the server after it. -/
def Slots.userSem (s : Slots) (user : String) : ℕ × Slots :=
  match s.userSlots[user]? with
  | some e => (e.sem, { s with userSlots := s.userSlots.insert user { e with refs := e.refs + 1 } })
  | none =>
    (s.made, { s with
      userSlots := s.userSlots.insert user { sem := s.made, refs := 1 }
      made := s.made + 1 })

/-- `Server.userDone`; a missing entry is a nil pointer. -/
def Slots.userDone (s : Slots) (user : String) : Option Slots :=
  match s.userSlots[user]? with
  | none => none
  | some e =>
    some { s with
      userSlots :=
        if e.refs - 1 = 0 then s.userSlots.erase user
        else s.userSlots.insert user { e with refs := e.refs - 1 } }

/-- Call number `i` moves on. -/
def Slots.move (s : Slots) (i : ℕ) (c : SlotCall) (phase : Phase) : Slots :=
  { s with calls := s.calls.set i { c with phase := phase } }

/-- A call takes a unit of its user's semaphore, or gives it back. -/
def Slots.addUnits (s : Slots) (sem : ℕ) (f : ℕ → ℕ) : Slots :=
  { s with units := Function.update s.units sem (f (s.units sem)) }

/-- One atomic step of one call. -/
inductive SlotStep (lim : SlotLimits) (s : Slots) : Slots → Prop where
  /-- A call begins; `AcquireSlot` with a context that is done returns before this. -/
  | begin (user : String) (blocking : Bool) :
      SlotStep lim s { (s.userSem user).2 with
        calls := s.calls ++ [⟨user, blocking, (s.userSem user).1, .waitUser⟩] }
  | takeUser {i : ℕ} {c : SlotCall} (hi : s.calls[i]? = some c) (hp : c.phase = .waitUser)
      (hroom : s.units c.sem < lim.perUserSlots) :
      SlotStep lim s ((s.addUnits c.sem (· + 1)).move i c .waitPool)
  /-- The context is done, or `TryAcquireSlot` finds the share exhausted. -/
  | leaveUser {i : ℕ} {c : SlotCall} (hi : s.calls[i]? = some c) (hp : c.phase = .waitUser)
      (hfull : c.blocking = false → lim.perUserSlots ≤ s.units c.sem) :
      SlotStep lim s (s.move i c .leave)
  | takePool {i : ℕ} {c : SlotCall} (hi : s.calls[i]? = some c) (hp : c.phase = .waitPool)
      (hroom : s.pool < lim.poolSlots) :
      SlotStep lim s ({ s with pool := s.pool + 1 }.move i c
        (if c.blocking then .checkContext else .held))
  /-- The context is done, or `TryAcquireSlot` finds the pool exhausted. -/
  | leavePool {i : ℕ} {c : SlotCall} (hi : s.calls[i]? = some c) (hp : c.phase = .waitPool)
      (hfull : c.blocking = false → lim.poolSlots ≤ s.pool) :
      SlotStep lim s (s.move i c .returnUser)
  /-- The last look at the context. -/
  | check {i : ℕ} {c : SlotCall} (hi : s.calls[i]? = some c) (hp : c.phase = .checkContext)
      (done : Bool) : SlotStep lim s (s.move i c (if done then .returnPool else .held))
  /-- The first `Release`; `sync.Once` makes every further one a step that does nothing. -/
  | release {i : ℕ} {c : SlotCall} (hi : s.calls[i]? = some c) (hp : c.phase = .held) :
      SlotStep lim s (s.move i c .returnPool)
  | releaseAgain : SlotStep lim s s
  | givePool {i : ℕ} {c : SlotCall} (hi : s.calls[i]? = some c) (hp : c.phase = .returnPool)
      (hunit : 0 < s.pool) : SlotStep lim s ({ s with pool := s.pool - 1 }.move i c .returnUser)
  | giveUser {i : ℕ} {c : SlotCall} (hi : s.calls[i]? = some c) (hp : c.phase = .returnUser)
      (hunit : 0 < s.units c.sem) :
      SlotStep lim s ((s.addUnits c.sem (· - 1)).move i c .leave)
  | done {i : ℕ} {c : SlotCall} {s' : Slots} (hi : s.calls[i]? = some c) (hp : c.phase = .leave)
      (hdone : s.userDone c.user = some s') : SlotStep lim s (s'.move i c .finished)

/-- The states of a server that any number of goroutines lead to, in any interleaving. -/
abbrev SlotRun (lim : SlotLimits) : Slots → Slots → Prop := Relation.ReflTransGen (SlotStep lim)

/-! ## What the counters count -/

/-- A call counted under the entry of `user`. -/
def SlotCall.refersTo (user : String) (c : SlotCall) : Bool := c.user == user && c.phase.refers

/-- A call with a unit of the semaphore `sem`. -/
def SlotCall.holdsUnit (sem : ℕ) (c : SlotCall) : Bool := c.sem == sem && c.phase.holdsUser

def SlotCall.holdsPool (c : SlotCall) : Bool := c.phase.holdsPool

/-- A slot the caller of `user` holds. -/
def SlotCall.heldBy (user : String) (c : SlotCall) : Bool := c.user == user && c.phase == .held

/-- Every counter of the server is the number of calls it stands for. -/
structure Slots.Counted (lim : SlotLimits) (s : Slots) : Prop where
  pool : s.pool = s.calls.countP SlotCall.holdsPool
  units : ∀ sem, s.units sem = s.calls.countP (SlotCall.holdsUnit sem)
  pool_le : s.pool ≤ lim.poolSlots
  units_le : ∀ sem, s.units sem ≤ lim.perUserSlots
  refs : ∀ (user : String) (e : UserSlots), s.userSlots[user]? = some e →
    0 < e.refs ∧ e.refs = s.calls.countP (SlotCall.refersTo user)
  /-- A call that is counted finds the entry of its user, with the semaphore it was given. -/
  entry : ∀ c ∈ s.calls, c.phase.refers → ∃ e, s.userSlots[c.user]? = some e ∧ e.sem = c.sem

variable {i : ℕ} {c : SlotCall} {t : Slots}

theorem countP_set_call {calls : List SlotCall} (hi : calls[i]? = some c) (c' : SlotCall)
    (p : SlotCall → Bool) :
    (calls.set i c').countP p + (p c).toNat = calls.countP p + (p c').toNat := by
  obtain ⟨hlt, hget⟩ := List.getElem?_eq_some_iff.mp hi
  have hpos : p c = true → 0 < calls.countP p := fun hc =>
    List.countP_pos_iff.mpr ⟨c, List.mem_of_getElem? hi, hc⟩
  rw [List.countP_set hlt, hget]
  cases hc : p c <;> cases hc' : p c' <;> simp only [hc, forall_const] at hpos ⊢ <;>
    simp <;> omega

theorem Slots.userDone_spec {s : Slots} {user : String} {e : UserSlots}
    (he : s.userSlots[user]? = some e) (ht : s.userDone user = some t) :
    (∀ u, t.userSlots[u]? =
      if user = u then (if e.refs - 1 = 0 then none else some { e with refs := e.refs - 1 })
      else s.userSlots[u]?) ∧
    t.pool = s.pool ∧ t.units = s.units ∧ t.calls = s.calls := by
  simp only [Slots.userDone, he, Option.some.injEq] at ht
  subst ht
  refine ⟨fun u => ?_, rfl, rfl, rfl⟩
  by_cases hlast : e.refs - 1 = 0
  · simp only [hlast, if_true, Map.getElem?_erase]
  · simp only [hlast, if_false, Map.getElem?_insert]

namespace Slots.Counted

variable {lim : SlotLimits} {s : Slots}

variable (h : s.Counted lim)

include h

/-- A step that moves units with its call keeps the counts, if the call stays counted. -/
theorem move (hi : s.calls[i]? = some c) {phase : Phase} (hfrom : c.phase.refers)
    (hto : phase.refers) (ht : t.calls = s.calls) (hslots : t.userSlots = s.userSlots)
    (hpool : t.pool + c.phase.holdsPool.toNat = s.pool + phase.holdsPool.toNat)
    (hunits : ∀ sem, t.units sem + (c.sem == sem && c.phase.holdsUser).toNat = s.units sem + (c.sem
    == sem && phase.holdsUser).toNat) (hpl : t.pool ≤ lim.poolSlots)
    (hul : ∀ sem, t.units sem ≤ lim.perUserSlots) : (t.move i c phase).Counted lim := by
  have hcount := fun p => countP_set_call hi { c with phase := phase } p
  refine ⟨?_, fun sem => ?_, hpl, hul, fun user e he => ?_, fun c' hc' href => ?_⟩
  · have := hcount SlotCall.holdsPool
    have := h.pool
    simp only [Slots.move, ht, SlotCall.holdsPool] at *
    omega
  · have := hcount (SlotCall.holdsUnit sem)
    have := h.units sem
    have := hunits sem
    simp only [Slots.move, ht, SlotCall.holdsUnit] at *
    omega
  · have hrefs := h.refs user e (hslots ▸ he)
    have := hcount (SlotCall.refersTo user)
    simp only [Slots.move, ht, SlotCall.refersTo, hfrom, hto] at *
    omega
  · rw [show (t.move i c phase).userSlots = s.userSlots from hslots]
    simp only [Slots.move, ht] at hc'
    obtain hc' | rfl := List.mem_or_eq_of_mem_set hc'
    · exact h.entry c' hc' href
    · exact h.entry c (List.mem_of_getElem? hi) hfrom

/-- `userSem` leaves an entry counted one up, with the semaphore that was there. -/
theorem userSem_entry (user : String) :
    ∃ e : UserSlots, (s.userSem user).2.userSlots = s.userSlots.insert user e ∧
      e.sem = (s.userSem user).1 ∧ e.refs = s.calls.countP (SlotCall.refersTo user) + 1 ∧
      ∀ old, s.userSlots[user]? = some old → old.sem = e.sem := by
  cases hu : s.userSlots[user]? with
  | some old =>
    refine ⟨{ old with refs := old.refs + 1 }, ?_, ?_, ?_, ?_⟩
    · simp only [Slots.userSem, hu]
    · simp only [Slots.userSem, hu]
    · exact congrArg (· + 1) (h.refs user old hu).2
    · intro old' hold
      rw [Option.some.inj hold]
  | none =>
    -- A call that is counted would have kept the entry.
    have hzero : s.calls.countP (SlotCall.refersTo user) = 0 := by
      refine List.countP_eq_zero.mpr fun c hc href => ?_
      simp only [SlotCall.refersTo, Bool.and_eq_true, beq_iff_eq] at href
      obtain ⟨e, he, -⟩ := h.entry c hc href.2
      rw [href.1, hu] at he
      cases he
    refine ⟨{ sem := s.made, refs := 1 }, ?_, ?_, ?_, ?_⟩
    · simp only [Slots.userSem, hu]
    · simp only [Slots.userSem, hu]
    · rw [hzero]
    · intro old hold
      cases hold

theorem begin (user : String) (blocking : Bool) :
    Counted lim { (s.userSem user).2 with
      calls := s.calls ++ [⟨user, blocking, (s.userSem user).1, .waitUser⟩] } := by
  obtain ⟨e, hslots, hsem, hrefs, hold⟩ := h.userSem_entry user
  have hpool : (s.userSem user).2.pool = s.pool := by unfold Slots.userSem; split <;> rfl
  have hunits : (s.userSem user).2.units = s.units := by unfold Slots.userSem; split <;> rfl
  refine ⟨?_, fun sem => ?_, ?_, fun sem => ?_, fun u e' he => ?_, fun c hc href => ?_⟩
  · simpa [hpool, SlotCall.holdsPool, Phase.holdsPool] using h.pool
  · simpa [hunits, SlotCall.holdsUnit, Phase.holdsUser] using h.units sem
  · exact hpool ▸ h.pool_le
  · exact hunits ▸ h.units_le sem
  · simp only [hslots, Map.getElem?_insert] at he
    split at he
    case isTrue hu =>
      subst hu
      cases he
      simp [hrefs, SlotCall.refersTo, Phase.refers]
    case isFalse hu => simpa [SlotCall.refersTo, hu] using h.refs u e' he
  · simp only [hslots, Map.getElem?_insert]
    obtain hc | hc := List.mem_append.mp hc
    · obtain ⟨e', he', hs⟩ := h.entry c hc href
      split
      case isTrue hu => exact ⟨e, rfl, (hold e' (hu ▸ he')).symm.trans hs⟩
      case isFalse => exact ⟨e', he', hs⟩
    · obtain rfl := List.mem_singleton.mp hc
      exact ⟨e, if_pos rfl, hsem⟩

theorem userDone_isSome (hc : c ∈ s.calls) (href : c.phase.refers) :
    (s.userDone c.user).isSome := by
  obtain ⟨e, he, -⟩ := h.entry c hc href
  simp only [Slots.userDone, he, Option.isSome_some]

/-- The last call to leave drops the entry; before that, the others keep it. -/
theorem done (hi : s.calls[i]? = some c) (hp : c.phase = .leave) (ht : s.userDone c.user = some t) :
    (t.move i c .finished).Counted lim := by
  obtain ⟨e, he, hsem⟩ := h.entry c (List.mem_of_getElem? hi) (by rw [hp]; rfl)
  obtain ⟨hslots, hpool, hunits, hcalls⟩ := Slots.userDone_spec he ht
  have hcount := fun p => countP_set_call hi { c with phase := .finished } p
  have hother : ∀ u, u ≠ c.user → (s.calls.set i { c with phase := .finished }).countP
      (SlotCall.refersTo u) = s.calls.countP (SlotCall.refersTo u) := by
    intro u hu
    have hno : (c.user == u) = false := beq_eq_false_iff_ne.mpr (Ne.symm hu)
    simpa [SlotCall.refersTo, hno] using hcount (SlotCall.refersTo u)
  have hdown : (s.calls.set i { c with phase := .finished }).countP (SlotCall.refersTo c.user) + 1
      = e.refs := by
    simpa [SlotCall.refersTo, hp, Phase.refers, (h.refs c.user e he).2]
      using hcount (SlotCall.refersTo c.user)
  refine ⟨?_, fun sem => ?_, ?_, fun sem => ?_, fun u e' he' => ?_, fun c' hc' href => ?_⟩
  · have := hcount SlotCall.holdsPool
    simpa [Slots.move, hcalls, hpool, h.pool, SlotCall.holdsPool, hp, Phase.holdsPool]
      using this.symm
  · have := hcount (SlotCall.holdsUnit sem)
    simpa [Slots.move, hcalls, hunits, h.units, SlotCall.holdsUnit, hp, Phase.holdsUser]
      using this.symm
  · exact hpool ▸ h.pool_le
  · exact (congrFun hunits sem).trans_le (h.units_le sem)
  · simp only [Slots.move, hcalls] at he' ⊢
    rw [hslots] at he'
    split at he'
    case isTrue hu =>
      subst hu
      split at he' <;> cases he'
      dsimp only
      exact ⟨by omega, by omega⟩
    case isFalse hu =>
      rw [hother u (Ne.symm hu)]
      exact h.refs u e' he'
  · simp only [Slots.move, hcalls] at hc' ⊢
    rw [hslots]
    obtain hold | rfl := List.mem_or_eq_of_mem_set hc'
    · obtain ⟨e', he', hs⟩ := h.entry c' hold href
      split
      case isTrue hu =>
        -- The other call is still counted, so that the entry stays.
        have hpos := List.countP_pos_iff.mpr
          ⟨c', hc', show SlotCall.refersTo c.user c' = true by simp [SlotCall.refersTo, hu, href]⟩
        rw [← hu, he] at he'
        cases he'
        exact ⟨_, if_neg (by omega), hs⟩
      case isFalse => exact ⟨e', he', hs⟩
    · cases href

theorem step (hs : SlotStep lim s t) : t.Counted lim := by
  cases hs with
  | begin user blocking => exact h.begin user blocking
  | @takeUser i c hi hp hroom =>
    refine h.move hi (by rw [hp]; rfl) rfl rfl rfl (by rw [hp]; rfl) (fun sem => ?_) h.pool_le
      (fun sem => ?_)
    · simp only [Slots.addUnits, Function.update_apply, hp, Phase.holdsUser]
      by_cases hsem : sem = c.sem <;> simp [hsem, Ne.symm]
    · simp only [Slots.addUnits, Function.update_apply]
      split
      · exact hroom
      · exact h.units_le sem
  | leaveUser hi hp =>
    exact h.move hi (by rw [hp]; rfl) rfl rfl rfl (by rw [hp]; rfl)
      (fun sem => by rw [hp]; rfl) h.pool_le h.units_le
  | @takePool i c hi hp hroom =>
    refine h.move hi (by rw [hp]; rfl) (by split <;> rfl) rfl rfl ?_ (fun sem => ?_) hroom
      h.units_le
    · rw [hp]
      split <;> rfl
    · rw [hp]
      split <;> rfl
  | leavePool hi hp =>
    exact h.move hi (by rw [hp]; rfl) rfl rfl rfl (by rw [hp]; rfl)
      (fun sem => by rw [hp]; rfl) h.pool_le h.units_le
  | check hi hp done =>
    refine h.move hi (by rw [hp]; rfl) (by split <;> rfl) rfl rfl ?_ (fun sem => ?_) h.pool_le
      h.units_le
    · rw [hp]
      split <;> rfl
    · rw [hp]
      split <;> rfl
  | release hi hp =>
    exact h.move hi (by rw [hp]; rfl) rfl rfl rfl (by rw [hp]; rfl)
      (fun sem => by rw [hp]; rfl) h.pool_le h.units_le
  | releaseAgain => exact h
  | givePool hi hp hunit =>
    refine h.move hi (by rw [hp]; rfl) rfl rfl rfl ?_ (fun sem => by rw [hp]; rfl)
      ((Nat.sub_le _ _).trans h.pool_le) h.units_le
    rw [hp]
    exact Nat.sub_add_cancel hunit
  | @giveUser i c hi hp hunit =>
    refine h.move hi (by rw [hp]; rfl) rfl rfl rfl (by rw [hp]; rfl) (fun sem => ?_) h.pool_le
      (fun sem => ?_)
    · simp only [Slots.addUnits, Function.update_apply, hp, Phase.holdsUser]
      by_cases hsem : sem = c.sem <;> simp [hsem, Ne.symm]
      omega
    · simp only [Slots.addUnits, Function.update_apply]
      split
      · exact (Nat.sub_le _ _).trans (h.units_le c.sem)
      · exact h.units_le sem
  | done hi hp hdone => exact h.done hi hp hdone

omit h in
theorem start : Counted lim {} where
  pool := rfl
  units := fun _ => rfl
  pool_le := Nat.zero_le _
  units_le := fun _ => Nat.zero_le _
  refs := fun user e he => by simp at he
  entry := fun c hc => by simp at hc

omit h in
theorem run (hr : SlotRun lim {} s) : s.Counted lim := by
  induction hr with
  | refl => exact start
  | tail _ hs ih => exact ih.step hs

theorem one_sem {c' : SlotCall} (hc : c ∈ s.calls) (hc' : c' ∈ s.calls) (huser : c.user = c'.user)
    (href : c.phase.refers) (href' : c'.phase.refers) : c.sem = c'.sem := by
  obtain ⟨e, he, hsem⟩ := h.entry c hc href
  obtain ⟨e', he', hsem'⟩ := h.entry c' hc' href'
  rw [huser, he'] at he
  cases he
  exact hsem.symm.trans hsem'

theorem held_le (user : String) : s.calls.countP (SlotCall.heldBy user) ≤ lim.perUserSlots := by
  cases hu : s.userSlots[user]? with
  | none =>
    refine (List.countP_eq_zero.mpr fun c hc hheld => ?_).trans_le (Nat.zero_le _)
    simp only [SlotCall.heldBy, Bool.and_eq_true, beq_iff_eq] at hheld
    obtain ⟨e, he, -⟩ := h.entry c hc (by rw [hheld.2]; rfl)
    rw [hheld.1, hu] at he
    cases he
  | some e =>
    calc s.calls.countP (SlotCall.heldBy user)
        ≤ s.calls.countP (SlotCall.holdsUnit e.sem) := List.countP_mono_left fun c hc hheld => by
          simp only [SlotCall.heldBy, Bool.and_eq_true, beq_iff_eq] at hheld
          obtain ⟨e', he', hsem⟩ := h.entry c hc (by rw [hheld.2]; rfl)
          rw [hheld.1, hu] at he'
          cases he'
          simp [SlotCall.holdsUnit, hsem, hheld.2, Phase.holdsUser]
      _ = s.units e.sem := (h.units e.sem).symm
      _ ≤ lim.perUserSlots := h.units_le e.sem

/-- A call that gives its slot back, or gives up, is never blocked. -/
theorem unwinds (hi : s.calls[i]? = some c) {next : Phase} (hn : c.phase.unwinding = some next) :
    ∃ t, SlotStep lim s t ∧ t.calls[i]? = some { c with phase := next } := by
  have hmem := List.mem_of_getElem? hi
  have hset : (s.calls.set i { c with phase := next })[i]? = some { c with phase := next } := by
    obtain ⟨hlt, -⟩ := List.getElem?_eq_some_iff.mp hi
    rw [List.getElem?_set_self hlt]
  cases hp : c.phase <;> rw [hp] at hn <;> cases hn
  case returnPool =>
    have hunit : 0 < s.pool := by
      rw [h.pool]
      exact List.countP_pos_iff.mpr ⟨c, hmem, by rw [SlotCall.holdsPool, hp]; rfl⟩
    exact ⟨_, .givePool hi hp hunit, hset⟩
  case returnUser =>
    have hunit : 0 < s.units c.sem := by
      rw [h.units]
      exact List.countP_pos_iff.mpr ⟨c, hmem, by simp [SlotCall.holdsUnit, hp, Phase.holdsUser]⟩
    exact ⟨_, .giveUser hi hp hunit, hset⟩
  case leave =>
    obtain ⟨e, he, -⟩ := h.entry c hmem (by rw [hp]; rfl)
    obtain ⟨t, ht⟩ := Option.isSome_iff_exists.mp
      (h.userDone_isSome hmem (by rw [hp]; rfl))
    refine ⟨_, .done hi hp ht, ?_⟩
    rw [← hset]
    simp only [Slots.move, (Slots.userDone_spec he ht).2.2.2]

end Slots.Counted

/-! ## The guarantees -/

/-- In every interleaving of any number of calls: a user holds at most `perUserSlots` slots and
    all users together at most as many as the pool has; the calls of one user that hold or wait
    are on one semaphore; a call that gives up or is released is never blocked; and once every
    call is over, all units are back and no entry is left. -/
theorem slots_bounded {lim : SlotLimits} {s : Slots} (hr : SlotRun lim {} s) :
    (∀ user, s.calls.countP (SlotCall.heldBy user) ≤ lim.perUserSlots) ∧
    s.calls.countP (fun c => c.phase == .held) ≤ lim.poolSlots ∧
    (∀ c ∈ s.calls, ∀ c' ∈ s.calls, c.user = c'.user → c.phase.refers → c'.phase.refers →
      c.sem = c'.sem) ∧
    (∀ (i : ℕ) (c : SlotCall) (next : Phase), s.calls[i]? = some c →
      c.phase.unwinding = some next →
        ∃ t, SlotStep lim s t ∧ t.calls[i]? = some { c with phase := next }) ∧
    ((∀ c ∈ s.calls, c.phase = .finished) →
      s.pool = 0 ∧ (∀ sem, s.units sem = 0) ∧ ∀ user : String, s.userSlots[user]? = none) := by
  have h := Slots.Counted.run hr
  refine ⟨h.held_le, ?_, fun c hc c' hc' => h.one_sem hc hc', fun i c next hi hn => h.unwinds hi hn,
    ?_⟩
  · calc s.calls.countP (fun c => c.phase == .held)
        ≤ s.calls.countP SlotCall.holdsPool := List.countP_mono_left fun c _ hheld => by
          simp only [beq_iff_eq] at hheld
          simp [SlotCall.holdsPool, hheld, Phase.holdsPool]
      _ = s.pool := h.pool.symm
      _ ≤ lim.poolSlots := h.pool_le
  · intro hover
    refine ⟨?_, fun sem => ?_, fun user => ?_⟩
    · rw [h.pool]
      exact List.countP_eq_zero.mpr fun c hc => by
        simp [SlotCall.holdsPool, hover c hc, Phase.holdsPool]
    · rw [h.units]
      exact List.countP_eq_zero.mpr fun c hc => by
        simp [SlotCall.holdsUnit, hover c hc, Phase.holdsUser]
    · by_contra hne
      obtain ⟨e, he⟩ := Option.ne_none_iff_exists'.mp hne
      obtain ⟨hpos, hcount⟩ := h.refs user e he
      rw [hcount, List.countP_pos_iff] at hpos
      obtain ⟨c, hc, href⟩ := hpos
      simp [SlotCall.refersTo, hover c hc, Phase.refers] at href

/-- Two calls of one user on a server with one slot for each: the first gets the slot, the
    second waits for the user's share. -/
theorem slots_bounded_two :
    ∃ s : Slots, SlotRun ⟨1, 1⟩ {} s ∧ s.calls.map (·.phase) = [.held, .waitUser] ∧
      s.calls.countP (SlotCall.heldBy "u") ≤ 1 := by
  have hrun := Relation.ReflTransGen.refl (r := SlotStep ⟨1, 1⟩) (a := {})
  have hrun := hrun.tail (.begin "u" false)
  have hrun := hrun.tail (.takeUser (i := 0) rfl rfl (by decide))
  have hrun := hrun.tail (.takePool (i := 0) rfl rfl (by decide))
  have hrun := hrun.tail (.begin "u" true)
  exact ⟨_, hrun, by decide +kernel, (slots_bounded hrun).1 "u"⟩

end NaustJmap.Runtime
