import NaustJmap.Library.Json
import NaustJmap.Library.Map

/-!
# Responses on the Wire

`wire.go` and `compact.go`: the response to a request.  `Response.AppendJSON` is there to write what
`json.Marshal` writes.  The two part where the response holds something empty: `json.Marshal` tells
a nil slice and a nil map from empty ones, and `AppendJSON` looks at their length.
-/

namespace NaustJmap.Wire

open Library Library.Json

def ascii (s : String) : Octets := s.toList.map fun c => UInt8.ofNat c.toNat

structure Invocation where
  name : Octets
  args : Octets
  callID : Octets

/-- The arguments as they are written: an empty object where there are none. -/
def Invocation.arguments (inv : Invocation) : Octets :=
  if inv.args = [] then [123, 125] else inv.args

/-- A nil slice and a nil map are `none`. -/
structure Response where
  methodResponses : Option (List Invocation)
  createdIds : Option (Map Octets Octets)
  sessionState : Octets

/-! ## `AppendJSON` -/

def appendInvocation (inv : Invocation) : Octets :=
  array [quote inv.name, inv.arguments, quote inv.callID]

def appendCreatedIds (ids : Map Octets Octets) : Octets :=
  if ids.isEmpty then [] else
    ascii ",\"createdIds\":" ++ object (ids.toList.map fun e => member e.1 (quote e.2))

/-- The bytes `AppendJSON` appends; `json.Marshal` of a string has no error. -/
def appendJSON (r : Response) : Octets :=
  ascii "\x7b\"methodResponses\":" ++ array ((r.methodResponses.getD []).map appendInvocation) ++
    appendCreatedIds (r.createdIds.getD ∅) ++
    ascii ",\"sessionState\":" ++ quote r.sessionState ++ [125]

/-! ## `json.Marshal` -/

/-- The value of what `Invocation.MarshalJSON` writes; compacting it changes no value. -/
def Invocation.Marshals (inv : Invocation) (v : Value) : Prop :=
  ∃ a, Denotes inv.arguments a ∧
    v = .array [.string (validText inv.name), a, .string (validText inv.callID)]

def createdMember (ids : Map Octets Octets) : Octets × Value :=
  (ascii "createdIds", .object (ids.toList.map fun e => (validText e.1, .string (validText e.2))))

/-- The object of a response, for these values of its members. -/
def responseValue (responses : Value) (created : List (Octets × Value)) (state : Octets) : Value :=
  .object ((ascii "methodResponses", responses) :: created ++
    [(ascii "sessionState", .string (validText state))])

/-- What `json.Marshal` writes: null for a nil slice, no member for a nil map (`omitzero`). -/
def Response.Marshals (r : Response) (v : Value) : Prop :=
  ∃ responses, v = responseValue responses (r.createdIds.toList.map createdMember) r.sessionState ∧
    match r.methodResponses with
    | none => responses = .null
    | some invs => ∃ vs, List.Forall₂ Invocation.Marshals invs vs ∧ responses = .array vs

/-! ## What is written -/

theorem Invocation.Marshals.denotes {inv : Invocation} {v : Value} (h : inv.Marshals v) :
    Denotes (appendInvocation inv) v := by
  obtain ⟨a, ha, rfl⟩ := h
  exact denotes_array (.cons (denotes_quote _) (.cons ha (.cons (denotes_quote _) .nil)))

theorem exists_marshals {invs : List Invocation}
    (h : ∀ inv ∈ invs, inv.args = [] ∨ ∃ v, Denotes inv.args v) :
    ∃ vs, List.Forall₂ Invocation.Marshals invs vs := by
  induction invs with
  | nil => exact ⟨[], .nil⟩
  | cons inv invs ih =>
    obtain ⟨hinv, hinvs⟩ := List.forall_mem_cons.mp h
    obtain ⟨vs, hvs⟩ := ih hinvs
    have harg : ∃ a, Denotes inv.arguments a := by
      unfold Invocation.arguments
      split_ifs with hnil
      · exact ⟨_, denotes_object .nil⟩
      · exact hinv.resolve_left hnil
    obtain ⟨a, ha⟩ := harg
    exact ⟨_ :: vs, .cons ⟨a, ha, rfl⟩ hvs⟩

theorem isMember_ascii (key : String) (hkey : validText (ascii key) = ascii key) {x : Octets}
    {v : Value} (h : Denotes x v) : IsMember (member (ascii key) x) (ascii key, v) :=
  ⟨ascii key, x, rfl, hkey.symm, h⟩

theorem denotes_createdIds (ids : Map Octets Octets) :
    Denotes (object (ids.toList.map fun e => member e.1 (quote e.2))) (createdMember ids).2 := by
  refine denotes_object ?_
  rw [List.forall₂_map_left_iff, List.forall₂_map_right_iff, List.forall₂_same]
  exact fun e _ => ⟨e.1, quote e.2, rfl, rfl, denotes_quote e.2⟩

/-- The member of the creation ids that `AppendJSON` writes. -/
def Response.writtenIds (r : Response) : List (Octets × Value) :=
  if (r.createdIds.getD ∅).isEmpty then [] else [createdMember (r.createdIds.getD ∅)]

theorem denotes_appendJSON {r : Response} {vs : List Value}
    (h : List.Forall₂ Invocation.Marshals (r.methodResponses.getD []) vs) :
    Denotes (appendJSON r) (responseValue (.array vs) r.writtenIds r.sessionState) := by
  -- the literals of the source are the quoted keys
  have hresponses : ascii "\x7b\"methodResponses\":" =
      123 :: member (ascii "methodResponses") [] := by decide +kernel
  have hcreated : ascii ",\"createdIds\":" = 44 :: member (ascii "createdIds") [] := by
    decide +kernel
  have hstate : ascii ",\"sessionState\":" = 44 :: member (ascii "sessionState") [] := by
    decide +kernel
  have hlast := isMember_ascii "sessionState" (by decide +kernel) (denotes_quote r.sessionState)
  have hfirst := isMember_ascii "methodResponses" (by decide +kernel)
    (denotes_array (List.forall₂_map_left_iff.mpr (h.imp fun _ _ => Invocation.Marshals.denotes)))
  unfold appendJSON appendCreatedIds responseValue Response.writtenIds
  split_ifs
  · have hobject := denotes_object (.cons hfirst (.cons hlast .nil))
    simpa [object, commas_cons_cons, commas_singleton, member, hresponses, hstate] using hobject
  · have hmap := isMember_ascii "createdIds" (by decide +kernel)
      (denotes_createdIds (r.createdIds.getD ∅))
    have hobject := denotes_object (.cons hfirst (.cons hmap (.cons hlast .nil)))
    simpa [object, commas_cons_cons, commas_singleton, member, hresponses, hcreated, hstate,
      createdMember] using hobject

theorem writtenIds_eq_iff (r : Response) :
    r.writtenIds = r.createdIds.toList.map createdMember ↔ r.createdIds ≠ some ∅ := by
  obtain ⟨_, _ | ids, _⟩ := r
  · simp [Response.writtenIds]
  · by_cases hids : ids = ∅ <;> simp [Response.writtenIds, hids, Std.ExtTreeMap.isEmpty_iff]

/-- `json.Marshal` writes the same value unless it writes null, or an object of no ids. -/
theorem marshals_iff {r : Response} {vs : List Value}
    (h : List.Forall₂ Invocation.Marshals (r.methodResponses.getD []) vs) :
    r.Marshals (responseValue (.array vs) r.writtenIds r.sessionState) ↔
      r.methodResponses.isSome ∧ r.createdIds ≠ some ∅ := by
  rw [← writtenIds_eq_iff]
  unfold Response.Marshals responseValue
  rcases hr : r.methodResponses with _ | invs
  · simp
  · rw [hr] at h
    constructor
    · rintro ⟨responses, heq, -⟩
      have htail := (List.cons.inj (Value.object.inj heq)).2
      exact ⟨rfl, List.append_cancel_right htail⟩
    · rintro ⟨-, hids⟩
      exact ⟨.array vs, by rw [hids], vs, h, rfl⟩

/-- **What `AppendJSON` writes** is JSON, for any strings and any arguments that are JSON.  It is
    the value that `json.Marshal` writes exactly if there is a slice of method responses, and the
    map of creation ids is not an empty one. -/
theorem appendJSON_marshals_iff {r : Response}
    (hargs : ∀ inv ∈ r.methodResponses.getD [], inv.args = [] ∨ ∃ v, Denotes inv.args v) :
    (∃ v, Denotes (appendJSON r) v) ∧
      ((∃ v, Denotes (appendJSON r) v ∧ r.Marshals v) ↔
        r.methodResponses.isSome ∧ r.createdIds ≠ some ∅) := by
  obtain ⟨vs, hvs⟩ := exists_marshals hargs
  have hwritten := denotes_appendJSON hvs
  refine ⟨⟨_, hwritten⟩, ?_⟩
  rw [← marshals_iff hvs]
  constructor
  · rintro ⟨v, hv, hm⟩
    rwa [← hv.unique hwritten]
  · exact fun hm => ⟨_, hwritten, hm⟩

/-- Arguments that quote what is not UTF-8, an invocation without any, and a created id. -/
theorem appendJSON_marshals_echo :
    ∃ v, let r : Response := ⟨some [⟨ascii "Core/echo", quote [34, 255], [10]⟩, ⟨[60], [], []⟩],
        some ((∅ : Map Octets Octets).insert [107] [105]), []⟩
      Denotes (appendJSON r) v ∧ r.Marshals v := by
  refine (appendJSON_marshals_iff ?_).2.mpr ⟨rfl, ?_⟩
  · rintro inv (_ | ⟨_, _ | ⟨_, hinv⟩⟩)
    · exact .inr ⟨_, denotes_quote _⟩
    · exact .inl rfl
    · cases hinv
  · intro h
    have hempty := congrArg (fun ids => (ids.getD ∅).isEmpty) h
    simp at hempty

/-- A request that sends `createdIds` and creates nothing is answered without the member. -/
theorem appendJSON_empty_map :
    let r : Response := ⟨some [], some ∅, []⟩
    (∃ v, r.Marshals v) ∧ ¬ ∃ v, Denotes (appendJSON r) v ∧ r.Marshals v := by
  intro r
  have hvs : List.Forall₂ Invocation.Marshals (r.methodResponses.getD []) [] := .nil
  refine ⟨⟨_, _, rfl, [], .nil, rfl⟩, ?_⟩
  rintro ⟨v, hv, hm⟩
  rw [hv.unique (denotes_appendJSON hvs)] at hm
  exact ((marshals_iff hvs).mp hm).2 rfl

end NaustJmap.Wire
