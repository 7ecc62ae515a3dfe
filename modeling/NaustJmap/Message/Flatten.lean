import Mathlib.Data.List.Basic
import Mathlib.Data.List.Infix
import Mathlib.Tactic.Common

/-!
# Flattening a Body Structure

`Flatten` of `message/flatten.go`, the algorithm of RFC 8621 section 4.1.4: the tree of parts
becomes the lists `textBody`, `htmlBody` and `attachments`.  Inside a `multipart/alternative` a text
part suppresses the list of the other kind for the parts that follow it in the same multipart, and a
part whose only list is suppressed is in none.
-/

namespace NaustJmap.Message

/-! ## The algorithm -/

/-- `Part`: its pointer, and what `Flatten` reads of it. -/
inductive Part where
  | mk (ptr : ℕ) (type : String) (name disposition : Option String) (subParts : List Part)

def Part.ptr : Part → ℕ
  | .mk ptr _ _ _ _ => ptr

def Part.type : Part → String
  | .mk _ type _ _ _ => type

def hasPrefix (s lead : String) : Bool := lead.toList.isPrefixOf s.toList

def isInlineMediaType (type : String) : Bool :=
  hasPrefix type "image/" || hasPrefix type "audio/" || hasPrefix type "video/"

def Part.isMultipart (p : Part) : Bool := hasPrefix p.type "multipart/"

def Part.subType (p : Part) : String :=
  String.ofList (p.type.toList.drop "multipart/".toList.length)

/-- The `isInline` of a part: `first` says that it is the first one of its multipart. -/
def Part.isInline (multipartType : String) (first : Bool) : Part → Bool
  | .mk _ type name disposition _ =>
    disposition ≠ some "attachment" &&
      (type = "text/plain" || type = "text/html" || isInlineMediaType type) &&
      (first || (multipartType ≠ "related" && (isInlineMediaType type || name.getD "" = "")))

/-- The lists so far, and which of `textBody` and `htmlBody` are not nil. -/
structure Flat where
  textBody : List ℕ := []
  htmlBody : List ℕ := []
  attachments : List ℕ := []
  text : Bool := true
  html : Bool := true
  deriving DecidableEq

def Flat.pushText (st : Flat) (ptr : ℕ) : Flat :=
  if st.text then { st with textBody := st.textBody ++ [ptr] } else st

def Flat.pushHTML (st : Flat) (ptr : ℕ) : Flat :=
  if st.html then { st with htmlBody := st.htmlBody ++ [ptr] } else st

def Flat.pushAttachment (st : Flat) (ptr : ℕ) : Flat :=
  { st with attachments := st.attachments ++ [ptr] }

variable (multipartType : String) (inAlternative first : Bool)

def Flat.addLeaf (p : Part) (st : Flat) : Flat :=
  if p.isInline multipartType first then
    if multipartType = "alternative" then
      if p.type = "text/plain" then st.pushText p.ptr
      else if p.type = "text/html" then st.pushHTML p.ptr
      else st.pushAttachment p.ptr
    else
      let st := { st with
        html := st.html && !(inAlternative && p.type = "text/plain")
        text := st.text && !(inAlternative && p.type = "text/html") }
      let st' := (st.pushText p.ptr).pushHTML p.ptr
      if (!st.text || !st.html) && isInlineMediaType p.type then st'.pushAttachment p.ptr else st'
  else st.pushAttachment p.ptr

/-- At the end of a `multipart/alternative` a text of one list only goes to the other as well. -/
def Flat.closeAlternative (before st : Flat) : Flat :=
  if multipartType = "alternative" && st.text && st.html then
    let textFound := before.textBody.length ≠ st.textBody.length
    let htmlFound := before.htmlBody.length ≠ st.htmlBody.length
    if !textFound && htmlFound then
      { st with textBody := st.textBody ++ st.htmlBody.drop before.htmlBody.length }
    else if !htmlFound && textFound then
      { st with htmlBody := st.htmlBody ++ st.textBody.drop before.textBody.length }
    else st
  else st

/-- What is nil in a call of `flattenParts` is so in that call only. -/
def Flat.restore (before st : Flat) : Flat := { st with text := before.text, html := before.html }

mutual

/-- One round of the loop of `flattenParts`. -/
def visit (multipartType : String) (inAlternative first : Bool) (st : Flat) : Part → Flat
  | .mk ptr type name disposition subParts =>
    let p := Part.mk ptr type name disposition subParts
    if p.isMultipart then
      let inner := visitAll p.subType (inAlternative || p.subType = "alternative") true st subParts
      st.restore (Flat.closeAlternative p.subType st inner)
    else st.addLeaf multipartType inAlternative first p

def visitAll (multipartType : String) (inAlternative first : Bool) (st : Flat) :
    List Part → Flat
  | [] => st
  | p :: parts =>
    visitAll multipartType inAlternative false (visit multipartType inAlternative first st p) parts

end

/-- `Flatten`; the call for the root is that of a `mixed` multipart. -/
def flatten (root : Part) : Flat := visitAll "mixed" false true {} [root]

/-! ## No part twice -/

mutual

def leaves : Part → List ℕ
  | .mk ptr type name disposition subParts =>
    if (Part.mk ptr type name disposition subParts).isMultipart then leavesAll subParts else [ptr]

def leavesAll : List Part → List ℕ
  | [] => []
  | p :: parts => leaves p ++ leavesAll parts

end

/-- To each list only some of these parts were added, in their order. -/
structure Flat.Grows (parts : List ℕ) (st st' : Flat) : Prop where
  text : ∃ new, st'.textBody = st.textBody ++ new ∧ new.Sublist parts
  html : ∃ new, st'.htmlBody = st.htmlBody ++ new ∧ new.Sublist parts
  attachments : ∃ new, st'.attachments = st.attachments ++ new ∧ new.Sublist parts

namespace Flat.Grows

theorem refl (parts : List ℕ) (st : Flat) : Flat.Grows parts st st where
  text := ⟨[], by simp, List.nil_sublist _⟩
  html := ⟨[], by simp, List.nil_sublist _⟩
  attachments := ⟨[], by simp, List.nil_sublist _⟩

theorem append {a a' a'' parts parts' : List ℕ}
    (h : ∃ new, a' = a ++ new ∧ new.Sublist parts)
    (h' : ∃ new, a'' = a' ++ new ∧ new.Sublist parts') :
    ∃ new, a'' = a ++ new ∧ new.Sublist (parts ++ parts') := by
  obtain ⟨new, rfl, hnew⟩ := h
  obtain ⟨new', rfl, hnew'⟩ := h'
  exact ⟨new ++ new', by simp, hnew.append hnew'⟩

theorem trans {parts parts' : List ℕ} {st st1 st2 : Flat} (h : Flat.Grows parts st st1)
    (h' : Flat.Grows parts' st1 st2) : Flat.Grows (parts ++ parts') st st2 where
  text := append h.text h'.text
  html := append h.html h'.html
  attachments := append h.attachments h'.attachments

end Flat.Grows

theorem addLeaf_grows (p : Part) (st : Flat) :
    Flat.Grows [p.ptr] st (st.addLeaf multipartType inAlternative first p) := by
  unfold Flat.addLeaf Flat.pushText Flat.pushHTML Flat.pushAttachment
  constructor <;> dsimp only <;> split_ifs <;> simp

theorem closeAlternative_grows {multipartType : String} {parts : List ℕ} {before st : Flat}
    (h : Flat.Grows parts before st) :
    Flat.Grows parts before (before.closeAlternative multipartType st) := by
  obtain ⟨newText, htext, hsubText⟩ := h.text
  obtain ⟨newHTML, hhtml, hsubHTML⟩ := h.html
  unfold Flat.closeAlternative
  simp only [htext, hhtml, List.length_append, List.drop_left]
  split_ifs with _ hcopy hcopy'
  · have hnone : newText = [] := by
      simpa using (Bool.and_eq_true_iff.mp hcopy).1
    exact ⟨⟨newHTML, by simp [hnone], hsubHTML⟩, ⟨newHTML, rfl, hsubHTML⟩, h.attachments⟩
  · have hnone : newHTML = [] := by
      simpa using (Bool.and_eq_true_iff.mp hcopy').1
    exact ⟨⟨newText, rfl, hsubText⟩, ⟨newText, by simp [hnone], hsubText⟩, h.attachments⟩
  · exact h
  · exact h

theorem restore_grows {parts : List ℕ} {before st : Flat} (h : Flat.Grows parts before st) :
    Flat.Grows parts before (before.restore st) :=
  ⟨h.text, h.html, h.attachments⟩

mutual

theorem visit_grows (multipartType : String) (inAlternative first : Bool) (st : Flat) :
    (p : Part) → Flat.Grows (leaves p) st (visit multipartType inAlternative first st p)
  | .mk ptr type name disposition subParts => by
    rw [visit, leaves]
    dsimp only
    split_ifs
    · exact restore_grows (closeAlternative_grows (visitAll_grows _ _ _ st subParts))
    · exact addLeaf_grows multipartType inAlternative first
        (Part.mk ptr type name disposition subParts) st

theorem visitAll_grows (multipartType : String) (inAlternative first : Bool) (st : Flat) :
    (parts : List Part) →
      Flat.Grows (leavesAll parts) st (visitAll multipartType inAlternative first st parts)
  | [] => by
    rw [visitAll, leavesAll]
    exact Flat.Grows.refl _ _
  | p :: parts => by
    rw [visitAll, leavesAll]
    exact (visit_grows multipartType inAlternative first st p).trans
      (visitAll_grows multipartType inAlternative false _ parts)

end

/-! ## Parts in some list -/

def Flat.Holds (st : Flat) (ptr : ℕ) : Prop :=
  ptr ∈ st.textBody ∨ ptr ∈ st.htmlBody ∨ ptr ∈ st.attachments

/-- Which of `textBody` and `htmlBody` are not nil. -/
structure Open where
  text : Bool
  html : Bool

def Flat.opened (st : Flat) : Open := ⟨st.text, st.html⟩

/-- An inline text of this kind in an alternative, in a multipart that is not one. -/
def Part.closes (kind multipartType : String) (inAlternative first : Bool) (p : Part) : Bool :=
  inAlternative && multipartType ≠ "alternative" && !p.isMultipart &&
    p.isInline multipartType first && p.type = kind

def Open.after (o : Open) (p : Part) :
    Open where
  text := o.text && !p.closes "text/html" multipartType inAlternative first
  html := o.html && !p.closes "text/plain" multipartType inAlternative first

def Open.takes (o : Open) (p : Part) : Bool :=
  if p.isInline multipartType first then
    if p.type = "text/plain" then
      o.text || (multipartType ≠ "alternative" && !inAlternative && o.html)
    else if p.type = "text/html" then
      o.html || (multipartType ≠ "alternative" && !inAlternative && o.text)
    else true
  else true

mutual

def shown (multipartType : String) (inAlternative first : Bool) (o : Open) : Part → List ℕ
  | .mk ptr type name disposition subParts =>
    let p := Part.mk ptr type name disposition subParts
    if p.isMultipart then
      shownAll p.subType (inAlternative || p.subType = "alternative") true o subParts
    else if o.takes multipartType inAlternative first p then [ptr] else []

def shownAll (multipartType : String) (inAlternative first : Bool) (o : Open) :
    List Part → List ℕ
  | [] => []
  | p :: parts =>
    shown multipartType inAlternative first o p ++
      shownAll multipartType inAlternative false (o.after multipartType inAlternative first p) parts

end

theorem isInline_cases {multipartType : String} {first : Bool} {p : Part}
    (h : p.isInline multipartType first = true) :
    p.type = "text/plain" ∨ p.type = "text/html" ∨ isInlineMediaType p.type = true := by
  obtain ⟨ptr, type, name, disposition, subParts⟩ := p
  simp only [Part.isInline, Bool.and_eq_true, Bool.or_eq_true, decide_eq_true_eq] at h
  obtain ⟨⟨-, (h | h) | h⟩, -⟩ := h
  · exact .inl h
  · exact .inr (.inl h)
  · exact .inr (.inr h)

section Lists

variable (st : Flat) (x ptr : ℕ)

theorem holds_pushText : (st.pushText x).Holds ptr ↔ st.Holds ptr ∨ (st.text = true ∧ ptr = x) := by
  unfold Flat.pushText Flat.Holds
  split_ifs with h
  · simp only [List.mem_append, List.mem_singleton, h, true_and]
    tauto
  · simp [h]

theorem holds_pushHTML : (st.pushHTML x).Holds ptr ↔ st.Holds ptr ∨ (st.html = true ∧ ptr = x) := by
  unfold Flat.pushHTML Flat.Holds
  split_ifs with h
  · simp only [List.mem_append, List.mem_singleton, h, true_and]
    tauto
  · simp [h]

theorem holds_pushAttachment : (st.pushAttachment x).Holds ptr ↔ st.Holds ptr ∨ ptr = x := by
  unfold Flat.pushAttachment Flat.Holds
  simp only [List.mem_append, List.mem_singleton]
  tauto

theorem html_pushText : (st.pushText x).html = st.html := by
  unfold Flat.pushText
  split_ifs <;> rfl

theorem opened_pushText : (st.pushText x).opened = st.opened := by
  unfold Flat.pushText
  split_ifs <;> rfl

theorem opened_pushHTML : (st.pushHTML x).opened = st.opened := by
  unfold Flat.pushHTML
  split_ifs <;> rfl

theorem opened_pushAttachment : (st.pushAttachment x).opened = st.opened := rfl

end Lists

theorem holds_addLeaf (p : Part) (st : Flat) (ptr : ℕ) :
    (st.addLeaf multipartType inAlternative first p).Holds ptr ↔
      st.Holds ptr ∨
        (st.opened.takes multipartType inAlternative first p = true ∧ ptr = p.ptr) := by
  have hlists : ∀ text html, ({ st with text := text, html := html } : Flat).Holds ptr ↔
      st.Holds ptr := fun _ _ => Iff.rfl
  unfold Flat.addLeaf Open.takes Flat.opened
  by_cases hinline : p.isInline multipartType first = true
  · by_cases hmt : multipartType = "alternative"
    · subst hmt
      by_cases hplain : p.type = "text/plain"
      · simp [hinline, hplain, holds_pushText]
      · by_cases hhtml : p.type = "text/html"
        · simp [hinline, hhtml, holds_pushHTML]
        · simp [hinline, hplain, hhtml, holds_pushAttachment]
    · obtain hplain | hhtml | hmedia := isInline_cases hinline
      · have hother : isInlineMediaType "text/plain" = false := by decide
        cases inAlternative <;>
          simp [hinline, hmt, hplain, hother, hlists, holds_pushHTML, holds_pushText,
            html_pushText, or_assoc, ← or_and_right]
      · have hother : isInlineMediaType "text/html" = false := by decide
        cases inAlternative <;>
          simp [hinline, hmt, hhtml, hother, hlists, holds_pushHTML, holds_pushText,
            html_pushText, or_assoc, ← or_and_right, or_comm (a := st.html = true)]
      · -- a medium goes to the attachments where one of the lists does not take it
        have hplain : p.type ≠ "text/plain" := by
          intro h
          rw [h] at hmedia
          exact absurd hmedia (by decide)
        have hhtml : p.type ≠ "text/html" := by
          intro h
          rw [h] at hmedia
          exact absurd hmedia (by decide)
        cases st.text <;> cases st.html <;>
          simp [hinline, hmt, hmedia, hplain, hhtml, hlists, holds_pushAttachment,
            holds_pushHTML, holds_pushText, html_pushText]
  · simp [hinline, holds_pushAttachment]

theorem holds_closeAlternative (before st : Flat) (ptr : ℕ) :
    (before.closeAlternative multipartType st).Holds ptr ↔ st.Holds ptr := by
  have hdrop : ∀ {n : ℕ} {l : List ℕ}, ptr ∈ l.drop n → ptr ∈ l := List.mem_of_mem_drop
  unfold Flat.closeAlternative Flat.Holds
  dsimp only
  split_ifs
  · simp only [List.mem_append]
    tauto
  · simp only [List.mem_append]
    tauto
  · rfl
  · rfl

theorem holds_restore (before st : Flat) (ptr : ℕ) :
    (before.restore st).Holds ptr ↔ st.Holds ptr := Iff.rfl

theorem opened_addLeaf {p : Part} (st : Flat) (h : p.isMultipart = false) :
    (st.addLeaf multipartType inAlternative first p).opened =
      st.opened.after multipartType inAlternative first p := by
  unfold Flat.addLeaf Open.after Part.closes
  by_cases hinline : p.isInline multipartType first = true
  · by_cases hmt : multipartType = "alternative"
    · subst hmt
      simp only [hinline, if_true, ne_eq, not_true_eq_false, decide_false, Bool.and_false,
        Bool.false_and, Bool.not_false, Bool.and_true]
      split_ifs
      · exact opened_pushText st p.ptr
      · exact opened_pushHTML st p.ptr
      · exact opened_pushAttachment st p.ptr
    · simp only [hinline, if_true, hmt, if_false, apply_ite Flat.opened, opened_pushText,
        opened_pushHTML, opened_pushAttachment, ite_self]
      simp [Flat.opened, h, hmt]
  · simp only [hinline, Bool.false_eq_true, if_false, opened_pushAttachment]
    simp [Flat.opened]

theorem after_of_isMultipart (o : Open) {p : Part} (h : p.isMultipart = true) :
    o.after multipartType inAlternative first p = o := by
  simp [Open.after, Part.closes, h]

theorem opened_visit (st : Flat) :
    (p : Part) → (visit multipartType inAlternative first st p).opened =
      st.opened.after multipartType inAlternative first p
  | .mk ptr type name disposition subParts => by
    rw [visit]
    split_ifs with h
    · rw [after_of_isMultipart multipartType inAlternative first st.opened h]
      rfl
    · exact opened_addLeaf multipartType inAlternative first st (by simpa using h)

mutual

theorem holds_visit (multipartType : String) (inAlternative first : Bool) (st : Flat) (x : ℕ) :
    (p : Part) → ((visit multipartType inAlternative first st p).Holds x ↔
      st.Holds x ∨ x ∈ shown multipartType inAlternative first st.opened p)
  | .mk ptr type name disposition subParts => by
    rw [visit, shown]
    dsimp only
    split_ifs with hmultipart htakes
    · rw [holds_restore, holds_closeAlternative]
      exact holds_visitAll _ _ _ st x subParts
    · rw [holds_addLeaf]
      simp [htakes, Part.ptr]
    · rw [holds_addLeaf]
      simp [htakes]

theorem holds_visitAll (multipartType : String) (inAlternative first : Bool) (st : Flat) (x : ℕ) :
    (parts : List Part) → ((visitAll multipartType inAlternative first st parts).Holds x ↔
      st.Holds x ∨ x ∈ shownAll multipartType inAlternative first st.opened parts)
  | [] => by simp [visitAll, shownAll]
  | p :: parts => by
    rw [visitAll, shownAll, holds_visitAll multipartType inAlternative false _ x parts,
      holds_visit multipartType inAlternative first st x p, opened_visit, List.mem_append, or_assoc]

end

/-! ## Parts in no list -/

/-- A multipart on the way to a part, with the siblings that come before the way. -/
structure Frame where
  type : String
  earlier : List Part

/-- A part that is not a multipart, and the multiparts around it from the outermost on. -/
inductive LeafAt : Part → List Frame → Part → Prop
  | here {p : Part} (h : p.isMultipart = false) : LeafAt p [] p
  | inside {ptr : ℕ} {type : String} {name disposition : Option String} {subParts : List Part}
      {earlier later : List Part} {c leaf : Part} {frames : List Frame}
      (h : (Part.mk ptr type name disposition subParts).isMultipart = true)
      (hsubs : subParts = earlier ++ c :: later) (hleaf : LeafAt c frames leaf) :
      LeafAt (Part.mk ptr type name disposition subParts)
        (⟨(Part.mk ptr type name disposition subParts).subType, earlier⟩ :: frames) leaf

def closed (kind multipartType : String) (inAlternative first : Bool) : List Part → Bool
  | [] => false
  | p :: parts =>
    p.closes kind multipartType inAlternative first ||
      closed kind multipartType inAlternative false parts

def preceded (kind : String) (inAlternative : Bool) : List Frame → Bool
  | [] => false
  | f :: frames =>
    closed kind f.type (inAlternative || f.type = "alternative") true f.earlier ||
      preceded kind (inAlternative || f.type = "alternative") frames

/-- An inline text whose own list is not open. -/
def Open.hides (o : Open) (f : Frame) (leaf : Part) : Bool :=
  leaf.isInline f.type f.earlier.isEmpty &&
    (leaf.type = "text/plain" && !o.text || leaf.type = "text/html" && !o.html)

/-- An inline text for which a text of the other kind has closed the list. -/
def suppressed (frames : List Frame) (leaf : Part) : Bool :=
  Open.hides ⟨!preceded "text/html" false frames, !preceded "text/plain" false frames⟩
    (frames.getLastD ⟨"mixed", []⟩) leaf

def Open.afterAll (multipartType : String) (inAlternative first : Bool) (o : Open) :
    List Part → Open
  | [] => o
  | p :: parts =>
    Open.afterAll multipartType inAlternative false (o.after multipartType inAlternative first p)
      parts

theorem afterAll_eq (o : Open) (parts : List Part) :
    o.afterAll multipartType inAlternative first parts =
      ⟨o.text && !closed "text/html" multipartType inAlternative first parts,
        o.html && !closed "text/plain" multipartType inAlternative first parts⟩ := by
  induction parts generalizing first o with
  | nil => simp [Open.afterAll, closed]
  | cons p parts ih =>
    rw [Open.afterAll, ih]
    simp [Open.after, closed, Bool.and_assoc]

theorem closed_outside (kind multipartType : String) (first : Bool) (parts : List Part) :
    closed kind multipartType false first parts = false := by
  induction parts generalizing first with
  | nil => rfl
  | cons p parts ih => simp [closed, Part.closes, ih]

theorem takes_eq {inAlternative : Bool} {o : Open} (f : Frame) (p : Part)
    (h : inAlternative = false → o.text = true ∧ o.html = true) :
    o.takes f.type inAlternative f.earlier.isEmpty p = !o.hides f p := by
  unfold Open.takes Open.hides
  by_cases hinline : p.isInline f.type f.earlier.isEmpty = true
  · by_cases hplain : p.type = "text/plain"
    · cases inAlternative <;> simp_all
    · by_cases hhtml : p.type = "text/html"
      · cases inAlternative <;> simp_all
      · simp [hplain, hhtml]
  · simp [hinline]

theorem shownAll_append (o : Open) (earlier later : List Part) :
    shownAll multipartType inAlternative first o (earlier ++ later) =
      shownAll multipartType inAlternative first o earlier ++
        shownAll multipartType inAlternative (first && earlier.isEmpty)
          (o.afterAll multipartType inAlternative first earlier) later := by
  induction earlier generalizing first o with
  | nil => simp [shownAll, Open.afterAll]
  | cons p earlier ih => simp [shownAll, Open.afterAll, ih]

theorem leavesAll_append (earlier later : List Part) :
    leavesAll (earlier ++ later) = leavesAll earlier ++ leavesAll later := by
  induction earlier with
  | nil => simp [leavesAll]
  | cons p earlier ih => simp [leavesAll, ih]

mutual

theorem shown_subset (multipartType : String) (inAlternative first : Bool) (o : Open) :
    (p : Part) → shown multipartType inAlternative first o p ⊆ leaves p
  | .mk ptr type name disposition subParts => by
    rw [shown, leaves]
    split_ifs
    · exact shownAll_subset _ _ _ o subParts
    · exact List.Subset.refl _
    · exact List.nil_subset _

theorem shownAll_subset (multipartType : String) (inAlternative first : Bool) (o : Open) :
    (parts : List Part) → shownAll multipartType inAlternative first o parts ⊆ leavesAll parts
  | [] => by simp [shownAll]
  | p :: parts => by
    rw [shownAll, leavesAll]
    exact List.append_subset.mpr
      ⟨List.subset_append_of_subset_left _ (shown_subset _ _ _ o p),
        List.subset_append_of_subset_right _ (shownAll_subset _ _ _ _ parts)⟩

end

theorem LeafAt.mem_leaves {p leaf : Part} {frames : List Frame} (h : LeafAt p frames leaf) :
    leaf.ptr ∈ leaves p := by
  induction h with
  | @here p h =>
    obtain ⟨ptr, type, name, disposition, subParts⟩ := p
    simp [leaves, h, Part.ptr]
  | inside h hsubs hleaf ih =>
    rw [leaves, if_pos h]
    simp [hsubs, leavesAll_append, leavesAll, ih]

/-- A part is shown unless its list is closed where it stands. -/
theorem LeafAt.mem_shown {p leaf : Part} {frames : List Frame} (h : LeafAt p frames leaf)
    (hdistinct : (leaves p).Nodup) (f : Frame) (inAlternative : Bool) (o : Open)
    (hopen : inAlternative = false → o.text = true ∧ o.html = true) :
    leaf.ptr ∈ shown f.type inAlternative f.earlier.isEmpty o p ↔
      Open.hides ⟨o.text && !preceded "text/html" inAlternative frames,
        o.html && !preceded "text/plain" inAlternative frames⟩
        (frames.getLastD f) leaf = false := by
  induction h generalizing f inAlternative o with
  | @here p h =>
    obtain ⟨ptr, type, name, disposition, subParts⟩ := p
    rw [shown]
    simp only [h, Bool.false_eq_true, if_false, takes_eq f _ hopen]
    simp [preceded, Part.ptr]
  | @inside ptr type name disposition subParts earlier later c leaf frames h hsubs hleaf ih =>
    rw [leaves, if_pos h, hsubs, leavesAll_append] at hdistinct
    -- a part is below no sibling of the one it is below
    have hearlier : leaf.ptr ∉ leavesAll earlier := by
      intro hmem
      exact (List.nodup_append.mp hdistinct).2.2 _ hmem _
        (List.mem_append_left _ hleaf.mem_leaves) rfl
    have hright := (List.nodup_append.mp hdistinct).2.1
    have hlater : leaf.ptr ∉ leavesAll later := by
      intro hmem
      exact (List.nodup_append.mp hright).2.2 _ hleaf.mem_leaves _ hmem rfl
    generalize hg : (⟨(Part.mk ptr type name disposition subParts).subType, earlier⟩ : Frame) = g
    have htype : (Part.mk ptr type name disposition subParts).subType = g.type := by rw [← hg]
    have hbefore : earlier = g.earlier := by rw [← hg]
    rw [shown]
    simp only [h, if_true, htype]
    have hopen' : (inAlternative || g.type = "alternative") = false →
        (o.afterAll g.type (inAlternative || g.type = "alternative") true earlier).text = true ∧
          (o.afterAll g.type (inAlternative || g.type = "alternative") true
            earlier).html = true := by
      intro hinner
      rw [afterAll_eq, hinner, closed_outside, closed_outside]
      simpa using hopen (Bool.or_eq_false_iff.mp hinner).1
    have hself := ih (List.nodup_append.mp hright).1 g _ _ hopen'
    rw [hsubs, shownAll_append, shownAll]
    simp only [List.mem_append, mt (shownAll_subset _ _ _ _ earlier ·) hearlier,
      mt (shownAll_subset _ _ _ _ later ·) hlater, false_or, or_false, Bool.true_and]
    rw [hbefore] at hself ⊢
    rw [hself, afterAll_eq, List.getLastD_cons, preceded, preceded]
    simp [Bool.and_assoc]

theorem nodup_of_grows {parts list : List ℕ} (h : ∃ new, list = [] ++ new ∧ new.Sublist parts)
    (hdistinct : parts.Nodup) : list.Nodup := by
  obtain ⟨new, rfl, hsub⟩ := h
  exact hsub.nodup hdistinct

theorem flatten_grows (root : Part) : Flat.Grows (leaves root) {} (flatten root) := by
  have h := visitAll_grows "mixed" false true {} [root]
  rw [leavesAll, leavesAll, List.append_nil] at h
  exact h

theorem holds_flatten (root : Part) (ptr : ℕ) :
    (flatten root).Holds ptr ↔ ptr ∈ shown "mixed" false true ⟨true, true⟩ root := by
  have hnone : ¬ ({} : Flat).Holds ptr := by simp [Flat.Holds]
  rw [flatten, holds_visitAll, shownAll, shownAll, List.append_nil]
  simp only [hnone, false_or]
  rfl

/-- No part is twice in a list, and a part is in one of them unless it is a text whose list is
    closed where it stands. -/
theorem flatten_shows_iff (root : Part) (hdistinct : (leaves root).Nodup) :
    (flatten root).textBody.Nodup ∧ (flatten root).htmlBody.Nodup ∧
      (flatten root).attachments.Nodup ∧
      ∀ frames leaf, LeafAt root frames leaf →
        ((flatten root).Holds leaf.ptr ↔ suppressed frames leaf = false) := by
  have hgrows := flatten_grows root
  refine ⟨nodup_of_grows hgrows.text hdistinct, nodup_of_grows hgrows.html hdistinct,
    nodup_of_grows hgrows.attachments hdistinct, ?_⟩
  intro frames leaf hleaf
  rw [holds_flatten]
  exact hleaf.mem_shown hdistinct ⟨"mixed", []⟩ false ⟨true, true⟩ (fun _ => ⟨rfl, rfl⟩)

def plainText : Part := .mk 2 "text/plain" none none []

def htmlText : Part := .mk 3 "text/html" none none []

def mixedTexts : Part := .mk 1 "multipart/mixed" none none [plainText, htmlText]

/-- A text and then an HTML in a `mixed` that is the one part of an alternative. -/
def mixedAlternative : Part := .mk 0 "multipart/alternative" none none [mixedTexts]

/-- The HTML is in no list. -/
theorem flatten_loses :
    (leaves mixedAlternative).Nodup ∧ 3 ∈ leaves mixedAlternative ∧
      ¬ (flatten mixedAlternative).Holds 3 := by
  have hleaves : leaves mixedAlternative = [2, 3] := by decide +kernel
  have hflat : flatten mixedAlternative = ⟨[2], [2], [], true, true⟩ := by decide +kernel
  rw [hleaves, hflat]
  simp [Flat.Holds]

theorem flatten_shows_iff_mixed :
    (leaves mixedAlternative).Nodup ∧ (flatten mixedAlternative).Holds 2 ∧
      ¬ (flatten mixedAlternative).Holds 3 := by
  have hleaves : (leaves mixedAlternative).Nodup := by decide +kernel
  have hinside : ∀ {earlier later leaf}, [plainText, htmlText] = earlier ++ leaf :: later →
      leaf.isMultipart = false →
      LeafAt mixedAlternative [⟨mixedAlternative.subType, []⟩, ⟨mixedTexts.subType, earlier⟩]
        leaf := by
    intro earlier later leaf hsubs hleaf
    have hmixed : LeafAt mixedTexts [⟨mixedTexts.subType, earlier⟩] leaf :=
      .inside (by decide +kernel) hsubs (.here hleaf)
    exact .inside (by decide +kernel) (rfl : [mixedTexts] = [] ++ mixedTexts :: []) hmixed
  have hshown := (flatten_shows_iff mixedAlternative hleaves).2.2.2
  refine ⟨hleaves, ?_, ?_⟩
  · have hplain := hinside (rfl : _ = [] ++ plainText :: [htmlText]) (by decide +kernel)
    exact (hshown _ _ hplain).mpr (by decide +kernel)
  · have hhtml := hinside (rfl : _ = [plainText] ++ htmlText :: []) (by decide +kernel)
    intro h
    exact absurd ((hshown _ _ hhtml).mp h) (by decide +kernel)

end NaustJmap.Message
