import Mathlib.Data.List.TakeWhile
import Mathlib.Tactic.IntervalCases
import NaustJmap.Library.Search
import NaustJmap.Library.Utf8

/-!
# The Text of an HTML Part

`stripHTML` of `message/preview.go`: tags become spaces, `script` and `style` elements are left out,
some entities are decoded.  The end of an element is searched in a lower-case copy of the text, and
the offset is used in the text itself.
-/

namespace NaustJmap.Message

open Library Library.Utf8

/-! ## The scan -/

/-- `unicode.ToLower`, of which only US-ASCII is written out. -/
structure Lowering where
  lower : Char → Char
  ascii : ∀ c : Char, c.toNat < 128 → lower c = c.toLower

/-- `strings.ToLower`: malformed octets become U+FFFD. -/
def Lowering.toLower (L : Lowering) (s : List UInt8) : List UInt8 :=
  (runes s).flatMap fun
    | .char c => String.utf8EncodeChar (L.lower c)
    | .bad _ => String.utf8EncodeChar '�'

inductive Element where
  | script
  | style
  deriving DecidableEq

def Element.name : Element → List Char
  | .script => ['s', 'c', 'r', 'i', 'p', 't']
  | .style => ['s', 't', 'y', 'l', 'e']

def Element.closing (e : Element) : List Char := '<' :: '/' :: e.name

def lt : UInt8 := 60

def gt : UInt8 := 62

def amp : UInt8 := 38

def slash : UInt8 := 47

def space : UInt8 := 32

def semicolon : UInt8 := 59

def opened (L : Lowering) (inner : List UInt8) : Option Element :=
  if inner.head? = some slash then none
  else
    let tag := L.toLower (inner.dropWhile fun b => b = slash ∨ b = space)
    [Element.script, Element.style].find? fun e => encode e.name <+: tag

def entities : List (String × String) :=
  [("amp", "&"), ("lt", "<"), ("gt", ">"), ("quot", "\""), ("apos", "'"), ("#39", "'"),
    ("nbsp", " "), ("#160", " ")]

/-- `htmlEntity`: the decoded text and the octets it stands for. -/
def htmlEntity (s : List UInt8) : List UInt8 × ℕ :=
  match s.findIdx? (· = semicolon) with
  | none => ([amp], 1)
  | some semi =>
    if semi < 1 ∨ 8 < semi then ([amp], 1)
    else
      match entities.find? fun e => encode e.1.toList = (s.take semi).drop 1 with
      | none => ([amp], 1)
      | some e => (encode e.2.toList, semi + 1)

/-- The loop of `stripHTML`.  Each round takes at least one octet. -/
def stripLoop (L : Lowering) : ℕ → List UInt8 → List UInt8
  | 0, _ => []
  | _ + 1, [] => []
  | n + 1, c :: rest =>
    if c = lt then
      match rest.dropWhile (· ≠ gt) with
      -- a truncated tag
      | [] => []
      | _ :: after =>
        match opened L (rest.takeWhile (· ≠ gt)) with
        | none => space :: stripLoop L n after
        | some e =>
          match index (encode e.closing) (L.toLower after) with
          | none => []
          | some close => space :: stripLoop L n (after.drop close)
    else if c = amp then
      (htmlEntity (c :: rest)).1 ++ stripLoop L n ((c :: rest).drop (htmlEntity (c :: rest)).2)
    else c :: stripLoop L n rest

def stripHTML (L : Lowering) (s : List UInt8) : List UInt8 := stripLoop L s.length s

variable {s inner rest : List UInt8} {e : Element} {X : List Char}

/-! ## One round -/

section Rounds

variable (L : Lowering)

theorem htmlEntity_width_pos (s : List UInt8) : 0 < (htmlEntity s).2 := by
  unfold htmlEntity
  split
  · exact Nat.one_pos
  · split_ifs
    · exact Nat.one_pos
    · split
      · exact Nat.one_pos
      · exact Nat.succ_pos _

theorem stripLoop_eq {n m : ℕ} (hn : s.length ≤ n) (hm : s.length ≤ m) :
    stripLoop L n s = stripLoop L m s := by
  induction n generalizing m s with
  | zero =>
    obtain rfl := List.length_eq_zero_iff.mp (Nat.le_zero.mp hn)
    cases m <;> rfl
  | succ n ih =>
    cases s with
    | nil => cases m <;> rfl
    | cons c rest =>
      cases m with
      | zero => simp at hm
      | succ m =>
        simp only [List.length_cons] at hn hm
        rw [stripLoop, stripLoop]
        split_ifs with hlt hamp
        · cases hdrop : rest.dropWhile (· ≠ gt) with
          | nil => rfl
          | cons x after =>
            have hlen : after.length < rest.length := by
              have := (List.dropWhile_suffix (l := rest) (· ≠ gt)).length_le
              rw [hdrop, List.length_cons] at this
              omega
            cases opened L (rest.takeWhile (· ≠ gt)) with
            | none => exact congrArg (space :: ·) (ih (by omega) (by omega))
            | some e =>
              dsimp only
              cases index (encode e.closing) (L.toLower after) with
              | none => rfl
              | some close =>
                dsimp only
                rw [ih] <;> rw [List.length_drop] <;> omega
        · have := htmlEntity_width_pos (c :: rest)
          rw [ih] <;> rw [List.length_drop, List.length_cons] <;> omega
        · exact congrArg (c :: ·) (ih (by omega) (by omega))

theorem stripHTML_eq {n : ℕ} (hn : s.length ≤ n) :
    stripLoop L n s = stripHTML L s := stripLoop_eq L hn (Nat.le_refl _)

@[simp] theorem stripHTML_nil : stripHTML L [] = [] := rfl

theorem stripHTML_text {c : UInt8} (hlt : c ≠ lt) (hamp : c ≠ amp) (rest : List UInt8) :
    stripHTML L (c :: rest) = c :: stripHTML L rest := by
  rw [stripHTML, List.length_cons, stripLoop, if_neg hlt, if_neg hamp, ← stripHTML]

theorem stripHTML_text_append (hlt : lt ∉ s) (hamp : amp ∉ s) (rest : List UInt8) :
    stripHTML L (s ++ rest) = s ++ stripHTML L rest := by
  induction s with
  | nil => rfl
  | cons c s ih =>
    rw [List.mem_cons, not_or] at hlt hamp
    rw [List.cons_append, stripHTML_text L (fun h => hlt.1 h.symm) (fun h => hamp.1 h.symm),
      ih hlt.2 hamp.2, List.cons_append]

omit L in
theorem tag_split (hgt : gt ∉ inner) (rest : List UInt8) :
    (inner ++ gt :: rest).takeWhile (· ≠ gt) = inner ∧
      (inner ++ gt :: rest).dropWhile (· ≠ gt) = gt :: rest := by
  have hall : ∀ b ∈ inner, decide (b ≠ gt) = true := by
    intro b hb
    rw [decide_eq_true_eq]
    rintro rfl
    exact hgt hb
  rw [List.takeWhile_append_of_pos hall, List.dropWhile_append_of_pos hall]
  simp

theorem stripHTML_tag (hgt : gt ∉ inner) (hopen : opened L inner = none) (rest : List UInt8) :
    stripHTML L (lt :: (inner ++ gt :: rest)) = space :: stripHTML L rest := by
  rw [stripHTML, List.length_cons, stripLoop, (tag_split hgt rest).1,
    (tag_split hgt rest).2, hopen]
  exact congrArg (space :: ·) (stripHTML_eq L (by simp; omega))

theorem stripHTML_element (hgt : gt ∉ inner) (hopen : opened L inner = some e) {close : ℕ}
    (hclose : index (encode e.closing) (L.toLower rest) = some close) :
    stripHTML L (lt :: (inner ++ gt :: rest)) = space :: stripHTML L (rest.drop close) := by
  rw [stripHTML, List.length_cons, stripLoop, (tag_split hgt rest).1,
    (tag_split hgt rest).2, hopen]
  dsimp only
  rw [hclose]
  exact congrArg (space :: ·) (stripHTML_eq L (by simp; omega))

end Rounds

/-! ## Lower case -/

section Lower

variable (L : Lowering)

theorem toLower_encode (cs : List Char) (s : List UInt8) :
    L.toLower (encode cs ++ s) = encode (cs.map L.lower) ++ L.toLower s := by
  rw [Lowering.toLower, Lowering.toLower, runes_encode_append, List.flatMap_append,
    List.flatMap_map, encode, List.flatMap_map]

def size (c : Char) : ℕ := (String.utf8EncodeChar c).length

theorem size_eq_one_iff {c : Char} : size c = 1 ↔ c.toNat < 128 := by
  have hval : c.toNat = c.val.toNat := rfl
  simp only [size, String.utf8EncodeChar, hval]
  split_ifs <;> simp <;> omega

theorem size_bounds (c : Char) : 1 ≤ size c ∧ size c ≤ 4 := by
  rw [size, String.length_utf8EncodeChar]
  exact ⟨Char.utf8Size_pos c, Char.utf8Size_le_four c⟩

omit L in
theorem closing_ascii (e : Element) : ∀ c ∈ e.closing, c.toNat < 128 ∧ c.toLower = c := by
  have hall : e.closing.all (fun c => decide (c.toNat < 128) && c.toLower == c) = true := by
    cases e <;> decide
  intro c hc
  simpa using List.all_eq_true.mp hall c hc

theorem length_encode_map_lower (hX : ∀ c ∈ X, size (L.lower c) = size c) :
    (encode (X.map L.lower)).length = (encode X).length := by
  induction X with
  | nil => rfl
  | cons c X ih =>
    have hc := hX c List.mem_cons_self
    simp only [size] at hc
    rw [List.map_cons, encode_cons, encode_cons, List.length_append, List.length_append, hc,
      ih fun d hd => hX d (List.mem_cons_of_mem c hd)]

theorem not_occursAt_lower (hX : ∀ c ∈ X, size (L.lower c) = size c)
    (hnone : ∀ j, ¬OccursAt e.closing (X.map Char.toLower) j) (j : ℕ) :
    ¬OccursAt e.closing (X.map L.lower) j := by
  intro h
  refine hnone j ⟨by simpa using h.1, ?_⟩
  obtain ⟨t, ht⟩ := h.2
  -- the characters at the occurrence are of US-ASCII, where `lower` is `toLower`
  have htake : e.closing = ((X.drop j).take e.closing.length).map L.lower := by
    rw [List.map_take, List.map_drop, ← ht, List.take_left]
  have hsame : ((X.drop j).take e.closing.length).map L.lower =
      ((X.drop j).take e.closing.length).map Char.toLower := by
    refine List.map_congr_left fun c hc => ?_
    have hmem : L.lower c ∈ e.closing := by
      rw [htake]
      exact List.mem_map_of_mem hc
    have hsize := hX c (List.mem_of_mem_drop (List.mem_of_mem_take hc))
    have hone : size c = 1 := hsize.symm.trans (size_eq_one_iff.mpr (closing_ascii e _ hmem).1)
    exact L.ascii c (size_eq_one_iff.mp hone)
  rw [hsame, List.map_take, List.map_drop] at htake
  exact List.prefix_iff_eq_take.mpr htake

end Lower

/-! ## Elements are left out whole -/

section Elements

variable (L : Lowering)

def Element.startTag (e : Element) : List Char := '<' :: (e.name ++ ['>'])

def Element.endTag (e : Element) : List Char := e.closing ++ ['>']

theorem map_lower_closing (e : Element) : e.closing.map L.lower = e.closing := by
  have hall : ∀ c ∈ e.closing, L.lower c = c := fun c hc =>
    (L.ascii c (closing_ascii e c hc).1).trans (closing_ascii e c hc).2
  exact (List.map_congr_left hall).trans (List.map_id _)

theorem opened_name (e : Element) : opened L (encode e.name) = some e := by
  have hname : L.toLower (encode e.name) = encode e.name := by
    have hall : ∀ c ∈ e.name, L.lower c = c := fun c hc =>
      have hc := closing_ascii e c (List.mem_cons_of_mem _ (List.mem_cons_of_mem _ hc))
      (L.ascii c hc.1).trans hc.2
    have := toLower_encode L e.name []
    rw [List.append_nil] at this
    rw [this, List.map_congr_left hall, List.map_id']
    exact List.append_nil _
  cases e with
  | script =>
    have hdrop : (encode Element.script.name).dropWhile (fun b => b = slash ∨ b = space) =
        encode Element.script.name := by decide
    rw [opened, hdrop, hname]
    decide
  | style =>
    have hdrop : (encode Element.style.name).dropWhile (fun b => b = slash ∨ b = space) =
        encode Element.style.name := by decide
    rw [opened, hdrop, hname]
    decide

theorem stripHTML_startTag (e : Element) {close : ℕ}
    (hclose : index (encode e.closing) (L.toLower rest) = some close) :
    stripHTML L (encode e.startTag ++ rest) = space :: stripHTML L (rest.drop close) := by
  have hgt : gt ∉ encode e.name := by cases e <;> decide
  have hsplit : encode e.startTag ++ rest = lt :: (encode e.name ++ gt :: rest) := by
    rw [Element.startTag, encode_cons, encode_append, List.append_assoc, List.append_assoc]
    rfl
  rw [hsplit]
  exact stripHTML_element L hgt (opened_name L e) hclose

theorem stripHTML_endTag (e : Element) (rest : List UInt8) :
    stripHTML L (encode e.endTag ++ rest) = space :: stripHTML L rest := by
  have hgt : gt ∉ encode ('/' :: e.name) := by cases e <;> decide
  have hopen : opened L (encode ('/' :: e.name)) = none := by cases e <;> rfl
  have hsplit : encode e.endTag ++ rest = lt :: (encode ('/' :: e.name) ++ gt :: rest) := by
    rw [Element.endTag, encode_append, List.append_assoc]
    rfl
  rw [hsplit]
  exact stripHTML_tag L hgt hopen rest

theorem index_closing (e : Element) (hX : ∀ j, ¬OccursAt e.closing (X.map L.lower) j)
    (Y : List Char) :
    index (encode e.closing) (L.toLower (encode (X ++ e.endTag ++ Y))) =
      some (encode (X.map L.lower)).length := by
  have hlow := toLower_encode L (X ++ e.closing) (encode ('>' :: Y))
  rw [List.map_append, map_lower_closing, encode_append (X.map L.lower)] at hlow
  have htext : encode (X ++ e.endTag ++ Y) = encode (X ++ e.closing) ++ encode ('>' :: Y) := by
    simp [Element.endTag]
  have hcons : encode e.closing = lt :: encode ('/' :: e.name) := rfl
  rw [htext, hlow, hcons]
  refine index_append (by cases e <;> decide) (fun i h => ?_) _
  rw [← hcons, occursAt_encode (by simp [Element.closing])] at h
  obtain ⟨j, hj, -⟩ := h
  exact hX j hj

/-- **An element is left out whole** if lowering keeps the number of octets of its text and makes
    no closing tag in it. -/
theorem stripHTML_content {P Y : List Char} (hlt : '<' ∉ P) (hamp : '&' ∉ P)
    (hnone : ∀ j, ¬OccursAt e.closing (X.map L.lower) j)
    (hsum : (encode (X.map L.lower)).length = (encode X).length) :
    stripHTML L (encode (P ++ e.startTag ++ X ++ e.endTag ++ Y)) =
      encode P ++ [space, space] ++ stripHTML L (encode Y) := by
  have hP : ∀ {x : UInt8} {c : Char}, x.toNat < 0x80 → Char.ofNat x.toNat = c → c ∉ P →
      x ∉ encode P := by
    rintro x c hx rfl hc hmem
    obtain ⟨d, hd, hxd⟩ := List.mem_flatMap.mp hmem
    exact hc (eq_of_mem_encodeChar hx hxd ▸ hd)
  have hindex := index_closing L e hnone Y
  rw [hsum] at hindex
  have hsplit : encode (P ++ e.startTag ++ X ++ e.endTag ++ Y) =
      encode P ++ (encode e.startTag ++ encode (X ++ e.endTag ++ Y)) := by simp
  have hdrop : (encode (X ++ e.endTag ++ Y)).drop (encode X).length =
      encode e.endTag ++ encode Y := by
    rw [List.append_assoc, encode_append, List.drop_left, encode_append]
  rw [hsplit, stripHTML_text_append L (hP (by decide) (by decide) hlt)
    (hP (by decide) (by decide) hamp), stripHTML_startTag L e hindex, hdrop, stripHTML_endTag]
  simp

/-- After a character whose lower case has another length the scan goes on in the wrong place. -/
theorem stripHTML_shifted {c : Char} (hc : size (L.lower c) ≠ size c) :
    (∀ j, ¬OccursAt e.closing ((c :: ['x', 'x', 'x', 'x']).map Char.toLower) j) ∧
      stripHTML L (encode ([] ++ e.startTag ++ (c :: ['x', 'x', 'x', 'x']) ++ e.endTag ++ [])) ≠
        encode [] ++ [space, space] ++ stripHTML L (encode []) := by
  have hnone : ∀ d j, ¬OccursAt e.closing (d :: ['x', 'x', 'x', 'x']) j := by
    intro d j h
    cases j with
    | zero =>
      have hslash := (List.cons_prefix_cons.mp (occursAt_zero.mp h)).2
      exact absurd (List.cons_prefix_cons.mp hslash).1 (by decide)
    | succ j =>
      exact absurd ((occursAt_succ.mp h).mem List.mem_cons_self) (by decide)
  have hx : L.lower 'x' = 'x' := L.ascii 'x' (by decide)
  have hmap : (c :: ['x', 'x', 'x', 'x']).map L.lower = L.lower c :: ['x', 'x', 'x', 'x'] := by
    simp [hx]
  refine ⟨hnone _, fun h => ?_⟩
  have hindex := index_closing L e (by rw [hmap]; exact hnone _) []
  rw [hmap, encode_cons, List.length_append] at hindex
  have hsplit : encode ([] ++ e.startTag ++ (c :: ['x', 'x', 'x', 'x']) ++ e.endTag ++ []) =
      encode e.startTag ++ encode (c :: ['x', 'x', 'x', 'x'] ++ e.endTag ++ []) := by simp
  rw [hsplit, stripHTML_startTag L e hindex] at h
  -- what is left of the text starts with a letter or a slash
  have hsizes := size_bounds c
  have hsizes' := size_bounds (L.lower c)
  simp only [size] at hc hsizes hsizes'
  generalize (String.utf8EncodeChar (L.lower c)).length = k at hc hsizes' h
  have hdrop : (encode (c :: ['x', 'x', 'x', 'x'] ++ e.endTag ++ [])).drop
      (k + (encode ['x', 'x', 'x', 'x']).length) =
        (encode (['x', 'x', 'x', 'x'] ++ e.endTag)).drop
          (k + 4 - (String.utf8EncodeChar c).length) := by
    have hfour : (encode ['x', 'x', 'x', 'x']).length = 4 := by decide
    rw [hfour, List.append_nil, List.cons_append, encode_cons c, List.drop_append,
      List.drop_eq_nil_of_le (by omega), List.nil_append]
  rw [hdrop] at h
  have hhead : ∀ m, 0 < m → m < 8 → m ≠ 4 → ∃ b t,
      (encode (['x', 'x', 'x', 'x'] ++ e.endTag)).drop m = b :: t ∧
        b ≠ lt ∧ b ≠ amp ∧ b ≠ space := by
    intro m hpos hlt hne
    cases e <;> interval_cases m <;> first | exact absurd rfl hne | exact ⟨_, _, rfl, by decide⟩
  obtain ⟨b, t, hb, hblt, hbamp, hbspace⟩ :=
    hhead (k + 4 - (String.utf8EncodeChar c).length) (by omega) (by omega) (by omega)
  rw [hb, stripHTML_text L hblt hbamp] at h
  exact hbspace (List.cons.inj (List.cons.inj h).2).1

/-- **When `script` and `style` elements are left out**: if lowering the text between the tags
    keeps its number of octets and makes no closing tag; and for all texts over an alphabet that has
    the letter `x`, exactly if every character of the alphabet has a lower case with as many
    octets. -/
theorem stripHTML_elements_iff (A : Char → Prop) (hx : A 'x') (e : Element) :
    (∀ P X Y : List Char, '<' ∉ P → '&' ∉ P →
      (∀ j, ¬OccursAt e.closing (X.map L.lower) j) →
      (encode (X.map L.lower)).length = (encode X).length →
      stripHTML L (encode (P ++ e.startTag ++ X ++ e.endTag ++ Y)) =
        encode P ++ [space, space] ++ stripHTML L (encode Y)) ∧
    ((∀ P X Y : List Char, '<' ∉ P → '&' ∉ P →
      (∀ j, ¬OccursAt e.closing (X.map Char.toLower) j) → (∀ c ∈ X, A c) →
      stripHTML L (encode (P ++ e.startTag ++ X ++ e.endTag ++ Y)) =
        encode P ++ [space, space] ++ stripHTML L (encode Y)) ↔
      ∀ c, A c → size (L.lower c) = size c) := by
  refine ⟨fun P X Y hlt hamp => stripHTML_content L hlt hamp, ?_, ?_⟩
  · intro h c hc
    by_contra hsize
    obtain ⟨hnone, hne⟩ := stripHTML_shifted L hsize
    refine hne (h [] _ [] (by simp) (by simp) hnone fun d hd => ?_)
    rcases List.mem_cons.mp hd with rfl | hd
    · exact hc
    · obtain rfl : d = 'x' := by simpa using hd
      exact hx
  · intro h P X Y hlt hamp hnone hX
    have hsizes : ∀ c ∈ X, size (L.lower c) = size c := fun c hc => h c (hX c hc)
    exact stripHTML_content L hlt hamp (not_occursAt_lower L hsizes hnone)
      (length_encode_map_lower L hsizes)

end Elements

def kelvinLowering : Lowering where
  lower c := if c = '\u212A' then 'k' else c.toLower
  ascii c hc := by
    have hne : c ≠ '\u212A' := by
      rintro rfl
      exact absurd hc (by decide)
    rw [if_neg hne]

/-- The end of a script is taken for text. -/
theorem stripHTML_leaks :
    (∀ j, ¬OccursAt Element.script.closing (['\u212A', 'h', 'i'].map Char.toLower) j) ∧
      stripHTML kelvinLowering
          (encode (Element.script.startTag ++ ['\u212A', 'h', 'i'] ++ Element.script.endTag)) =
        encode [' ', 'h', 'i', ' '] := by
  constructor
  · intro j h
    exact absurd (h.mem List.mem_cons_self) (by decide)
  · decide +kernel

/-- Over an alphabet of US-ASCII the elements are left out. -/
theorem stripHTML_elements_ascii :
    stripHTML kelvinLowering
        (encode (['a'] ++ Element.style.startTag ++ ['x', '/'] ++ Element.style.endTag ++ ['b'])) =
      encode ['a'] ++ [space, space] ++ stripHTML kelvinLowering (encode ['b']) := by
  have hsizes : ∀ c : Char, c = 'x' ∨ c = '/' → size (kelvinLowering.lower c) = size c := by
    rintro c (rfl | rfl)
    · decide
    · decide
  refine (stripHTML_elements_iff kelvinLowering (fun c => c = 'x' ∨ c = '/')
    (.inl rfl) .style).2.mpr hsizes ['a'] ['x', '/'] ['b'] (by simp) (by simp)
    (fun j h => ?_) (by simp)
  exact absurd (h.mem List.mem_cons_self) (by decide)

end NaustJmap.Message
