import NaustJmap.Message.Charset
import NaustJmap.Message.EncodedWord
import NaustJmap.Message.Preview

/-!
# Lists in Angle Brackets

Message ids and URLs, written by `genforms.go` and read back by `forms.go`.  The writers refuse
spaces and angle brackets.  The reader takes comments out first, inside the brackets too: an opening
parenthesis outside a quoted string is lost, with what follows it up to its end.
-/

namespace NaustJmap.Message

open Library (Octets CR LF)

def dquote : UInt8 := 0x22
def lparen : UInt8 := 0x28
def rparen : UInt8 := 0x29
def backslash : UInt8 := 0x5c

/-! ## Writing -/

def foldLimit : ℕ := 78

/-- The loop of `FoldValue` after the first atom; `line` is how long the line is. -/
def foldRest : ℕ → List Octets → Octets
  | _, [] => []
  | line, atom :: atoms =>
    if foldLimit < line + 1 + atom.length then
      CR :: LF :: space :: (atom ++ foldRest (1 + atom.length) atoms)
    else space :: (atom ++ foldRest (line + 1 + atom.length) atoms)

def foldValue (name : Octets) : List Octets → Octets
  | [] => []
  | atom :: atoms => atom ++ foldRest (name.length + 2 + atom.length) atoms

def angleOk (v : Octets) : Bool :=
  v ≠ [] && isPrintableASCII v && v.all fun c => c ≠ space && c ≠ lt && c ≠ gt

/-- The atoms of a list; `sep` follows each but the last. -/
def angleAtoms (sep : Octets) : List Octets → List Octets
  | [] => []
  | v :: vals =>
    (lt :: (v ++ gt :: if vals = [] then [] else sep)) :: angleAtoms sep vals

def formatAngles (sep : Octets) (vals : List Octets) : Option (List Octets) :=
  if vals.all angleOk then some (angleAtoms sep vals) else none

def formatMessageIDs (ids : List Octets) : Option (List Octets) := formatAngles [] ids

def formatURLs (urls : List Octets) : Option (List Octets) := formatAngles [0x2c] urls

/-! ## Reading -/

def sanitizeString (s : Octets) : Octets :=
  if 0 ∉ s ∧ utf8Valid s then s else toValidUTF8 (s.filter (· ≠ 0))

def unfold : Octets → Octets
  | [] => []
  | c :: s =>
    if c = CR ∧ s.head? = some LF then unfold s
    else if c = LF then unfold s
    else c :: unfold s

/-- Where the loop of `stripComments` stands; after a backslash it is escaped. -/
inductive StripMode where
  | text
  | quoted
  | escaped
  | comment (depth : ℕ)
  | commentEscaped (depth : ℕ)
  deriving DecidableEq

namespace StripMode

def next : StripMode → UInt8 → StripMode
  | text, c => if c = dquote then quoted else if c = lparen then comment 1 else text
  | quoted, c => if c = backslash then escaped else if c = dquote then text else quoted
  | escaped, _ => quoted
  | comment depth, c =>
    if c = backslash then commentEscaped depth
    else if c = lparen then comment (depth + 1)
    else if c = rparen then if depth = 1 then text else comment (depth - 1)
    else comment depth
  | commentEscaped depth, _ => comment depth

def inComment : StripMode → Bool
  | text | quoted | escaped => false
  | comment _ | commentEscaped _ => true

end StripMode

/-- The loop of `stripComments`; `cur` is what the comment has so far. -/
def commentLoop : StripMode → Octets → Octets → Octets × List Octets
  | _, cur, [] => ([], if cur = [] then [] else [cur])
  | m, cur, c :: s =>
    if m.inComment then
      match m.next c with
      | .text =>
        let r := commentLoop .text [] s
        (r.1, cur :: r.2)
      | .commentEscaped depth => commentLoop (.commentEscaped depth) cur s
      | m' => commentLoop m' (cur ++ [c]) s
    else if (m.next c).inComment then commentLoop (m.next c) cur s
    else
      let r := commentLoop (m.next c) cur s
      (c :: r.1, r.2)

def stripComments (s : Octets) : Octets × List Octets := commentLoop .text [] s

def removeWSP (s : Octets) : Octets := s.filter (· ∉ [space, 9, CR, LF])

/-- The loop of `angleList`; every round but the last takes an octet at least. -/
def angleLoop : ℕ → Octets → List Octets
  | 0, _ => []
  | rounds + 1, s =>
    match s.dropWhile (· ≠ lt) with
    | [] => []
    | _ :: t =>
      if gt ∈ t then
        let v := removeWSP (t.takeWhile (· ≠ gt))
        let vals := angleLoop rounds (t.dropWhile (· ≠ gt)).tail
        if v = [] then vals else v :: vals
      else []

/-- The values in angle brackets.  `[]` is the nil slice, by which the source says that it found
    none; a list that is found is never empty. -/
def angleList (raw : Octets) : List Octets :=
  let clean := (stripComments (unfold (sanitizeString raw))).1
  angleLoop clean.length clean

def messageIDsForm (raw : Octets) : List Octets := angleList raw

def urlsForm (raw : Octets) : List Octets := angleList raw

/-! ## Comments -/

def commentFree : StripMode → Octets → Bool
  | m, [] => !m.inComment
  | m, c :: s => !m.inComment && commentFree (m.next c) s

/-- No parenthesis opens outside a quoted string, which may go on in the next value. -/
def NoComment (vals : List Octets) : Prop :=
  commentFree .text (vals.flatMap (· ++ [gt]))

variable {m : StripMode} {s a sep : Octets} {atoms vals : List Octets}

theorem commentLoop_of_commentFree (h : commentFree m s) (cur : Octets) :
    (commentLoop m cur s).1 = s := by
  induction s generalizing m with
  | nil => rfl
  | cons c s ih =>
    simp only [commentFree, Bool.and_eq_true, Bool.not_eq_true'] at h
    have hnext : (m.next c).inComment = false := by
      cases s <;> simp_all [commentFree]
    simp [commentLoop, h.1, hnext, ih h.2]

theorem commentLoop_sublist (m : StripMode) (cur s : Octets) :
    (commentLoop m cur s).1.Sublist s := by
  induction s generalizing m cur with
  | nil => exact List.Sublist.refl _
  | cons c s ih =>
    rw [commentLoop]
    split_ifs
    · split <;> exact (ih _ _).cons c
    · exact (ih _ _).cons c
    · exact (ih _ _).cons_cons c

theorem eq_lparen_of_next {c : UInt8} (hm : m.inComment = false) (h : (m.next c).inComment) :
    c = lparen := by
  cases m with
  | text =>
    simp only [StripMode.next] at h
    split_ifs at h with hd hl
    · cases h
    · exact hl
    · cases h
  | quoted =>
    simp only [StripMode.next] at h
    split_ifs at h <;> cases h
  | escaped => cases h
  | _ => cases hm

theorem count_commentLoop_lt (hm : m.inComment = false) (h : commentFree m s = false)
    (cur : Octets) : (commentLoop m cur s).1.count lparen < s.count lparen := by
  induction s generalizing m with
  | nil => simp [commentFree, hm] at h
  | cons c s ih =>
    simp only [commentFree, hm, Bool.not_false, Bool.true_and] at h
    cases hnext : (m.next c).inComment with
    | true =>
      obtain rfl := eq_lparen_of_next hm hnext
      have := (commentLoop_sublist (m.next lparen) cur s).count_le lparen
      simp [commentLoop, hm, hnext]
      omega
    | false =>
      have := ih hnext h
      simp [commentLoop, hm, hnext, List.count_cons]
      omega

/-! ## The text of a list -/

def angleText (sep : Octets) : List Octets → Octets
  | [] => []
  | v :: vals =>
    lt :: (v ++ gt :: if vals = [] then [] else sep ++ space :: angleText sep vals)

/-- Octets without meaning to quoted strings and comments. -/
def Neutral (s : Octets) : Prop :=
  ∀ c ∈ s, c ≠ dquote ∧ c ≠ lparen ∧ c ≠ backslash

theorem commentFree_neutral (hm : m ≠ .escaped) (ha : Neutral a) (s : Octets) :
    commentFree m (a ++ s) = commentFree m s := by
  induction a with
  | nil => rfl
  | cons c a ih =>
    have hc := ha c List.mem_cons_self
    rw [List.cons_append, commentFree]
    cases m with
    | escaped => exact absurd rfl hm
    | comment d => cases s <;> simp [StripMode.inComment, commentFree]
    | commentEscaped d => cases s <;> simp [StripMode.inComment, commentFree]
    | _ =>
      simpa [StripMode.next, hc.1, hc.2.1, hc.2.2, StripMode.inComment] using
        ih fun x hx => ha x (List.mem_cons_of_mem c hx)

theorem commentFree_append (m : StripMode) (a s : Octets) :
    commentFree m (a ++ s) = (commentFree m a && commentFree (a.foldl StripMode.next m) s) := by
  induction a generalizing m with
  | nil => cases s <;> simp [commentFree]
  | cons c a ih => simp only [List.cons_append, commentFree, ih, Bool.and_assoc, List.foldl_cons]

theorem next_gt_ne_escaped (m : StripMode) : m.next gt ≠ .escaped := by
  cases m <;> simp [StripMode.next, gt, dquote, lparen, rparen, backslash]

theorem commentFree_angleText (hsep : Neutral sep) (hm : m ≠ .escaped) (vals : List Octets) :
    commentFree m (angleText sep vals) = commentFree m (vals.flatMap (· ++ [gt])) := by
  induction vals generalizing m with
  | nil => rfl
  | cons v vals ih =>
    have hlt : Neutral [lt] := by simp [Neutral, lt, dquote, lparen, backslash]
    have hspace : Neutral (sep ++ [space]) := by
      intro c hc
      rcases List.mem_append.mp hc with h | h
      · exact hsep c h
      · rw [List.mem_singleton.mp h]
        decide
    rw [angleText, List.append_cons, ← List.singleton_append, commentFree_neutral hm hlt,
      List.flatMap_cons, commentFree_append, commentFree_append m (v ++ [gt])]
    split_ifs with hvals
    · rw [hvals]
      rfl
    · rw [List.append_cons sep space, commentFree_neutral _ hspace, ih]
      all_goals
        rw [List.foldl_append]
        exact next_gt_ne_escaped _

theorem count_angleText (hsep : Neutral sep) (vals : List Octets) :
    (angleText sep vals).count lparen = vals.flatten.count lparen := by
  have hzero : sep.count lparen = 0 := List.count_eq_zero.mpr fun h => (hsep _ h).2.1 rfl
  induction vals with
  | nil => rfl
  | cons v vals ih =>
    rw [angleText, List.flatten_cons, List.count_cons_of_ne (by decide), List.count_append,
      List.count_append, List.count_cons_of_ne (by decide)]
    split_ifs with hvals
    · simp [hvals]
    · rw [List.count_append, hzero, List.count_cons_of_ne (by decide), ih, Nat.zero_add]

/-! ## Folding and unfolding -/

/-- Octets of printable ASCII other than the space. -/
def Visible (a : Octets) : Prop := ∀ c ∈ a, 0x20 < c ∧ c < 0x80

theorem unfold_append (ha : Visible a) (s : Octets) : unfold (a ++ s) = a ++ unfold s := by
  induction a with
  | nil => rfl
  | cons c a ih =>
    have hc := (ha c List.mem_cons_self).1
    have hcr : c ≠ CR := fun h => absurd (h ▸ hc) (by decide)
    have hlf : c ≠ LF := fun h => absurd (h ▸ hc) (by decide)
    rw [List.cons_append, unfold, if_neg fun h => hcr h.1, if_neg hlf,
      ih fun x hx => ha x (List.mem_cons_of_mem c hx), List.cons_append]

theorem unfold_foldRest (h : ∀ a ∈ atoms, Visible a) (line : ℕ) :
    unfold (foldRest line atoms) = atoms.flatMap (space :: ·) := by
  induction atoms generalizing line with
  | nil => rfl
  | cons a atoms ih =>
    have hatom := unfold_append (h a List.mem_cons_self)
    have hrest := ih fun b hb => h b (List.mem_cons_of_mem a hb)
    rw [foldRest]
    split_ifs
    · simp [unfold, CR, LF, space, hatom, hrest]
    · simp [unfold, CR, LF, space, hatom, hrest]

theorem ascii_foldRest (h : ∀ a ∈ atoms, Visible a) (line : ℕ) :
    ∀ c ∈ foldRest line atoms, 0 < c ∧ c < 0x80 := by
  induction atoms generalizing line with
  | nil => simp [foldRest]
  | cons a atoms ih =>
    have hatom : ∀ c ∈ a, 0 < c ∧ c < 0x80 := fun c hc =>
      ⟨UInt8.lt_trans (by decide) (h a List.mem_cons_self c hc).1, (h a List.mem_cons_self c hc).2⟩
    have hrest := ih fun b hb => h b (List.mem_cons_of_mem a hb)
    intro c hc
    rw [foldRest] at hc
    split_ifs at hc <;> simp only [List.mem_cons, List.mem_append] at hc
    · rcases hc with rfl | rfl | rfl | hc | hc
      all_goals first | decide | exact hatom c hc | exact hrest _ c hc
    · rcases hc with rfl | hc | hc
      all_goals first | decide | exact hatom c hc | exact hrest _ c hc

theorem sanitizeString_of_ascii (h : ∀ c ∈ s, 0 < c ∧ c < 0x80) : sanitizeString s = s := by
  have hvalid : utf8Valid s := by
    rw [utf8Valid]
    induction s with
    | nil => rfl
    | cons c s ih =>
      have hc := Library.Utf8.encodeChar_ascii (UInt8.lt_iff_toNat_lt.mp (h c List.mem_cons_self).2)
      have hrunes := Library.Utf8.runes_char (Char.ofNat c.toNat) s
      rw [hc, List.singleton_append] at hrunes
      rw [hrunes]
      simpa [isBad] using ih fun x hx => h x (List.mem_cons_of_mem c hx)
  rw [sanitizeString, if_pos ⟨fun hz => absurd (h 0 hz).1 (by decide), hvalid⟩]

/-! ## Accepted lists -/

theorem mem_of_angleOk {v : Octets} (h : angleOk v) {c : UInt8} (hc : c ∈ v) :
    (0x20 < c ∧ c < 0x80) ∧ c ≠ lt ∧ c ≠ gt := by
  simp only [angleOk, isPrintableASCII, Bool.and_eq_true, List.all_eq_true, decide_eq_true_eq]
    at h
  obtain ⟨⟨hsp, hl⟩, hr⟩ := h.2 c hc
  obtain ⟨hlow, hhigh⟩ := h.1.2 c hc
  exact ⟨⟨UInt8.lt_of_le_of_ne hlow (Ne.symm hsp), UInt8.lt_of_le_of_lt hhigh (by decide)⟩, hl, hr⟩

theorem atoms_text (sep v : Octets) (vals : List Octets) :
    (lt :: (v ++ gt :: if vals = [] then [] else sep)) ++
      (angleAtoms sep vals).flatMap (space :: ·) = angleText sep (v :: vals) := by
  induction vals generalizing v with
  | nil => simp [angleAtoms, angleText]
  | cons w vals ih =>
    rw [angleText, ← ih w,
      angleAtoms]
    simp

section Accepted

variable (hsep : sep = [] ∨ sep = [0x2c])
include hsep

theorem neutral_sep : Neutral sep := by
  rcases hsep with rfl | rfl <;> simp [Neutral, dquote, lparen, backslash]

theorem visible_angleAtoms (h : ∀ v ∈ vals, angleOk v) : ∀ a ∈ angleAtoms sep vals, Visible a := by
  induction vals with
  | nil => simp [angleAtoms]
  | cons v vals ih =>
    intro a ha
    rcases List.mem_cons.mp ha with rfl | ha
    · intro c hc
      simp only [List.mem_cons, List.mem_append] at hc
      rcases hc with rfl | hc | rfl | hc
      · decide
      · exact (mem_of_angleOk (h v List.mem_cons_self) hc).1
      · decide
      · have : c ∈ sep := by split_ifs at hc <;> simp_all
        rcases hsep with rfl | rfl
        · cases this
        · rw [List.mem_singleton.mp this]
          decide
    · exact ih (fun w hw => h w (List.mem_cons_of_mem v hw)) a ha

theorem unfold_foldValue (h : ∀ v ∈ vals, angleOk v) (name : Octets) :
    unfold (sanitizeString (foldValue name (angleAtoms sep vals))) = angleText sep vals := by
  have hvis := visible_angleAtoms hsep h
  cases vals with
  | nil => rfl
  | cons v vals =>
    have hatom := hvis _ List.mem_cons_self
    have hrest : ∀ a ∈ angleAtoms sep vals, Visible a := fun a ha =>
      hvis a (List.mem_cons_of_mem _ ha)
    rw [angleAtoms, foldValue, sanitizeString_of_ascii, unfold_append hatom,
      unfold_foldRest hrest, atoms_text]
    intro c hc
    rcases List.mem_append.mp hc with hc | hc
    · exact ⟨UInt8.lt_trans (by decide) (hatom c hc).1, (hatom c hc).2⟩
    · exact ascii_foldRest hrest _ c hc

end Accepted

/-! ## The reader -/

theorem flatten_angleLoop_sublist (rounds : ℕ) (s : Octets) :
    (angleLoop rounds s).flatten.Sublist s := by
  induction rounds generalizing s with
  | zero => simp [angleLoop]
  | succ rounds ih =>
    rw [angleLoop]
    split
    · exact List.nil_sublist s
    · next c t ht =>
      have hts : t.Sublist s :=
        ((List.sublist_cons_self c t).trans (ht ▸ List.dropWhile_sublist _))
      split_ifs with hgt
      · have hrest := (ih (t.dropWhile (· ≠ gt)).tail).trans (List.tail_sublist _)
        have hv : (removeWSP (t.takeWhile (· ≠ gt))).Sublist (t.takeWhile (· ≠ gt)) :=
          List.filter_sublist
        have hall := hv.append hrest
        rw [List.takeWhile_append_dropWhile] at hall
        dsimp only
        split_ifs
        · exact (List.sublist_append_right _ _).trans (hall.trans hts)
        · exact hall.trans hts
      · exact List.nil_sublist s

theorem angleLoop_append (ha : lt ∉ a) (rounds : ℕ) (s : Octets) :
    angleLoop rounds (a ++ s) = angleLoop rounds s := by
  cases rounds with
  | zero => rfl
  | succ rounds =>
    rw [angleLoop, angleLoop, List.dropWhile_append_of_pos]
    intro c hc
    simpa using fun h : c = lt => ha (h ▸ hc)

theorem angleLoop_angle {v : Octets} (hv : angleOk v) (rounds : ℕ) (s : Octets) :
    angleLoop (rounds + 1) (lt :: (v ++ gt :: s)) = v :: angleLoop rounds s := by
  have hgt : ∀ c ∈ v, decide (c ≠ gt) = true := fun c hc => by
    simpa using (mem_of_angleOk hv hc).2.2
  have hne : v ≠ [] := by
    rintro rfl
    cases hv
  have hwsp : removeWSP v = v := by
    rw [removeWSP, List.filter_eq_self]
    intro c hc
    have hlow := (mem_of_angleOk hv hc).1.1
    simp only [List.mem_cons, List.not_mem_nil, or_false, decide_eq_true_eq]
    rintro (rfl | rfl | rfl | rfl) <;> exact absurd hlow (by decide)
  have htake : (v ++ gt :: s).takeWhile (· ≠ gt) = v := by
    rw [List.takeWhile_append_of_pos hgt]
    simp
  have hdrop : (v ++ gt :: s).dropWhile (· ≠ gt) = gt :: s := by
    rw [List.dropWhile_append_of_pos hgt]
    simp
  have hopen : (lt :: (v ++ gt :: s)).dropWhile (· ≠ lt) =
      lt :: (v ++ gt :: s) := by simp
  simp only [angleLoop, hopen, htake, hdrop, hwsp, hne, List.tail_cons, List.mem_append,
    List.mem_cons, true_or, or_true, if_true, if_false]

theorem angleLoop_angleText (hsep : sep = [] ∨ sep = [0x2c]) (h : ∀ v ∈ vals, angleOk v)
    {rounds : ℕ} (hrounds : vals.length ≤ rounds) :
    angleLoop rounds (angleText sep vals) = vals := by
  induction vals generalizing rounds with
  | nil => cases rounds <;> rfl
  | cons v vals ih =>
    obtain ⟨n, rfl⟩ := Nat.exists_eq_succ_of_ne_zero (Nat.ne_of_gt (Nat.zero_lt_of_lt hrounds))
    have hrest := ih (fun w hw => h w (List.mem_cons_of_mem v hw)) (Nat.le_of_succ_le_succ hrounds)
    rw [angleText, angleLoop_angle (h v List.mem_cons_self)]
    split_ifs with hvals
    · rw [hvals]
      cases n <;> rfl
    · have hgap : lt ∉ sep ++ [space] := by rcases hsep with rfl | rfl <;> decide
      rw [List.append_cons sep space, angleLoop_append hgap, hrest]

theorem length_le_angleText (sep : Octets) (vals : List Octets) :
    vals.length ≤ (angleText sep vals).length := by
  induction vals with
  | nil => exact Nat.le_refl _
  | cons v vals ih =>
    rw [angleText]
    split_ifs with hvals
    · simp [hvals]
    · simp only [List.length_cons, List.length_append]
      omega

theorem angleList_foldValue_iff (hsep : sep = [] ∨ sep = [0x2c]) (h : ∀ v ∈ vals, angleOk v)
    (name : Octets) : angleList (foldValue name (angleAtoms sep vals)) = vals ↔ NoComment vals := by
  have hneutral := neutral_sep hsep
  rw [angleList, stripComments, unfold_foldValue hsep h, NoComment,
    ← commentFree_angleText hneutral (by decide)]
  constructor
  · intro hread
    by_contra hcomment
    -- the parenthesis of the comment is missing in what was read
    have hlost := count_commentLoop_lt rfl (by simpa using hcomment) []
    have hkept := (hread ▸ flatten_angleLoop_sublist _ _ : vals.flatten.Sublist _).count_le lparen
    rw [count_angleText hneutral] at hlost
    exact absurd hlost (Nat.not_lt.mpr hkept)
  · intro hfree
    rw [commentLoop_of_commentFree hfree]
    exact angleLoop_angleText hsep h (length_le_angleText sep vals)

theorem formatAngles_eq_some (h : formatAngles sep vals = some atoms) :
    (∀ v ∈ vals, angleOk v) ∧ atoms = angleAtoms sep vals := by
  unfold formatAngles at h
  split_ifs at h with hok
  exact ⟨List.all_eq_true.mp hok, (Option.some.inj h).symm⟩

/-- **Message ids and URLs that were written** are read back exactly if no comment begins in
    them. -/
theorem angle_lists_readBack_iff (name : Octets) (vals : List Octets) :
    (∀ atoms, formatMessageIDs vals = some atoms →
      (messageIDsForm (foldValue name atoms) = vals ↔ NoComment vals)) ∧
    ∀ atoms, formatURLs vals = some atoms →
      (urlsForm (foldValue name atoms) = vals ↔ NoComment vals) := by
  constructor
  · intro atoms hformat
    obtain ⟨hok, rfl⟩ := formatAngles_eq_some hformat
    exact angleList_foldValue_iff (.inl rfl) hok name
  · intro atoms hformat
    obtain ⟨hok, rfl⟩ := formatAngles_eq_some hformat
    exact angleList_foldValue_iff (.inr rfl) hok name

/-- `a@b` and `c"(d"@e`: the parenthesis is quoted. -/
theorem angle_lists_readBack_quoted :
    urlsForm (foldValue [] [[0x3c, 97, 64, 98, 0x3e, 0x2c],
      [0x3c, 99, 0x22, 0x28, 100, 0x22, 64, 101, 0x3e]]) =
        [[97, 64, 98], [99, 0x22, 0x28, 100, 0x22, 64, 101]] :=
  ((angle_lists_readBack_iff [] _).2 _ rfl).mpr rfl

/-- The message id `a(b)@c` is accepted and read back as `a@c`. -/
theorem angle_lists_comment :
    formatMessageIDs [[97, 0x28, 98, 0x29, 64, 99]] =
        some [[0x3c, 97, 0x28, 98, 0x29, 64, 99, 0x3e]] ∧
      messageIDsForm (foldValue [] [[0x3c, 97, 0x28, 98, 0x29, 64, 99, 0x3e]]) =
        [[97, 64, 99]] := by
  decide

end NaustJmap.Message
