import Mathlib.Algebra.Order.Ring.Int
import Mathlib.Data.List.TakeWhile
import Gortex.Lib.GoString

/-!
# Go texts

More of Go's `strings` package, and of `strconv`, for texts that are read piece by piece: cutting
at a separator, the fields between the blanks, and numbers. The lemmas say what is read of a text
of which the pieces are known.
-/

namespace GoText

open GoString

/-! ### Cutting -/

section Cut

variable {α : Type*} [DecidableEq α]

/-- `strings.Cut`, at a separator that is not empty: what stands before its first occurrence,
and what stands after it. -/
def cut (sep : List α) : List α → Option (List α × List α)
  | [] => none
  | a :: l =>
    if sep.isPrefixOf (a :: l) = true then some ([], (a :: l).drop sep.length)
    else (cut sep l).map fun m => (a :: m.1, m.2)

/-- `strings.SplitN`, for a positive number of pieces. -/
def splitN (sep : List α) : ℕ → List α → List (List α)
  | 0, _ => []
  | 1, l => [l]
  | n + 2, l => (cut sep l).elim [l] fun m => m.1 :: splitN sep (n + 1) m.2

theorem cut_append {s : α} {l : List α} (h : s ∉ l) (sep r : List α) :
    cut (s :: sep) (l ++ (s :: sep) ++ r) = some (l, r) := by
  induction l with
  | nil =>
    have hpre : (s :: sep).isPrefixOf (s :: sep ++ r) = true :=
      List.isPrefixOf_iff_prefix.mpr (List.prefix_append _ _)
    rw [List.nil_append, List.cons_append, cut, ← List.cons_append, if_pos hpre, List.drop_left]
  | cons a l ih =>
    rw [List.mem_cons, not_or] at h
    have hpre : (s :: sep).isPrefixOf (a :: (l ++ (s :: sep) ++ r)) = false := by
      rw [List.isPrefixOf, beq_eq_false_iff_ne.mpr h.1, Bool.false_and]
    rw [List.cons_append, List.cons_append, cut, hpre, if_neg Bool.false_ne_true, ih h.2,
      Option.map_some]

theorem cut_of_notMem {s : α} {l : List α} (h : s ∉ l) (sep : List α) :
    cut (s :: sep) l = none := by
  induction l with
  | nil => rfl
  | cons a l ih =>
    rw [List.mem_cons, not_or] at h
    rw [cut, List.isPrefixOf, beq_eq_false_iff_ne.mpr h.1, Bool.false_and,
      if_neg Bool.false_ne_true, ih h.2, Option.map_none]

end Cut

/-! ### Fields -/

/-- `strings.TrimSpace`. -/
def trimSpace (l : List Char) : List Char :=
  ((l.dropWhile isSpace).reverse.dropWhile isSpace).reverse

/-- `strings.Fields`. -/
def fields (l : List Char) : List (List Char) := (l.splitOnP isSpace).filter fun w => w ≠ []

/-- A text that begins and ends with something that is not a blank, between blanks. -/
theorem trimSpace_between {l b t : List Char} (hb : ∀ c ∈ b, isSpace c = true)
    (ht : ∀ c ∈ t, isSpace c = true) (hhead : ∀ c ∈ l.head?, isSpace c = false)
    (hlast : ∀ c ∈ l.getLast?, isSpace c = false) : trimSpace (b ++ l ++ t) = l := by
  have hdrop : ∀ (u v : List Char), (∀ c ∈ u, isSpace c = true) →
      (∀ c ∈ v.head?, isSpace c = false) → (u ++ v).dropWhile isSpace = v := by
    intro u v hu hv
    rw [List.dropWhile_append_of_pos hu]
    cases v with
    | nil => rfl
    | cons c v => rw [List.dropWhile_cons_of_neg (by rw [hv c rfl]; exact Bool.false_ne_true)]
  cases l with
  | nil =>
    have hall : ∀ c ∈ b ++ t, isSpace c = true := fun c hc =>
      (List.mem_append.mp hc).elim (hb c) (ht c)
    rw [trimSpace, List.append_nil, List.dropWhile_eq_nil_iff.mpr hall]
    rfl
  | cons c l =>
    rw [trimSpace, List.append_assoc, hdrop b _ hb (by simpa using hhead), List.reverse_append,
      hdrop t.reverse _ (fun c hc => ht c (List.mem_reverse.mp hc))
        (by rw [List.head?_reverse]; exact hlast), List.reverse_reverse]

/-- Blanks in front do not count. -/
theorem trimSpace_blanks_append {b : List Char} (h : ∀ c ∈ b, isSpace c = true) (l : List Char) :
    trimSpace (b ++ l) = trimSpace l := by
  rw [trimSpace, List.dropWhile_append_of_pos h, trimSpace]

/-- Blanks at the end do not count. -/
theorem trimSpace_append_blanks {b : List Char} (h : ∀ c ∈ b, isSpace c = true) (l : List Char) :
    trimSpace (l ++ b) = trimSpace l := by
  have hrev : ∀ c ∈ b.reverse, isSpace c = true := fun c hc => h c (List.mem_reverse.mp hc)
  unfold trimSpace
  by_cases hl : ∀ c ∈ l, isSpace c = true
  · have hall : ∀ c ∈ l ++ b, isSpace c = true := fun c hc =>
      (List.mem_append.mp hc).elim (hl c) (h c)
    rw [List.dropWhile_eq_nil_iff.mpr hall, List.dropWhile_eq_nil_iff.mpr hl]
  · have hne : (l ++ b).dropWhile isSpace = l.dropWhile isSpace ++ b := by
      rw [List.dropWhile_append, if_neg]
      simpa using hl
    rw [hne, List.reverse_append, List.dropWhile_append_of_pos hrev]

/-- What is in front of a text stays in front, if it does not begin or end with a blank. -/
theorem isPrefix_trimSpace {w : List Char} (hne : w ≠ []) (hhead : ∀ c ∈ w.head?, isSpace c = false)
    (hlast : ∀ c ∈ w.getLast?, isSpace c = false) (l : List Char) : w <+: trimSpace (w ++ l) := by
  have hdrop : ∀ u v : List Char, u ≠ [] → (∀ c ∈ u.head?, isSpace c = false) →
      (u ++ v).dropWhile isSpace = u ++ v := by
    intro u v hu hc
    obtain ⟨c, u, rfl⟩ := List.exists_cons_of_ne_nil hu
    rw [List.cons_append, List.dropWhile_cons_of_neg (by rw [hc c rfl]; exact Bool.false_ne_true)]
  have hback : (l.reverse ++ w.reverse).dropWhile isSpace =
      l.reverse.dropWhile isSpace ++ w.reverse := by
    have hw := hdrop w.reverse [] (mt List.reverse_eq_nil_iff.mp hne)
      (by rw [List.head?_reverse]; exact hlast)
    rw [List.append_nil] at hw
    rw [List.dropWhile_append]
    split_ifs with hnil
    · rw [hw, List.isEmpty_iff.mp hnil, List.nil_append]
    · rfl
  rw [trimSpace, hdrop w l hne hhead, List.reverse_append, hback, List.reverse_append,
    List.reverse_reverse]
  exact List.prefix_append _ _

theorem trimSpace_eq_self {l : List Char} (hhead : ∀ c ∈ l.head?, isSpace c = false)
    (hlast : ∀ c ∈ l.getLast?, isSpace c = false) : trimSpace l = l := by
  have hnil : ∀ c ∈ ([] : List Char), isSpace c = true := fun c hc => absurd hc List.not_mem_nil
  have := trimSpace_between (b := []) (t := []) hnil hnil hhead hlast
  rwa [List.nil_append, List.append_nil] at this

/-- A trimmed text begins and ends with something that is not a blank. -/
theorem trimSpace_ends (l : List Char) : (∀ c ∈ (trimSpace l).head?, isSpace c = false) ∧
    ∀ c ∈ (trimSpace l).getLast?, isSpace c = false := by
  have hdrop : ∀ (l : List Char), ∀ c ∈ (l.dropWhile isSpace).head?, isSpace c = false := by
    intro l c hc
    have := List.head?_dropWhile_not isSpace l
    rw [hc] at this
    simpa using this
  constructor
  · intro c hc
    have hpre : trimSpace l <+: l.dropWhile isSpace := by
      rw [trimSpace, ← List.reverse_suffix, List.reverse_reverse]
      exact List.dropWhile_suffix _
    obtain ⟨t, ht⟩ := hpre
    refine hdrop l c ?_
    rw [← ht]
    exact List.mem_head?_append_of_mem_head? hc
  · intro c hc
    rw [trimSpace, List.getLast?_reverse] at hc
    exact hdrop _ c hc

/-- What is trimmed. -/
theorem exists_trimSpace (l : List Char) : ∃ b b', (∀ c ∈ b, isSpace c = true) ∧
    (∀ c ∈ b', isSpace c = true) ∧ l = b ++ trimSpace l ++ b' := by
  set m := l.dropWhile isSpace with hm
  refine ⟨l.takeWhile isSpace, (m.reverse.takeWhile isSpace).reverse, fun c hc => ?_,
    fun c hc => ?_, ?_⟩
  · exact List.mem_takeWhile_imp hc
  · exact List.mem_takeWhile_imp (List.mem_reverse.mp hc)
  · have hback : trimSpace l ++ (m.reverse.takeWhile isSpace).reverse = m := by
      rw [trimSpace, ← List.reverse_append, List.takeWhile_append_dropWhile, List.reverse_reverse]
    rw [List.append_assoc, hback, hm, List.takeWhile_append_dropWhile]

theorem trimSpace_eq_nil_iff {l : List Char} : trimSpace l = [] ↔ ∀ c ∈ l, isSpace c = true := by
  constructor
  · intro h c hc
    obtain ⟨b, b', hb, hb', heq⟩ := exists_trimSpace l
    rw [h, List.append_nil] at heq
    rw [heq] at hc
    exact (List.mem_append.mp hc).elim (hb c) (hb' c)
  · intro h
    have hall := trimSpace_blanks_append h []
    rwa [List.append_nil] at hall

/-- Trimming takes no character that is not blank. -/
theorem countP_trimSpace (l : List Char) :
    (trimSpace l).countP (fun c => !isSpace c) = l.countP fun c => !isSpace c := by
  obtain ⟨b, b', hb, hb', heq⟩ := exists_trimSpace l
  have hzero : ∀ u : List Char, (∀ c ∈ u, isSpace c = true) →
      u.countP (fun c => !isSpace c) = 0 := fun u hu =>
    List.countP_eq_zero.mpr fun c hc => by rw [hu c hc]; exact Bool.false_ne_true
  calc (trimSpace l).countP (fun c => !isSpace c)
      = (b ++ trimSpace l ++ b').countP (fun c => !isSpace c) := by
        rw [List.countP_append, List.countP_append, hzero b hb, hzero b' hb', zero_add, add_zero]
    _ = l.countP fun c => !isSpace c := by rw [← heq]

/-- **A text that goes on is not trimmed to the same**, if it goes on with more than blanks. -/
theorem trimSpace_ne_append {c : Char} (hc : isSpace c = false) (u v : List Char) :
    trimSpace u ≠ trimSpace (u ++ c :: v) := by
  intro h
  have hcount := congrArg (List.countP fun c => !isSpace c) h
  rw [countP_trimSpace, countP_trimSpace, List.countP_append,
    List.countP_cons_of_pos (by rw [hc]; rfl)] at hcount
  omega

theorem length_trimSpace_le (l : List Char) : (trimSpace l).length ≤ l.length := by
  rw [trimSpace, List.length_reverse]
  refine ((List.dropWhile_suffix _).length_le).trans ?_
  rw [List.length_reverse]
  exact (List.dropWhile_suffix _).length_le

theorem fields_nil : fields [] = [] := rfl

theorem fields_of_forall {w : List Char} (hne : w ≠ []) (h : ∀ c ∈ w, isSpace c = false) :
    fields w = [w] := by
  rw [fields, List.splitOnP_eq_singleton h]
  exact List.filter_cons_of_pos (decide_eq_true hne)

theorem fields_cons {c : Char} (hc : isSpace c = true) (l : List Char) :
    fields (c :: l) = fields l := by
  rw [fields, List.splitOnP_cons_eq_if_modifyHead, if_pos hc, fields]
  exact List.filter_cons_of_neg (by simp)

theorem fields_append {w : List Char} (hne : w ≠ []) (h : ∀ c ∈ w, isSpace c = false) {c : Char}
    (hc : isSpace c = true) (l : List Char) : fields (w ++ c :: l) = w :: fields l := by
  rw [fields, List.splitOnP_append_cons_of_forall_mem h c hc, fields]
  exact List.filter_cons_of_pos (decide_eq_true hne)

/-- The fields on both sides of a blank. -/
theorem fields_append_cons {c : Char} (hc : isSpace c = true) (l l' : List Char) :
    fields (l ++ c :: l') = fields l ++ fields l' := by
  rw [fields, List.splitOnP_append_cons l l' hc, List.filter_append]
  rfl

/-- Blanks in front do not count. -/
theorem fields_blanks_append {b : List Char} (hb : ∀ c ∈ b, isSpace c = true) (l : List Char) :
    fields (b ++ l) = fields l := by
  induction b with
  | nil => rfl
  | cons c b ih =>
    rw [List.forall_mem_cons] at hb
    rw [List.cons_append, fields_cons hb.1, ih hb.2]

/-- Blanks at the end do not count. -/
theorem fields_append_blanks {b : List Char} (hb : ∀ c ∈ b, isSpace c = true) (l : List Char) :
    fields (l ++ b) = fields l := by
  cases b with
  | nil => rw [List.append_nil]
  | cons c b =>
    rw [List.forall_mem_cons] at hb
    have hrest : fields b = [] := by
      have h := fields_blanks_append hb.2 []
      rwa [List.append_nil, fields_nil] at h
    rw [fields_append_cons hb.1, hrest, List.append_nil]

/-- Trimming leaves the fields. -/
theorem fields_trimSpace (l : List Char) : fields (trimSpace l) = fields l := by
  obtain ⟨b, b', hb, hb', heq⟩ := exists_trimSpace l
  conv_rhs => rw [heq, fields_append_blanks hb', fields_blanks_append hb]

/-- **A field** is not empty, contains no blank, and is not longer than the text. -/
theorem of_mem_fields {w l : List Char} (h : w ∈ fields l) :
    w ≠ [] ∧ (∀ c ∈ w, isSpace c = false) ∧ w.length ≤ l.length := by
  have hsplit : ∀ l : List Char, ∀ w ∈ l.splitOnP isSpace,
      (∀ c ∈ w, isSpace c = false) ∧ w.length ≤ l.length := by
    intro l
    induction l with
    | nil =>
      intro w hw
      rw [List.splitOnP_nil, List.mem_singleton] at hw
      exact ⟨fun c hc => absurd (hw ▸ hc) List.not_mem_nil, by rw [hw]⟩
    | cons a l ih =>
      intro w hw
      rw [List.splitOnP_cons_eq_if_modifyHead] at hw
      cases ha : isSpace a with
      | true =>
        rw [ha, if_pos rfl] at hw
        rcases List.mem_cons.mp hw with rfl | hw
        · exact ⟨fun c hc => absurd hc List.not_mem_nil, Nat.zero_le _⟩
        · exact ⟨(ih w hw).1, (ih w hw).2.trans (Nat.le_succ _)⟩
      | false =>
        rw [ha, if_neg Bool.false_ne_true] at hw
        obtain ⟨first, rest, heq⟩ := List.exists_cons_of_ne_nil (List.splitOnP_ne_nil isSpace l)
        rw [heq, List.modifyHead_cons] at hw
        rw [heq] at ih
        rcases List.mem_cons.mp hw with rfl | hw
        · obtain ⟨hspace, hlen⟩ := ih first List.mem_cons_self
          refine ⟨fun c hc => ?_, Nat.succ_le_succ hlen⟩
          rcases List.mem_cons.mp hc with rfl | hc
          · exact ha
          · exact hspace c hc
        · have := ih w (List.mem_cons_of_mem first hw)
          exact ⟨this.1, this.2.trans (Nat.le_succ _)⟩
  obtain ⟨hmem, hne⟩ := List.mem_filter.mp h
  exact ⟨of_decide_eq_true hne, hsplit l w hmem⟩

theorem fields_ne_nil {l : List Char} {c : Char} (hmem : c ∈ l) (hc : isSpace c = false) :
    fields l ≠ [] := by
  induction l with
  | nil => exact absurd hmem List.not_mem_nil
  | cons a l ih =>
    cases ha : isSpace a with
    | true =>
      rw [fields_cons ha]
      rcases List.mem_cons.mp hmem with rfl | hmem
      · rw [ha] at hc
        exact Bool.noConfusion hc
      · exact ih hmem
    | false =>
      obtain ⟨first, rest, heq⟩ := List.exists_cons_of_ne_nil (List.splitOnP_ne_nil isSpace l)
      rw [fields, List.splitOnP_cons_eq_if_modifyHead, ha, if_neg Bool.false_ne_true, heq,
        List.modifyHead_cons, List.filter_cons_of_pos (by simp)]
      exact List.cons_ne_nil _ _

/-- **The last field** of a text that does not end in a blank. -/
theorem getLast?_fields {u w : List Char} (hne : w ≠ []) (hw : ∀ c ∈ w, isSpace c = false)
    (hu : ∀ c ∈ u.getLast?, isSpace c = true) : (fields (u ++ w)).getLast? = some w := by
  rcases List.eq_nil_or_concat u with rfl | ⟨u, c, rfl⟩
  · rw [List.nil_append, fields_of_forall hne hw, List.getLast?_singleton]
  · rw [List.concat_eq_append, List.append_assoc, List.singleton_append,
      fields_append_cons (hu c (by rw [List.concat_eq_append, List.getLast?_concat]; rfl)),
      fields_of_forall hne hw, List.getLast?_concat]

/-- A text of one field, between no blanks, is this field. -/
theorem not_isSpace_of_length_fields {l : List Char} (hhead : ∀ c ∈ l.head?, isSpace c = false)
    (hlast : ∀ c ∈ l.getLast?, isSpace c = false) (hlen : (fields l).length ≤ 1) :
    ∀ c ∈ l, isSpace c = false := by
  intro c hc
  rw [← Bool.not_eq_true]
  intro hspace
  obtain ⟨u, v, rfl⟩ := List.append_of_mem hc
  -- there is a field on both sides of the blank
  have hu : fields u ≠ [] := by
    cases u with
    | nil => exact absurd (hhead c rfl) (by rw [hspace]; exact Bool.noConfusion)
    | cons a u => exact fields_ne_nil List.mem_cons_self (hhead a rfl)
  have hv : fields v ≠ [] := by
    rcases List.eq_nil_or_concat v with rfl | ⟨v, a, rfl⟩
    · exact absurd (hlast c (by rw [List.getLast?_concat]; rfl))
        (by rw [hspace]; exact Bool.noConfusion)
    · refine fields_ne_nil (c := a) (by simp) (hlast a ?_)
      rw [List.concat_eq_append, ← List.cons_append, ← List.append_assoc, List.getLast?_concat]
      rfl
  rw [fields_append_cons hspace, List.length_append] at hlen
  have := List.length_pos_of_ne_nil hu
  have := List.length_pos_of_ne_nil hv
  omega

/-! ### Numbers -/

/-- `strconv.ParseUint` for decimal numbers of 64 bits, after some digits. A number that is too
large is not read to its end. -/
def parseUint : ℕ → List Char → Option ℕ
  | n, [] => some n
  | n, c :: l =>
    if c.isDigit = true then
      let n' := 10 * n + (c.toNat - '0'.toNat)
      if 2 ^ 64 ≤ n' then some n' else parseUint n' l
    else none

/-- `strconv.Atoi`: the number, and whether there is no error. For a number that is out of range
it is the nearest one, and otherwise zero if there is an error. -/
def atoi (l : List Char) : ℤ × Bool :=
  let negative := l.head? = some '-'
  let digits := if l.head? = some '-' ∨ l.head? = some '+' then l.tail else l
  match if digits = [] then none else parseUint 0 digits with
  | none => (0, false)
  | some n =>
    if negative then if n ≤ 2 ^ 63 then (-n, true) else (-2 ^ 63, false)
    else if n < 2 ^ 63 then (n, true) else (2 ^ 63 - 1, false)

theorem le_ofDigitChars (l : List Char) (n : ℕ) : n ≤ Nat.ofDigitChars 10 l n := by
  induction l generalizing n with
  | nil => exact le_rfl
  | cons c l ih =>
    rw [Nat.ofDigitChars_cons]
    exact (by omega : n ≤ 10 * n + (c.toNat - '0'.toNat)).trans (ih _)

theorem parseUint_eq {l : List Char} (hdigit : ∀ c ∈ l, c.isDigit = true) {n : ℕ}
    (hlt : Nat.ofDigitChars 10 l n < 2 ^ 64) : parseUint n l = some (Nat.ofDigitChars 10 l n) := by
  induction l generalizing n with
  | nil => rfl
  | cons c l ih =>
    rw [Nat.ofDigitChars_cons] at hlt ⊢
    have hle := le_ofDigitChars l (10 * n + (c.toNat - '0'.toNat))
    rw [parseUint, if_pos (hdigit c List.mem_cons_self),
      if_neg (Nat.not_le_of_lt (hle.trans_lt hlt))]
    exact ih (fun c' hc' => hdigit c' (List.mem_cons_of_mem c hc')) hlt

/-- **The decimal digits of a number** are read back. -/
theorem atoi_toDigits {n : ℕ} (h : n < 2 ^ 63) : atoi (Nat.toDigits 10 n) = ((n : ℤ), true) := by
  have hdigit : ∀ c ∈ Nat.toDigits 10 n, c.isDigit = true := fun c hc =>
    Nat.isDigit_of_mem_toDigits (by decide) (by decide) hc
  have hne : Nat.toDigits 10 n ≠ [] := Nat.toDigits_ne_nil
  have hsign : ∀ c : Char, c.isDigit = false → (Nat.toDigits 10 n).head? ≠ some c := by
    intro c hc heq
    have := hdigit c (List.mem_of_mem_head? heq)
    rw [hc] at this
    exact Bool.false_ne_true this
  have hread : parseUint 0 (Nat.toDigits 10 n) = some n := by
    rw [parseUint_eq hdigit, Nat.ofDigitChars_ten_toDigits]
    rw [Nat.ofDigitChars_ten_toDigits]
    omega
  have hminus := hsign '-' (by decide)
  have hplus := hsign '+' (by decide)
  simp only [atoi, hminus, hplus, or_self, if_false, hne, hread, h, if_true]

end GoText
