import Mathlib.Data.List.Infix
import Mathlib.Data.List.TakeWhile

/-!
# Searching a text with a pattern

`FindAll` of a regular expression that matches no empty text: at every position that no match
before has consumed, the pattern is tried at the head of what is left. A match is given by the
text from its first element on, which fixes its position, and by its groups.

What is found in a text that is put together from pieces is known piece by piece: a piece in
which no match begins is skipped (`Search.Skips.findAll`), a match is found
(`Search.findAll_of_match`), and an element over which no match reaches separates two searches
(`Search.findAll_barrier`). The second half says this of the patterns that read a keyword, a name
and a punctuation mark (`Search.Header`).
-/

namespace Search

universe u

variable {α β γ : Type u}

/-- A pattern, tried at the head of a text: the groups of the match and what is left. -/
abbrev Pattern (α β : Type u) : Type u := StateT (List α) Option β

/-- A match in a text: the text from its first element on, and its groups. -/
structure Found (α β : Type u) where
  rest : List α
  groups : β

/-- The position of a match in its text. -/
def Found.start (m : Found α β) (text : List α) : ℕ := text.length - m.rest.length

/-- The match, in a text that goes on after the one it was found in. -/
def Found.extend (l : List α) (m : Found α β) : Found α β := ⟨m.rest ++ l, m.groups⟩

/-! ### Patterns -/

/-- A text, as it stands. -/
def lit [DecidableEq α] (w : List α) : Pattern α (List α) := fun l =>
  if w <+: l then some (w, l.drop w.length) else none

/-- Any number of elements of a class, as many as there are. -/
def many (p : α → Bool) : Pattern α (List α) := fun l => some (l.takeWhile p, l.dropWhile p)

/-- One element of a class or more, as many as there are. -/
def many1 (p : α → Bool) : Pattern α (List α) := fun l =>
  if l.takeWhile p = [] then none else some (l.takeWhile p, l.dropWhile p)

theorem bind_apply (f : Pattern α β) (g : β → Pattern α γ) (l : List α) :
    (f >>= g) l = (f l).bind fun m => g m.1 m.2 := rfl

theorem pure_apply (b : β) (l : List α) : (pure b : Pattern α β) l = some (b, l) := rfl

theorem orElse_apply (f g : Pattern α β) (l : List α) : (f <|> g) l = (f l <|> g l) := rfl

theorem lit_append [DecidableEq α] (w l : List α) : lit w (w ++ l) = some (w, l) := by
  rw [lit, if_pos (List.prefix_append w l), List.drop_left]

theorem lit_singleton [DecidableEq α] (a : α) (l : List α) : lit [a] (a :: l) = some ([a], l) :=
  lit_append [a] l

theorem lit_of_not_head [DecidableEq α] {w l : List α} (h : ¬w <+: l) : lit w l = none := if_neg h

section Classes

variable {p : α → Bool} {w l : List α}

theorem takeWhile_append (hw : ∀ a ∈ w, p a = true) (hl : ∀ a ∈ l.head?, p a = false) :
    (w ++ l).takeWhile p = w := by
  rw [List.takeWhile_append_of_pos hw]
  cases l with
  | nil => simp
  | cons a l => rw [List.takeWhile_cons_of_neg (by simp [hl a rfl]), List.append_nil]

theorem dropWhile_append (hw : ∀ a ∈ w, p a = true) (hl : ∀ a ∈ l.head?, p a = false) :
    (w ++ l).dropWhile p = l := by
  rw [List.dropWhile_append_of_pos hw]
  cases l with
  | nil => rfl
  | cons a l => rw [List.dropWhile_cons_of_neg (by simp [hl a rfl])]

theorem many_append (hw : ∀ a ∈ w, p a = true) (hl : ∀ a ∈ l.head?, p a = false) :
    many p (w ++ l) = some (w, l) := by
  rw [many, takeWhile_append hw hl, dropWhile_append hw hl]

theorem many1_append (hne : w ≠ []) (hw : ∀ a ∈ w, p a = true) (hl : ∀ a ∈ l.head?, p a = false) :
    many1 p (w ++ l) = some (w, l) := by
  rw [many1, takeWhile_append hw hl, dropWhile_append hw hl, if_neg hne]

theorem many1_of_head (hl : ∀ a ∈ l.head?, p a = false) : many1 p l = none := by
  have htake : l.takeWhile p = [] := takeWhile_append (fun _ h => absurd h List.not_mem_nil) hl
  rw [many1, if_pos htake]

end Classes

/-! ### The search -/

section FindAll

variable (p : Pattern α β)

/-- The matches, after some elements that a match has consumed. -/
def findAllFrom : ℕ → List α → List (Found α β)
  | _, [] => []
  | skip + 1, _ :: l => findAllFrom skip l
  | 0, a :: l =>
    (p (a :: l)).elim (findAllFrom 0 l) fun m =>
      ⟨a :: l, m.1⟩ :: findAllFrom (l.length - m.2.length) l

/-- **All matches**, from left to right, none of which overlap. -/
def findAll (l : List α) : List (Found α β) := findAllFrom p 0 l

variable {p} {l u v : List α}

theorem findAllFrom_eq (skip : ℕ) (l : List α) :
    findAllFrom p skip l = findAll p (l.drop skip) := by
  induction l generalizing skip with
  | nil => rw [List.drop_nil, findAll, findAllFrom, findAllFrom]
  | cons a l ih =>
    cases skip with
    | zero => rfl
    | succ skip => rw [findAllFrom, ih, List.drop_succ_cons]

@[simp] theorem findAll_nil : findAll p [] = [] := rfl

theorem findAll_of_none {a : α} (h : p (a :: l) = none) : findAll p (a :: l) = findAll p l := by
  rw [findAll, findAllFrom, h, Option.elim_none, findAll]

theorem findAll_cons_of_some {a : α} {m : β × List α} (h : p (a :: l) = some m) :
    findAll p (a :: l) = ⟨a :: l, m.1⟩ :: findAll p (l.drop (l.length - m.2.length)) := by
  rw [findAll, findAllFrom, h, Option.elim_some, findAllFrom_eq]

/-- **A match is found**, and the search goes on behind it. -/
theorem findAll_of_match {t : List α} {b : β} (hsuffix : l <:+ t) (hlt : l.length < t.length)
    (h : p t = some (b, l)) : findAll p t = ⟨t, b⟩ :: findAll p l := by
  cases t with
  | nil => exact absurd hlt (Nat.not_lt_zero _)
  | cons a t =>
    have hl : l <:+ t := by
      rcases List.suffix_cons_iff.mp hsuffix with rfl | hl
      · exact absurd hlt (Nat.lt_irrefl _)
      · exact hl
    rw [findAll_cons_of_some h, ← List.suffix_iff_eq_drop.mp hl]

/-- A match begins in the text. -/
theorem rest_suffix {m : Found α β} (h : m ∈ findAll p l) : m.rest <:+ l := by
  suffices hskip : ∀ skip, m ∈ findAllFrom p skip l → m.rest <:+ l from hskip 0 h
  clear h
  induction l with
  | nil =>
    intro skip h
    rw [findAllFrom] at h
    exact absurd h List.not_mem_nil
  | cons a l ih =>
    intro skip h
    cases skip with
    | succ skip => exact (ih skip h).trans (List.suffix_cons a l)
    | zero =>
      rw [findAllFrom] at h
      rcases hp : p (a :: l) with _ | r
      · rw [hp, Option.elim_none] at h
        exact (ih 0 h).trans (List.suffix_cons a l)
      · rw [hp, Option.elim_some] at h
        rcases List.mem_cons.mp h with rfl | h
        · exact List.suffix_rfl
        · exact (ih _ h).trans (List.suffix_cons a l)

/-- The text from the position of a match on. -/
theorem drop_start {m : Found α β} (h : m ∈ findAll p l) : l.drop (m.start l) = m.rest :=
  (List.suffix_iff_eq_drop.mp (rest_suffix h)).symm

/-! ### Silent pieces -/

/-- **No match begins in a text before the given end of it.** -/
inductive Skips (p : Pattern α β) (l : List α) : List α → Prop
  | refl : Skips p l l
  | cons {a : α} {t : List α} (hp : p (a :: t) = none) (h : Skips p l t) : Skips p l (a :: t)

namespace Skips

variable {t : List α}

theorem trans {k : List α} (h : Skips p l t) (h' : Skips p k l) : Skips p k t := by
  induction h with
  | refl => exact h'
  | cons hp _ ih => exact cons hp ih

theorem findAll (h : Skips p l t) : Search.findAll p t = Search.findAll p l := by
  induction h with
  | refl => rfl
  | cons hp _ ih => rw [findAll_of_none hp, ih]

/-- A pattern that asks for more skips as much. -/
theorem of_refines {q : Pattern α γ} (hq : ∀ l, p l = none → q l = none) (h : Skips p l t) :
    Skips q l t := by
  induction h with
  | refl => exact refl
  | cons hp _ ih => exact cons (hq _ hp) ih

end Skips

theorem findAll_eq_nil_of_suffix (hu : u <:+ l) (h : findAll p l = []) : findAll p u = [] := by
  induction l with
  | nil => rw [List.suffix_nil.mp hu, findAll_nil]
  | cons a l ih =>
    rcases List.suffix_cons_iff.mp hu with rfl | hu
    · exact h
    · rcases hp : p (a :: l) with _ | m
      · rw [findAll_of_none hp] at h
        exact ih hu h
      · rw [findAll_cons_of_some hp] at h
        exact absurd h (List.cons_ne_nil _ _)

/-! ### Barriers -/

/-- **No match reaches over an element**: what is tried before it does not see what follows. -/
def StopsAt (a : α) (p : Pattern α β) : Prop :=
  ∀ u v, p (u ++ a :: v) = (p u).map fun m => (m.1, m.2 ++ a :: v)

namespace StopsAt

variable {a : α}

theorem bind {f : Pattern α β} {g : β → Pattern α γ} (hf : StopsAt a f)
    (hg : ∀ b, StopsAt a (g b)) : StopsAt a (f >>= g) := by
  intro u v
  rw [bind_apply, bind_apply, hf u v]
  cases f u with
  | none => rfl
  | some m => exact hg m.1 m.2 v

theorem pure (b : β) : StopsAt a (Pure.pure b : Pattern α β) := fun _ _ => rfl

theorem lit [DecidableEq α] {w : List α} (ha : a ∉ w) : StopsAt a (lit w) := by
  intro u v
  have hiff : w <+: u ++ a :: v ↔ w <+: u := by
    refine ⟨fun h => ?_, fun h => h.trans (List.prefix_append u _)⟩
    rcases Nat.le_total w.length u.length with hle | hle
    · exact List.prefix_of_prefix_length_le h (List.prefix_append u _) hle
    · obtain ⟨t, rfl⟩ := List.prefix_of_prefix_length_le (List.prefix_append u (a :: v)) h hle
      rw [List.prefix_append_right_inj] at h
      cases t with
      | nil => exact (List.append_nil u).symm ▸ List.prefix_rfl
      | cons b t =>
        rw [List.cons_prefix_cons] at h
        exact absurd (h.1 ▸ List.mem_append_right u List.mem_cons_self) ha
  by_cases h : w <+: u
  · rw [Search.lit, Search.lit, if_pos (hiff.mpr h), if_pos h, Option.map_some,
      List.drop_append_of_le_length h.length_le]
  · rw [Search.lit, Search.lit, if_neg (mt hiff.mp h), if_neg h, Option.map_none]

theorem takeWhile {c : α → Bool} (ha : c a = false) (u v : List α) :
    (u ++ a :: v).takeWhile c = u.takeWhile c := by
  induction u with
  | nil => rw [List.nil_append, List.takeWhile_cons_of_neg (by simp [ha]), List.takeWhile_nil]
  | cons b u ih =>
    rw [List.cons_append, List.takeWhile_cons, List.takeWhile_cons, ih]

theorem dropWhile {c : α → Bool} (ha : c a = false) (u v : List α) :
    (u ++ a :: v).dropWhile c = u.dropWhile c ++ a :: v := by
  induction u with
  | nil => rw [List.nil_append, List.dropWhile_cons_of_neg (by simp [ha]), List.dropWhile_nil,
      List.nil_append]
  | cons b u ih =>
    by_cases hb : c b = true
    · rw [List.cons_append, List.dropWhile_cons_of_pos hb, List.dropWhile_cons_of_pos hb, ih]
    · rw [List.cons_append, List.dropWhile_cons_of_neg hb, List.dropWhile_cons_of_neg hb,
        List.cons_append]

theorem many {c : α → Bool} (ha : c a = false) : StopsAt a (many c) := by
  intro u v
  rw [Search.many, Search.many, takeWhile ha, dropWhile ha, Option.map_some]

theorem many1 {c : α → Bool} (ha : c a = false) : StopsAt a (many1 c) := by
  intro u v
  rw [Search.many1, Search.many1, takeWhile ha, dropWhile ha]
  split_ifs <;> rfl

end StopsAt

variable {a : α}

/-- A piece in which nothing is found is skipped, with the barrier behind it. -/
theorem skips_barrier (hstop : StopsAt a p) (hnil : p [] = none) (h : findAll p u = [])
    (v : List α) : Skips p v (u ++ a :: v) := by
  induction u with
  | nil => exact .cons ((hstop [] v).trans (by rw [hnil, Option.map_none])) .refl
  | cons b u ih =>
    rcases hp : p (b :: u) with _ | m
    · rw [findAll_of_none hp] at h
      have hlonger := hstop (b :: u) v
      rw [hp, Option.map_none] at hlonger
      exact .cons hlonger (ih h)
    · rw [findAll_cons_of_some hp] at h
      exact absurd h (List.cons_ne_nil _ _)

/-- **A barrier separates two searches.** -/
theorem findAll_barrier (hstop : StopsAt a p) (hnil : p [] = none) (u v : List α) :
    findAll p (u ++ a :: v) = (findAll p u).map (Found.extend (a :: v)) ++ findAll p v := by
  have hbarrier : p (a :: v) = none := (hstop [] v).trans (by rw [hnil, Option.map_none])
  suffices hskip : ∀ skip ≤ u.length, findAllFrom p skip (u ++ a :: v) =
      (findAllFrom p skip u).map (Found.extend (a :: v)) ++ findAll p v from
    hskip 0 (Nat.zero_le _)
  induction u with
  | nil =>
    intro skip hle
    rw [List.length_nil, Nat.le_zero] at hle
    subst hle
    exact findAll_of_none hbarrier
  | cons b u ih =>
    intro skip hle
    cases skip with
    | succ skip => exact ih skip (Nat.le_of_succ_le_succ hle)
    | zero =>
      rw [List.cons_append, findAllFrom, findAllFrom, ← List.cons_append, hstop]
      cases p (b :: u) with
      | none => exact ih 0 (Nat.zero_le _)
      | some m =>
        have hlen : (u ++ a :: v).length - (m.2 ++ a :: v).length = u.length - m.2.length := by
          rw [List.length_append, List.length_append]
          omega
        rw [Option.map_some, Option.elim_some, Option.elim_some, hlen, ih _ (Nat.sub_le _ _)]
        rfl

end FindAll

/-! ### A keyword, a name and a punctuation mark -/

/-- What a **header** is made of: a keyword, the blanks, the characters of a name, and the mark
that closes it. -/
structure Header (α : Type u) where
  keyword : List α
  blank : α → Bool
  word : α → Bool
  close : α
  keyword_ne_nil : keyword ≠ []
  word_keyword : ∀ a ∈ keyword, word a = true
  word_of_blank : ∀ a, blank a = true → word a = false
  word_close : word close = false
  blank_close : blank close = false

namespace Header

variable [DecidableEq α] (h : Header α)

/-- `keyword\s+(\w+)\s*close`: the group is the name. -/
def pattern : Pattern α (List α) := do
  let _ ← lit h.keyword
  let _ ← many1 h.blank
  let name ← many1 h.word
  let _ ← many h.blank
  let _ ← lit [h.close]
  return name

variable {h} {g g' name w k l : List α} {a d : α}

omit [DecidableEq α] in
theorem head?_blanks {c : α → Bool} (hg : ∀ a ∈ g, c a = false) (hd : c d = false) :
    ∀ a ∈ (g ++ d :: l).head?, c a = false := by
  cases g with
  | nil => rintro a ⟨⟩; exact hd
  | cons b g => rintro a ⟨⟩; exact hg _ List.mem_cons_self

/-- **A header is matched.** -/
theorem pattern_match (hg : g ≠ []) (hblank : ∀ a ∈ g, h.blank a = true) (hname : name ≠ [])
    (hword : ∀ a ∈ name, h.word a = true) (hblank' : ∀ a ∈ g', h.blank a = true) (l : List α) :
    h.pattern (h.keyword ++ (g ++ (name ++ (g' ++ h.close :: l)))) = some (name, l) := by
  have hhead : ∀ a ∈ (name ++ (g' ++ h.close :: l)).head?, h.blank a = false := by
    obtain ⟨b, name, rfl⟩ := List.exists_cons_of_ne_nil hname
    rintro a ⟨⟩
    by_contra hb
    have hb := h.word_of_blank _ (Bool.not_eq_false _ ▸ hb)
    exact Bool.false_ne_true (hb.symm.trans (hword _ List.mem_cons_self))
  have hafter : ∀ a ∈ (g' ++ h.close :: l).head?, h.word a = false :=
    head?_blanks (fun a ha => h.word_of_blank a (hblank' a ha)) h.word_close
  have hclose : ∀ a ∈ (h.close :: l).head?, h.blank a = false := by
    rintro a ⟨⟩
    exact h.blank_close
  rw [pattern, bind_apply, lit_append, Option.bind_some, bind_apply, many1_append hg hblank hhead,
    Option.bind_some, bind_apply, many1_append hname hword hafter, Option.bind_some, bind_apply,
    many_append hblank' hclose, Option.bind_some, bind_apply, lit_singleton, Option.bind_some,
    pure_apply]

/-- Nothing but the keyword begins a header. -/
theorem pattern_of_not_head (hl : ¬h.keyword <+: l) : h.pattern l = none := by
  rw [pattern, bind_apply, lit_of_not_head hl, Option.bind_none]

@[simp] theorem pattern_nil : h.pattern [] = none :=
  pattern_of_not_head fun hpre => h.keyword_ne_nil (List.prefix_nil.mp hpre)

/-- What the keyword begins with is a character of a word. -/
theorem pattern_of_not_word (ha : h.word a = false) : h.pattern (a :: l) = none := by
  refine pattern_of_not_head fun hpre => ?_
  obtain ⟨b, kw, hkw⟩ := List.exists_cons_of_ne_nil h.keyword_ne_nil
  rw [hkw, List.cons_prefix_cons] at hpre
  have hb := h.word_keyword b (hkw ▸ List.mem_cons_self)
  exact Bool.false_ne_true (ha.symm.trans (hpre.1 ▸ hb))

omit [DecidableEq α] in
/-- The keyword ends before the next character that is none of a word. -/
theorem prefix_of_append (hl : ∀ a ∈ l.head?, h.word a = false) (hpre : h.keyword <+: w ++ l) :
    h.keyword <+: w := by
  rcases Nat.le_total h.keyword.length w.length with hle | hle
  · exact List.prefix_of_prefix_length_le hpre (List.prefix_append w l) hle
  · obtain ⟨t, ht⟩ := List.prefix_of_prefix_length_le (List.prefix_append w l) hpre hle
    rw [← ht, List.prefix_append_right_inj] at hpre
    cases t with
    | nil => exact ⟨[], by rw [← ht, List.append_nil, List.append_nil]⟩
    | cons b t =>
      cases l with
      | nil => exact absurd (List.prefix_nil.mp hpre) (List.cons_ne_nil b t)
      | cons c l =>
        rw [List.cons_prefix_cons] at hpre
        have hb := h.word_keyword b (ht ▸ List.mem_append_right w List.mem_cons_self)
        exact absurd (hb.symm.trans (hpre.1 ▸ hl c rfl)) Bool.false_ne_true.symm

/-! ### What is no header -/

/-- Blanks and punctuation are skipped. -/
theorem skips_of_not_word (hu : ∀ a ∈ g, h.word a = false) (l : List α) :
    Skips h.pattern l (g ++ l) := by
  induction g with
  | nil => exact .refl
  | cons a g ih =>
    exact .cons (pattern_of_not_word (hu a List.mem_cons_self))
      (ih fun b hb => hu b (List.mem_cons_of_mem a hb))

/-- A header has a name: a punctuation mark does not follow its keyword. -/
theorem pattern_word (hw : ∀ a ∈ w, h.blank a = false) (hg : ∀ a ∈ g, h.blank a = true)
    (hd : h.word d = false) (hd' : h.blank d = false) (l : List α) :
    h.pattern (w ++ (g ++ d :: l)) = none := by
  have hafter : ∀ a ∈ (g ++ d :: l).head?, h.word a = false :=
    head?_blanks (fun a ha => h.word_of_blank a (hg a ha)) hd
  have hmark : ∀ c : α → Bool, c d = false → ∀ a ∈ (d :: l).head?, c a = false := by
    rintro c hc a ⟨⟩
    exact hc
  by_cases hpre : h.keyword <+: w ++ (g ++ d :: l)
  · obtain ⟨r, rfl⟩ := prefix_of_append hafter hpre
    rw [pattern, bind_apply, List.append_assoc, lit_append, Option.bind_some, bind_apply]
    by_cases hr : r = []
    · subst hr
      rw [List.nil_append]
      by_cases hne : g = []
      · subst hne
        rw [List.nil_append, many1_of_head (hmark _ hd'), Option.bind_none]
      · rw [many1_append hne hg (hmark _ hd'), Option.bind_some, bind_apply,
          many1_of_head (hmark _ hd), Option.bind_none]
    · have hhead : ∀ a ∈ (r ++ (g ++ d :: l)).head?, h.blank a = false := by
        obtain ⟨b, r, rfl⟩ := List.exists_cons_of_ne_nil hr
        rintro a ⟨⟩
        exact hw _ (List.mem_append_right _ List.mem_cons_self)
      rw [many1_of_head hhead, Option.bind_none]
  · exact pattern_of_not_head hpre

/-- **A word before a punctuation mark** is skipped. -/
theorem skips_word (hw : ∀ a ∈ w, h.blank a = false) (hg : ∀ a ∈ g, h.blank a = true)
    (hd : h.word d = false) (hd' : h.blank d = false) (l : List α) :
    Skips h.pattern l (w ++ (g ++ d :: l)) := by
  induction w with
  | nil =>
    refine .trans ?_ (.cons (pattern_of_not_word hd) .refl)
    exact skips_of_not_word (fun a ha => h.word_of_blank a (hg a ha)) _
  | cons a w ih =>
    exact .cons (pattern_word hw hg hd hd' l) (ih fun b hb => hw b (List.mem_cons_of_mem a hb))

/-- **Another keyword**, with a blank behind it, is skipped. -/
theorem skips_keyword (hk : ¬h.keyword <:+: k) (hne : g ≠ []) (hg : ∀ a ∈ g, h.blank a = true)
    (l : List α) : Skips h.pattern l (k ++ (g ++ l)) := by
  have hafter : ∀ a ∈ (g ++ l).head?, h.word a = false := by
    obtain ⟨b, g, rfl⟩ := List.exists_cons_of_ne_nil hne
    rintro a ⟨⟩
    exact h.word_of_blank _ (hg _ List.mem_cons_self)
  induction k with
  | nil => exact skips_of_not_word (fun a ha => h.word_of_blank a (hg a ha)) l
  | cons a k ih =>
    refine .cons (pattern_of_not_head fun hpre => ?_)
      (ih fun hinf => hk (hinf.trans (List.suffix_cons a k).isInfix))
    exact hk (prefix_of_append hafter hpre).isInfix

/-- A match of a header does not reach over a mark that it has no place for. -/
theorem stopsAt (hd : h.word d = false) (hd' : h.blank d = false) (hclose : d ≠ h.close) :
    StopsAt d h.pattern := by
  have hkw : d ∉ h.keyword := fun hmem =>
    Bool.false_ne_true (hd.symm.trans (h.word_keyword d hmem))
  refine .bind (.lit hkw) fun _ => .bind (.many1 hd') fun _ => .bind (.many1 hd) fun name => ?_
  exact .bind (.many hd') fun _ => .bind (.lit (by simpa using hclose)) fun _ => .pure name

end Header

end Search
