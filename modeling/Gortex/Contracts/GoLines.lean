import Gortex.Contracts.GoFields

/-!
# The lines of a struct declaration

What the expression for a field finds in the line of a field declaration
(`Gortex.GoShape.find_goFieldRe`): the names are as short as the rest of the expression allows,
and no shorter text before a blank will do, since the rest of the expression would have to match at
a name and then at a comma, or at the type and what comes behind it.
-/

namespace Gortex

namespace GoShape

open ContractRegistry (isWordChar isBlank trimChars)
open Backtrack (Matcher sat lit many manyLazy many1 opt eof find bind_of_nil bind_of_singleton
  bind_eq_nil head?_bind opt_of_nil head?_opt)

/-! ### Characters -/

theorem Blanks.isBlank (b : Blanks) : ∀ c ∈ b.chars, isBlank c = true := by
  intro c hc
  rcases b.blank c hc with rfl | rfl <;> decide

theorem Spaces.isBlank (b : Spaces) : ∀ c ∈ b.chars, isBlank c = true := by
  intro c hc
  rw [b.space c hc]
  decide

theorem isBlank_of_isWordChar {c : Char} (h : isWordChar c = true) : isBlank c = false := by
  by_contra hblank
  have hc : c ∈ [' ', '\t', '\n', '\x0c', '\r'] := of_decide_eq_true (Bool.not_eq_false _ ▸ hblank)
  have hall : [' ', '\t', '\n', '\x0c', '\r'].all (fun d => !isWordChar d) = true := by decide
  have hnot : isWordChar c = false := Bool.not_eq_true' _ ▸ List.all_eq_true.mp hall c hc
  exact Bool.false_ne_true (hnot.symm.trans h)

theorem isWordChar_of_isTypeStart {c : Char} (h : isTypeStart c = true) : isWordChar c = true := by
  unfold isTypeStart at h
  unfold isWordChar
  rw [Bool.or_eq_true] at h ⊢
  exact h.imp_left fun h => by rw [Char.isAlphanum, h, Bool.true_or]

theorem FieldName.word_chars (n : FieldName) : ∀ c ∈ n.chars, isWordChar c = true :=
  List.forall_mem_cons.mpr ⟨isWordChar_of_isTypeStart n.start, n.word⟩

/-- A text that begins with something else than a blank, a backquote or a slash. -/
def Solid (l : List Char) : Prop :=
  ∃ c t, l = c :: t ∧ isBlank c = false ∧ c ≠ '`' ∧ c ≠ '/'

theorem solid_of_isWordChar {c : Char} (h : isWordChar c = true) (t : List Char) :
    Solid (c :: t) := by
  refine ⟨c, t, rfl, isBlank_of_isWordChar h, ?_, ?_⟩
  · rintro rfl
    exact absurd h (by decide)
  · rintro rfl
    exact absurd h (by decide)

/-- Some of the blanks at the head of a text are taken off. -/
theorem split_blanks {b l u v : List Char} (hl : ∀ c ∈ l.head?, isBlank c = false)
    (h : b ++ l = u ++ v) (hu : ∀ c ∈ u, isBlank c = true) :
    ∃ b', b = u ++ b' ∧ v = b' ++ l := by
  rcases List.append_eq_append_iff.mp h with ⟨s, rfl, hs⟩ | ⟨s, rfl, rfl⟩
  · cases s with
    | nil => exact ⟨[], by rw [List.append_nil, List.append_nil], hs.symm⟩
    | cons c s =>
      have hc := hl c (by rw [hs]; rfl)
      rw [hu c (List.mem_append_right b List.mem_cons_self)] at hc
      exact absurd hc (Bool.false_ne_true ·.symm)
  · exact ⟨s, rfl, rfl⟩

/-! ### What does not match -/

theorem lit_eq_nil {c d : Char} {w t : List Char} (h : c ≠ d) : lit (c :: w) (d :: t) = [] :=
  Backtrack.lit_of_not_head fun hpre => h (List.cons_prefix_cons.mp hpre).1

/-- What follows a type is a tag, a comment or the end. -/
theorem fieldEndRe_eq_nil {b l : List Char} (hb : ∀ c ∈ b, isBlank c = true) (hl : Solid l) :
    fieldEndRe (b ++ l) = [] := by
  obtain ⟨c, t, rfl, hc, hquote, hslash⟩ := hl
  have hhead : ∀ d ∈ (c :: t).head?, isBlank d = false := by
    rintro d ⟨⟩
    exact hc
  -- behind some of the blanks there is a blank or the character
  have hne : ∀ b' : List Char, (∀ d ∈ b', isBlank d = true) →
      ∃ d t', b' ++ c :: t = d :: t' ∧ d ≠ '`' ∧ d ≠ '/' := by
    intro b' hb'
    cases b' with
    | nil => exact ⟨c, t, rfl, hquote, hslash⟩
    | cons d b' =>
      refine ⟨d, _, rfl, ?_, ?_⟩
      · rintro rfl
        exact absurd (hb' _ List.mem_cons_self) (by decide)
      · rintro rfl
        exact absurd (hb' _ List.mem_cons_self) (by decide)
  have htag : tagRe (b ++ c :: t) = [] := by
    refine bind_eq_nil fun r hr => bind_of_nil ?_
    obtain ⟨heq, -, hall⟩ := Backtrack.mem_many1 hr
    obtain ⟨b', rfl, hrest⟩ := split_blanks hhead heq hall
    obtain ⟨d, t', hd, hquote', -⟩ := hne b' fun a ha => hb a (List.mem_append_right _ ha)
    rw [hrest, hd]
    exact lit_eq_nil hquote'.symm
  rw [fieldEndRe, bind_of_singleton (opt_of_nil htag [])]
  refine bind_eq_nil fun r hr => ?_
  obtain ⟨heq, hall⟩ := Backtrack.mem_many hr
  obtain ⟨b', rfl, hrest⟩ := split_blanks hhead heq hall
  obtain ⟨d, t', hd, -, hslash'⟩ := hne b' fun a ha => hb a (List.mem_append_right _ ha)
  have hcomment : commentRe (d :: t') = [] := bind_of_nil (lit_eq_nil hslash'.symm)
  rw [hrest, hd, bind_of_singleton (opt_of_nil hcomment [])]
  exact bind_of_nil (Backtrack.eof_cons d t')

/-- A type begins with a star, a bracket or a letter. -/
theorem typeExprRe_eq_nil {c : Char} (t : List Char) (hstar : c ≠ '*') (hbracket : c ≠ '[')
    (hstart : isTypeStart c = false) : typeExprRe (c :: t) = [] := by
  have hm : c ≠ 'm' := by
    rintro rfl
    exact absurd hstart (by decide)
  have hcontainer : (lit ['[', ']'] <|> mapPrefix) (c :: t) = [] := by
    rw [Backtrack.orElse_apply, lit_eq_nil hbracket.symm, List.nil_append]
    exact bind_of_nil (lit_eq_nil hm.symm)
  rw [typeExprRe, bind_of_singleton (opt_of_nil (lit_eq_nil hstar.symm) []),
    bind_of_singleton (opt_of_nil hcontainer [])]
  refine bind_of_nil (bind_of_nil (Backtrack.sat_of_head ?_))
  rintro d ⟨⟩
  exact hstart

/-- No type begins with a blank. -/
theorem typeExprRe_blank {c : Char} (h : isBlank c = true) (t : List Char) :
    typeExprRe (c :: t) = [] := by
  have hc : c ∈ [' ', '\t', '\n', '\x0c', '\r'] := of_decide_eq_true h
  have hall : [' ', '\t', '\n', '\x0c', '\r'].all
      (fun d => decide (d ≠ '*') && decide (d ≠ '[') && !isTypeStart d) = true := by decide
  have hthis := List.all_eq_true.mp hall c hc
  rw [Bool.and_eq_true, Bool.and_eq_true, decide_eq_true_eq, decide_eq_true_eq,
    Bool.not_eq_true'] at hthis
  exact typeExprRe_eq_nil t hthis.1.1 hthis.1.2 hthis.2

/-! ### Names -/

/-- A text that no type goes on in. -/
def EndsType (l : List Char) : Prop := ∀ c ∈ l.head?, isTypeChar c = false

theorem not_prefix_map {w l : List Char} (hw : ∀ c ∈ w, isWordChar c = true) (hne : w ≠ [])
    (hl : EndsType l) : ¬['m', 'a', 'p', '['] <+: w ++ l := by
  rintro ⟨t, ht⟩
  have hword : ∀ c ∈ ['a', 'p', '['], c ∈ l.head? → False := by
    intro c hc hmem
    have hall : ['a', 'p', '['].all isTypeChar = true := by decide
    exact Bool.false_ne_true ((hl c hmem).symm.trans (List.all_eq_true.mp hall c hc))
  rcases w with _ | ⟨a, _ | ⟨b, _ | ⟨c, _ | ⟨d, w⟩⟩⟩⟩
  · exact hne rfl
  · obtain ⟨-, rfl⟩ := List.cons.inj ht
    exact hword 'a' (by decide) rfl
  · obtain ⟨-, hrest⟩ := List.cons.inj ht
    obtain ⟨-, rfl⟩ := List.cons.inj hrest
    exact hword 'p' (by decide) rfl
  · obtain ⟨-, hrest⟩ := List.cons.inj ht
    obtain ⟨-, hrest⟩ := List.cons.inj hrest
    obtain ⟨-, rfl⟩ := List.cons.inj hrest
    exact hword '[' (by decide) rfl
  · obtain ⟨-, hrest⟩ := List.cons.inj ht
    obtain ⟨-, hrest⟩ := List.cons.inj hrest
    obtain ⟨-, hrest⟩ := List.cons.inj hrest
    obtain ⟨hd, -⟩ := List.cons.inj hrest
    have hbracket := hw d (by simp)
    rw [← hd] at hbracket
    exact absurd hbracket (by decide)

/-- **A name is read as a type** up to its end at most. -/
theorem mem_typeExprRe {n : FieldName} {l : List Char} (hl : EndsType l)
    {r : List Char × List Char} (hr : r ∈ typeExprRe (n.chars ++ l)) :
    ∃ s, r.2 = s ++ l ∧ ∀ c ∈ s, isWordChar c = true := by
  have hstart := n.start
  have hstar : n.first ≠ '*' := by
    intro h
    rw [h] at hstart
    exact absurd hstart (by decide)
  have hbracket : n.first ≠ '[' := by
    intro h
    rw [h] at hstart
    exact absurd hstart (by decide)
  have hcontainer : (lit ['[', ']'] <|> mapPrefix) (n.chars ++ l) = [] := by
    rw [Backtrack.orElse_apply, FieldName.chars, List.cons_append, lit_eq_nil hbracket.symm,
      List.nil_append, ← List.cons_append]
    exact bind_of_nil (Backtrack.lit_of_not_head
      (not_prefix_map n.word_chars (List.cons_ne_nil _ _) hl))
  have hstarred : lit ['*'] (n.chars ++ l) = [] := lit_eq_nil hstar.symm
  rw [typeExprRe, bind_of_singleton (opt_of_nil hstarred []),
    bind_of_singleton (opt_of_nil hcontainer []), Backtrack.bind_apply, List.mem_flatMap] at hr
  obtain ⟨q, hq, hr⟩ := hr
  obtain rfl := List.mem_singleton.mp hr
  rw [FieldName.chars, List.cons_append, typeTail, bind_of_singleton (Backtrack.sat_of_pos n.start _),
    Backtrack.bind_apply, List.mem_flatMap] at hq
  obtain ⟨u, hu, hq⟩ := hq
  obtain rfl := List.mem_singleton.mp hq
  obtain ⟨heq, hall⟩ := Backtrack.mem_many hu
  rcases List.append_eq_append_iff.mp heq with ⟨s, hs, hrest⟩ | ⟨s, hs, hrest⟩
  · cases s with
    | nil => exact ⟨[], hrest.symm, fun _ h => absurd h List.not_mem_nil⟩
    | cons c s =>
      have hc := hl c (by rw [hrest]; rfl)
      rw [hall c (hs ▸ List.mem_append_right _ List.mem_cons_self)] at hc
      exact absurd hc (Bool.false_ne_true ·.symm)
  · exact ⟨s, hrest, fun c hc => n.word c (hs ▸ List.mem_append_right _ hc)⟩

/-- What the expression asks for behind the names. -/
def afterNames (first : Char) (names : List Char) : Matcher Char FieldMatch := do
  let _ ← many1 isBlank
  let type ← typeExprRe
  let ending ← fieldEndRe
  return ⟨first :: names, type, ending.1, ending.2⟩

section AfterNames

variable {first : Char} {names : List Char}

theorem afterNames_of_head {l : List Char} (h : ∀ c ∈ l.head?, isBlank c = false) :
    afterNames first names l = [] := bind_of_nil (Backtrack.many1_of_head h)

/-- Behind the blanks there is no type. -/
theorem afterNames_mark {b : List Char} (hb : ∀ c ∈ b, isBlank c = true) {c : Char}
    (t : List Char) (hblank : isBlank c = false) (hc : ∀ t, typeExprRe (c :: t) = []) :
    afterNames first names (b ++ c :: t) = [] := by
  have hhead : ∀ d ∈ (c :: t).head?, isBlank d = false := by
    rintro d ⟨⟩
    exact hblank
  refine bind_eq_nil fun r hr => bind_of_nil ?_
  obtain ⟨heq, -, hall⟩ := Backtrack.mem_many1 hr
  obtain ⟨b', rfl, hrest⟩ := split_blanks hhead heq hall
  rw [hrest]
  cases b' with
  | nil => exact hc t
  | cons d b' => exact typeExprRe_blank (hb d (List.mem_append_right _ List.mem_cons_self)) _

/-- Behind the blanks there is a name, and behind it something that ends no field. -/
theorem afterNames_name {b : List Char} (hb : ∀ c ∈ b, isBlank c = true) (n : FieldName)
    {b' l : List Char} (hb' : ∀ c ∈ b', isBlank c = true) (hl : Solid l)
    (hends : EndsType (b' ++ l)) : afterNames first names (b ++ (n.chars ++ (b' ++ l))) = [] := by
  have hhead : ∀ d ∈ (n.chars ++ (b' ++ l)).head?, isBlank d = false := by
    rintro d ⟨⟩
    exact isBlank_of_isWordChar (isWordChar_of_isTypeStart n.start)
  refine bind_eq_nil fun r hr => ?_
  obtain ⟨heq, -, hall⟩ := Backtrack.mem_many1 hr
  obtain ⟨s, rfl, hrest⟩ := split_blanks hhead heq hall
  cases s with
  | cons d s =>
    rw [hrest]
    exact bind_of_nil (typeExprRe_blank (hb d (List.mem_append_right _ List.mem_cons_self)) _)
  | nil =>
    rw [hrest, List.nil_append]
    refine bind_eq_nil fun q hq => bind_of_nil ?_
    obtain ⟨s, hs, hword⟩ := mem_typeExprRe hends hq
    rw [hs]
    cases s with
    | nil =>
      rw [List.nil_append]
      exact fieldEndRe_eq_nil hb' hl
    | cons c s =>
      have hnil := fieldEndRe_eq_nil (b := []) (fun _ h => absurd h List.not_mem_nil)
        (solid_of_isWordChar (hword c List.mem_cons_self) (s ++ (b' ++ l)))
      exact hnil

theorem endsType_blank {c : Char} (h : c = ' ' ∨ c = '\t') (l : List Char) : EndsType (c :: l) := by
  rintro d ⟨⟩
  rcases h with rfl | rfl <;> decide

theorem solid_comma (l : List Char) : Solid (',' :: l) := ⟨',', l, rfl, by decide, by decide, by decide⟩

/-- What follows a name ends no field: blanks, and then a comma or the type. -/
theorem exists_renderOthers (others : List ((Spaces × Spaces) × FieldName)) (g : Gap)
    {l : List Char} (hl : Solid l) : ∃ b l', renderOthers others ++ (g.chars ++ l) = b ++ l' ∧
      (∀ c ∈ b, isBlank c = true) ∧ Solid l' ∧ EndsType (b ++ l') := by
  cases others with
  | nil =>
    refine ⟨g.chars, l, rfl, g.isBlank, hl, ?_⟩
    obtain ⟨c, b, hb⟩ := List.exists_cons_of_ne_nil g.ne_nil
    rw [hb]
    exact endsType_blank (g.blank c (hb ▸ List.mem_cons_self)) _
  | cons o others =>
    refine ⟨o.1.1.chars, ',' :: (o.1.2.chars ++ o.2.chars ++ (renderOthers others ++
      (g.chars ++ l))), by simp [renderOthers], o.1.1.isBlank, solid_comma _, ?_⟩
    rcases hb : o.1.1.chars with _ | ⟨c, b⟩
    · rintro d ⟨⟩
      decide
    · exact endsType_blank (Or.inl (o.1.1.space c (hb ▸ List.mem_cons_self))) _

/-- A suffix of a text in two pieces. -/
theorem suffix_append {s u v : List Char} (h : s <:+ u ++ v) :
    s <:+ v ∨ ∃ u', u' ≠ [] ∧ u' <:+ u ∧ s = u' ++ v := by
  obtain ⟨t, ht⟩ := h
  rcases List.append_eq_append_iff.mp ht with ⟨u', hu, rfl⟩ | ⟨v', -, hv⟩
  · by_cases hne : u' = []
    · exact Or.inl (by rw [hne, List.nil_append])
    · exact Or.inr ⟨u', hne, ⟨t, hu.symm⟩, rfl⟩
  · exact Or.inl ⟨v', hv.symm⟩

/-- **No shorter names will do**: behind a proper part of the names the rest does not match. -/
theorem afterNames_eq_nil (others : List ((Spaces × Spaces) × FieldName)) (g : Gap)
    {l : List Char} (hl : Solid l) {u s : List Char} (hu : ∀ c ∈ u, isWordChar c = true)
    (hs : s <:+ u ++ renderOthers others) (hne : s ≠ []) :
    afterNames first names (s ++ (g.chars ++ l)) = [] := by
  -- within a name, the rest of the name is no blank
  have hword : ∀ {u' t : List Char}, u' ≠ [] → (∀ c ∈ u', isWordChar c = true) →
      afterNames first names (u' ++ t) = [] := by
    intro u' t hne hu'
    obtain ⟨c, u', rfl⟩ := List.exists_cons_of_ne_nil hne
    refine afterNames_of_head ?_
    rintro d ⟨⟩
    exact isBlank_of_isWordChar (hu' _ List.mem_cons_self)
  induction others generalizing u with
  | nil =>
    rcases suffix_append hs with hs | ⟨u', hu', hsuffix, rfl⟩
    · exact absurd (List.suffix_nil.mp hs) hne
    · rw [List.append_assoc]
      exact hword hu' fun c hc => hu c (hsuffix.subset hc)
  | cons o others ih =>
    have hrender : renderOthers (o :: others) =
        o.1.1.chars ++ ([','] ++ (o.1.2.chars ++ (o.2.chars ++ renderOthers others))) := by
      simp [renderOthers]
    have hcomma : ∀ t, typeExprRe (',' :: t) = [] := fun t =>
      typeExprRe_eq_nil t (by decide) (by decide) (by decide)
    rw [hrender] at hs
    rcases suffix_append hs with hs | ⟨u', hu', hsuffix, rfl⟩
    · rcases suffix_append hs with hs | ⟨b, -, hsuffix, rfl⟩
      · rcases suffix_append hs with hs | ⟨c, hc, hsuffix, rfl⟩
        · rcases suffix_append hs with hs | ⟨b, -, hsuffix, rfl⟩
          · exact ih o.2.word_chars hs
          · -- blanks, and the next name
            obtain ⟨b', l', heq, hb', hl', hends⟩ := exists_renderOthers others g hl
            rw [List.append_assoc, List.append_assoc, heq]
            exact afterNames_name (fun c hc => o.1.2.isBlank c (hsuffix.subset hc)) o.2 hb' hl' hends
        · obtain rfl : c = [','] := by
            rcases List.suffix_cons_iff.mp hsuffix with h | h
            · exact h
            · exact absurd (List.suffix_nil.mp h) hc
          refine afterNames_of_head ?_
          rintro d ⟨⟩
          decide
      · -- blanks, and the comma
        rw [List.append_assoc]
        exact afterNames_mark (fun c hc => o.1.1.isBlank c (hsuffix.subset hc)) _ (by decide) hcomma
    · rw [List.append_assoc]
      exact hword hu' fun c hc => hu c (hsuffix.subset hc)

end AfterNames

/-! ### Types -/

theorem isTypeChar_of_isWordChar {c : Char} (h : isWordChar c = true) : isTypeChar c = true := by
  simp [isTypeChar, h]

/-- The text of a type is one run of its characters. -/
theorem GoType.isTypeChar_render (t : GoType) : ∀ c ∈ t.render, isTypeChar c = true := by
  induction t with
  | named name =>
    refine List.forall_mem_cons.mpr ⟨?_, fun c hc => ?_⟩
    · exact isTypeChar_of_isWordChar (isWordChar_of_isTypeStart name.start)
    · rcases name.dotted c hc with h | rfl
      · exact isTypeChar_of_isWordChar h
      · decide
  | pointer elem ih => exact List.forall_mem_cons.mpr ⟨by decide, ih⟩
  | slice elem ih =>
    exact List.forall_mem_cons.mpr ⟨by decide, List.forall_mem_cons.mpr ⟨by decide, ih⟩⟩
  | map key elem ihkey ihelem =>
    have hmap : ['m', 'a', 'p', '['].all isTypeChar = true := by decide
    intro c hc
    rcases List.mem_append.mp hc with hc | hc
    · rcases List.mem_append.mp hc with hc | hc
      · exact List.all_eq_true.mp hmap c hc
      · exact ihkey c hc
    · rcases List.mem_cons.mp hc with rfl | hc
      · decide
      · exact ihelem c hc

/-- A run of the characters of a type, from a letter on. -/
theorem head?_typeTail {c : Char} {w l : List Char} (hc : isTypeStart c = true)
    (hw : ∀ d ∈ w, isTypeChar d = true) (hl : EndsType l) :
    (typeTail (c :: w ++ l)).head? = some (c :: w, l) := by
  rw [typeTail, List.cons_append, bind_of_singleton (Backtrack.sat_of_pos hc _)]
  exact head?_bind (Backtrack.head?_many hw hl) rfl

theorem typeTail_eq_nil {l : List Char} (h : ∀ c ∈ l.head?, isTypeStart c = false) :
    typeTail l = [] := bind_of_nil (Backtrack.sat_of_head h)

/-- The first letter of a plain type. -/
theorem GoType.Plain.head {t : GoType} (h : t.Plain) : ∃ c w, t.render = c :: w ∧
    isTypeStart c = true := by
  cases t with
  | named name => exact ⟨name.first, name.rest, rfl, name.start⟩
  | map key elem => exact ⟨'m', _, rfl, by decide⟩
  | pointer elem => exact h.elim
  | slice elem => exact h.elim

/-- The first of the marks in a text. -/
theorem exists_first {c : Char} {u v k rest : List Char} (h : u ++ c :: v = k ++ c :: rest)
    (hk : c ∉ k) : ∃ q, u ++ [c] = k ++ c :: q ∧ rest = q ++ v := by
  rcases List.append_eq_append_iff.mp h with ⟨s, hs, hrest⟩ | ⟨s, hs, hrest⟩
  · cases s with
    | nil =>
      obtain ⟨-, hrest⟩ := List.cons.inj hrest
      rw [List.append_nil] at hs
      exact ⟨[], by rw [hs], hrest.symm⟩
    | cons d s =>
      obtain ⟨hd, -⟩ := List.cons.inj hrest
      exact absurd (hs ▸ List.mem_append_right _ (hd ▸ List.mem_cons_self)) hk
  · cases s with
    | nil =>
      obtain ⟨-, hrest⟩ := List.cons.inj hrest
      rw [List.append_nil] at hs
      exact ⟨[], by rw [hs], hrest⟩
    | cons d s =>
      obtain ⟨rfl, htail⟩ := List.cons.inj hrest
      refine ⟨s ++ [c], ?_, ?_⟩
      · rw [hs]
        simp
      · refine htail.trans ?_
        simp

/-- **A map as a container** is a beginning of the text of a plain type. -/
theorem mem_mapPrefix {t : GoType} (ht : t.Plain) {l : List Char} (hl : EndsType l)
    {r : List Char × List Char} (hr : r ∈ mapPrefix (t.render ++ l)) :
    ∃ q, t.render = r.1 ++ q ∧ r.2 = q ++ l := by
  cases t with
  | pointer elem => exact ht.elim
  | slice elem => exact ht.elim
  | named name =>
    -- a name has no bracket, and what follows it is no letter of the keyword
    have hdotted : ¬['m', 'a', 'p', '['] <+: name.chars ++ l := by
      rintro ⟨u, hu⟩
      have hbracket : ∀ c ∈ name.chars, c ≠ '[' := by
        refine List.forall_mem_cons.mpr ⟨?_, fun c hc => ?_⟩
        · intro h
          have hstart := name.start
          rw [h] at hstart
          exact absurd hstart (by decide)
        · rintro rfl
          rcases name.dotted _ hc with h | h
          · exact absurd h (by decide)
          · exact absurd h (by decide)
      have hmap : ['m', 'a', 'p', '['].all isTypeChar = true := by decide
      rcases List.append_eq_append_iff.mp hu with ⟨v, hv, -⟩ | ⟨v, hv, hrest⟩
      · refine hbracket '[' ?_ rfl
        rw [hv]
        simp
      · cases v with
        | nil =>
          refine hbracket '[' ?_ rfl
          rw [List.append_nil] at hv
          rw [← hv]
          simp
        | cons c v =>
          have hc := hl c (by rw [hrest]; rfl)
          have hmem : c ∈ ['m', 'a', 'p', '['] := hv ▸ List.mem_append_right _ List.mem_cons_self
          rw [List.all_eq_true.mp hmap c hmem] at hc
          exact absurd hc (Bool.false_ne_true ·.symm)
    have hnil : mapPrefix (name.chars ++ l) = [] := bind_of_nil (Backtrack.lit_of_not_head hdotted)
    rw [GoType.render, hnil] at hr
    exact absurd hr List.not_mem_nil
  | map key elem =>
    have htext : (GoType.map key elem).render ++ l =
        ['m', 'a', 'p', '['] ++ (key.render ++ ']' :: (elem.render ++ l)) := by
      simp [GoType.render]
    rw [htext, mapPrefix, bind_of_singleton (Backtrack.lit_append _ _), Backtrack.bind_apply,
      List.mem_flatMap] at hr
    obtain ⟨k, hk, hr⟩ := hr
    obtain ⟨heq, -, hall⟩ := Backtrack.mem_many1 hk
    have hno : ']' ∉ k.1 := fun hmem => of_decide_eq_true (hall _ hmem) rfl
    rcases hrest : k.2 with _ | ⟨c, rest⟩
    · rw [hrest] at hr
      have hnil : lit [']'] ([] : List Char) = [] := Backtrack.lit_of_not_head (by simp)
      rw [bind_of_nil hnil] at hr
      exact absurd hr List.not_mem_nil
    -- the key ends at the first bracket
    · by_cases hc : c = ']'
      · subst hc
        rw [hrest, bind_of_singleton (Backtrack.lit_singleton _ _)] at hr
        obtain rfl := List.mem_singleton.mp hr
        rw [hrest] at heq
        obtain ⟨q, hq, hrest⟩ := exists_first heq hno
        refine ⟨q ++ elem.render, ?_, ?_⟩
        · have hkey : (GoType.map key elem).render =
              ['m', 'a', 'p', '['] ++ ((key.render ++ [']']) ++ elem.render) := by
            simp [GoType.render]
          rw [hkey, hq]
          simp
        · exact hrest.trans (List.append_assoc _ _ _).symm
      · rw [hrest, bind_of_nil (lit_eq_nil (Ne.symm hc))] at hr
        exact absurd hr List.not_mem_nil

/-- A container and the rest of the type. -/
def contained (star : List Char) : Matcher Char (List Char) := do
  let container ← opt (lit ['[', ']'] <|> mapPrefix) []
  let tail ← typeTail
  return star ++ container ++ tail

/-- **A plain type is read**, as a map of something or as a name. -/
theorem head?_contained_plain {t : GoType} (ht : t.Plain) (star : List Char) {l : List Char}
    (hl : EndsType l) : (contained star (t.render ++ l)).head? = some (star ++ t.render, l) := by
  obtain ⟨c, w, hw, hc⟩ := ht.head
  have htype := t.isTypeChar_render
  rw [hw, List.forall_mem_cons] at htype
  have hbracket : '[' ≠ c := by
    rintro rfl
    exact absurd hc (by decide)
  have hname : (typeTail (t.render ++ l)).head? = some (t.render, l) := by
    rw [hw]
    exact head?_typeTail hc htype.2 hl
  -- both ways to begin lead to the whole of the type
  have hways : ∀ r ∈ opt (lit ['[', ']'] <|> mapPrefix) [] (t.render ++ l),
      ∃ q, t.render = r.1 ++ q ∧ r.2 = q ++ l := by
    intro r hr
    rw [Backtrack.opt_apply, Backtrack.orElse_apply, List.mem_append, List.mem_append] at hr
    rcases hr with (hr | hr) | hr
    · rw [hw, List.cons_append, lit_eq_nil hbracket] at hr
      exact absurd hr List.not_mem_nil
    · exact mem_mapPrefix ht hl hr
    · obtain rfl := List.mem_singleton.mp hr
      exact ⟨t.render, rfl, rfl⟩
  refine Backtrack.head?_bind_of_forall (fun r hr => ?_) ⟨([], t.render ++ l), ?_, ?_⟩
  · obtain ⟨q, hq, hrest⟩ := hways r hr
    rw [hrest]
    cases q with
    | nil =>
      refine Or.inl (bind_of_nil (typeTail_eq_nil fun d hd => ?_))
      by_contra hstart
      have hd' := hl d hd
      rw [isTypeChar_of_isWordChar (isWordChar_of_isTypeStart (Bool.not_eq_false _ ▸ hstart))] at hd'
      exact absurd hd' (Bool.false_ne_true ·.symm)
    | cons d q =>
      by_cases hd : isTypeStart d = true
      · refine Or.inr ?_
        have hall : ∀ e ∈ q, isTypeChar e = true := fun e he =>
          t.isTypeChar_render e (hq ▸ List.mem_append_right _ (List.mem_cons_of_mem d he))
        refine (head?_bind (head?_typeTail hd hall hl) rfl).trans ?_
        rw [hq, List.append_assoc]
      · refine Or.inl (bind_of_nil (typeTail_eq_nil ?_))
        rintro e ⟨⟩
        exact Bool.not_eq_true _ ▸ hd
  · rw [Backtrack.opt_apply]
    exact List.mem_append_right _ List.mem_cons_self
  · refine (head?_bind hname rfl).trans ?_
    rw [List.append_nil]

theorem head?_contained_slice {t : GoType} (ht : t.Plain) (star : List Char) {l : List Char}
    (hl : EndsType l) :
    (contained star ('[' :: ']' :: t.render ++ l)).head? =
      some (star ++ '[' :: ']' :: t.render, l) := by
  obtain ⟨c, w, hw, hc⟩ := ht.head
  have htype := t.isTypeChar_render
  rw [hw, List.forall_mem_cons] at htype
  have hlit : (lit ['[', ']'] ('[' :: ']' :: t.render ++ l)).head? =
      some (['[', ']'], t.render ++ l) := by
    have happend : '[' :: ']' :: t.render ++ l = ['[', ']'] ++ (t.render ++ l) := rfl
    rw [happend, Backtrack.lit_append, List.head?_cons]
  refine head?_bind (head?_opt (Backtrack.head?_orElse hlit) []) ?_
  rw [hw]
  refine (head?_bind (head?_typeTail hc htype.2 hl) rfl).trans ?_
  rw [List.append_assoc]
  rfl

/-- **A type is read** to its end. -/
theorem head?_typeExprRe {t : GoType} (ht : t.Reads) {l : List Char} (hl : EndsType l) :
    (typeExprRe (t.render ++ l)).head? = some (t.render, l) := by
  have hstarless : ∀ {c : Char} {w : List Char}, c ≠ '*' → t.render = c :: w →
      (contained [] (t.render ++ l)).head? = some (t.render, l) →
      (typeExprRe (t.render ++ l)).head? = some (t.render, l) := by
    intro c w hc hw h
    have hnil : lit ['*'] (t.render ++ l) = [] := by
      rw [hw]
      exact lit_eq_nil hc.symm
    rw [typeExprRe, bind_of_singleton (opt_of_nil hnil [])]
    exact h
  have hstar : ∀ {u : List Char} {x : List Char × List Char}, (contained ['*'] u).head? = some x →
      (typeExprRe ('*' :: u)).head? = some x := by
    intro u x h
    have hlit : (lit ['*'] ('*' :: u)).head? = some (['*'], u) := by
      rw [Backtrack.lit_singleton, List.head?_cons]
    exact head?_bind (head?_opt hlit []) h
  cases t with
  | named name =>
    refine hstarless ?_ rfl (head?_contained_plain (t := .named name) trivial [] hl)
    intro h
    have hstart := name.start
    rw [h] at hstart
    exact absurd hstart (by decide)
  | map key elem =>
    exact hstarless (by decide) rfl (head?_contained_plain (t := .map key elem) trivial [] hl)
  | slice elem => exact hstarless (by decide) rfl (head?_contained_slice ht [] hl)
  | pointer elem =>
    rw [GoType.render, List.cons_append]
    refine hstar ?_
    cases elem with
    | slice elem => exact head?_contained_slice ht ['*'] hl
    | named name => exact head?_contained_plain (t := .named name) ht ['*'] hl
    | map key elem => exact head?_contained_plain (t := .map key elem) ht ['*'] hl
    | pointer elem => exact ht.elim

/-! ### The end of a field -/

/-- The text of a tag. -/
def tagText (tag : Option (Gap × Tag)) : List Char := tag.elim [] fun t => t.2.render

/-- The text of a comment, as the expression has it. -/
def commentText (comment : Option Comment) : List Char :=
  comment.elim [] fun c => c.text.dropWhile isBlank

/-- What follows the type of a field. -/
def renderEnd (tag : Option (Gap × Tag)) (comment : Option Comment) : List Char :=
  renderTag tag ++ comment.elim [] Comment.render

theorem TagEntry.not_backquote (e : TagEntry) : '`' ∉ e.render := by
  intro h
  have hrest : '`' ∈ e.key ∨ '`' ∈ e.value := by simpa [TagEntry.render] using h
  rcases hrest with h | h
  · exact (e.plain_key _ h).2.2.2 rfl
  · exact (e.plain_value _ h).2.2.1 rfl

theorem Tag.not_backquote (t : Tag) : '`' ∉ t.render := by
  intro h
  rcases List.mem_append.mp h with h | h
  · exact t.first.not_backquote h
  · obtain ⟨e, -, h⟩ := List.mem_flatMap.mp h
    rcases List.mem_append.mp h with h | h
    · exact absurd (e.1.space _ h) (by decide)
    · exact e.2.not_backquote h

/-- Behind the tag there are blanks and a comment, or the end. -/
def commentEnd (tag : List Char) : Matcher Char (List Char × List Char) := do
  let _ ← many isBlank
  let comment ← opt commentRe []
  let _ ← eof
  return (tag, comment)

theorem head?_commentEnd (tag : List Char) (comment : Option Comment) :
    (commentEnd tag (comment.elim [] Comment.render)).head? =
      some ((tag, commentText comment), []) := by
  cases comment with
  | none => rfl
  | some c =>
    have hslash : ∀ d ∈ ('/' :: '/' :: c.text).head?, isBlank d = false := by
      rintro d ⟨⟩
      decide
    have hrest : ∀ d ∈ (c.text.dropWhile isBlank).head?, isBlank d = false := by
      intro d hd
      have hnot := List.head?_dropWhile_not isBlank c.text
      rw [hd] at hnot
      exact hnot
    have hline : ∀ d ∈ c.text.dropWhile isBlank, decide (d ≠ '\n') = true := by
      intro d hd
      refine decide_eq_true fun h => c.inLine ?_
      rw [← h]
      exact (List.dropWhile_sublist _).subset hd
    have hall : ∀ d ∈ c.text.takeWhile isBlank, isBlank d = true := fun d hd =>
      List.mem_takeWhile_imp hd
    have hmany := Backtrack.head?_many hall hrest
    rw [List.takeWhile_append_dropWhile] at hmany
    have hdot := Backtrack.head?_many (l := []) hline (fun _ h => absurd h (by simp))
    rw [List.append_nil] at hdot
    have hlit : (lit ['/', '/'] ('/' :: '/' :: c.text)).head? = some (['/', '/'], c.text) := by
      have happend : '/' :: '/' :: c.text = ['/', '/'] ++ c.text := rfl
      rw [happend, Backtrack.lit_append, List.head?_cons]
    have hcomment : (commentRe ('/' :: '/' :: c.text)).head? =
        some (c.text.dropWhile isBlank, []) :=
      head?_bind hlit (head?_bind hmany hdot)
    rw [Option.elim_some, Comment.render, commentEnd]
    refine head?_bind (Backtrack.head?_many c.before.isBlank hslash) ?_
    exact head?_bind (head?_opt hcomment []) rfl

theorem tagRe_comment (comment : Option Comment) :
    tagRe (comment.elim [] Comment.render) = [] := by
  cases comment with
  | none => rfl
  | some c =>
    have hslash : ∀ d ∈ ('/' :: '/' :: c.text).head?, isBlank d = false := by
      rintro d ⟨⟩
      decide
    refine bind_eq_nil fun r hr => bind_of_nil ?_
    obtain ⟨heq, -, hall⟩ := Backtrack.mem_many1 hr
    obtain ⟨b, hb, hrest⟩ := split_blanks hslash heq hall
    rw [hrest]
    cases b with
    | nil => exact lit_eq_nil (by decide)
    | cons d b =>
      refine lit_eq_nil ?_
      rintro rfl
      have hmem : '`' ∈ c.before.chars := hb ▸ List.mem_append_right _ List.mem_cons_self
      exact absurd (c.before.isBlank _ hmem) (by decide)

/-- **The end of a field is read**: its tag and its comment. -/
theorem head?_fieldEndRe (tag : Option (Gap × Tag)) (comment : Option Comment) :
    (fieldEndRe (renderEnd tag comment)).head? =
      some ((tagText tag, commentText comment), []) := by
  cases tag with
  | none =>
    rw [renderEnd, renderTag, Option.elim_none, List.nil_append, fieldEndRe,
      bind_of_singleton (opt_of_nil (tagRe_comment comment) [])]
    exact head?_commentEnd [] comment
  | some t =>
    have hquote : ∀ u, ∀ d ∈ ('`' :: u).head?, isBlank d = false := by
      rintro u d ⟨⟩
      decide
    have hno : ∀ d ∈ t.2.render, decide (d ≠ '`') = true := fun d hd =>
      decide_eq_true fun h => t.2.not_backquote (h ▸ hd)
    have hstop : ∀ u, ∀ d ∈ ('`' :: u).head?, decide (d ≠ '`') = false := by
      rintro u d ⟨⟩
      decide
    have hlit : ∀ u, (lit ['`'] ('`' :: u)).head? = some (['`'], u) := fun u => by
      rw [Backtrack.lit_singleton, List.head?_cons]
    have hrender : renderEnd (some t) comment = t.1.chars ++ '`' :: (t.2.render ++
        '`' :: comment.elim [] Comment.render) := by
      simp [renderEnd, renderTag]
    have htag : (tagRe (renderEnd (some t) comment)).head? =
        some (t.2.render, comment.elim [] Comment.render) := by
      rw [hrender]
      refine head?_bind (Backtrack.head?_many1 t.1.ne_nil t.1.isBlank (hquote _)) ?_
      refine head?_bind (hlit _) (head?_bind (Backtrack.head?_many hno (hstop _)) ?_)
      exact head?_bind (hlit _) rfl
    exact head?_bind (head?_opt htag []) (head?_commentEnd t.2.render comment)

/-! ### The field -/

theorem endsType_end (tag : Option (Gap × Tag)) (comment : Option Comment) :
    EndsType (renderEnd tag comment) := by
  cases tag with
  | some t =>
    obtain ⟨c, b, hb⟩ := List.exists_cons_of_ne_nil t.1.ne_nil
    rw [renderEnd, renderTag, Option.elim_some, hb]
    exact endsType_blank (t.1.blank c (hb ▸ List.mem_cons_self)) _
  | none =>
    cases comment with
    | none => exact fun _ h => absurd h (by simp [renderEnd, renderTag])
    | some c =>
      rw [renderEnd, renderTag, Option.elim_none, List.nil_append, Option.elim_some, Comment.render]
      rcases hb : c.before.chars with _ | ⟨d, b⟩
      · rintro e ⟨⟩
        decide
      · exact endsType_blank (c.before.blank d (hb ▸ List.mem_cons_self)) _

/-- A type begins with something. -/
theorem solid_type (t : GoType) (l : List Char) : Solid (t.render ++ l) := by
  cases t with
  | named name => exact solid_of_isWordChar (isWordChar_of_isTypeStart name.start) _
  | pointer elem => exact ⟨'*', _, rfl, by decide, by decide, by decide⟩
  | slice elem => exact ⟨'[', _, rfl, by decide, by decide, by decide⟩
  | map key elem => exact ⟨'m', _, rfl, by decide, by decide, by decide⟩

theorem core_eq (f : FieldDecl) : f.core = f.first.first :: ((f.first.rest ++
    renderOthers f.others) ++ (f.gap.chars ++ (f.type.render ++ renderEnd f.tag f.comment))) := by
  simp [FieldDecl.core, FieldName.chars, renderEnd]

theorem isNameChar_of_isWordChar {c : Char} (h : isWordChar c = true) : isNameChar c = true := by
  simp [isNameChar, h]

theorem isNameChar_renderOthers (others : List ((Spaces × Spaces) × FieldName)) :
    ∀ c ∈ renderOthers others, isNameChar c = true := by
  intro c hc
  obtain ⟨o, -, hc⟩ := List.mem_flatMap.mp hc
  rcases List.mem_append.mp hc with hc | hc
  · rw [o.1.1.space c hc]
    decide
  · rcases List.mem_cons.mp hc with rfl | hc
    · decide
    · rcases List.mem_append.mp hc with hc | hc
      · rw [o.1.2.space c hc]
        decide
      · exact isNameChar_of_isWordChar (o.2.word_chars c hc)

/-- A declaration that begins with an exported name. -/
theorem find_goFieldRe {f : FieldDecl} (htype : f.type.Reads)
    (hup : f.first.first.isUpper = true) : find goFieldRe f.core =
      some ⟨f.first.chars ++ renderOthers f.others, f.type.render, tagText f.tag,
        commentText f.comment⟩ := by
  have hupper : isUpper f.first.first = true := hup
  have hblank : ∀ {t : List Char}, ∀ c ∈ (f.first.first :: t).head?, isBlank c = false := by
    rintro t c ⟨⟩
    exact isBlank_of_isWordChar (isWordChar_of_isTypeStart f.first.start)
  have hnames : ∀ c ∈ f.first.rest ++ renderOthers f.others, isNameChar c = true := by
    intro c hc
    rcases List.mem_append.mp hc with hc | hc
    · exact isNameChar_of_isWordChar (f.first.word c hc)
    · exact isNameChar_renderOthers f.others c hc
  have hsolid := solid_type f.type (renderEnd f.tag f.comment)
  have hhead : ∀ c ∈ (f.type.render ++ renderEnd f.tag f.comment).head?, isBlank c = false := by
    obtain ⟨d, t, ht, hd, -, -⟩ := hsolid
    rw [ht]
    rintro c ⟨⟩
    exact hd
  have hafter : (afterNames f.first.first (f.first.rest ++ renderOthers f.others)
      (f.gap.chars ++ (f.type.render ++ renderEnd f.tag f.comment))).head? =
      some (⟨f.first.chars ++ renderOthers f.others, f.type.render, tagText f.tag,
        commentText f.comment⟩, []) := by
    refine head?_bind (Backtrack.head?_many1 f.gap.ne_nil f.gap.isBlank hhead) ?_
    refine head?_bind (head?_typeExprRe htype (endsType_end f.tag f.comment)) ?_
    exact head?_bind (head?_fieldEndRe f.tag f.comment) rfl
  have hfind : (goFieldRe f.core).head? =
      some (⟨f.first.chars ++ renderOthers f.others, f.type.render, tagText f.tag,
        commentText f.comment⟩, []) := by
    rw [core_eq, goFieldRe, bind_of_singleton (Backtrack.many_of_head hblank),
      bind_of_singleton (Backtrack.sat_of_pos hupper _)]
    -- the names are lazy: behind less of them, the rest does not match
    refine Backtrack.head?_bind_manyLazy hnames (fun v s hs hne => ?_) hafter
    exact afterNames_eq_nil f.others f.gap hsolid f.first.word ⟨v, hs.symm⟩ hne
  rw [find, hfind]
  rfl

/-- A declaration that begins with another name is not read. -/
theorem find_goFieldRe_unexported {f : FieldDecl} (h : f.first.first.isUpper = false) :
    find goFieldRe f.core = none := by
  have hblank : ∀ {t : List Char}, ∀ c ∈ (f.first.first :: t).head?, isBlank c = false := by
    rintro t c ⟨⟩
    exact isBlank_of_isWordChar (isWordChar_of_isTypeStart f.first.start)
  have hsat : ∀ {t : List Char}, sat isUpper (f.first.first :: t) = [] := by
    intro t
    refine Backtrack.sat_of_head ?_
    rintro c ⟨⟩
    exact h
  rw [find, core_eq, goFieldRe, bind_of_singleton (Backtrack.many_of_head hblank),
    bind_of_nil hsat]
  rfl

end GoShape

end Gortex
