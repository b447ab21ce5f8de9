import Mathlib.Data.List.Basic
import Gortex.Lib.GoString

/-!
# Go paths

The functions of Go's `path/filepath` package that the program calls, on Unix. A
path is read by `parse` as a flag, whether it is rooted, and the list of its
components after cleaning; `render` writes it back. The functions of the package
are stated on the components, and the lemmas say when writing and reading are
inverse, and what `rel` makes of the files under a directory: different files have
different relative paths (`GoPath.rel_inj`).
-/

namespace GoPath

open GoString

/-- A component of a path. -/
abbrev Comp := List Char

/-! ### Components -/

/-- `strings.Split` at the slashes. -/
def splitSlash : List Char → List Comp
  | [] => [[]]
  | c :: cs =>
    if c = '/' then [] :: splitSlash cs
    else
      match splitSlash cs with
      | [] => [[c]]
      | w :: ws => (c :: w) :: ws

/-- `strings.Join` with slashes. -/
def joinSlash : List Comp → List Char
  | [] => []
  | [w] => w
  | w :: w' :: ws => w ++ '/' :: joinSlash (w' :: ws)

/-- A path after cleaning. -/
@[ext]
structure Parsed where
  rooted : Bool
  comps : List Comp
deriving DecidableEq, Repr

/-- One step of cleaning, on the components so far, the last one first. -/
def push (rooted : Bool) (stack : List Comp) (c : Comp) : List Comp :=
  if c = [] ∨ c = ['.'] then stack
  else if c = ['.', '.'] then
    match stack with
    | [] => if rooted then [] else [c]
    | top :: rest => if top = ['.', '.'] then c :: stack else rest
  else c :: stack

/-- Read a path. -/
def parse (p : String) : Parsed :=
  let rooted := p.toList.head? = some '/'
  ⟨rooted, ((splitSlash p.toList).foldl (push rooted) []).reverse⟩

/-- Write a path. -/
def render (x : Parsed) : String :=
  String.ofList (if x.rooted then '/' :: joinSlash x.comps
    else if x.comps = [] then ['.'] else joinSlash x.comps)

/-! ### The functions -/

/-- `filepath.IsAbs`. -/
def isAbs (p : String) : Bool := p.toList.head? = some '/'

/-- `filepath.Clean`. -/
def clean (p : String) : String := render (parse p)

/-- `filepath.Join` of two paths. -/
def join (p q : String) : String :=
  if p = "" then if q = "" then "" else clean q
  else if q = "" then clean p else clean (p ++ "/" ++ q)

/-- `filepath.Abs`, in the working directory `cwd`. -/
def abs (cwd p : String) : String := if isAbs p then clean p else join cwd p

/-- Drop the components two lists start with alike. -/
def dropCommon : List Comp → List Comp → List Comp × List Comp
  | b :: bs, t :: ts => if b = t then dropCommon bs ts else (b :: bs, t :: ts)
  | bs, ts => (bs, ts)

/-- `filepath.Rel`. -/
def rel (basepath targpath : String) : Except String String :=
  let b := parse basepath
  let t := parse targpath
  let rest := dropCommon b.comps t.comps
  if b.rooted ≠ t.rooted ∨ rest.1.head? = some ['.', '.'] then
    .error ("Rel: can't make " ++ targpath ++ " relative to " ++ basepath)
  else .ok (render ⟨false, List.replicate rest.1.length ['.', '.'] ++ rest.2⟩)

/-- `filepath.Base`. -/
def base (p : String) : String :=
  if p = "" then "."
  else
    match ((splitSlash p.toList).filter fun w => w ≠ []).getLast? with
    | none => "/"
    | some w => String.ofList w

/-- `filepath.Dir`. -/
def dir (p : String) : String :=
  let up := (splitSlash p.toList).dropLast
  if up = [] then "." else clean (String.ofList (joinSlash up ++ ['/']))

/-- `filepath.Ext`. -/
def ext (p : String) : String :=
  match lastIndexOf ['.'] ((splitSlash p.toList).getLastD []) with
  | none => ""
  | some i => String.ofList (((splitSlash p.toList).getLastD []).drop i)

/-! ### Splitting and joining -/

theorem splitSlash_ne_nil (cs : List Char) : splitSlash cs ≠ [] := by
  cases cs with
  | nil => exact List.cons_ne_nil _ _
  | cons c cs =>
    unfold splitSlash
    split
    · exact List.cons_ne_nil _ _
    · split <;> exact List.cons_ne_nil _ _

theorem splitSlash_of_not_mem {w : Comp} (h : '/' ∉ w) : splitSlash w = [w] := by
  induction w with
  | nil => rfl
  | cons c w ih =>
    obtain ⟨hc, hw⟩ := not_or.mp (mt List.mem_cons.mpr h)
    rw [splitSlash, if_neg (Ne.symm hc), ih hw]

theorem splitSlash_append {w : Comp} (h : '/' ∉ w) (cs : List Char) :
    splitSlash (w ++ '/' :: cs) = w :: splitSlash cs := by
  induction w with
  | nil => rfl
  | cons c w ih =>
    obtain ⟨hc, hw⟩ := not_or.mp (mt List.mem_cons.mpr h)
    rw [List.cons_append, splitSlash, if_neg (Ne.symm hc), ih hw]

/-- **Splitting undoes joining.** -/
theorem splitSlash_joinSlash {ws : List Comp} (hne : ws ≠ []) (h : ∀ w ∈ ws, '/' ∉ w) :
    splitSlash (joinSlash ws) = ws := by
  induction ws with
  | nil => exact absurd rfl hne
  | cons w ws ih =>
    have hw := h w List.mem_cons_self
    cases ws with
    | nil => exact splitSlash_of_not_mem hw
    | cons w' ws =>
      rw [joinSlash, splitSlash_append hw,
        ih (List.cons_ne_nil _ _) fun v hv => h v (List.mem_cons_of_mem _ hv)]

/-! ### Reading what is written -/

/-- A component that cleaning keeps, whatever stands before it. -/
def Plain (w : Comp) : Prop := w ≠ [] ∧ w ≠ ['.'] ∧ w ≠ ['.', '.'] ∧ '/' ∉ w

instance (w : Comp) : Decidable (Plain w) := by unfold Plain; infer_instance

theorem foldl_push {ws : List Comp} (h : ∀ w ∈ ws, Plain w) (rooted : Bool) (stack : List Comp) :
    ws.foldl (push rooted) stack = ws.reverse ++ stack := by
  induction ws generalizing stack with
  | nil => rfl
  | cons w ws ih =>
    obtain ⟨h1, h2, h3, -⟩ := h w List.mem_cons_self
    have hpush : push rooted stack w = w :: stack := by
      unfold push
      rw [if_neg (not_or.mpr ⟨h1, h2⟩), if_neg h3]
    rw [List.foldl_cons, hpush, ih fun v hv => h v (List.mem_cons_of_mem _ hv),
      List.reverse_cons, List.append_assoc, List.singleton_append]

theorem head?_joinSlash {ws : List Comp} (h : ∀ w ∈ ws, Plain w) :
    (joinSlash ws).head? ≠ some '/' := by
  cases ws with
  | nil => exact fun hc => nomatch hc
  | cons w ws =>
    obtain ⟨hne, -, -, hsl⟩ := h w List.mem_cons_self
    have hhead : (joinSlash (w :: ws)).head? = w.head? := by
      cases w with
      | nil => exact absurd rfl hne
      | cons c w => cases ws <;> rfl
    rw [hhead]
    exact fun hc => hsl (List.mem_of_mem_head? hc)

/-- **Reading undoes writing.** -/
theorem parse_render {x : Parsed} (h : ∀ w ∈ x.comps, Plain w) : parse (render x) = x := by
  obtain ⟨rooted, ws⟩ := x
  have hsl : ∀ w ∈ ws, '/' ∉ w := fun w hw => (h w hw).2.2.2
  cases rooted with
  | true =>
    have hpush : push true [] [] = [] := rfl
    have hsplit : (splitSlash ('/' :: joinSlash ws)).foldl (push true) [] = ws.reverse := by
      rw [splitSlash, if_pos rfl, List.foldl_cons, hpush]
      cases ws with
      | nil => rfl
      | cons w ws =>
        rw [splitSlash_joinSlash (List.cons_ne_nil _ _) hsl, foldl_push h, List.append_nil]
    simp only [parse, render, if_true, String.toList_ofList, List.head?_cons, decide_true, hsplit,
      List.reverse_reverse]
  | false =>
    cases ws with
    | nil => rfl
    | cons w ws =>
      have hhead := head?_joinSlash h
      simp only [parse, render, Bool.false_eq_true, if_false, if_neg (List.cons_ne_nil w ws),
        String.toList_ofList, hhead, decide_false,
        splitSlash_joinSlash (List.cons_ne_nil _ _) hsl, foldl_push h, List.append_nil,
        List.reverse_reverse]

/-! ### Relative paths -/

theorem dropCommon_append (bs ts : List Comp) : dropCommon bs (bs ++ ts) = ([], ts) := by
  induction bs with
  | nil => cases ts <;> rfl
  | cons b bs ih => rw [List.cons_append, dropCommon, if_pos rfl, ih]

/-- The relative path of a file under the base. -/
theorem rel_of_comps {basepath targpath : String} {ws : List Comp}
    (hr : (parse basepath).rooted = (parse targpath).rooted)
    (hc : (parse targpath).comps = (parse basepath).comps ++ ws) :
    rel basepath targpath = .ok (render ⟨false, ws⟩) := by
  unfold rel
  simp only
  rw [hc, dropCommon_append, hr, if_neg (by simp)]
  rfl

/-- No rooted path is relative to the empty one. -/
theorem rel_empty_of_isAbs {targpath : String} (h : isAbs targpath = true) :
    rel "" targpath =
      .error ("Rel: can't make " ++ targpath ++ " relative to " ++ "") := by
  have hb : (parse "").rooted = false := rfl
  have ht : (parse targpath).rooted = true := h
  unfold rel
  simp only
  rw [hb, ht, if_pos (Or.inl Bool.false_ne_true)]

/-- A clean path without components that point up. -/
structure IsClean (p : String) : Prop where
  clean : render (parse p) = p
  plain : ∀ w ∈ (parse p).comps, Plain w

instance (p : String) : Decidable (IsClean p) :=
  decidable_of_iff (render (parse p) = p ∧ ∀ w ∈ (parse p).comps, Plain w)
    ⟨fun h => ⟨h.1, h.2⟩, fun h => ⟨h.1, h.2⟩⟩

/-! ### Absolute paths -/

theorem not_mem_of_mem_splitSlash {cs : List Char} : ∀ w ∈ splitSlash cs, '/' ∉ w := by
  induction cs with
  | nil => exact fun w hw => List.mem_singleton.mp hw ▸ List.not_mem_nil
  | cons c cs ih =>
    rw [splitSlash]
    by_cases hc : c = '/'
    · rw [if_pos hc]
      exact fun w hw => (List.mem_cons.mp hw).elim (fun h => h ▸ List.not_mem_nil) (ih w)
    · rw [if_neg hc]
      have hnew : ∀ w : Comp, '/' ∉ w → '/' ∉ c :: w := fun w hw hm =>
        (List.mem_cons.mp hm).elim (fun h => hc h.symm) hw
      cases hs : splitSlash cs with
      | nil => exact absurd hs (splitSlash_ne_nil cs)
      | cons v vs =>
        rw [hs] at ih
        intro w hw
        rcases List.mem_cons.mp hw with rfl | hw
        · exact hnew v (ih v List.mem_cons_self)
        · exact ih w (List.mem_cons_of_mem v hw)

/-- At the root, cleaning leaves components that cleaning keeps. -/
theorem plain_push {stack : List Comp} (h : ∀ w ∈ stack, Plain w) {c : Comp} (hc : '/' ∉ c) :
    ∀ w ∈ push true stack c, Plain w := by
  unfold push
  by_cases h1 : c = [] ∨ c = ['.']
  · rw [if_pos h1]
    exact h
  · rw [if_neg h1]
    obtain ⟨hnil, hdot⟩ := not_or.mp h1
    by_cases h2 : c = ['.', '.']
    · rw [if_pos h2]
      cases stack with
      | nil => exact fun w hw => nomatch hw
      | cons top rest =>
        obtain ⟨-, -, htop, -⟩ := h top List.mem_cons_self
        simp only [if_neg htop]
        exact fun w hw => h w (List.mem_cons_of_mem top hw)
    · rw [if_neg h2]
      intro w hw
      rcases List.mem_cons.mp hw with rfl | hw
      · exact ⟨hnil, hdot, h2, hc⟩
      · exact h w hw

theorem plain_foldl_push {l stack : List Comp} (hl : ∀ w ∈ l, '/' ∉ w) (h : ∀ w ∈ stack, Plain w) :
    ∀ w ∈ l.foldl (push true) stack, Plain w := by
  induction l generalizing stack with
  | nil => exact h
  | cons c l ih =>
    exact ih (fun w hw => hl w (List.mem_cons_of_mem c hw)) (plain_push h (hl c List.mem_cons_self))

/-- The components of an absolute path are plain. -/
theorem plain_parse {p : String} (h : isAbs p = true) : ∀ w ∈ (parse p).comps, Plain w := by
  intro w hw
  have hroot : decide (p.toList.head? = some '/') = true := h
  unfold parse at hw
  simp only [hroot] at hw
  have hnil : ∀ w ∈ ([] : List Comp), Plain w := fun w hw => nomatch hw
  exact plain_foldl_push not_mem_of_mem_splitSlash hnil w (List.mem_reverse.mp hw)

/-- **Cleaning** an absolute path gives a clean one. -/
theorem isClean_clean {p : String} (h : isAbs p = true) :
    IsClean (clean p) ∧ isAbs (clean p) = true := by
  have hparse : parse (clean p) = parse p := parse_render (plain_parse h)
  refine ⟨⟨by rw [hparse, clean], fun w hw => plain_parse h w (hparse ▸ hw)⟩, ?_⟩
  have hroot : (parse (clean p)).rooted = true := by
    rw [hparse]
    exact h
  exact hroot

/-- **`filepath.Abs`** gives a clean absolute path. -/
theorem isClean_abs {cwd : String} (hcwd : isAbs cwd = true) (p : String) :
    IsClean (abs cwd p) ∧ isAbs (abs cwd p) = true := by
  unfold abs
  by_cases hp : isAbs p = true
  · rw [if_pos hp]
    exact isClean_clean hp
  · rw [if_neg hp]
    have hne : cwd ≠ "" := fun hc => by
      rw [hc] at hcwd
      exact absurd hcwd (by decide)
    unfold join
    rw [if_neg hne]
    by_cases hq : p = ""
    · rw [if_pos hq]
      exact isClean_clean hcwd
    · rw [if_neg hq]
      refine isClean_clean ?_
      unfold isAbs at hcwd ⊢
      rw [String.toList_append, String.toList_append]
      cases hl : cwd.toList with
      | nil =>
        rw [hl] at hcwd
        exact absurd hcwd (by decide)
      | cons c cs =>
        rw [hl] at hcwd
        exact hcwd

theorem abs_abs {cwd : String} (hcwd : isAbs cwd = true) (p : String) :
    abs cwd (abs cwd p) = abs cwd p := by
  obtain ⟨hc, ha⟩ := isClean_abs hcwd p
  have h : abs cwd (abs cwd p) = clean (abs cwd p) := if_pos ha
  rw [h, clean, hc.clean]

/-- The path is strictly below the directory `root`. -/
def Under (root p : String) : Prop :=
  (parse root).rooted = (parse p).rooted ∧ (parse root).comps <+: (parse p).comps ∧
    (parse root).comps ≠ (parse p).comps

instance (root p : String) : Decidable (Under root p) := by unfold Under; infer_instance

theorem Under.rel_eq {root p : String} (h : Under root p) :
    ∃ ws, (parse p).comps = (parse root).comps ++ ws ∧ rel root p = .ok (render ⟨false, ws⟩) := by
  obtain ⟨hr, ⟨ws, hws⟩, -⟩ := h
  exact ⟨ws, hws.symm, rel_of_comps hr hws.symm⟩

/-- **Different files below a directory have different relative paths.** -/
theorem rel_inj {root p q : String} (hp : IsClean p) (hq : IsClean q) (hup : Under root p)
    (huq : Under root q) (h : rel root p = rel root q) : p = q := by
  obtain ⟨ws, hws, hrp⟩ := hup.rel_eq
  obtain ⟨vs, hvs, hrq⟩ := huq.rel_eq
  rw [hrp, hrq, Except.ok.injEq] at h
  have hpl : ∀ w ∈ ws, Plain w := fun w hw =>
    hp.plain w (by rw [hws]; exact List.mem_append_right _ hw)
  have hql : ∀ w ∈ vs, Plain w := fun w hw =>
    hq.plain w (by rw [hvs]; exact List.mem_append_right _ hw)
  have hx := congrArg parse h
  rw [parse_render (x := ⟨false, ws⟩) hpl, parse_render (x := ⟨false, vs⟩) hql] at hx
  obtain rfl : ws = vs := congrArg Parsed.comps hx
  have hparse : parse p = parse q := Parsed.ext (hup.1.symm.trans huq.1) (hws.trans hvs.symm)
  rw [← hp.clean, ← hq.clean, hparse]

/-! ### Joining -/

theorem splitSlash_append_slash (cs ds : List Char) :
    splitSlash (cs ++ '/' :: ds) = splitSlash cs ++ splitSlash ds := by
  induction cs with
  | nil => rfl
  | cons c cs ih =>
    rw [List.cons_append, splitSlash, splitSlash, ih]
    split
    · rfl
    · cases hs : splitSlash cs with
      | nil => exact absurd hs (splitSlash_ne_nil cs)
      | cons w ws => rfl

@[simp] theorem push_nil (rooted : Bool) (stack : List Comp) : push rooted stack [] = stack :=
  if_pos (Or.inl rfl)

theorem toList_append_slash (p q : String) :
    (p ++ "/" ++ q).toList = p.toList ++ '/' :: q.toList := by
  rw [String.toList_append, String.toList_append, List.append_assoc]
  rfl

theorem isAbs_append {root : String} (h : isAbs root = true) (p : String) :
    isAbs (root ++ p) = true := by
  unfold isAbs at h ⊢
  rw [String.toList_append]
  cases hl : root.toList with
  | nil =>
    rw [hl] at h
    exact absurd h (by decide)
  | cons c cs =>
    rw [hl] at h
    exact h

theorem ne_empty_of_isAbs {root : String} (h : isAbs root = true) : root ≠ "" := fun hc => by
  rw [hc] at h
  exact absurd h (by decide)

theorem parse_clean {p : String} (h : isAbs p = true) : parse (clean p) = parse p :=
  parse_render (plain_parse h)

/-- **What joining makes of the components**: those of the second path are pushed on the first. -/
theorem parse_join {root : String} (h : isAbs root = true) (p : String) :
    parse (join root p) =
      ⟨true, ((splitSlash p.toList).foldl (push true) (parse root).comps.reverse).reverse⟩ := by
  have hrooted : (parse root).rooted = true := h
  unfold join
  rw [if_neg (ne_empty_of_isAbs h)]
  by_cases hp : p = ""
  · have hempty : (splitSlash p.toList).foldl (push true) (parse root).comps.reverse =
        (parse root).comps.reverse := by
      have hsplit : splitSlash "".toList = [[]] := rfl
      rw [hp, hsplit]
      exact push_nil true _
    rw [if_pos hp, parse_clean h, hempty, List.reverse_reverse, ← hrooted]
  · have habs : isAbs (root ++ "/" ++ p) = true := isAbs_append (isAbs_append h "/") p
    have hhead : decide ((root.toList ++ '/' :: p.toList).head? = some '/') = true := by
      rw [← toList_append_slash]
      exact habs
    have hhead' : decide (root.toList.head? = some '/') = true := h
    rw [if_neg hp, parse_clean habs]
    simp only [parse, hhead, hhead', toList_append_slash, splitSlash_append_slash,
      List.foldl_append, List.reverse_reverse]

/-- A joined path is clean and absolute. -/
theorem isClean_join {root : String} (h : isAbs root = true) (p : String) :
    IsClean (join root p) ∧ isAbs (join root p) = true := by
  unfold join
  rw [if_neg (ne_empty_of_isAbs h)]
  by_cases hp : p = ""
  · rw [if_pos hp]
    exact isClean_clean h
  · rw [if_neg hp]
    exact isClean_clean (isAbs_append (isAbs_append h "/") p)

/-- Absolute paths that are clean are told apart by their components. -/
theorem IsClean.eq_of_comps {p q : String} (hp : IsClean p) (hq : IsClean q)
    (hpa : isAbs p = true) (hqa : isAbs q = true) (h : (parse p).comps = (parse q).comps) :
    p = q := by
  have hrooted : (parse p).rooted = (parse q).rooted := hpa.trans hqa.symm
  rw [← hp.clean, ← hq.clean, Parsed.ext hrooted h]

/-- The components of a path that is written from plain ones. -/
theorem splitSlash_render {ws : List Comp} (hne : ws ≠ []) (hw : ∀ w ∈ ws, Plain w) :
    splitSlash (render ⟨false, ws⟩).toList = ws := by
  unfold render
  rw [if_neg Bool.false_ne_true, if_neg hne, String.toList_ofList,
    splitSlash_joinSlash hne fun w hmem => (hw w hmem).2.2.2]

/-- **Joining with plain components** puts them behind the others. -/
theorem comps_join {root p : String} (h : isAbs root = true)
    (hp : ∀ w ∈ splitSlash p.toList, Plain w) :
    (parse (join root p)).comps = (parse root).comps ++ splitSlash p.toList := by
  rw [parse_join h, foldl_push hp, List.reverse_append, List.reverse_reverse,
    List.reverse_reverse]

/-- Whatever stands before them. -/
theorem comps_join_append {root p : String} (h : isAbs root = true)
    (hp : ∀ w ∈ splitSlash p.toList, Plain w) (s : String) :
    (parse (join root (s ++ "/" ++ p))).comps =
      (parse (join root s)).comps ++ splitSlash p.toList := by
  rw [parse_join h, parse_join h, toList_append_slash, splitSlash_append_slash,
    List.foldl_append, foldl_push hp, List.reverse_append, List.reverse_reverse]

/-- **Two ways to read a path as what stands before a slash and after it.** -/
theorem append_slash_cases {p q r r' : String} (h : p ++ "/" ++ r = q ++ "/" ++ r') :
    (p = q ∧ r = r') ∨ (∃ s, p = q ++ "/" ++ s ∧ r' = s ++ "/" ++ r) ∨
      ∃ s, q = p ++ "/" ++ s ∧ r = s ++ "/" ++ r' := by
  have hlist := congrArg String.toList h
  rw [toList_append_slash, toList_append_slash] at hlist
  simp only [← String.toList_inj, toList_append_slash]
  rcases List.append_eq_append_iff.mp hlist with ⟨t, hq, hr⟩ | ⟨t, hp, hr⟩
  · rcases t with _ | ⟨c, t⟩
    · exact Or.inl ⟨by rw [hq, List.append_nil], (List.cons.inj hr).2⟩
    · obtain ⟨hc, ht⟩ := List.cons.inj hr
      refine Or.inr (Or.inr ⟨String.ofList t, ?_⟩)
      rw [String.toList_ofList]
      exact ⟨hc ▸ hq, ht⟩
  · rcases t with _ | ⟨c, t⟩
    · exact Or.inl ⟨by rw [hp, List.append_nil], (List.cons.inj hr).2.symm⟩
    · obtain ⟨hc, ht⟩ := List.cons.inj hr
      refine Or.inr (Or.inl ⟨String.ofList t, ?_⟩)
      rw [String.toList_ofList]
      exact ⟨hc ▸ hp, ht⟩

/-! ### Local paths -/

/-- The extension does not depend on the directory. -/
theorem ext_append_slash (p q : String) : ext (p ++ "/" ++ q) = ext q := by
  have hlast : (splitSlash (p ++ "/" ++ q).toList).getLastD [] =
      (splitSlash q.toList).getLastD [] := by
    rw [toList_append_slash, splitSlash_append_slash, List.getLastD_eq_getLast?,
      List.getLastD_eq_getLast?, List.getLast?_append_of_ne_nil _ (splitSlash_ne_nil _)]
  unfold ext
  rw [hlast]

theorem joinSlash_append {ws vs : List Comp} (hw : ws ≠ []) (hv : vs ≠ []) :
    joinSlash (ws ++ vs) = joinSlash ws ++ '/' :: joinSlash vs := by
  induction ws with
  | nil => exact absurd rfl hw
  | cons w ws ih =>
    cases ws with
    | nil =>
      cases vs with
      | nil => exact absurd rfl hv
      | cons v vs => rfl
    | cons w' ws =>
      rw [List.cons_append, List.cons_append, joinSlash, ← List.cons_append,
        ih (List.cons_ne_nil _ _), joinSlash, List.append_assoc, List.cons_append]

/-- **A path inside the current directory**: clean, not absolute, and not the directory. -/
structure IsLocal (p : String) : Prop where
  clean : IsClean p
  rooted : (parse p).rooted = false
  comps : (parse p).comps ≠ []

instance (p : String) : Decidable (IsLocal p) :=
  decidable_of_iff (IsClean p ∧ (parse p).rooted = false ∧ (parse p).comps ≠ [])
    ⟨fun h => ⟨h.1, h.2.1, h.2.2⟩, fun h => ⟨h.clean, h.rooted, h.comps⟩⟩

namespace IsLocal

variable {p q : String}

theorem toList_eq (h : IsLocal p) : p.toList = joinSlash (parse p).comps := by
  have hp := h.clean.clean
  unfold render at hp
  rw [h.rooted, if_neg Bool.false_ne_true, if_neg h.comps] at hp
  rw [← hp, String.toList_ofList, hp]

theorem of_comps {ws : List Comp} (hne : ws ≠ []) (hw : ∀ w ∈ ws, Plain w) :
    IsLocal (render ⟨false, ws⟩) ∧ parse (render ⟨false, ws⟩) = ⟨false, ws⟩ := by
  have hparse := parse_render (x := ⟨false, ws⟩) hw
  refine ⟨⟨⟨by rw [hparse], by rwa [hparse]⟩, by rw [hparse], by rwa [hparse]⟩, hparse⟩

/-- The directory of a local path has the components but the last. -/
theorem dir_eq (h : IsLocal p) : dir p = render ⟨false, (parse p).comps.dropLast⟩ := by
  have hsl : ∀ w ∈ (parse p).comps, '/' ∉ w := fun w hw => (h.clean.plain w hw).2.2.2
  have hup : (splitSlash p.toList).dropLast = (parse p).comps.dropLast := by
    rw [h.toList_eq, splitSlash_joinSlash h.comps hsl]
  unfold dir
  simp only
  rw [hup]
  have hplain : ∀ w ∈ (parse p).comps.dropLast, Plain w := fun w hw =>
    h.clean.plain w (List.mem_of_mem_dropLast hw)
  generalize (parse p).comps.dropLast = up at hplain
  by_cases hnil : up = []
  · rw [if_pos hnil, hnil]
    rfl
  · rw [if_neg hnil]
    refine congrArg render ?_
    have hhead : (joinSlash up ++ ['/']).head? ≠ some '/' := by
      intro hc
      rw [List.head?_append] at hc
      cases hj : (joinSlash up).head? with
      | none =>
        cases up with
        | nil => exact hnil rfl
        | cons w ws =>
          have hne : joinSlash (w :: ws) ≠ [] := by
            obtain ⟨hw, -⟩ := hplain w List.mem_cons_self
            cases ws with
            | nil => exact hw
            | cons w' ws => exact List.append_ne_nil_of_left_ne_nil hw _
          exact hne (List.head?_eq_none_iff.mp hj)
      | some c =>
        rw [hj] at hc
        exact head?_joinSlash hplain (hj.trans hc)
    have hsplit : splitSlash (joinSlash up ++ ['/']) = up ++ [[]] := by
      rw [splitSlash_append_slash, splitSlash_joinSlash hnil fun w hw => (hplain w hw).2.2.2]
      rfl
    unfold parse
    simp only [String.toList_ofList, hhead, decide_false, hsplit, List.foldl_append,
      foldl_push hplain, List.append_nil, List.foldl_cons, List.foldl_nil]
    rw [show push false up.reverse [] = up.reverse from if_pos (Or.inl rfl), List.reverse_reverse]

/-- A local path below another. -/
theorem join (hp : IsLocal p) (hq : IsLocal q) : IsLocal (p ++ "/" ++ q) ∧
    (parse (p ++ "/" ++ q)).comps = (parse p).comps ++ (parse q).comps := by
  have hne : (parse p).comps ++ (parse q).comps ≠ [] := fun hc =>
    hp.comps (List.append_eq_nil_iff.mp hc).1
  have hplain : ∀ w ∈ (parse p).comps ++ (parse q).comps, Plain w := fun w hw =>
    (List.mem_append.mp hw).elim (hp.clean.plain w) (hq.clean.plain w)
  have heq : p ++ "/" ++ q = render ⟨false, (parse p).comps ++ (parse q).comps⟩ := by
    refine String.toList_inj.mp ?_
    unfold render
    rw [if_neg Bool.false_ne_true, if_neg hne, String.toList_ofList,
      joinSlash_append hp.comps hq.comps, ← hp.toList_eq, ← hq.toList_eq, String.toList_append,
      String.toList_append, List.append_assoc]
    rfl
  obtain ⟨hlocal, hparse⟩ := of_comps hne hplain
  rw [heq]
  exact ⟨hlocal, by rw [hparse]⟩

/-- **Two files below a directory are in one directory** exactly if they are in one without it. -/
theorem dir_join_eq_iff {q' : String} (hp : IsLocal p) (hq : IsLocal q) (hq' : IsLocal q') :
    dir (p ++ "/" ++ q) = dir (p ++ "/" ++ q') ↔ dir q = dir q' := by
  obtain ⟨hj, hc⟩ := hp.join hq
  obtain ⟨hj', hc'⟩ := hp.join hq'
  have hinj : ∀ {ws vs : List Comp}, (∀ w ∈ ws, Plain w) → (∀ w ∈ vs, Plain w) →
      (render ⟨false, ws⟩ = render ⟨false, vs⟩ ↔ ws = vs) := fun {ws vs} hw hv => by
    refine ⟨fun h => ?_, fun h => by rw [h]⟩
    have hx := congrArg parse h
    rw [parse_render (x := ⟨false, ws⟩) hw, parse_render (x := ⟨false, vs⟩) hv] at hx
    exact congrArg Parsed.comps hx
  have hdrop : ∀ {x : String}, IsLocal x → ∀ w ∈ (parse x).comps.dropLast, Plain w := fun hx w hw =>
    hx.clean.plain w (List.mem_of_mem_dropLast hw)
  rw [hj.dir_eq, hj'.dir_eq, hq.dir_eq, hq'.dir_eq, hinj (hdrop hj) (hdrop hj'),
    hinj (hdrop hq) (hdrop hq'), hc, hc', List.dropLast_append_of_ne_nil hq.comps,
    List.dropLast_append_of_ne_nil hq'.comps, List.append_cancel_left_eq]

end IsLocal

end GoPath
