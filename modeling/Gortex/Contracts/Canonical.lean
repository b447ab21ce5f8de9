import Mathlib.Data.Bool.AllAny
import Gortex.Contracts.Shape
import Gortex.Lib.GoText

/-!
# Decorated types

What the passes of `canonicalType` in `internal/contracts/validate.go` take off a type. A type is
a name with an optional package in front, containers around it, the members of a union that stand
for a missing value, and the marks of an optional type and of a pointer. The passes run once each
and in a fixed order, from the outside to the inside, so the decorations come off if they stand
in that order (`Gortex.TypeExpr.canonicalType_of_spells`), and the loop over the containers takes
off any number of them in any order. Byte slices are types of their own.

Types agree up to their decorations exactly if they have one canonical form, but a slot also
holds values of other types: integers where floats are expected, for one
(`Gortex.TypeExpr.canAssign_iff`).
-/

namespace Gortex

open GoString

/-! ### Decorations -/

/-- The generic containers. -/
inductive Generic
  | array
  | list
  | set
  | collection
  | optional
deriving DecidableEq

/-- What a generic container is opened by. -/
def Generic.opening : Generic → String
  | array => "Array<"
  | list => "List<"
  | set => "Set<"
  | collection => "Collection<"
  | optional => "Optional<"

/-- The containers. -/
inductive Wrapper
  | generic (k : Generic)
  | slice
  | array
deriving DecidableEq

/-- A container of a type. -/
def Wrapper.wrap : Wrapper → List Char → List Char
  | generic k, t => k.opening.toList ++ t ++ ['>']
  | slice, t => ['[', ']'] ++ t
  | array, t => t ++ ['[', ']']

/-- Containers of a type, the outermost first. -/
def wrapAll (ws : List Wrapper) (t : List Char) : List Char := ws.foldr Wrapper.wrap t

/-- The members of a union that stand for a missing value, in the order of the passes. -/
def nullMembers : List String := ["null", "None", "undefined"]

/-- **A type that is no container.** -/
structure Bare (t : List Char) : Prop where
  ne_nil : t ≠ []
  slice : ¬['[', ']'] <+: t
  array : ¬['[', ']'] <:+ t
  generic : ∀ k : Generic, ¬(k.opening.toList <+: t ∧ ['>'] <:+ t)

/-- **A name without decorations**: any text without blanks and dots that carries none of
them. -/
structure Undecorated (n : List Char) : Prop extends Bare n where
  plain : ∀ c ∈ n, c ≠ '.' ∧ isSpace c = false
  pointer : ¬['*'] <+: n
  question : ¬['?'] <:+ n
  union : ∀ m ∈ nullMembers, ¬ '|' :: m.toList <:+ n ∧ ¬ m.toList ++ ['|'] <+: n

/-- A package, by its path or its name. -/
structure Package where
  chars : List Char
  plain : ∀ c ∈ chars, isSpace c = false ∧ c ∉ ['*', '?', '|', '<', '>', '[', ']']

/-- **A type expression**: a name under decorations, from the outside to the inside. -/
structure TypeExpr where
  pointer : Bool
  question : Bool
  orNull : Bool
  orNone : Bool
  orUndefined : Bool
  wrappers : List Wrapper
  package : Option Package
  name : List Char
  undecorated : Undecorated name

namespace TypeExpr

variable (e : TypeExpr)

/-- The name under the package. -/
def qualified : List Char :=
  match e.package with
  | none => e.name
  | some p => p.chars ++ '.' :: e.name

/-- The containers of the name. -/
def base : List Char := wrapAll e.wrappers e.qualified

/-- A text if it is there. -/
def orNil (b : Bool) (l : List Char) : List Char := if b then l else []

/-- The text of a type. -/
def text : List Char :=
  orNil e.pointer ['*'] ++ (e.base ++ orNil e.orUndefined "|undefined".toList ++
    orNil e.orNone "|None".toList ++ orNil e.orNull "|null".toList) ++ orNil e.question ['?']

/-- A type may be written with spaces anywhere, and blanks at its ends. -/
def Spells (s : String) : Prop := (trimSpace s).toList.filter (fun c => c ≠ ' ') = e.text

instance (s : String) : Decidable (e.Spells s) := inferInstanceAs (Decidable (_ = _))

/-- **What is left of a type**: its name, but byte slices are bytes. -/
def canonical : String :=
  if String.ofList e.base ∈ ["[]byte", "byte[]", "Vec<u8>", "Uint8List"] then "bytes"
  else String.ofList e.name

end TypeExpr

/-! ### Containers -/

theorem wrapAll_ne_nil {ws : List Wrapper} {t : List Char} (ht : t ≠ []) : wrapAll ws t ≠ [] := by
  induction ws with
  | nil => exact ht
  | cons w ws ih =>
    cases w with
    | generic k => exact List.append_ne_nil_of_right_ne_nil _ (List.cons_ne_nil _ _)
    | slice => exact List.append_ne_nil_of_left_ne_nil (List.cons_ne_nil _ _) _
    | array => exact List.append_ne_nil_of_right_ne_nil _ (List.cons_ne_nil _ _)

/-- What ends a text after a mark that it does not contain ends what follows the mark. -/
theorem suffix_of_suffix_append_cons {u a b : List Char} {c : Char} (hc : c ∉ u)
    (h : u <:+ a ++ c :: b) : u <:+ b := by
  rcases List.suffix_or_suffix_of_suffix h (List.suffix_append a (c :: b)) with hu | hu
  · rcases List.suffix_cons_iff.mp hu with rfl | hu
    · exact absurd List.mem_cons_self hc
    · exact hu
  · exact absurd (hu.subset List.mem_cons_self) hc

/-- What ends a text that ends with a character contains the character. -/
theorem mem_of_suffix_concat {u a : List Char} {c : Char} (hne : u ≠ []) (h : u <:+ a ++ [c]) :
    c ∈ u := by
  have hlen : [c].length ≤ u.length := List.length_pos_iff.mpr hne
  exact (List.suffix_of_suffix_length_le (List.suffix_append a [c]) h hlen).subset
    (List.mem_singleton_self c)

/-- Brackets at the end of something after brackets. -/
theorem suffix_of_suffix_slice {l : List Char} (hne : l ≠ [])
    (h : ['[', ']'] <:+ ['[', ']'] ++ l) : ['[', ']'] <:+ l := by
  match l, hne, h with
  | [c], _, h => simp [List.suffix_cons_iff] at h
  | c :: d :: l, _, h =>
    exact List.suffix_of_suffix_length_le h (List.suffix_append _ _) (Nat.le_add_left 2 l.length)

/-- Brackets at the beginning of something before brackets. -/
theorem prefix_of_prefix_array {l : List Char} (hne : l ≠ [])
    (h : ['[', ']'] <+: l ++ ['[', ']']) : ['[', ']'] <+: l := by
  match l, hne, h with
  | [c], _, h => simp [List.cons_prefix_cons] at h
  | c :: d :: l, _, h =>
    exact List.prefix_of_prefix_length_le h (List.prefix_append _ _) (Nat.le_add_left 2 l.length)

/-- A trailing pair of brackets comes off a type in containers. -/
theorem exists_of_array_suffix {ws : List Wrapper} {t : List Char} (ht : Bare t)
    (h : ['[', ']'] <:+ wrapAll ws t) : ∃ ws', wrapAll ws t = wrapAll ws' t ++ ['[', ']'] := by
  induction ws with
  | nil => exact absurd h ht.array
  | cons w ws ih =>
    cases w with
    | generic k => exact absurd (mem_of_suffix_concat (List.cons_ne_nil _ _) h) (by decide)
    | array => exact ⟨ws, rfl⟩
    | slice =>
      obtain ⟨ws', hws'⟩ := ih (suffix_of_suffix_slice (wrapAll_ne_nil ht.ne_nil) h)
      exact ⟨.slice :: ws', congrArg (fun l => ['[', ']'] ++ l) hws'⟩

/-- A leading pair of brackets comes off a type in containers. -/
theorem exists_of_slice_prefix {ws : List Wrapper} {t : List Char} (ht : Bare t)
    (h : ['[', ']'] <+: wrapAll ws t) : ∃ ws', wrapAll ws t = ['[', ']'] ++ wrapAll ws' t := by
  induction ws with
  | nil => exact absurd h ht.slice
  | cons w ws ih =>
    cases w with
    | generic k => cases k <;> exact absurd (List.cons_prefix_cons.mp h).1 (by decide)
    | slice => exact ⟨ws, rfl⟩
    | array =>
      obtain ⟨ws', hws'⟩ := ih (prefix_of_prefix_array (wrapAll_ne_nil ht.ne_nil) h)
      refine ⟨.array :: ws', ?_⟩
      change wrapAll ws t ++ ['[', ']'] = ['[', ']'] ++ (wrapAll ws' t ++ ['[', ']'])
      rw [hws', List.append_assoc]

/-- The generic container around a type in containers is the outermost one. -/
theorem exists_of_generic {ws : List Wrapper} {t : List Char} (ht : Bare t) {k : Generic}
    (hopen : k.opening.toList <+: wrapAll ws t) (hclose : ['>'] <:+ wrapAll ws t) :
    ∃ ws', ws = .generic k :: ws' := by
  cases ws with
  | nil => exact absurd ⟨hopen, hclose⟩ (ht.generic k)
  | cons w ws =>
    cases w with
    | generic k' =>
      have hk : k = k' := by
        rw [wrapAll, List.foldr_cons, Wrapper.wrap, List.append_assoc] at hopen
        cases k <;> cases k' <;> simp [Generic.opening, List.cons_prefix_cons] at hopen ⊢
      exact ⟨ws, by rw [hk]⟩
    | slice => cases k <;> exact absurd (List.cons_prefix_cons.mp hopen).1 (by decide)
    | array =>
      have hmem := mem_of_suffix_concat (a := wrapAll ws t ++ ['[']) (List.cons_ne_nil _ _)
        (by rw [List.append_assoc]; exact hclose)
      exact absurd hmem (by decide)

theorem exists_opening {pfx : String}
    (h : pfx ∈ ["Array<", "List<", "Set<", "Collection<", "Optional<"]) :
    ∃ k : Generic, pfx = k.opening := by
  simp only [List.mem_cons, List.not_mem_nil, or_false] at h
  rcases h with rfl | rfl | rfl | rfl | rfl
  exacts [⟨.array, rfl⟩, ⟨.list, rfl⟩, ⟨.set, rfl⟩, ⟨.collection, rfl⟩, ⟨.optional, rfl⟩]

/-- **A round takes containers off** a type in containers, and nothing else. -/
theorem unwrapOnce_wrapAll {ws : List Wrapper} {t : List Char} (ht : Bare t) {s : String}
    (hs : s.toList = wrapAll ws t) : ∃ ws', (unwrapOnce s).toList = wrapAll ws' t := by
  have hprefix : ∀ {s : String} {ws}, s.toList = wrapAll ws t →
      ∃ ws', (trimPrefix s "[]").toList = wrapAll ws' t := by
    intro s ws hs
    by_cases h : "[]".toList <+: s.toList
    · obtain ⟨ws', hws'⟩ := exists_of_slice_prefix ht (hs ▸ h)
      exact ⟨ws', toList_trimPrefix (hs.trans hws')⟩
    · exact ⟨ws, by rw [trimPrefix_eq_self h, hs]⟩
  have hsuffix : ∀ {s : String} {ws}, s.toList = wrapAll ws t →
      ∃ ws', (trimSuffix s "[]").toList = wrapAll ws' t := by
    intro s ws hs
    by_cases h : "[]".toList <:+ s.toList
    · obtain ⟨ws', hws'⟩ := exists_of_array_suffix ht (hs ▸ h)
      exact ⟨ws', toList_trimSuffix (hs.trans hws')⟩
    · exact ⟨ws, by rw [trimSuffix_eq_self h, hs]⟩
  rw [unwrapOnce]
  cases hfind : ["Array<", "List<", "Set<", "Collection<", "Optional<"].find? fun pfx =>
      hasPrefix s pfx && hasSuffix s ">" with
  | none =>
    obtain ⟨ws', hws'⟩ := hsuffix hs
    exact hprefix hws'
  | some pfx =>
    obtain ⟨k, rfl⟩ := exists_opening (List.mem_of_find?_eq_some hfind)
    have hboth := List.find?_some hfind
    rw [Bool.and_eq_true, hasPrefix_iff_prefix, hasSuffix_iff_suffix, hs] at hboth
    obtain ⟨ws', rfl⟩ := exists_of_generic ht hboth.1 hboth.2
    have hopen : (trimPrefix s k.opening).toList = wrapAll ws' t ++ ">".toList :=
      toList_trimPrefix (hs.trans (List.append_assoc _ _ _))
    obtain ⟨ws'', hws''⟩ := hsuffix (toList_trimSuffix hopen)
    exact hprefix hws''

/-- **A type that a round leaves as it is is no container.** -/
theorem of_unwrapOnce_eq_self {s : String} (h : unwrapOnce s = s) :
    ¬['[', ']'] <+: s.toList ∧ ¬['[', ']'] <:+ s.toList ∧
      ∀ k : Generic, ¬(k.opening.toList <+: s.toList ∧ ['>'] <:+ s.toList) := by
  rw [unwrapOnce] at h
  cases hfind : ["Array<", "List<", "Set<", "Collection<", "Optional<"].find? fun pfx =>
      hasPrefix s pfx && hasSuffix s ">" with
  | none =>
    simp only [hfind, Option.map_none, Option.getD_none] at h
    have hle := length_trimPrefix_le (trimSuffix s "[]") "[]"
    rw [h] at hle
    have hsuffix : ¬['[', ']'] <:+ s.toList :=
      not_suffix_of_trimSuffix (p := "[]") (by decide) hle
    rw [trimSuffix_eq_self (p := "[]") hsuffix] at h
    refine ⟨not_prefix_of_trimPrefix (p := "[]") (by decide) (by rw [h]), hsuffix,
      fun k hk => ?_⟩
    refine absurd (List.find?_eq_none.mp hfind k.opening (by cases k <;> decide)) (not_not.mpr ?_)
    rw [Bool.and_eq_true, hasPrefix_iff_prefix, hasSuffix_iff_suffix]
    exact hk
  | some pfx =>
    -- a container that comes off would make the type shorter
    simp only [hfind, Option.map_some, Option.getD_some] at h
    have hle := ((length_trimPrefix_le _ "[]").trans (length_trimSuffix_le _ "[]")).trans
      (length_trimSuffix_le (trimPrefix s pfx) ">")
    rw [h] at hle
    obtain ⟨k, rfl⟩ := exists_opening (List.mem_of_find?_eq_some hfind)
    have hboth := List.find?_some hfind
    rw [Bool.and_eq_true, hasPrefix_iff_prefix] at hboth
    exact absurd hboth.1 (not_prefix_of_trimPrefix (by cases k <;> decide) hle)

/-- **The loop takes all containers off.** -/
theorem unwrap_wrapAll {ws : List Wrapper} {t : List Char} (ht : Bare t) {s : String}
    (hs : s.toList = wrapAll ws t) : (unwrap s.length s).toList = t := by
  have hinv : ∀ fuel (s : String), (∃ ws, s.toList = wrapAll ws t) →
      ∃ ws, (unwrap fuel s).toList = wrapAll ws t := by
    intro fuel
    induction fuel with
    | zero => exact fun s h => h
    | succ fuel ih =>
      rintro s ⟨ws, hs⟩
      rw [unwrap]
      split_ifs
      · exact ⟨ws, hs⟩
      · exact ih _ (unwrapOnce_wrapAll ht hs)
  obtain ⟨ws', hws'⟩ := hinv s.length s ⟨ws, hs⟩
  obtain ⟨hslice, harray, hgeneric⟩ := of_unwrapOnce_eq_self (unwrapOnce_unwrap (le_refl s.length))
  rw [hws'] at hslice harray hgeneric
  cases ws' with
  | nil => exact hws'
  | cons w ws' =>
    cases w with
    | generic k =>
      refine absurd ⟨?_, List.suffix_append _ _⟩ (hgeneric k)
      exact (List.prefix_append _ _).trans (List.prefix_append _ _)
    | slice => exact absurd (List.prefix_append _ _) hslice
    | array => exact absurd (List.suffix_append _ _) harray

/-- What does not end a type does not end it in containers, unless it has one of their marks. -/
theorem not_suffix_wrapAll {u t : List Char} (hne : u ≠ []) (hangle : '>' ∉ u) (hbracket : ']' ∉ u)
    (h : ¬u <:+ t) (ws : List Wrapper) : ¬u <:+ wrapAll ws t := by
  induction ws with
  | nil => exact h
  | cons w ws ih =>
    intro hu
    cases w with
    | generic k => exact hangle (mem_of_suffix_concat hne hu)
    | slice => exact ih (suffix_of_suffix_append_cons (a := ['[']) hbracket hu)
    | array =>
      refine hbracket (mem_of_suffix_concat (a := wrapAll ws t ++ ['[']) hne ?_)
      rw [List.append_assoc]
      exact hu

/-- A type in containers begins with a star only if the type does. -/
theorem not_pointer_wrapAll {t : List Char} (hne : t ≠ []) (h : ¬['*'] <+: t)
    (ws : List Wrapper) : ¬['*'] <+: wrapAll ws t := by
  induction ws with
  | nil => exact h
  | cons w ws ih =>
    intro hu
    cases w with
    | generic k => cases k <;> exact absurd (List.cons_prefix_cons.mp hu).1 (by decide)
    | slice => exact absurd (List.cons_prefix_cons.mp hu).1 (by decide)
    | array =>
      exact ih (List.prefix_of_prefix_length_le hu (List.prefix_append _ _)
        (List.length_pos_iff.mpr (wrapAll_ne_nil hne)))

/-! ### The marks around a type -/

namespace TypeExpr

theorem not_suffix_append_orNil {u x m : List Char} (hx : ¬u <:+ x) (hm : ¬u <:+ m)
    (hlen : u.length ≤ m.length) (b : Bool) : ¬u <:+ x ++ orNil b m := by
  cases b with
  | false =>
    rw [orNil, if_neg Bool.false_ne_true, List.append_nil]
    exact hx
  | true => exact fun hu => hm (List.suffix_of_suffix_length_le hu (List.suffix_append x m) hlen)

/-- A suffix that may be there comes off. -/
theorem toList_trimSuffix_orNil {s p : String} {x : List Char} {b : Bool}
    (hs : s.toList = x ++ orNil b p.toList) (hx : ¬p.toList <:+ x) :
    (trimSuffix s p).toList = x := by
  cases b with
  | false =>
    rw [orNil, if_neg Bool.false_ne_true, List.append_nil] at hs
    rw [trimSuffix_eq_self (hs ▸ hx), hs]
  | true => exact toList_trimSuffix hs

/-- A star that may be there comes off, whatever spaces follow it. -/
theorem trimPrefix_star {s : String} {x : List Char} {b : Bool} (hne : x ≠ [])
    (hhead : ∀ c ∈ s.toList.head?, c ≠ ' ')
    (hs : s.toList.filter (fun c => c ≠ ' ') = orNil b ['*'] ++ x) (hx : ¬['*'] <+: x) :
    (trimPrefix s "*").toList.filter (fun c => c ≠ ' ') = x ∧
      (trimPrefix s "*").toList.getLast? = s.toList.getLast? := by
  cases hl : s.toList with
  | nil =>
    rw [hl, List.filter_nil, List.nil_eq, List.append_eq_nil_iff] at hs
    exact absurd hs.2 hne
  | cons c l =>
    have hc : c ≠ ' ' := hhead c (by rw [hl]; rfl)
    rw [hl, List.filter_cons_of_pos (by simpa using hc)] at hs
    cases b with
    | true =>
      obtain ⟨rfl, hrest⟩ := List.cons.inj hs
      rw [toList_trimPrefix (p := "*") hl]
      refine ⟨hrest, ?_⟩
      cases l with
      | nil => exact absurd hrest.symm hne
      | cons d l => rfl
    | false =>
      have hnot : ¬"*".toList <+: s.toList := by
        rw [hl]
        rintro hstar
        obtain rfl := (List.cons_prefix_cons.mp hstar).1
        exact hx ⟨_, hs⟩
      rw [trimPrefix_eq_self hnot, hl, List.filter_cons_of_pos (by simpa using hc)]
      exact ⟨hs, rfl⟩

/-- A question mark that may be there comes off, whatever spaces precede it. -/
theorem trimSuffix_question {s : String} {x : List Char} {b : Bool}
    (hlast : ∀ c ∈ s.toList.getLast?, c ≠ ' ') (hne : x ≠ [])
    (hs : s.toList.filter (fun c => c ≠ ' ') = x ++ orNil b ['?']) (hx : ¬['?'] <:+ x) :
    (trimSuffix s "?").toList.filter (fun c => c ≠ ' ') = x := by
  rcases List.eq_nil_or_concat s.toList with hl | ⟨l, c, hl⟩
  · rw [hl, List.filter_nil, List.nil_eq, List.append_eq_nil_iff] at hs
    exact absurd hs.1 hne
  · rw [List.concat_eq_append] at hl
    have hc : c ≠ ' ' := hlast c (by rw [hl, List.getLast?_append]; rfl)
    have hfilter : s.toList.filter (fun c => c ≠ ' ') = l.filter (fun c => c ≠ ' ') ++ [c] := by
      rw [hl, List.filter_append, List.filter_cons_of_pos (by simpa using hc), List.filter_nil]
    rw [hfilter] at hs
    cases b with
    | true =>
      obtain ⟨hrest, hmark⟩ := List.append_inj' hs rfl
      obtain rfl := (List.cons.inj hmark).1
      rw [toList_trimSuffix (p := "?") hl]
      exact hrest
    | false =>
      rw [orNil, if_neg Bool.false_ne_true, List.append_nil] at hs
      have hnot : ¬"?".toList <:+ s.toList := by
        rw [hl]
        rintro ⟨r, hr⟩
        obtain ⟨-, hmark⟩ := List.append_inj' hr rfl
        obtain rfl := (List.cons.inj hmark).1
        exact hx ⟨_, hs⟩
      rw [trimSuffix_eq_self hnot, hfilter]
      exact hs

variable {e : TypeExpr}

/-- What ends a name under a package ends the name. -/
theorem not_suffix_qualified {u : List Char} (hdot : '.' ∉ u) (h : ¬u <:+ e.name) :
    ¬u <:+ e.qualified := by
  rw [qualified]
  cases e.package with
  | none => exact h
  | some p => exact fun hu => h (suffix_of_suffix_append_cons hdot hu)

/-- What begins a name under a package begins the name, or has no mark in it. -/
theorem not_prefix_qualified {u : List Char} (hdot : '.' ∉ u)
    (hmark : ∃ c ∈ u, c ∈ ['*', '?', '|', '<', '>', '[', ']']) (h : ¬u <+: e.name) :
    ¬u <+: e.qualified := by
  rw [qualified]
  cases e.package with
  | none => exact h
  | some p =>
    intro hu
    have hpre : p.chars ++ ['.'] <+: p.chars ++ '.' :: e.name :=
      ⟨e.name, by rw [List.append_assoc, List.singleton_append]⟩
    rcases List.prefix_or_prefix_of_prefix hu hpre with hu | hu
    · obtain ⟨c, hc, hc'⟩ := hmark
      rcases List.mem_append.mp (hu.subset hc) with hmem | hmem
      · exact (p.plain c hmem).2 hc'
      · exact hdot (List.mem_singleton.mp hmem ▸ hc)
    · exact hdot (hu.subset (List.mem_append_right _ List.mem_cons_self))

theorem bare_qualified (e : TypeExpr) : Bare e.qualified where
  ne_nil := by
    rw [qualified]
    cases e.package with
    | none => exact e.undecorated.ne_nil
    | some p => exact List.append_ne_nil_of_right_ne_nil _ (List.cons_ne_nil _ _)
  slice := not_prefix_qualified (by decide) ⟨'[', by decide, by decide⟩ e.undecorated.slice
  array := not_suffix_qualified (by decide) e.undecorated.array
  generic k := by
    rintro ⟨hopen, hclose⟩
    have hsuffix : ['>'] <:+ e.name := by
      by_contra hnot
      exact not_suffix_qualified (by decide) hnot hclose
    refine not_prefix_qualified (by cases k <;> decide) ⟨'<', ?_, by decide⟩
      (fun hu => e.undecorated.generic k ⟨hu, hsuffix⟩) hopen
    cases k <;> decide

theorem not_star_base (e : TypeExpr) : ¬['*'] <+: e.base :=
  not_pointer_wrapAll e.bare_qualified.ne_nil
    (not_prefix_qualified (by decide) ⟨'*', by decide, by decide⟩ e.undecorated.pointer) _

theorem not_question_base (e : TypeExpr) : ¬['?'] <:+ e.base :=
  not_suffix_wrapAll (List.cons_ne_nil _ _) (by decide) (by decide)
    (not_suffix_qualified (by decide) e.undecorated.question) _

/-- No member of a union that stands for a missing value ends a type without its union. -/
theorem not_member_base (e : TypeExpr) {m : String} (hm : m ∈ nullMembers) :
    ¬ '|' :: m.toList <:+ e.base := by
  have hplain : '>' ∉ '|' :: m.toList ∧ ']' ∉ '|' :: m.toList ∧ '.' ∉ '|' :: m.toList := by
    simp only [nullMembers, List.mem_cons, List.not_mem_nil, or_false] at hm
    rcases hm with rfl | rfl | rfl <;> decide
  exact not_suffix_wrapAll (List.cons_ne_nil _ _) hplain.1 hplain.2.1
    (not_suffix_qualified hplain.2.2 (e.undecorated.union m hm).1) _

/-! ### The canonical form -/

/-- The package of a name comes off. -/
theorem cutLast_qualified {s : String} (hs : s.toList = e.qualified) :
    ((cutLast s ".").map Prod.snd).getD s = String.ofList e.name := by
  have hnone : ∀ l : List Char, '.' ∉ l → lastIndexOf ['.'] l = none := by
    intro l hl
    induction l with
    | nil => rfl
    | cons c l ih =>
      rw [List.mem_cons, not_or] at hl
      rw [lastIndexOf, ih hl.2]
      simp [hl.1]
  have hdot : '.' ∉ e.name := fun hc => (e.undecorated.plain _ hc).1 rfl
  have hsep : ".".toList = ['.'] := rfl
  rw [cutLast, hsep, hs, qualified]
  cases hp : e.package with
  | none =>
    rw [hnone _ hdot, Option.map_none, Option.map_none, Option.getD_none, ← String.toList_inj, hs,
      String.toList_ofList, qualified, hp]
  | some p =>
    have hlast : lastIndexOf ['.'] ('.' :: e.name) = some 0 := by
      rw [lastIndexOf, hnone _ hdot]
      rfl
    rw [lastIndexOf_append hlast, Option.map_some, Option.map_some, Option.getD_some]
    refine congrArg String.ofList ?_
    rw [Nat.add_zero, List.drop_length_add_append]
    rfl

/-- The members of the union come off, in the order of the passes. -/
theorem foldl_trimSuffix_members {s : String} (hs : s.toList = e.base ++
    orNil e.orUndefined "|undefined".toList ++ orNil e.orNone "|None".toList ++
      orNil e.orNull "|null".toList) :
    (["|null", "|None", "|undefined"].foldl trimSuffix s).toList = e.base := by
  have hmember : ∀ {m p : String}, m ∈ nullMembers → p.toList = '|' :: m.toList →
      ¬p.toList <:+ e.base := fun hm hp => hp ▸ e.not_member_base hm
  have hnone : ¬"|None".toList <:+ e.base ++ orNil e.orUndefined "|undefined".toList :=
    not_suffix_append_orNil (hmember (m := "None") (by decide) (by decide)) (by decide)
      (by decide) _
  have hundefined : ¬"|undefined".toList <:+ e.base :=
    hmember (m := "undefined") (by decide) (by decide)
  have hnull : ¬"|null".toList <:+ e.base ++ orNil e.orUndefined "|undefined".toList ++
      orNil e.orNone "|None".toList :=
    not_suffix_append_orNil (not_suffix_append_orNil
      (hmember (m := "null") (by decide) (by decide)) (by decide) (by decide) _) (by decide)
      (by decide) _
  simp only [List.foldl_cons, List.foldl_nil]
  exact toList_trimSuffix_orNil (toList_trimSuffix_orNil (toList_trimSuffix_orNil hs hnull) hnone)
    hundefined

/-- **Decorations come off**: the canonical form of a type, however it is spaced, is its name, and
that of byte slices is that of bytes. -/
theorem canonicalType_of_spells {s : String} (hs : e.Spells s) : canonicalType s = e.canonical := by
  have hne : e.base ≠ [] := wrapAll_ne_nil e.bare_qualified.ne_nil
  have hends := GoText.trimSpace_ends s.toList
  have hspace : (trimSpace s).toList = GoText.trimSpace s.toList := String.toList_ofList
  have hblank : ∀ {c : Char}, isSpace c = false → c ≠ ' ' := by
    rintro c hc rfl
    exact absurd hc (by decide)
  rw [Spells, text, List.append_assoc] at hs
  set mid := e.base ++ orNil e.orUndefined "|undefined".toList ++ orNil e.orNone "|None".toList ++
    orNil e.orNull "|null".toList with hmid
  have hmid' : mid = e.base ++ (orNil e.orUndefined "|undefined".toList ++
      (orNil e.orNone "|None".toList ++ orNil e.orNull "|null".toList)) := by
    rw [hmid, List.append_assoc, List.append_assoc]
  -- the star and the question mark
  have hstar : ¬['*'] <+: mid ++ orNil e.question ['?'] := by
    rw [hmid', List.append_assoc]
    exact fun hu => e.not_star_base (List.prefix_of_prefix_length_le hu (List.prefix_append _ _)
      (List.length_pos_iff.mpr hne))
  have hmidne : mid ≠ [] := hmid' ▸ List.append_ne_nil_of_left_ne_nil hne _
  obtain ⟨hrest, hlast⟩ := trimPrefix_star (List.append_ne_nil_of_left_ne_nil hmidne _)
    (fun c hc => hblank (hends.1 c (hspace ▸ hc))) hs hstar
  have hquestion : ¬['?'] <:+ mid := not_suffix_append_orNil (not_suffix_append_orNil
    (not_suffix_append_orNil e.not_question_base (by decide) (by decide) _) (by decide)
    (by decide) _) (by decide) (by decide) _
  have hfilter := trimSuffix_question
    (fun c hc => hblank (hends.2 c (hspace ▸ hlast ▸ hc))) hmidne hrest hquestion
  set t := ["|null", "|None", "|undefined"].foldl trimSuffix (String.ofList
    ((trimSuffix (trimPrefix (trimSpace s) "*") "?").toList.filter fun c => c ≠ ' ')) with ht
  have hbase : t.toList = e.base :=
    foldl_trimSuffix_members (by rw [String.toList_ofList, hfilter])
  have htext : String.ofList e.base = t := by rw [← hbase, String.ofList_toList]
  -- the containers and the package
  have hqualified : (unwrap t.length t).toList = e.qualified :=
    unwrap_wrapAll e.bare_qualified hbase
  rw [canonicalType, canonical, htext, ← ht]
  split_ifs
  · rfl
  · exact cutLast_qualified hqualified

/-! ### What a slot holds -/

/-- **The categories let a slot hold values of another type**: anything, or what is converted
without loss. -/
def Converts (slot value : String) : Prop :=
  primitiveCategory slot = some .any ∨ ∃ a b, primitiveCategory slot = some a ∧
    primitiveCategory value = some b ∧ b ≠ .any ∧ a.holds b = true

/-- **Types become equal exactly if they are the same name up to their decorations**, and a slot
holds the values of a type exactly if they are or the categories of the names allow it. -/
theorem canAssign_iff {d e : TypeExpr} {s s' : String} (hs : d.Spells s) (hs' : e.Spells s') :
    canonicalType s = d.canonical ∧ canonicalType s' = e.canonical ∧
      (canonicalType s = canonicalType s' ↔ d.canonical = e.canonical) ∧
      (canAssign s s' = true ↔ d.canonical = e.canonical ∨ Converts d.canonical e.canonical) := by
  have hd := canonicalType_of_spells hs
  have he := canonicalType_of_spells hs'
  refine ⟨hd, he, by rw [hd, he], ?_⟩
  rw [canAssign, hd, he, Converts]
  by_cases heq : d.canonical = e.canonical
  · rw [if_pos heq]
    exact iff_of_true rfl (.inl heq)
  · rw [if_neg heq, or_iff_right heq]
    split
    · rename_i hslot
      exact iff_of_true rfl (.inl hslot)
    · rename_i hvalue hslot
      refine iff_of_false Bool.false_ne_true ?_
      rintro (hany | ⟨a, b, -, hb, hne, -⟩)
      · exact hslot hany
      · exact hne (Option.some.inj (hb.symm.trans hvalue))
    · rename_i a b hslot hvalue ha hb
      rw [or_iff_right fun hany => hslot (Option.some.inj (ha.symm.trans hany))]
      constructor
      · exact fun hholds => ⟨a, b, ha, hb, hvalue, hholds⟩
      · rintro ⟨a', b', ha', hb', -, hholds⟩
        cases ha.symm.trans ha'
        cases hb.symm.trans hb'
        exact hholds
    · rename_i hslot hvalue hboth
      refine iff_of_false Bool.false_ne_true ?_
      rintro (hany | ⟨a, b, ha, hb, -, -⟩)
      · exact hslot hany
      · exact hboth a b ha hb

theorem undecorated_user : Undecorated "User".toList where
  ne_nil := by decide
  slice := by decide
  array := by decide
  generic k := by cases k <;> decide
  plain := List.all_iff_forall_prop.mp (by decide +kernel)
  pointer := by decide
  question := by decide
  union := List.all_iff_forall_prop.mp (by decide +kernel)

/-- An optional pointer to users, as an interface may have it. -/
def optionalUsers : TypeExpr where
  pointer := true
  question := true
  orNull := true
  orNone := false
  orUndefined := true
  wrappers := [.slice, .generic .list]
  package := some ⟨"api".toList, List.all_iff_forall_prop.mp (by decide +kernel)⟩
  name := "User".toList
  undecorated := undecorated_user

/-- A user. -/
def user : TypeExpr where
  pointer := false
  question := false
  orNull := false
  orNone := false
  orUndefined := false
  wrappers := []
  package := none
  name := "User".toList
  undecorated := undecorated_user

/-- A user fits where an optional pointer to users is expected. -/
theorem canAssign_user :
    canonicalType " * []List<api.User>|undefined | null ? " = "User" ∧
      canAssign " * []List<api.User>|undefined | null ? " "User" = true := by
  have hs : optionalUsers.Spells " * []List<api.User>|undefined | null ? " := by decide +kernel
  have hs' : user.Spells "User" := by decide +kernel
  obtain ⟨hd, -, -, hassign⟩ := canAssign_iff hs hs'
  have hsame : optionalUsers.canonical = user.canonical := by decide +kernel
  exact ⟨hd.trans (by decide +kernel), hassign.mpr (.inl hsame)⟩

/-- **A slot holds other types as well**, byte slices are no bytes in a container, and the members
of a union do not come off in every order. -/
theorem not_canAssign_only_same :
    (canAssign "float64" "int32" = true ∧ canonicalType "float64" ≠ canonicalType "int32") ∧
      canonicalType "[]byte" ≠ canonicalType "byte" ∧
      canonicalType "User|null|undefined" ≠ canonicalType "User" := by
  decide +kernel

end TypeExpr

end Gortex
