import Mathlib.Data.List.Infix

/-!
# Go strings

The functions of Go's `strings` package that the program calls, on the list of
the characters of a string. On well-formed UTF-8 a prefix, a suffix or an infix of
the bytes of a string is one of its characters, so the two readings agree.
-/

namespace GoString

/-! ### Prefixes, suffixes and infixes -/

/-- `strings.HasPrefix`. -/
def hasPrefix (s p : String) : Bool := p.toList.isPrefixOf s.toList

/-- `strings.HasSuffix`. -/
def hasSuffix (s p : String) : Bool := p.toList.isSuffixOf s.toList

/-- `strings.TrimPrefix`. -/
def trimPrefix (s p : String) : String :=
  if hasPrefix s p then String.ofList (s.toList.drop p.toList.length) else s

/-- `strings.TrimSuffix`. -/
def trimSuffix (s p : String) : String :=
  if hasSuffix s p then String.ofList (s.toList.take (s.toList.length - p.toList.length)) else s

/-- `unicode.IsSpace`: the characters with the property `White_Space`. -/
def isSpace (c : Char) : Bool :=
  c.toNat ∈ [0x09, 0x0a, 0x0b, 0x0c, 0x0d, 0x20, 0x85, 0xa0, 0x1680, 0x2028, 0x2029, 0x202f, 0x205f,
    0x3000] ∨ (0x2000 ≤ c.toNat ∧ c.toNat ≤ 0x200a)

/-- `strings.TrimSpace`. -/
def trimSpace (s : String) : String :=
  String.ofList (((s.toList.dropWhile isSpace).reverse.dropWhile isSpace).reverse)

/-- Whether a list occurs in another one as a block. -/
def isInfixOf (p : List Char) : List Char → Bool
  | [] => p.isEmpty
  | c :: cs => p.isPrefixOf (c :: cs) || isInfixOf p cs

/-- `strings.Contains`. -/
def contains (s p : String) : Bool := isInfixOf p.toList s.toList

/-- `strings.ContainsAny`. -/
def containsAny (s chars : String) : Bool := s.toList.any fun c => c ∈ chars.toList

/-- The last position at which a list occurs in another one as a block. -/
def lastIndexOf (p : List Char) : List Char → Option ℕ
  | [] => if p.isEmpty then some 0 else none
  | c :: cs =>
    match lastIndexOf p cs with
    | some i => some (i + 1)
    | none => if p.isPrefixOf (c :: cs) then some 0 else none

/-- `strings.LastIndex`, with the two pieces of the string around the match. -/
def cutLast (s sep : String) : Option (String × String) :=
  (lastIndexOf sep.toList s.toList).map fun i =>
    (String.ofList (s.toList.take i), String.ofList (s.toList.drop (i + sep.toList.length)))

theorem hasPrefix_iff {s p : String} : hasPrefix s p = true ↔ ∃ t, s = p ++ t := by
  rw [hasPrefix, List.isPrefixOf_iff_prefix]
  constructor
  · rintro ⟨t, ht⟩
    refine ⟨String.ofList t, ?_⟩
    rw [← String.toList_inj, String.toList_append, String.toList_ofList, ht]
  · rintro ⟨t, rfl⟩
    exact ⟨t.toList, (String.toList_append).symm⟩

theorem hasPrefix_append (p t : String) : hasPrefix (p ++ t) p = true :=
  hasPrefix_iff.mpr ⟨t, rfl⟩

/-- What starts with a word without slashes starts with it before its first slash. -/
theorem hasPrefix_of_hasPrefix_slash {p id label : String} (hl : '/' ∉ label.toList)
    (h : hasPrefix (p ++ "/" ++ id) label = true) : hasPrefix p label = true := by
  have hcons : (p ++ "/" ++ id).toList = p.toList ++ '/' :: id.toList := by
    rw [String.toList_append, String.toList_append, List.append_assoc]
    rfl
  unfold hasPrefix at h ⊢
  rw [List.isPrefixOf_iff_prefix] at h ⊢
  rw [hcons] at h
  have hslash : p.toList ++ ['/'] <+: p.toList ++ '/' :: id.toList :=
    ⟨id.toList, by rw [List.append_assoc, List.singleton_append]⟩
  rcases List.prefix_or_prefix_of_prefix h hslash with hpre | hpre
  · rcases List.prefix_concat_iff.mp hpre with heq | hpre
    · exact absurd (heq ▸ List.mem_append_right _ List.mem_cons_self) hl
    · exact hpre
  · exact absurd (hpre.subset (List.mem_append_right _ List.mem_cons_self)) hl

theorem trimPrefix_append (p s : String) : trimPrefix (p ++ s) p = s := by
  unfold trimPrefix
  rw [if_pos (hasPrefix_append p s), String.toList_append, List.drop_left, String.ofList_toList]

theorem trimPrefix_sublist (s p : String) : (trimPrefix s p).toList.Sublist s.toList := by
  unfold trimPrefix
  by_cases h : hasPrefix s p = true
  · rw [if_pos h, String.toList_ofList]
    exact List.drop_sublist _ _
  · rw [if_neg h]

theorem trimSuffix_sublist (s p : String) : (trimSuffix s p).toList.Sublist s.toList := by
  unfold trimSuffix
  by_cases h : hasSuffix s p = true
  · rw [if_pos h, String.toList_ofList]
    exact List.take_sublist _ _
  · rw [if_neg h]

theorem length_trimPrefix_le (s p : String) : (trimPrefix s p).length ≤ s.length := by
  rw [← String.length_toList, ← String.length_toList]
  exact (trimPrefix_sublist s p).length_le

theorem length_trimSuffix_le (s p : String) : (trimSuffix s p).length ≤ s.length := by
  rw [← String.length_toList, ← String.length_toList]
  exact (trimSuffix_sublist s p).length_le

theorem hasPrefix_iff_prefix {s p : String} : hasPrefix s p = true ↔ p.toList <+: s.toList :=
  List.isPrefixOf_iff_prefix

theorem hasSuffix_iff_suffix {s p : String} : hasSuffix s p = true ↔ p.toList <:+ s.toList :=
  List.isSuffixOf_iff_suffix

/-- What `TrimPrefix` leaves. -/
theorem toList_trimPrefix {s p : String} {t : List Char} (h : s.toList = p.toList ++ t) :
    (trimPrefix s p).toList = t := by
  have hp := hasPrefix_iff_prefix.mpr ⟨t, h.symm⟩
  rw [trimPrefix, if_pos hp, String.toList_ofList, h, List.drop_left]

/-- What `TrimSuffix` leaves. -/
theorem toList_trimSuffix {s p : String} {t : List Char} (h : s.toList = t ++ p.toList) :
    (trimSuffix s p).toList = t := by
  rw [trimSuffix, if_pos (hasSuffix_iff_suffix.mpr ⟨t, h.symm⟩), String.toList_ofList, h,
    List.length_append, Nat.add_sub_cancel, List.take_left]

theorem trimPrefix_eq_self {s p : String} (h : ¬p.toList <+: s.toList) : trimPrefix s p = s :=
  if_neg (mt hasPrefix_iff_prefix.mp h)

theorem trimSuffix_eq_self {s p : String} (h : ¬p.toList <:+ s.toList) : trimSuffix s p = s :=
  if_neg (mt hasSuffix_iff_suffix.mp h)

/-- What `TrimPrefix` leaves as it is does not have the prefix. -/
theorem not_prefix_of_trimPrefix {s p : String} (hp : p.toList ≠ [])
    (h : s.length ≤ (trimPrefix s p).length) : ¬p.toList <+: s.toList := by
  rintro ⟨t, ht⟩
  have hlen : (trimPrefix s p).length = t.length := by
    rw [← String.length_toList, toList_trimPrefix ht.symm]
  rw [hlen, ← String.length_toList, ← ht, List.length_append] at h
  have hpos := List.length_pos_iff.mpr hp
  omega

/-- What `TrimSuffix` leaves as it is does not have the suffix. -/
theorem not_suffix_of_trimSuffix {s p : String} (hp : p.toList ≠ [])
    (h : s.length ≤ (trimSuffix s p).length) : ¬p.toList <:+ s.toList := by
  rintro ⟨t, ht⟩
  have hlen : (trimSuffix s p).length = t.length := by
    rw [← String.length_toList, toList_trimSuffix ht.symm]
  rw [hlen, ← String.length_toList, ← ht, List.length_append] at h
  have hpos := List.length_pos_iff.mpr hp
  omega

/-! ### The last match -/

theorem lastIndexOf_append {p l : List Char} {i : ℕ} (h : lastIndexOf p l = some i)
    (l' : List Char) : lastIndexOf p (l' ++ l) = some (l'.length + i) := by
  induction l' with
  | nil => rw [List.nil_append, h, List.length_nil, Nat.zero_add]
  | cons c l' ih =>
    rw [List.cons_append, lastIndexOf, ih, List.length_cons]
    exact congrArg some (Nat.add_right_comm _ _ _)

end GoString
