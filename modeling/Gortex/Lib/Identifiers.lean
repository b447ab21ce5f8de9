import Mathlib.Data.List.SplitBy
import Gortex.Lib.Occurrence

/-!
# Identifiers in a text

A text is cut into its tokens: the longest runs of characters that identifiers have, and each
other character for itself. To rename an identifier is to replace each token equal to it
(`Identifiers.rename`). To replace the first occurrence of its text does the same if this
occurrence is the only token equal to it (`Identifiers.OnlyToken.splice_eq`), and only then, for a
new name that is an identifier (`Identifiers.onlyToken_of_splice_eq`).
-/

namespace Identifiers

open Occurrence

variable {α : Type*} [DecidableEq α] (ident : α → Bool)

/-- **The tokens of a text.** -/
def tokens (l : List α) : List (List α) := l.splitBy fun a b => ident a && ident b

/-- The token is the identifier. -/
def isName (name t : List α) : Bool := t = name && t.all ident

/-- One token after a renaming. -/
def renameToken (old new t : List α) : List α := if isName ident old t then new else t

/-- **The text with each token equal to the old name replaced.** -/
def rename (old new l : List α) : List α :=
  ((tokens ident l).map (renameToken ident old new)).flatten

/-- **The identifier is the only one of its name**, and stands at the position. -/
def OnlyToken (name l : List α) (i : ℕ) : Prop :=
  name.all ident = true ∧ ∃ pre post, tokens ident l = pre ++ name :: post ∧
    pre.flatten.length = i ∧ name ∉ pre ∧ name ∉ post

omit [DecidableEq α] in
@[simp] theorem flatten_tokens (l : List α) : (tokens ident l).flatten = l :=
  List.flatten_splitBy _ l

variable {ident} {old new l : List α} {i : ℕ}

theorem map_renameToken_of_not_mem {ts : List (List α)} (h : old ∉ ts) :
    ts.map (renameToken ident old new) = ts := by
  refine (List.map_congr_left fun t ht => ?_).trans (List.map_id ts)
  refine if_neg fun hname => h ?_
  rw [isName, Bool.and_eq_true, decide_eq_true_iff] at hname
  exact hname.1 ▸ ht

theorem renameToken_self (h : old.all ident = true) : renameToken ident old new old = new := by
  rw [renameToken, isName, h, Bool.and_true, if_pos (decide_eq_true rfl)]

omit [DecidableEq α] in
/-- The text around one of its tokens. -/
theorem eq_of_tokens {pre post : List (List α)} (h : tokens ident l = pre ++ old :: post) :
    l = pre.flatten ++ old ++ post.flatten := by
  rw [← flatten_tokens ident l, h, List.flatten_append, List.flatten_cons,
    List.append_assoc]

theorem rename_of_tokens (new : List α) {pre post : List (List α)}
    (h : tokens ident l = pre ++ old :: post) (hpre : old ∉ pre) (hold : old.all ident = true) :
    rename ident old new l =
      pre.flatten ++ new ++ (post.map (renameToken ident old new)).flatten := by
  rw [rename, h, List.map_append, List.map_cons, map_renameToken_of_not_mem hpre,
    renameToken_self hold, List.flatten_append, List.flatten_cons, List.append_assoc]

omit [DecidableEq α] in
theorem splice_of_tokens {pre post : List (List α)} (h : tokens ident l = pre ++ old :: post) :
    splice l pre.flatten.length old.length new = pre.flatten ++ new ++ post.flatten := by
  rw [eq_of_tokens h, splice_append]

/-- **To replace the only token of a name** is to rename it. -/
theorem OnlyToken.splice_eq (h : OnlyToken ident old l i) :
    splice l i old.length new = rename ident old new l := by
  obtain ⟨hold, pre, post, htokens, rfl, hpre, hpost⟩ := h
  rw [splice_of_tokens htokens, rename_of_tokens new htokens hpre hold,
    map_renameToken_of_not_mem hpost]

omit [DecidableEq α] in
/-- **Before an identifier** there is no character of one. -/
theorem not_ident_before {pre post : List (List α)} {u : List α} {c : α}
    (h : tokens ident l = pre ++ old :: post) (hold : old.all ident = true)
    (hpre : pre.flatten = u ++ [c]) : ident c = false := by
  rcases List.eq_nil_or_concat pre with rfl | ⟨pre', w, rfl⟩
  · exact absurd hpre.symm (List.append_ne_nil_of_right_ne_nil _ (List.cons_ne_nil _ _))
  have hchain := List.isChain_getLast_head_splitBy (fun a b => ident a && ident b) l
  rw [tokens] at h
  rw [h, List.concat_eq_append, List.append_assoc, List.isChain_append] at hchain
  obtain ⟨hw, hne, hbreak⟩ := (List.isChain_cons_cons.mp hchain.2.1).1
  have hhead : ident (old.head hne) = true := List.all_eq_true.mp hold _ (List.head_mem hne)
  rw [hhead, Bool.and_true] at hbreak
  rw [List.concat_eq_append, List.flatten_append, List.flatten_singleton,
    ← List.dropLast_append_getLast hw, ← List.append_assoc] at hpre
  have hlast := (List.append_inj' hpre rfl).2
  rw [List.cons.injEq] at hlast
  rw [← hlast.1]
  exact hbreak

/-- How long a text is after a renaming. -/
theorem length_flatten_map (ident : α → Bool) (old new : List α) (ts : List (List α)) :
    (ts.map (renameToken ident old new)).flatten.length +
        ts.countP (isName ident old) * old.length =
      ts.flatten.length + ts.countP (isName ident old) * new.length := by
  induction ts with
  | nil => simp only [List.map_nil, List.flatten_nil, List.countP_nil, Nat.zero_mul]
  | cons t ts ih =>
    rw [List.map_cons, List.flatten_cons, List.flatten_cons, List.length_append,
      List.length_append, List.countP_cons]
    by_cases hname : isName ident old t = true
    · have ht : t = old := by
        rw [isName, Bool.and_eq_true, decide_eq_true_iff] at hname
        exact hname.1
      rw [renameToken, if_pos hname, if_pos hname, ht, Nat.add_mul, Nat.add_mul]
      omega
    · rw [renameToken, if_neg hname, if_neg hname, Nat.add_zero]
      omega

theorem countP_pos {ts : List (List α)} (hold : old.all ident = true) (h : old ∈ ts) :
    0 < ts.countP (isName ident old) :=
  List.countP_pos_iff.mpr ⟨old, h, by rw [isName, hold, Bool.and_true, decide_eq_true_iff]⟩

/-- A renaming that changes nothing finds nothing. -/
theorem not_mem_of_flatten_map_eq {ts : List (List α)} (hold : old.all ident = true)
    (hne : old ≠ new) (h : (ts.map (renameToken ident old new)).flatten = ts.flatten) :
    old ∉ ts := by
  intro hmem
  have hpos := countP_pos hold hmem
  have hlen := length_flatten_map ident old new ts
  rw [h, Nat.add_left_cancel_iff] at hlen
  have heq := Nat.eq_of_mul_eq_mul_left hpos hlen
  obtain ⟨pre, post, rfl, hpre⟩ := List.eq_append_cons_of_mem hmem
  rw [List.map_append, List.map_cons, map_renameToken_of_not_mem hpre, renameToken_self hold,
    List.flatten_append, List.flatten_append, List.flatten_cons, List.flatten_cons,
    List.append_cancel_left_eq] at h
  exact hne (List.append_inj h heq.symm).1.symm

omit [DecidableEq α] in
/-- What follows the last character that no identifier has. -/
theorem eq_of_append_cons {a b x y : List α} {c : α} (ha : a.all ident = true)
    (hb : b.all ident = true) (hc : ident c = false) (h : x ++ c :: a = y ++ c :: b) : a = b := by
  have hlast : ∀ {z d : List α}, d.all ident = true →
      (z ++ c :: d).reverse.takeWhile ident = d.reverse := by
    intro z d hd
    rw [List.reverse_append, List.reverse_cons, List.append_assoc,
      List.takeWhile_append_of_pos fun e he => List.all_eq_true.mp hd e (List.mem_reverse.mp he),
      List.singleton_append, List.takeWhile_cons, hc, if_neg Bool.false_ne_true, List.append_nil]
  have hrev := congrArg (fun l => l.reverse.takeWhile ident) h
  simp only [hlast ha, hlast hb] at hrev
  exact List.reverse_injective hrev

omit [DecidableEq α] in
/-- **The first occurrence of a name before its first token** ends before the character that
precedes the token. -/
theorem exists_of_lt {pre post : List (List α)} (h : tokens ident l = pre ++ old :: post)
    (hold : old.all ident = true) (hat : At old l i) (hlt : i < pre.flatten.length) :
    ∃ u m c, ident c = false ∧ pre.flatten = u ++ old ++ m ++ [c] ∧ u.length = i := by
  obtain ⟨w, c, hw⟩ := List.eq_nil_or_concat pre.flatten |>.resolve_left
    (fun hnil => by rw [hnil] at hlt; exact Nat.not_lt_zero i hlt)
  rw [List.concat_eq_append] at hw
  have hc := not_ident_before h hold hw
  have hlen : pre.flatten.length = w.length + 1 := by
    rw [hw, List.length_append, List.length_singleton]
  have hl := eq_of_tokens h
  rw [hw, List.append_assoc, List.append_assoc] at hl
  have hle : i + old.length ≤ w.length := by
    by_contra hover
    have hget : l[w.length]? = some c := by
      rw [hl, List.getElem?_append_right le_rfl, Nat.sub_self]
      rfl
    have hmem := hat.mem hget (by omega) (by omega)
    exact Bool.false_ne_true (hc.symm.trans (List.all_eq_true.mp hold c hmem))
  rw [hl] at hat
  obtain ⟨u, m, hum, hu⟩ := at_iff.mp (hat.of_append_right hle)
  exact ⟨u, m, c, hc, by rw [hw, hum], hu⟩

/-- **A replacement that is the renaming** replaces the only token of the name. -/
theorem onlyToken_of_splice_eq (hindex : index old l = some i) (hne : old ≠ new)
    (hnew : new.all ident = true) (h : splice l i old.length new = rename ident old new l) :
    OnlyToken ident old l i := by
  obtain ⟨hat, hfirst⟩ := index_eq_some_iff.mp hindex
  -- some token is renamed, as the text changes
  have hchange : rename ident old new l ≠ l := by
    rw [← h]
    intro heq
    obtain ⟨u, v, rfl, rfl⟩ := at_iff.mp hat
    rw [splice_append, List.append_left_inj, List.append_right_inj] at heq
    exact hne heq.symm
  have hold : old.all ident = true := by
    by_contra hold
    refine hchange ?_
    have hnone : ∀ t, renameToken ident old new t = t := fun t => if_neg fun hname => by
      rw [isName, Bool.and_eq_true, decide_eq_true_iff] at hname
      exact hold (hname.1 ▸ hname.2)
    rw [rename, List.map_congr_left fun t _ => hnone t, List.map_id', flatten_tokens]
  have hmem : old ∈ tokens ident l := by
    by_contra hmem
    exact hchange (by rw [rename, map_renameToken_of_not_mem hmem, flatten_tokens])
  obtain ⟨pre, post, htokens, hpre⟩ := List.eq_append_cons_of_mem hmem
  have hrename := rename_of_tokens new htokens hpre hold
  have htoken : At old l pre.flatten.length := at_iff.mpr ⟨_, _, eq_of_tokens htokens, rfl⟩
  have hle : i ≤ pre.flatten.length := by
    by_contra hlt
    exact hfirst _ (by omega) htoken
  rcases hle.lt_or_eq with hlt | rfl
  · -- the first occurrence stands before the first token
    exfalso
    obtain ⟨u, m, c, hc, hflat, rfl⟩ := exists_of_lt htokens hold hat hlt
    have hl : l = u ++ old ++ (m ++ [c] ++ old ++ post.flatten) := by
      rw [eq_of_tokens htokens, hflat]
      simp only [List.append_assoc]
    have hsplice : splice l u.length old.length new =
        u ++ (new ++ (m ++ [c] ++ old ++ post.flatten)) := by
      rw [hl, splice_append, List.append_assoc]
    rw [hsplice, hrename, hflat] at h
    simp only [List.append_assoc, List.append_cancel_left_eq] at h
    by_cases hlen : old.length = new.length
    · exact hne (List.append_inj h hlen.symm).1.symm
    · have hpost : old ∉ post := by
        intro hmore
        have hlens := congrArg List.length h
        have hcount := length_flatten_map ident old new post
        simp only [List.length_append] at hlens
        have hsame : (post.map (renameToken ident old new)).flatten.length =
            post.flatten.length := by omega
        rw [hsame, Nat.add_left_cancel_iff] at hcount
        exact hlen (Nat.eq_of_mul_eq_mul_left (countP_pos hold hmore) hcount)
      rw [map_renameToken_of_not_mem hpost] at h
      simp only [← List.append_assoc, List.append_cancel_right_eq] at h
      simp only [List.append_assoc, List.singleton_append] at h
      rw [← List.append_assoc, ← List.append_assoc] at h
      exact hne (eq_of_append_cons hold hnew hc h)
  · rw [splice_of_tokens htokens, hrename, List.append_cancel_left_eq] at h
    exact ⟨hold, pre, post, htokens, rfl, hpre, not_mem_of_flatten_map_eq hold hne h.symm⟩

end Identifiers
