import Mathlib.Data.List.FinRange
import Mathlib.Order.CompleteBooleanAlgebra
import Mathlib.Order.CompletePartialOrder

/-!
# The first that fits

A choice is made in passes: the candidates are searched for the first that passes the first
test, and where none does, for the first that passes the next. What is chosen depends on the
order of the candidates. Here the candidates come by **rank**, and in any order within one
rank: so any candidate of the lowest rank of those that pass the test that decides can be chosen
(`Gortex.FirstFit.Possible`), and if the last of its rank is chosen, nothing else can be
(`Gortex.FirstFit.Possible.eq_of_last`).
-/

namespace Gortex

namespace FirstFit

variable {α β γ : Type}

/-- **The choice**: what the first pass that finds a candidate makes of it. -/
def choose (l : List α) : List ((α → Bool) × (α → γ)) → Option γ
  | [] => none
  | p :: ps => (l.find? p.1).map p.2 <|> choose l ps

theorem choose_append (l : List α) (ps qs : List ((α → Bool) × (α → γ))) :
    choose l (ps ++ qs) = (choose l ps <|> choose l qs) := by
  induction ps with
  | nil => rfl
  | cons p ps ih =>
    rw [List.cons_append, choose, choose, ih]
    simp only [Option.orElse_eq_orElse, Option.orElse_eq_or, Option.or_assoc]

/-- What is chosen is what a pass makes of a candidate that passes its test. -/
theorem of_choose_eq_some {l : List α} {ps : List ((α → Bool) × (α → γ))} {y : γ}
    (h : choose l ps = some y) : ∃ p ∈ ps, ∃ a ∈ l, p.1 a = true ∧ p.2 a = y := by
  induction ps with
  | nil => cases h
  | cons p ps ih =>
    rw [choose] at h
    cases ha : l.find? p.1 with
    | some a =>
      rw [ha] at h
      exact ⟨p, List.mem_cons_self, a, List.mem_of_find?_eq_some ha, List.find?_some ha,
        Option.some.inj h⟩
    | none =>
      rw [ha] at h
      obtain ⟨p', hp', ha'⟩ := ih h
      exact ⟨p', List.mem_cons_of_mem p hp', ha'⟩

/-! ### The candidate that comes first -/

/-- **The candidate that comes first**: the first that passes the first test that any candidate
passes, with the mark of that test. -/
inductive First {τ : Type} (l : List α) : List (τ × (α → Bool)) → τ → α → Prop
  | here {t : τ} {q : α → Bool} {ts : List (τ × (α → Bool))} {a : α} :
    l.find? q = some a → First l ((t, q) :: ts) t a
  | later {s t : τ} {q : α → Bool} {ts : List (τ × (α → Bool))} {a : α} :
    (∀ b ∈ l, ¬q b = true) → First l ts t a → First l ((s, q) :: ts) t a

namespace First

variable {τ : Type} {l : List α} {ts : List (τ × (α → Bool))} {t : τ} {a : α}

theorem mem (h : First l ts t a) : a ∈ l := by
  induction h with
  | here h => exact List.mem_of_find?_eq_some h
  | later _ _ ih => exact ih

/-- **It is chosen**, by passes that test as the tests do and make of a candidate what `W` says of
the mark of its test. -/
theorem choose_eq (h : First l ts t a) {W : τ → α → γ → Prop} {ps : List ((α → Bool) × (α → γ))}
    (hps : List.Forall₂ (fun s p => s.2 = p.1 ∧ ∀ b, W s.1 b (p.2 b)) ts ps) :
    ∃ y, choose l ps = some y ∧ W t a y := by
  induction h generalizing ps with
  | here h =>
    cases hps with
    | cons hp _ =>
      refine ⟨_, ?_, hp.2 _⟩
      rw [choose, ← hp.1, h]
      rfl
  | later h _ ih =>
    cases hps with
    | cons hp hrest =>
      obtain ⟨y, hy, hw⟩ := ih hrest
      refine ⟨y, ?_, hw⟩
      rw [choose, ← hp.1, List.find?_eq_none.mpr h]
      exact hy

end First

/-- No candidate comes first if none passes a test, and then nothing is chosen. -/
theorem exists_first_or_choose_eq_none {τ : Type} (l : List α) {W : τ → α → γ → Prop}
    {ts : List (τ × (α → Bool))} {ps : List ((α → Bool) × (α → γ))}
    (hps : List.Forall₂ (fun s p => s.2 = p.1 ∧ ∀ b, W s.1 b (p.2 b)) ts ps) :
    (∃ t a, First l ts t a) ∨ choose l ps = none := by
  induction hps with
  | nil => exact Or.inr rfl
  | @cons s p ts ps hp _ ih =>
    cases ha : l.find? s.2 with
    | some a => exact Or.inl ⟨s.1, a, .here ha⟩
    | none =>
      refine ih.imp (fun ⟨t, a, h⟩ => ⟨t, a, .later (List.find?_eq_none.mp ha) h⟩) fun h => ?_
      rw [choose, ← hp.1, ha]
      exact h

/-! ### Ties -/

variable [PartialOrder β] (rank : α → β)

/-- One of the things of the property, of the lowest rank of any. -/
def Leads (P : α → Prop) (a : α) : Prop := P a ∧ ∀ b, P b → rank a ≤ rank b

/-- No two things of the property are of the lowest rank. -/
def Untied (P : α → Prop) : Prop := ∀ a b, Leads rank P a → Leads rank P b → a = b

/-- **The tests decide**: the first test that some candidate passes has one leading
candidate. -/
def Decided (P : α → Prop) : List (α → Bool) → Prop
  | [] => True
  | q :: qs => Untied rank (fun a => P a ∧ q a = true) ∧ ((∀ a, P a → ¬q a = true) → Decided P qs)

theorem decided_nil {P : α → Prop} : Decided rank P [] := trivial

theorem decided_cons {P : α → Prop} {q : α → Bool} {qs : List (α → Bool)} :
    Decided rank P (q :: qs) ↔
      Untied rank (fun a => P a ∧ q a = true) ∧ ((∀ a, P a → ¬q a = true) → Decided rank P qs) :=
  Iff.rfl

/-- Tests that each are passed by one thing decide. -/
theorem decided_of_forall {P : α → Prop} {qs : List (α → Bool)}
    (h : ∀ q ∈ qs, ∀ a b, P a → q a = true → P b → q b = true → a = b) : Decided rank P qs := by
  induction qs with
  | nil => trivial
  | cons q qs ih =>
    exact ⟨fun a b ha hb => h q List.mem_cons_self a b ha.1.1 ha.1.2 hb.1.1 hb.1.2,
      fun _ => ih fun q hq => h q (List.mem_cons_of_mem _ hq)⟩

/-- Behind tests one of which is passed, the others do not matter. -/
theorem Decided.append_iff {P : α → Prop} {qs rs : List (α → Bool)}
    (h : ∃ q ∈ qs, ∃ a, P a ∧ q a = true) : Decided rank P (qs ++ rs) ↔ Decided rank P qs := by
  induction qs with
  | nil =>
    obtain ⟨q, hq, -⟩ := h
    cases hq
  | cons q qs ih =>
    refine and_congr_right fun _ => forall_congr' fun hno => ih ?_
    obtain ⟨q', hq', a, ha, hqa⟩ := h
    rcases List.mem_cons.mp hq' with rfl | hq'
    · exact absurd hqa (hno a ha)
    · exact ⟨q', hq', a, ha, hqa⟩

/-- A listing of shards, one after the other, is by shard. -/
theorem pairwise_flatMap_finRange {n : ℕ} {rank : α → Fin n} {f : Fin n → List α}
    (h : ∀ i, ∀ a ∈ f i, rank a = i) :
    ((List.finRange n).flatMap f).Pairwise fun a b => rank a ≤ rank b := by
  rw [List.pairwise_flatMap]
  refine ⟨fun i _ => List.pairwise_of_forall_mem_list fun a ha b hb => ?_,
    (List.pairwise_le_finRange n).imp fun hij a ha b hb => ?_⟩
  · rw [h i a ha, h i b hb]
  · rwa [h _ a ha, h _ b hb]

variable {rank} {l l' : List α} {q : α → Bool}

/-- What is found first leads. -/
theorem leads_of_find? (hl : l.Pairwise fun a b => rank a ≤ rank b) {a : α}
    (ha : l.find? q = some a) : Leads rank (fun b => b ∈ l ∧ q b = true) a := by
  refine ⟨⟨List.mem_of_find?_eq_some ha, List.find?_some ha⟩, ?_⟩
  rintro b ⟨hb, hqb⟩
  obtain ⟨-, as, bs, rfl, has⟩ := List.find?_eq_some_iff_append.mp ha
  rcases List.mem_append.mp hb with hb | hb
  · have hnot := has b hb
    rw [hqb] at hnot
    cases hnot
  · rcases List.mem_cons.mp hb with rfl | hb
    · exact le_refl _
    · exact (List.pairwise_cons.mp (List.pairwise_append.mp hl).2.1).1 b hb

/-- No pass chooses exactly if no candidate passes a test. -/
theorem choose_eq_none_iff {ps : List ((α → Bool) × (α → γ))} :
    choose l ps = none ↔ ∀ p ∈ ps, ∀ a ∈ l, ¬p.1 a = true := by
  induction ps with
  | nil => exact iff_of_true rfl fun _ h => nomatch h
  | cons p ps ih =>
    rw [choose, List.forall_mem_cons, ← ih, ← List.find?_eq_none]
    cases l.find? p.1 with
    | none => exact (and_iff_right rfl).symm
    | some a => exact iff_of_false (fun h => nomatch h) fun h => nomatch h.1

/-! ### The last of a rank -/

/-- It comes last of those of its rank in the listing. -/
def LastOfRank (rank : α → β) (l : List α) (c : α) : Prop :=
  ∃ pre post, l = pre ++ c :: post ∧ c ∉ pre ∧ ∀ b ∈ post, ¬rank b ≤ rank c

/-- The last of its shard comes last of its rank in a listing of the shards. -/
theorem lastOfRank_flatMap_finRange {n : ℕ} {rank : α → Fin n} {f : Fin n → List α}
    (h : ∀ i, ∀ a ∈ f i, rank a = i) {c : α} {s : List α} (hs : f (rank c) = s ++ [c])
    (hnodup : ((List.finRange n).flatMap f).Nodup) :
    LastOfRank rank ((List.finRange n).flatMap f) c := by
  obtain ⟨is, js, hfin⟩ := List.append_of_mem (List.mem_finRange (rank c))
  have hlist : (List.finRange n).flatMap f = (is.flatMap f ++ s) ++ c :: js.flatMap f := by
    rw [hfin, List.flatMap_append, List.flatMap_cons, hs]
    simp
  refine ⟨_, _, hlist, ?_, fun b hb => ?_⟩
  · rw [hlist] at hnodup
    exact fun hc => (List.nodup_append.mp hnodup).2.2 c hc c List.mem_cons_self rfl
  · obtain ⟨j, hj, hb⟩ := List.mem_flatMap.mp hb
    have hlt := List.pairwise_lt_finRange n
    rw [hfin] at hlt
    rw [h j b hb]
    exact not_le_of_gt ((List.pairwise_cons.mp (List.pairwise_append.mp hlt).2.1).1 j hj)

theorem LastOfRank.map {δ : Type} {rank' : δ → β} {f : α → δ} {c : α}
    (h : LastOfRank rank l c) (hf : ∀ a ∈ l, rank' (f a) = rank a)
    (hinj : ∀ a ∈ l, f a = f c → a = c) : LastOfRank rank' (l.map f) (f c) := by
  obtain ⟨pre, post, rfl, hc, hpost⟩ := h
  have hcl : c ∈ pre ++ c :: post := List.mem_append_right _ List.mem_cons_self
  refine ⟨pre.map f, post.map f, by rw [List.map_append, List.map_cons], fun hm => ?_, ?_⟩
  · obtain ⟨a, ha, heq⟩ := List.mem_map.mp hm
    exact hc (hinj a (List.mem_append_left _ ha) heq ▸ ha)
  · intro b hb
    obtain ⟨a, ha, rfl⟩ := List.mem_map.mp hb
    rw [hf c hcl, hf a (List.mem_append_right _ (List.mem_cons_of_mem _ ha))]
    exact hpost a ha

theorem LastOfRank.filter {c : α} (h : LastOfRank rank l c) (hq : q c = true) :
    LastOfRank rank (l.filter q) c := by
  obtain ⟨pre, post, rfl, hc, hpost⟩ := h
  refine ⟨pre.filter q, post.filter q, ?_, fun hm => hc (List.mem_filter.mp hm).1,
    fun b hb => hpost b (List.mem_filter.mp hb).1⟩
  rw [List.filter_append, List.filter_cons_of_pos hq]

/-! ### What can be chosen -/

/-- **What can be chosen**, whatever the order within a rank: what a pass makes of a thing of the
lowest rank of those that pass its test, the first that any passes. -/
inductive Possible (rank : α → β) (P : α → Prop) : List ((α → Bool) × (α → γ)) → γ → Prop
  | here {q : α → Bool} {f : α → γ} {ps : List ((α → Bool) × (α → γ))} {a : α} :
    Leads rank (fun b => P b ∧ q b = true) a → Possible rank P ((q, f) :: ps) (f a)
  | later {q : α → Bool} {f : α → γ} {ps : List ((α → Bool) × (α → γ))} {y : γ} :
    (∀ b, P b → ¬q b = true) → Possible rank P ps y → Possible rank P ((q, f) :: ps) y

/-- What is chosen out of a listing by rank can be chosen. -/
theorem possible_of_choose (hl : l.Pairwise fun a b => rank a ≤ rank b)
    {ps : List ((α → Bool) × (α → γ))} {y : γ} (h : choose l ps = some y) :
    Possible rank (· ∈ l) ps y := by
  induction ps with
  | nil => cases h
  | cons p ps ih =>
    rw [choose] at h
    cases ha : l.find? p.1 with
    | some a =>
      rw [ha] at h
      cases h
      exact .here (leads_of_find? hl ha)
    | none =>
      rw [ha] at h
      exact .later (List.find?_eq_none.mp ha) (ih h)

namespace Possible

variable {P : α → Prop} {ps qs : List ((α → Bool) × (α → γ))} {y : γ}

theorem exists_passes (h : Possible rank P ps y) : ∃ p ∈ ps, ∃ a, P a ∧ p.1 a = true := by
  induction h with
  | here h => exact ⟨_, List.mem_cons_self, _, h.1⟩
  | later _ _ ih =>
    obtain ⟨p, hp, ha⟩ := ih
    exact ⟨p, List.mem_cons_of_mem _ hp, ha⟩

/-- Behind passes one of which chooses, the others do not matter. -/
theorem append_iff (h : ∃ p ∈ ps, ∃ a, P a ∧ p.1 a = true) :
    Possible rank P (ps ++ qs) y ↔ Possible rank P ps y := by
  induction ps with
  | nil =>
    obtain ⟨p, hp, -⟩ := h
    cases hp
  | cons p ps ih =>
    constructor
    · intro hy
      cases hy with
      | here hlead => exact .here hlead
      | later hno hy =>
        refine .later hno ((ih ?_).mp hy)
        obtain ⟨p', hp', a, ha, hpa⟩ := h
        rcases List.mem_cons.mp hp' with rfl | hp'
        · exact absurd hpa (hno a ha)
        · exact ⟨p', hp', a, ha, hpa⟩
    · intro hy
      cases hy with
      | here hlead => exact .here hlead
      | later hno hy => exact .later hno ((ih hy.exists_passes).mpr hy)

/-- **If the last of its rank is chosen**, nothing else can be. -/
theorem eq_of_last {c : α} (hl : LastOfRank rank l c) {κ : Type} {f : γ → κ} {name : α → κ}
    (hident : ∀ p ∈ ps, ∀ a, f (p.2 a) = name a)
    (hname : ∀ a ∈ l, name a = name c → a = c) {x : γ} (hx : choose l ps = some x)
    (hxc : f x = name c) (h : Possible rank (· ∈ l) ps y) : y = x := by
  induction ps with
  | nil => cases h
  | cons p ps ih =>
    rw [choose] at hx
    cases ha : l.find? p.1 with
    | some a =>
      rw [ha] at hx
      cases hx
      rw [hident p List.mem_cons_self] at hxc
      obtain rfl := hname a (List.mem_of_find?_eq_some ha) hxc
      cases h with
      | later hno _ =>
        exact absurd (List.find?_some ha) (hno _ (List.mem_of_find?_eq_some ha))
      | @here q f _ b hlead =>
        obtain ⟨pre, post, rfl, hc, hpost⟩ := hl
        -- none before it passes the test, and those behind it are of a higher rank
        have hnot : b ∉ pre := fun hb => by
          have hsome : (pre.find? q).isSome := List.find?_isSome.mpr ⟨b, hb, hlead.1.2⟩
          obtain ⟨b', hb'⟩ := Option.isSome_iff_exists.mp hsome
          rw [List.find?_append, hb', Option.some_or, Option.some_inj] at ha
          exact hc (ha ▸ List.mem_of_find?_eq_some hb')
        rcases List.mem_append.mp hlead.1.1 with hb | hb
        · exact absurd hb hnot
        · rcases List.mem_cons.mp hb with rfl | hb
          · rfl
          · exact absurd (hlead.2 a ⟨List.mem_of_find?_eq_some ha, List.find?_some ha⟩)
              (hpost b hb)
    | none =>
      rw [ha] at hx
      cases h with
      | later _ h => exact ih (fun p' hp' => hident p' (List.mem_cons_of_mem _ hp')) hx h
      | here hlead => exact absurd hlead.1.2 (List.find?_eq_none.mp ha _ hlead.1.1)

end Possible

/-! ### Passes that differ behind a choice -/

/-- **The passes choose alike**: they are the same, or differ behind passes one of which
chooses. -/
def Alike (P : α → Prop) (ps qs : List ((α → Bool) × (α → γ))) : Prop :=
  ps = qs ∨ ∃ ts us us', ps = ts ++ us ∧ qs = ts ++ us' ∧ ∃ p ∈ ts, ∃ a, P a ∧ p.1 a = true

namespace Alike

variable {P : α → Prop} {ps qs : List ((α → Bool) × (α → γ))} {y : γ}

theorem possible_iff (h : Alike P ps qs) : Possible rank P ps y ↔ Possible rank P qs y := by
  rcases h with rfl | ⟨ts, us, us', rfl, rfl, hts⟩
  · exact Iff.rfl
  · rw [Possible.append_iff hts, Possible.append_iff hts]

theorem choose_eq (h : Alike (· ∈ l) ps qs) : choose l ps = choose l qs := by
  rcases h with rfl | ⟨ts, us, us', rfl, rfl, p, hp, a, ha, hpa⟩
  · rfl
  · have hsome : choose l ts ≠ none := fun hc => choose_eq_none_iff.mp hc p hp a ha hpa
    obtain ⟨y, hy⟩ := Option.ne_none_iff_exists'.mp hsome
    simp only [choose_append, hy, Option.orElse_eq_orElse, Option.orElse_eq_or, Option.some_or]

theorem decided_iff (h : Alike P ps qs) :
    Decided rank P (ps.map Prod.fst) ↔ Decided rank P (qs.map Prod.fst) := by
  rcases h with rfl | ⟨ts, us, us', rfl, rfl, p, hp, ha⟩
  · exact Iff.rfl
  · have hts : ∃ q ∈ ts.map Prod.fst, ∃ a, P a ∧ q a = true := ⟨p.1, List.mem_map_of_mem hp, ha⟩
    rw [List.map_append, List.map_append, Decided.append_iff rank hts, Decided.append_iff rank hts]

end Alike

/-! ### Other candidates -/

/-- **The choice among the images** of the candidates, by passes that do with an image what
others do with what it is of, is the image of the choice, if nothing is tied. -/
theorem choose_image {α' γ' : Type} {f : α → α'} {F : γ → γ'} {l' : List α'}
    (hl : ∀ b, b ∈ l' ↔ ∃ a ∈ l, f a = b) {ps : List ((α → Bool) × (α → γ))}
    {ps' : List ((α' → Bool) × (α' → γ'))}
    (hps : List.Forall₂ (fun p' p => ∀ a ∈ l, p'.1 (f a) = p.1 a ∧ p'.2 (f a) = F (p.2 a)) ps' ps)
    (hd : Decided (fun _ : α => ()) (· ∈ l) (ps.map Prod.fst)) :
    choose l' ps' = (choose l ps).map F := by
  induction hps with
  | nil => rfl
  | @cons p' p ps' ps hp _ ih =>
    obtain ⟨hu, hrest⟩ := hd
    rw [choose, choose]
    cases ha : l.find? p.1 with
    | none =>
      have hnone := List.find?_eq_none.mp ha
      have ha' : l'.find? p'.1 = none := by
        rw [List.find?_eq_none]
        intro b hb
        obtain ⟨a, hm, rfl⟩ := (hl b).mp hb
        rw [(hp a hm).1]
        exact hnone a hm
      rw [ha']
      exact ih (hrest hnone)
    | some a =>
      have hm := List.mem_of_find?_eq_some ha
      have hpa := List.find?_some ha
      obtain ⟨b, hb⟩ := Option.isSome_iff_exists.mp (List.find?_isSome.mpr
        ⟨f a, (hl _).mpr ⟨a, hm, rfl⟩, (hp a hm).1.trans hpa⟩)
      obtain ⟨a', hm', rfl⟩ := (hl b).mp (List.mem_of_find?_eq_some hb)
      have hpa' : p.1 a' = true := (hp a' hm').1.symm.trans (List.find?_some hb)
      obtain rfl : a' = a := hu a' a ⟨⟨hm', hpa'⟩, fun _ _ => le_refl _⟩
        ⟨⟨hm, hpa⟩, fun _ _ => le_refl _⟩
      rw [hb]
      exact congrArg some (hp a' hm').2

-- what decides is reasoned about by the lemmas above, not by running through the tests
attribute [irreducible] Decided

end FirstFit

end Gortex
