import Gortex.Lib.Tarjan

/-!
# The order of a component

In which order the algorithm of Tarjan lists the members of a component. The component is
popped off the stack, so the member that was entered last comes first, and within the
component the algorithm enters the members as a depth-first search does that starts at the
root and sees nothing but the component: vertices outside never lead back into it. So a
component is listed as such a search from one of its members marks it (`Tarjan.Entered`),
whatever else has happened before (`Tarjan.run_entered`), and any member is that one if the
algorithm begins with it.
-/

namespace Tarjan

open Relation
open Dfs (Step)

variable {α : Type*} [DecidableEq α] {next : α → List α} {V gray : List α} {s t : State α}
  {v w : α}

/-- The neighbours within a component. -/
def within (next : α → List α) (C : List α) (v : α) : List α := (next v).filter fun w => w ∈ C

/-- The members of a component that are on the stack. -/
def members (C : List α) (s : State α) : List α := s.stack.filter fun x => x ∈ C

/-- The depth-first search within a component, which stops nowhere. -/
def walk (next : α → List α) (C : List α) : ℕ → α → Dfs.State α → Option (Dfs.State α) :=
  Dfs.search (within next C) (fun _ => false) (fun _ _ => false)

/-- A class of mutual reachability. -/
def IsClass (next : α → List α) (C : List α) : Prop :=
  ∀ a ∈ C, ∀ b, b ∈ C ↔ Reach next a b ∧ Reach next b a

/-- **The component is listed as a search from `e` marks it.** -/
def Entered (next : α → List α) (c : List α) (e : α) : Prop :=
  ∀ p, ∃ fuel p', walk next c fuel e (Dfs.init p) = some ⟨c, p', none⟩

/-- The members of a component, as the search from one of them marks them, are one list. -/
theorem Entered.unique {c c' : List α} {e : α} (h : Entered next c e) (h' : Entered next c' e)
    (hmem : ∀ x, x ∈ c ↔ x ∈ c') : c = c' := by
  have hwithin : within next c' = within next c :=
    funext fun v => List.filter_congr fun w _ => decide_eq_decide.mpr (hmem w).symm
  obtain ⟨fuel, p, hp⟩ := h id
  obtain ⟨fuel', p', hp'⟩ := h' id
  unfold walk at hp hp'
  rw [hwithin] at hp'
  have heq := Dfs.search_mono (le_max_left fuel fuel') hp
  have heq' := Dfs.search_mono (le_max_right fuel fuel') hp'
  exact congrArg Dfs.State.visited (Option.some.inj (heq.symm.trans heq'))

/-! ### The members on the stack -/

theorem members_enter {C : List α} (hv : v ∈ C) (s : State α) :
    members C (enter v s) = v :: members C s :=
  List.filter_cons_of_pos (by simpa using hv)

theorem mem_members {C : List α} {x : α} : x ∈ members C s ↔ x ∈ s.stack ∧ x ∈ C := by
  rw [members, List.mem_filter, decide_eq_true_eq]

/-- **A turn does what the call in it does**, if there is one, but for the low links. -/
theorem turn_eq {recur : α → State α → Option (State α)} {t' : State α}
    (h : turn recur v t w = some t') :
    (t.defined w = true ∧ ∃ f, t' = { t with lowlinks := f }) ∨
      (t.defined w = false ∧ ∃ u f, recur w t = some u ∧ t' = { u with lowlinks := f }) := by
  unfold turn at h
  by_cases hw : t.defined w = false
  · rw [if_pos hw] at h
    obtain ⟨u, hu, rfl⟩ := Option.map_eq_some_iff.mp h
    exact Or.inr ⟨hw, u, _, hu, lower_eq ..⟩
  · rw [if_neg hw] at h
    have hdef : t.defined w = true := by simpa using hw
    split_ifs at h
    · obtain rfl := Option.some.inj h
      exact Or.inl ⟨hdef, _, lower_eq ..⟩
    · obtain rfl := Option.some.inj h
      exact Or.inl ⟨hdef, t.lowlinks, rfl⟩

/-- So it does to the members on the stack. -/
theorem turn_members {recur : α → State α → Option (State α)} {t' : State α}
    (h : turn recur v t w = some t') (C : List α) :
    (t.defined w = true ∧ members C t' = members C t) ∨
      (t.defined w = false ∧ ∃ u, recur w t = some u ∧ members C t' = members C u) := by
  rcases turn_eq h with ⟨hdef, f, rfl⟩ | ⟨hnew, u, f, hu, rfl⟩
  · exact Or.inl ⟨hdef, rfl⟩
  · exact Or.inr ⟨hnew, u, hu, rfl⟩

/-- **A call outside of a class leaves its members alone**, if a gray vertex is one: what the
call numbers does not lead back. -/
theorem Connected.members_eq {C new : List α} (hC : IsClass next C)
    (h : Connected next V gray v s t new) {e : α} (he : e ∈ C) (hev : Reach next e v)
    (hv : v ∉ C) : members C t = members C s := by
  unfold members
  rw [h.grown.stack, List.filter_append, List.filter_eq_nil_iff.mpr, List.nil_append]
  intro x hx hxC
  have hstack : x ∈ t.stack := by
    rw [h.grown.stack]
    exact List.mem_append_left _ hx
  have hvx : Reach next v x :=
    h.reach x (h.inv.stack_defined x hstack) (h.grown.fresh x hx)
  have hxe := ((hC x (of_decide_eq_true hxC) e).mp he).1
  exact hv ((hC e he v).mpr ⟨hev, hvx.trans hxe⟩)

/-! ### The search within a class -/

/-- The state of the search that the members on the stack are. -/
def marks (C : List α) (s : State α) (p : α → α) : Dfs.State α := ⟨members C s, p, none⟩

/-- **What a call does within a class**: it enters the members as the search does. -/
def Walks (next : α → List α) (C : List α) (fuel : ℕ) (v : α) (s t : State α) : Prop :=
  ∀ p, ∃ p', walk next C fuel v (marks C s p) = some (marks C t p')

/-- A member that has a number is on the stack, as long as a gray vertex is a member. -/
theorem Inv.member_stack {C : List α} (hC : IsClass next C) (h : Inv next V gray s) {e x : α}
    (he : e ∈ gray) (heC : e ∈ C) (hx : x ∈ C) (hdef : s.defined x = true) : x ∈ s.stack := by
  by_contra hnot
  have hfin := h.finished_reach ⟨hdef, hnot⟩ ((hC x hx e).mp heC).1
  exact hfin.2 (h.gray_stack e he)

/-- **The loop over the neighbours of a member**: with the calls doing what the search does,
so does the loop. -/
theorem loop_walks {C : List α} (hC : IsClass next C) (hs : Inv next V gray s) {fuel : ℕ}
    (hclosed : ∀ v ∈ V, ∀ w ∈ next v, w ∈ V) (hV : v ∈ V) (hv : s.defined v = false)
    (hgray : ∀ x ∈ gray, Reach next x v) (hfuel : unnumbered V s ≤ fuel + 1) (hvC : v ∈ C)
    (hcall : ∀ {w t}, Inv next V (v :: gray) t → w ∈ V → t.defined w = false →
      (∀ x ∈ v :: gray, Reach next x w) → unnumbered V t ≤ fuel → w ∈ C →
      ∃ u, connect next fuel w t = some u ∧ Walks next C fuel w t u) :
    ∃ t new, (next v).foldlM (turn (connect next fuel) v) (enter v s) = some t ∧
      Looping next V gray v s (next v) t new ∧ Walks next C (fuel + 1) v s t := by
  -- after each successor the walk over those in the class has come as far as the loop
  have hturn : ∀ seen w rest t, next v = seen ++ w :: rest →
      (∃ new, Looping next V gray v s seen t new ∧ ∀ p, ∃ p',
        (seen.filter fun w => w ∈ C).foldlM (Dfs.turn (fun _ _ => false) (walk next C fuel) v)
          ⟨v :: members C s, p, none⟩ = some (marks C t p')) →
      ∃ t', turn (connect next fuel) v t w = some t' ∧
        ∃ new, Looping next V gray v s (seen ++ [w]) t' new ∧ ∀ p, ∃ p',
          ((seen ++ [w]).filter fun w => w ∈ C).foldlM
            (Dfs.turn (fun _ _ => false) (walk next C fuel) v)
            ⟨v :: members C s, p, none⟩ = some (marks C t' p') := by
    rintro seen w rest t hsplit ⟨new, ht, hwalk⟩
    have hw : w ∈ next v := by simp [hsplit]
    have hwV := hclosed v hV w hw
    have hwgray := ht.gray_reach hs.gray_stack hw
    have hroom := ht.grown.unnumbered_lt hV hv (ht.inv.stack_defined v ht.mem_stack)
    obtain ⟨t', new', heq, ht'⟩ := ht.turn hw fun hnew =>
      connect_spec hclosed ht.inv hwV hnew hwgray (by omega : unnumbered V t ≤ fuel)
    refine ⟨t', heq, new', ht', fun p => ?_⟩
    obtain ⟨p', hp'⟩ := hwalk p
    rw [List.filter_append, List.foldlM_append, hp']
    change ∃ q, ([w].filter fun w => w ∈ C).foldlM _ (marks C t p') = _
    -- a successor outside of the class leaves the marks alone
    by_cases hwC : w ∈ C
    · rw [List.filter_cons_of_pos (by simpa using hwC), List.filter_nil, List.foldlM_cons]
      rcases turn_members heq C with ⟨hdef, hmem⟩ | ⟨hnew, u, hu, hmem⟩
      · -- the member is marked already
        have hin : w ∈ (marks C t p').visited := mem_members.mpr
          ⟨ht.inv.member_stack hC List.mem_cons_self hvC hwC hdef, hwC⟩
        refine ⟨p', ?_⟩
        have : Dfs.turn (fun _ _ => false) (walk next C fuel) v (marks C t p') w =
            some (marks C t p') := by
          unfold Dfs.turn
          rw [if_neg (by simp [marks]), if_neg (by simp), if_pos hin]
        rw [this, marks, marks, hmem]
        rfl
      · have hout : w ∉ (marks C t p').visited := fun hc => by
          have hdef := ht.inv.stack_defined w (mem_members.mp hc).1
          rw [hnew] at hdef
          exact Bool.false_ne_true hdef
        obtain ⟨u', hu', hwalks⟩ := hcall ht.inv hwV hnew hwgray (by omega) hwC
        obtain rfl := Option.some.inj (hu.symm.trans hu')
        obtain ⟨q, hq⟩ := hwalks (Function.update p' w v)
        refine ⟨q, ?_⟩
        have : Dfs.turn (fun _ _ => false) (walk next C fuel) v (marks C t p') w =
            some (marks C u q) := by
          unfold Dfs.turn
          rw [if_neg (by simp [marks]), if_neg (by simp), if_neg hout]
          exact hq
        rw [this, marks, marks, hmem]
        rfl
    · rw [List.filter_cons_of_neg (by simpa using hwC), List.filter_nil]
      refine ⟨p', ?_⟩
      have hmem : members C t' = members C t := by
        rcases turn_members heq C with ⟨-, hmem⟩ | ⟨hnew, u, hu, hmem⟩
        · exact hmem
        · obtain ⟨u', new'', hu', hc⟩ := connect_spec hclosed ht.inv hwV hnew hwgray
            (by omega : unnumbered V t ≤ fuel)
          obtain rfl := Option.some.inj (hu.symm.trans hu')
          rw [hmem, hc.members_eq hC hvC (ReflTransGen.single hw) hwC]
      rw [marks, marks, hmem]
      rfl
  have hinit : ∃ new, Looping next V gray v s [] (enter v s) new ∧ ∀ p, ∃ p',
      (([] : List α).filter fun w => w ∈ C).foldlM
        (Dfs.turn (fun _ _ => false) (walk next C fuel) v) ⟨v :: members C s, p, none⟩ =
          some (marks C (enter v s) p') := by
    refine ⟨[], hs.looping hV hv hgray, fun p => ⟨p, ?_⟩⟩
    rw [marks, members_enter hvC]
    rfl
  obtain ⟨t, heq, new, ht, hwalk⟩ := List.foldlM_some hturn hinit
  refine ⟨t, new, heq, ht, fun p => ?_⟩
  obtain ⟨p', hp'⟩ := hwalk p
  refine ⟨p', ?_⟩
  unfold walk Dfs.search
  rw [if_neg Bool.false_ne_true]
  exact hp'

/-- A vertex above a gray member of its class is not the root of it. -/
theorem Looping.not_root {C new : List α} (hC : IsClass next C)
    (h : Looping next V gray v s (next v) t new) (hs : Inv next V gray s) {e : α} (he : e ∈ gray)
    (heC : e ∈ C) (hvC : v ∈ C) : t.lowlinks v ≠ t.indices v := by
  intro hroot
  have hv : v ∈ new ++ [v] := List.mem_append_right _ (List.mem_singleton_self v)
  have hin := (h.component hroot hs.gray_stack v hv e).mpr ((hC v hvC e).mp heC)
  have habove := h.above hin
  have hbelow := h.below (hs.gray_stack e he)
  omega

/-- **A call for a member does what the search does**, below a gray member: by induction on
the fuel. -/
theorem connect_walks {C : List α} (hC : IsClass next C) (hclosed : ∀ v ∈ V, ∀ w ∈ next v, w ∈ V)
    {fuel : ℕ} (hs : Inv next V gray s) (hV : v ∈ V) (hv : s.defined v = false)
    (hgray : ∀ x ∈ gray, Reach next x v) (hfuel : unnumbered V s ≤ fuel) {e : α} (he : e ∈ gray)
    (heC : e ∈ C) (hvC : v ∈ C) :
    ∃ t, connect next fuel v s = some t ∧ Walks next C fuel v s t := by
  induction fuel generalizing gray v s e with
  | zero =>
    obtain ⟨t, new, heq, -⟩ := connect_spec hclosed hs hV hv hgray hfuel
    exact absurd heq (by simp [connect])
  | succ fuel ih =>
    obtain ⟨t, new, heq, ht, hwalks⟩ := loop_walks hC hs hclosed hV hv hgray hfuel hvC
      fun hinv hwV hw hwgray hroom hwC =>
        ih hinv hwV hw hwgray hroom List.mem_cons_self hvC hwC
    refine ⟨t, ?_, hwalks⟩
    unfold connect
    rw [heq, Option.map_some, close, if_neg (ht.not_root hC hs he heC hvC)]

/-! ### The components, as they are listed -/

/-- Every component is listed as a search from one of its members marks it. -/
def AllEntered (next : α → List α) (sccs : List (List α)) : Prop :=
  ∀ c ∈ sccs, ∃ e ∈ c, Entered next c e

variable (next) in
/-- **What a call adds to the components**: they are listed as searches from their members
mark them, and that of the vertex, if it is closed, as the search from the vertex does. -/
structure Adds (v : α) (s t : State α) : Prop where
  entered : AllEntered next s.sccs → AllEntered next t.sccs
  sub : s.sccs ⊆ t.sccs
  own : v ∉ t.stack → ∃ c ∈ t.sccs, v ∈ c ∧ Entered next c v

/-- **The component that a root closes** is listed as the search from the root marks it. -/
theorem Looping.entered {new : List α} (h : Looping next V gray v s (next v) t new)
    (hs : Inv next V gray s) (hclosed : ∀ v ∈ V, ∀ w ∈ next v, w ∈ V) (hV : v ∈ V)
    (hv : s.defined v = false) (hgray : ∀ x ∈ gray, Reach next x v) {fuel : ℕ}
    (hfuel : unnumbered V s ≤ fuel + 1)
    (heq : (next v).foldlM (Tarjan.turn (connect next fuel) v) (enter v s) = some t)
    (hroot : t.lowlinks v = t.indices v) : Entered next (new ++ [v]) v := by
  have hC : IsClass next (new ++ [v]) := h.component hroot hs.gray_stack
  have hvC : v ∈ new ++ [v] := List.mem_append_right _ (List.mem_singleton_self v)
  obtain ⟨t', -, heq', -, hwalks⟩ := loop_walks hC hs hclosed hV hv hgray hfuel hvC
    fun hinv hwV hw hwgray hroom hwC =>
      connect_walks hC hclosed hinv hwV hw hwgray hroom List.mem_cons_self hvC hwC
  obtain rfl := Option.some.inj (heq.symm.trans heq')
  have hold : members (new ++ [v]) s = [] := by
    refine List.filter_eq_nil_iff.mpr fun x hx hxC => ?_
    have habove := h.above (of_decide_eq_true hxC)
    have hbelow := h.below hx
    omega
  have hnew : members (new ++ [v]) t = new ++ [v] := by
    have hself : (new ++ [v]).filter (fun x => x ∈ new ++ [v]) = new ++ [v] :=
      List.filter_eq_self.mpr fun x hx => decide_eq_true hx
    rw [members, h.grown.stack, List.filter_append, hself]
    exact (congrArg (new ++ [v] ++ ·) hold).trans (List.append_nil _)
  intro p
  obtain ⟨p', hp'⟩ := hwalks p
  rw [marks, marks, hold, hnew] at hp'
  exact ⟨fuel + 1, p', hp'⟩

/-- **A call adds components that are listed so**: by induction on the fuel. -/
theorem connect_adds (hclosed : ∀ v ∈ V, ∀ w ∈ next v, w ∈ V) {fuel : ℕ} (hs : Inv next V gray s)
    (hV : v ∈ V) (hv : s.defined v = false) (hgray : ∀ x ∈ gray, Reach next x v)
    (hfuel : unnumbered V s ≤ fuel) :
    ∃ t new, connect next fuel v s = some t ∧ Connected next V gray v s t new ∧
      Adds next v s t := by
  induction fuel generalizing gray v s with
  | zero =>
    obtain ⟨t, new, heq, -⟩ := connect_spec hclosed hs hV hv hgray hfuel
    exact absurd heq (by simp [connect])
  | succ fuel ih =>
    -- the loop only adds components, and those that are added were entered
    have hturn : ∀ seen w rest t, next v = seen ++ w :: rest →
        (∃ new, Looping next V gray v s seen t new ∧
          (AllEntered next s.sccs → AllEntered next t.sccs) ∧ s.sccs ⊆ t.sccs) →
        ∃ t', turn (connect next fuel) v t w = some t' ∧
          ∃ new, Looping next V gray v s (seen ++ [w]) t' new ∧
            (AllEntered next s.sccs → AllEntered next t'.sccs) ∧ s.sccs ⊆ t'.sccs := by
      rintro seen w rest t hsplit ⟨new, ht, hentered, hsub⟩
      have hw : w ∈ next v := by simp [hsplit]
      have hwgray := ht.gray_reach hs.gray_stack hw
      have hroom := ht.grown.unnumbered_lt hV hv (ht.inv.stack_defined v ht.mem_stack)
      have hcall : t.defined w = false → ∃ u new', connect next fuel w t = some u ∧
          Connected next V (v :: gray) w t u new' ∧ Adds next w t u := fun hnew =>
        ih ht.inv (hclosed v hV w hw) hnew hwgray (by omega)
      obtain ⟨t', new', heq, ht'⟩ := ht.turn hw fun hnew => by
        obtain ⟨u, new', hu, hc, -⟩ := hcall hnew
        exact ⟨u, new', hu, hc⟩
      refine ⟨t', heq, new', ht', ?_⟩
      rcases turn_eq heq with ⟨-, f, rfl⟩ | ⟨hnew, u, f, hu, rfl⟩
      · exact ⟨hentered, hsub⟩
      · obtain ⟨u', -, hu', -, hadds⟩ := hcall hnew
        obtain rfl := Option.some.inj (hu.symm.trans hu')
        exact ⟨fun h => hadds.entered (hentered h), List.Subset.trans hsub hadds.sub⟩
    obtain ⟨t, heq, new, ht, hentered, hsub⟩ := List.foldlM_some hturn
      ⟨[], hs.looping hV hv hgray, id, List.Subset.refl _⟩
    have hrun : connect next (fuel + 1) v s = some (close v t) := by
      unfold connect
      rw [heq, Option.map_some]
    -- a root adds its own component, which was entered with it
    by_cases hroot : t.lowlinks v = t.indices v
    · have hvnew : v ∉ new := fun hc => ht.new_not_gray hs.gray_stack hc List.mem_cons_self
      have hsccs : (close v t).sccs = t.sccs ++ [new ++ [v]] := by
        rw [close, if_pos hroot, ht.grown.stack, List.append_assoc, List.singleton_append,
          popTo_append v s.stack new hvnew]
      have hv' : v ∈ new ++ [v] := List.mem_append_right _ (List.mem_singleton_self v)
      have hown := ht.entered hs hclosed hV hv hgray hfuel heq hroot
      refine ⟨_, _, hrun, ht.closeRoot hs hroot, fun h c hc => ?_, fun c hc => ?_, fun _ => ?_⟩
      · rw [hsccs] at hc
        rcases List.mem_append.mp hc with hc | hc
        · exact hentered h c hc
        · rw [List.mem_singleton.mp hc]
          exact ⟨v, hv', hown⟩
      · rw [hsccs]
        exact List.mem_append_left _ (hsub hc)
      · rw [hsccs]
        exact ⟨_, List.mem_append_right _ (List.mem_singleton_self _), hv', hown⟩
    · have hclose : close v t = t := by rw [close, if_neg hroot]
      refine ⟨_, _, hrun, ht.closeOther hs hroot, ?_⟩
      rw [hclose]
      exact ⟨hentered, hsub, fun hnot => absurd ht.mem_stack hnot⟩

/-- **The components, as they are listed**: each as a search from one of its members marks
it, and that of the first vertex as the search from this vertex does. -/
theorem run_entered {order : List α} (hclosed : ∀ v ∈ order, ∀ w ∈ next v, w ∈ order)
    (h : run next order.length order = some s) :
    AllEntered next s.sccs ∧
      ∀ e, order.head? = some e → ∃ c ∈ s.sccs, e ∈ c ∧ Entered next c e := by
  have hturn : ∀ seen v rest s, order = seen ++ v :: rest →
      (Inv next order [] s ∧ AllEntered next s.sccs ∧ (seen = [] → s = Tarjan.init) ∧
        ∀ e, seen.head? = some e → ∃ c ∈ s.sccs, e ∈ c ∧ Entered next c e) →
      ∃ s', (if s.defined v = false then connect next order.length v s else some s) = some s' ∧
        Inv next order [] s' ∧ AllEntered next s'.sccs ∧ (seen ++ [v] = [] → s' = Tarjan.init) ∧
          ∀ e, (seen ++ [v]).head? = some e → ∃ c ∈ s'.sccs, e ∈ c ∧ Entered next c e := by
    rintro seen v rest s hsplit ⟨hinv, hall, hinit, hfirst⟩
    have hV : v ∈ order := by simp [hsplit]
    by_cases hv : s.defined v = false
    · rw [if_pos hv]
      obtain ⟨s', new, heq, hs', hadds⟩ := connect_adds hclosed hinv hV hv
        (fun x hx => absurd hx List.not_mem_nil) List.countP_le_length
      refine ⟨s', heq, hs'.inv, hadds.entered hall, fun hc => absurd hc (by simp), fun e he => ?_⟩
      cases seen with
      | nil =>
        obtain rfl := Option.some.inj he
        refine hadds.own ?_
        rw [hs'.inv.stack_eq_nil]
        exact List.not_mem_nil
      | cons x l =>
        obtain ⟨c, hc, hrest⟩ := hfirst e he
        exact ⟨c, hadds.sub hc, hrest⟩
    · rw [if_neg hv]
      refine ⟨s, rfl, hinv, hall, fun hc => absurd hc (by simp), fun e he => ?_⟩
      cases seen with
      | nil =>
        rw [hinit rfl] at hv
        exact absurd rfl hv
      | cons x l => exact hfirst e he
  obtain ⟨s', heq, -, hall, -, hfirst⟩ := List.foldlM_some hturn
    ⟨Inv.init, fun c hc => absurd hc List.not_mem_nil, fun _ => rfl, fun e he => absurd he (by simp)⟩
  obtain rfl := Option.some.inj (h.symm.trans heq)
  exact ⟨hall, hfirst⟩

end Tarjan
