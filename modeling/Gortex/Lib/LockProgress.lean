import Mathlib.Data.Fintype.Basic
import Mathlib.Logic.Hydra
import Gortex.Lib.Locking

/-!
# Threads that lock in one order finish

As all threads take their locks in the order of the cells, a thread that waits for a lock waits
for one that comes after all it holds. So of the threads that wait, one that waits for the last of
the cells waits for a thread that can go on: as long as a call of some thread has not returned,
some thread in a call has a step (`State.Inv.progress`).

If no call goes through sections without end (`Program.Finite`), the steps of the threads in their
calls come to an end, since each one brings one thread closer to its return: the sections to come
count, and what is left of the section it is in (`Program.Finite.wellFounded_step`).
-/

namespace Locking

variable {τ ι α σ : Type*} [DecidableEq τ] [LinearOrder ι] {P : Program ι α σ}
  {c c' : State τ ι α σ} {t t' : τ} {i j : ι}

/-- A step of a thread in a call: to its next section, through it, or out of it. -/
def Action.inCall : Action τ σ → Bool
  | call _ _ => false
  | _ => true

/-- A thread in a call can go on. -/
def State.CanStep (P : Program ι α σ) (c : State τ ι α σ) : Prop :=
  ∃ x c', Action.inCall x = true ∧ Step P c x c'

namespace Phase

/-- The lock that comes next. -/
def wants : Phase ι α σ → Option ι
  | locking _ _ _ (i :: _) => some i
  | waiting _ _ _ i _ => some i
  | _ => none

/-- **A thread wants a lock that comes after all it holds.** -/
theorem Ordered.lt {p : Phase ι α σ} (h : p.Ordered) (hi : i ∈ p.held) (hj : p.wants = some j) :
    i < j := by
  have key : ∀ {s : Section ι α σ} {held todo : List ι}, held.reverse ++ j :: todo = s.locks →
      i ∈ held → i < j := fun {s held todo} hs hi => by
    have hsorted := s.sorted
    rw [← hs, List.pairwise_append] at hsorted
    exact hsorted.2.2 i (List.mem_reverse.mpr hi) j List.mem_cons_self
  cases p with
  | outside l => cases hj
  | locking l s held todo =>
    cases todo with
    | nil => cases hj
    | cons k todo =>
      cases hj
      exact key h hi
  | waiting l s held k todo =>
    cases hj
    exact key h.1 hi
  | inside l s b => cases hj
  | unlocking l s held => cases hj

end Phase

namespace State

/-- A thread in a section that wants no lock can go on. -/
theorem canStep_of_wants_none (hout : ¬(c.thread t).IsOutside) (hw : (c.thread t).wants = none) :
    c.CanStep P := by
  cases ht : c.thread t with
  | outside l =>
    rw [ht] at hout
    exact absurd trivial hout
  | locking l s held todo =>
    cases todo with
    | nil => exact ⟨_, _, rfl, Step.start ht⟩
    | cons k todo =>
      rw [ht] at hw
      cases hw
  | waiting l s held k todo =>
    rw [ht] at hw
    cases hw
  | inside l s b =>
    cases b with
    | done r => exact ⟨_, _, rfl, Step.commit ht⟩
    | access w next => exact ⟨_, _, rfl, Step.access ht⟩
  | unlocking l s held =>
    cases held with
    | nil => exact ⟨_, _, rfl, Step.leave ht⟩
    | cons k held => exact ⟨_, _, rfl, Step.unlock ht⟩

omit [DecidableEq τ] in
theorem not_isOutside_of_holds {m : Mode} (h : (c.thread t).Holds m i) :
    ¬(c.thread t).IsOutside := fun hout => by
  cases ht : c.thread t with
  | outside l =>
    rw [ht] at h
    cases h.1
  | _ =>
    rw [ht] at hout
    exact hout

/-- **Of the threads that wait one can go on**: by induction on the lock that a thread wants, from
the last one down. -/
theorem Inv.canStep_of_wants [WellFoundedGT ι] (h : c.Inv P) (hw : (c.thread t).wants = some i) :
    c.CanStep P := by
  induction i using WellFoundedGT.induction generalizing t with
  | ind i ih =>
    -- whoever holds this lock wants a later one or none
    have hholder : ∀ {t' : τ} {m : Mode}, (c.thread t').Holds m i → c.CanStep P :=
      fun {t' m} hold => by
        cases hw' : (c.thread t').wants with
        | none => exact canStep_of_wants_none (not_isOutside_of_holds hold) hw'
        | some j => exact ih j ((h.ordered t').lt hold.2 hw') hw'
    have hwriter : ∀ {t' : τ}, (c.mutex i).writer = some t' → c.CanStep P := fun {t'} hwr => by
      rcases (h.writer i t').mp hwr with hold | hann
      · exact hholder hold
      · cases ht' : c.thread t' with
        | waiting l s held k todo =>
          rw [ht'] at hann
          cases hann
          rcases (c.mutex i).readers.eq_empty_or_nonempty with hr | ⟨t'', hr⟩
          · exact ⟨_, _, rfl, Step.lock ht' hr⟩
          · exact hholder ((h.readers i t'').mp hr)
        | _ =>
          rw [ht'] at hann
          cases hann
    cases ht : c.thread t with
    | locking l s held todo =>
      rw [ht] at hw
      cases todo with
      | nil => cases hw
      | cons k todo =>
        cases hw
        cases hwr : (c.mutex i).writer with
        | some t' => exact hwriter hwr
        | none =>
          cases hm : s.mode with
          | read => exact ⟨_, _, rfl, Step.rLock ht hm hwr⟩
          | write => exact ⟨_, _, rfl, Step.announce ht hm hwr⟩
    | waiting l s held k todo =>
      have hk : (c.thread t).announced = some i := by
        rw [ht] at hw ⊢
        exact hw
      exact hwriter ((h.writer i t).mpr (Or.inr hk))
    | _ =>
      rw [ht] at hw
      cases hw

/-- **No deadlock**: when no thread in a call can go on, every thread is outside of the sections,
with none ahead of it. -/
theorem Inv.progress [WellFoundedGT ι] (h : c.Inv P) (hstuck : ¬c.CanStep P) (t : τ) :
    ∃ l, c.thread t = .outside l ∧ P.next l = none := by
  have hout : (c.thread t).IsOutside := by
    by_contra hout
    cases hw : (c.thread t).wants with
    | none => exact hstuck (canStep_of_wants_none hout hw)
    | some i => exact hstuck (h.canStep_of_wants hw)
  cases ht : c.thread t with
  | outside l =>
    refine ⟨l, rfl, ?_⟩
    cases hnext : P.next l with
    | none => rfl
    | some s => exact absurd ⟨_, _, rfl, Step.enter ht hnext⟩ hstuck
  | _ =>
    rw [ht] at hout
    exact hout.elim

omit [DecidableEq τ] in
/-- When no thread is in a section all locks are free. -/
theorem Inv.mutex_free (h : c.Inv P) (hout : ∀ t, (c.thread t).IsOutside) (i : ι) :
    c.mutex i = RWMutex.free := by
  have hnone : ∀ t, ¬(c.thread t).Claims i ∧ ¬(c.thread t).Holds .read i := fun t => by
    refine ⟨fun hc => ?_, fun hc => not_isOutside_of_holds hc (hout t)⟩
    rcases hc with hc | hc
    · exact not_isOutside_of_holds hc (hout t)
    · have ht := hout t
      cases hp : c.thread t with
      | outside l =>
        rw [hp] at hc
        cases hc
      | _ =>
        rw [hp] at ht
        exact ht
  have hw : (c.mutex i).writer = none :=
    Option.eq_none_iff_forall_ne_some.mpr fun t hc => (hnone t).1 ((h.writer i t).mp hc)
  have hr : (c.mutex i).readers = ∅ :=
    Finset.eq_empty_of_forall_notMem fun t hc => (hnone t).2 ((h.readers i t).mp hc)
  calc c.mutex i = ⟨(c.mutex i).writer, (c.mutex i).readers⟩ := rfl
    _ = RWMutex.free := by rw [hw, hr]; rfl

end State

/-! ### The steps come to an end -/

/-- **No call goes through sections without end**, whatever its sections read. -/
def Program.Finite (P : Program ι α σ) : Prop :=
  WellFounded fun l' l => ∃ s, P.next l = some s ∧ s.body.Ends l'

/-- What a step of a thread in a call makes of it. -/
inductive Phase.Next (P : Program ι α σ) : Phase ι α σ → Phase ι α σ → Prop
  | enter (l : σ) (s : Section ι α σ) :
    P.next l = some s → Next P (.locking l s [] s.locks) (.outside l)
  | rLock (l : σ) (s : Section ι α σ) (held todo : List ι) (i : ι) :
    Next P (.locking l s (i :: held) todo) (.locking l s held (i :: todo))
  | announce (l : σ) (s : Section ι α σ) (held todo : List ι) (i : ι) :
    Next P (.waiting l s held i todo) (.locking l s held (i :: todo))
  | lock (l : σ) (s : Section ι α σ) (held todo : List ι) (i : ι) :
    Next P (.locking l s (i :: held) todo) (.waiting l s held i todo)
  | start (l : σ) (s : Section ι α σ) (held : List ι) :
    Next P (.inside l s s.body) (.locking l s held [])
  | access (l : σ) (s : Section ι α σ) (write : (ι → α) → ι → α)
    (next : (ι → α) → Body (ι → α) σ) (m : ι → α) :
    Next P (.inside l s (next m)) (.inside l s (.access write next))
  | commit (l l' : σ) (s : Section ι α σ) (held : List ι) :
    Next P (.unlocking l' s held) (.inside l s (.done l'))
  | unlock (l : σ) (s : Section ι α σ) (held : List ι) (i : ι) :
    Next P (.unlocking l s held) (.unlocking l s (i :: held))
  | leave (l : σ) (s : Section ι α σ) : Next P (.outside l) (.unlocking l s [])

namespace Phase

theorem acc_unlocking {l : σ} (h : Acc (Next P) (.outside l)) (s : Section ι α σ)
    (held : List ι) : Acc (Next P) (.unlocking l s held) := by
  induction held with
  | nil =>
    refine ⟨_, fun p hp => ?_⟩
    cases hp
    exact h
  | cons i held ih =>
    refine ⟨_, fun p hp => ?_⟩
    cases hp
    exact ih

/-- A body comes to an end. -/
theorem acc_inside {b : Body (ι → α) σ} (h : ∀ r, b.Ends r → Acc (Next P) (.outside r)) (l : σ)
    (s : Section ι α σ) : Acc (Next P) (.inside l s b) := by
  induction b with
  | done r =>
    refine ⟨_, fun p hp => ?_⟩
    cases hp
    exact acc_unlocking (h r (.done r)) ..
  | access w next ih =>
    refine ⟨_, fun p hp => ?_⟩
    cases hp
    exact ih _ fun r hr => h r (.access hr)

/-- All locks are taken at some time, if one after the other is. -/
theorem acc_locking {s : Section ι α σ} (h : ∀ r, s.body.Ends r → Acc (Next P) (.outside r))
    (l : σ) (held todo : List ι) : Acc (Next P) (.locking l s held todo) := by
  induction todo generalizing held with
  | nil =>
    refine ⟨_, fun p hp => ?_⟩
    cases hp
    exact acc_inside h ..
  | cons i todo ih =>
    refine ⟨_, fun p hp => ?_⟩
    cases hp with
    | rLock => exact ih _
    | announce =>
      refine ⟨_, fun q hq => ?_⟩
      cases hq
      exact ih _

/-- A call returns, by induction on the sections ahead of it. -/
theorem acc_outside (h : P.Finite) (l : σ) : Acc (Next P) (.outside l) := by
  induction l using h.induction with
  | _ l ih =>
    refine ⟨_, fun p hp => ?_⟩
    cases hp with
    | enter _ s hs => exact acc_locking (fun r hr => ih r ⟨s, hs, hr⟩) ..

theorem wellFounded_next (h : P.Finite) : WellFounded (Next P) := by
  have hout : ∀ l, Acc (Next P) (.outside l) := acc_outside h
  refine ⟨fun p => ?_⟩
  cases p with
  | outside l => exact hout l
  | locking l s held todo => exact acc_locking (fun r _ => hout r) ..
  | waiting l s held i todo =>
    refine ⟨_, fun q hq => ?_⟩
    cases hq
    exact acc_locking (fun r _ => hout r) ..
  | inside l s b => exact acc_inside (fun r _ => hout r) ..
  | unlocking l s held => exact acc_unlocking (hout l) ..

end Phase

/-- A step in a call brings its thread on, and leaves the other threads where they are. -/
theorem Step.next {x : Action τ σ} (h : Step P c x c') (hx : x.inCall = true) :
    ∃ t p, Phase.Next P p (c.thread t) ∧ c'.thread = Function.update c.thread t p := by
  cases h with
  | call => cases hx
  | enter ht hs => exact ⟨_, _, ht ▸ .enter _ _ hs, rfl⟩
  | rLock ht hm hw => exact ⟨_, _, ht ▸ .rLock .., rfl⟩
  | announce ht hm hw => exact ⟨_, _, ht ▸ .announce .., rfl⟩
  | lock ht hr => exact ⟨_, _, ht ▸ .lock .., rfl⟩
  | start ht => exact ⟨_, _, ht ▸ .start .., rfl⟩
  | access ht => exact ⟨_, _, ht ▸ .access .., rfl⟩
  | commit ht => exact ⟨_, _, ht ▸ .commit .., rfl⟩
  | unlock ht => exact ⟨_, _, ht ▸ .unlock .., rfl⟩
  | leave ht => exact ⟨_, _, ht ▸ .leave .., rfl⟩

/-- The phases of all threads, when one of them has gone on. -/
theorem cutExpand_update [Fintype τ] {β : Type*} {r : β → β → Prop} {f : τ → β} {b : β}
    (h : r b (f t)) :
    Relation.CutExpand r (Finset.univ.val.map (Function.update f t b))
      (Finset.univ.val.map f) := by
  have hsplit : ∀ g : τ → β, Finset.univ.val.map g =
      (Finset.univ.erase t).val.map g + {g t} := fun g => by
    rw [← Finset.insert_erase (Finset.mem_univ t),
      Finset.insert_val_of_notMem (Finset.notMem_erase t _), Multiset.map_cons,
      Finset.erase_insert (Finset.notMem_erase t _), ← Multiset.singleton_add, add_comm]
  have hrest : (Finset.univ.erase t).val.map (Function.update f t b) =
      (Finset.univ.erase t).val.map f := by
    refine Multiset.map_congr rfl fun u hu => Function.update_of_ne ?_ ..
    exact (Finset.mem_erase.mp hu).1
  rw [hsplit (Function.update f t b), hrest, Function.update_self, hsplit f]
  exact Relation.cutExpand_add_single _ h

/-- **The steps of the threads come to an end**, unless calls are made without end. -/
theorem Program.Finite.wellFounded_step [Fintype τ] (h : P.Finite) :
    WellFounded fun c' c : State τ ι α σ => ∃ x, Action.inCall x = true ∧ Step P c x c' := by
  refine Subrelation.wf (r := InvImage (Relation.CutExpand (Phase.Next P))
    fun c : State τ ι α σ => Finset.univ.val.map c.thread) ?_
    (InvImage.wf _ (Phase.wellFounded_next h).cutExpand)
  rintro c' c ⟨x, hx, hs⟩
  obtain ⟨t, p, hp, hthread⟩ := hs.next hx
  change Relation.CutExpand _ (Finset.univ.val.map c'.thread) _
  rw [hthread]
  exact cutExpand_update hp

end Locking
