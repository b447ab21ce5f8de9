import Mathlib.Data.Finset.Basic
import Gortex.Lib.CriticalSection
import Gortex.Lib.Run

/-!
# Threads that lock what they touch

Threads share cells, each behind a lock of its own for one writer or many readers. A thread is a
program: in its local state it has a critical section ahead of it or none, and the section's body
returns its next local state. It takes the locks of the section one at a time, accesses the cells
one access at a time, and releases the locks one at a time, and between any two of these the
other threads go on.

A lock is that of a writer from when the writer announces itself, and the writer enters when the
readers have left; a reader enters when no writer has announced itself.

* `State.Inv.exclusive`: two threads that hold one lock are both readers.
* `Refines.run`: a run of the threads is a run of the system in which a section is one step, taken
  when its body is through (`Atomic`).
* `State.Inv.commute`: two accesses that can both come next can come in either order.
-/

namespace Locking

variable {τ ι α σ : Type*} [LinearOrder ι]

/-- A lock for one writer or many readers. -/
structure RWMutex (τ : Type*) where
  /-- The writer that has announced itself. -/
  writer : Option τ
  /-- The readers that have entered. -/
  readers : Finset τ

/-- Nobody has the lock. -/
def RWMutex.free : RWMutex τ := ⟨none, ∅⟩

/-- Where a thread is. The locks that it holds are listed from the one it has taken last. -/
inductive Phase (ι α σ : Type*) [LT ι]
  /-- In no section. -/
  | outside (l : σ)
  /-- In front of a section, with the locks it holds and those it has still to take. -/
  | locking (l : σ) (s : Section ι α σ) (held todo : List ι)
  /-- Announced at a lock, as a writer, and waiting for the readers to leave. -/
  | waiting (l : σ) (s : Section ι α σ) (held : List ι) (i : ι) (todo : List ι)
  /-- In a section, with the rest of its body. -/
  | inside (l : σ) (s : Section ι α σ) (b : Body (ι → α) σ)
  /-- Behind a section, with the local state it has returned and the locks to release. -/
  | unlocking (l : σ) (s : Section ι α σ) (held : List ι)

namespace Phase

/-- What the thread takes its locks for. -/
def mode : Phase ι α σ → Option Mode
  | outside _ => none
  | locking _ s _ _ => some s.mode
  | waiting _ s _ _ _ => some s.mode
  | inside _ s _ => some s.mode
  | unlocking _ s _ => some s.mode

/-- The locks that the thread holds. -/
def held : Phase ι α σ → List ι
  | outside _ => []
  | locking _ _ held _ => held
  | waiting _ _ held _ _ => held
  | inside _ s _ => s.locks.reverse
  | unlocking _ _ held => held

/-- The lock at which the thread has announced itself. -/
def announced : Phase ι α σ → Option ι
  | waiting _ _ _ i _ => some i
  | _ => none

/-- The local state after the sections that are through. -/
def loc : Phase ι α σ → σ
  | outside l => l
  | locking l _ _ _ => l
  | waiting l _ _ _ _ => l
  | inside l _ _ => l
  | unlocking l _ _ => l

/-- The thread is in no section. -/
def IsOutside : Phase ι α σ → Prop
  | outside _ => True
  | _ => False

/-- The thread holds the lock, for reading or for writing. -/
def Holds (m : Mode) (i : ι) (p : Phase ι α σ) : Prop := p.mode = some m ∧ i ∈ p.held

/-- The thread is the writer of the lock: it holds it, or has announced itself there. -/
def Claims (i : ι) (p : Phase ι α σ) : Prop := p.Holds .write i ∨ p.announced = some i

/-- What is left of the locks of its section and what the thread holds are all of them, in their
order, and a thread that writes is the only kind that announces itself. -/
def Ordered : Phase ι α σ → Prop
  | outside _ => True
  | locking _ s held todo => held.reverse ++ todo = s.locks
  | waiting _ s held i todo => held.reverse ++ i :: todo = s.locks ∧ s.mode = .write
  | inside _ _ _ => True
  | unlocking _ s held => held <:+ s.locks.reverse

/-- The section ahead of the thread's local state, and what is left of it, as the program says. -/
def Follows (next : σ → Option (Section ι α σ)) : Phase ι α σ → Prop
  | outside _ => True
  | locking l s _ _ => next l = some s
  | waiting l s _ _ _ => next l = some s
  | inside l s b => next l = some s ∧ b.Within s.mode s.locks
  | unlocking _ _ _ => True

end Phase

/-- The cells, their locks and the threads. -/
structure State (τ ι α σ : Type*) [LT ι] where
  mem : ι → α
  mutex : ι → RWMutex τ
  thread : τ → Phase ι α σ

/-- What the threads do: the section that comes next in a local state, and the calls that a thread
without one may make. -/
structure Program (ι α σ : Type*) [LT ι] where
  next : σ → Option (Section ι α σ)
  calls : σ → Prop

/-- One step of one thread. -/
inductive Action (τ σ : Type*)
  /-- A thread whose last call has returned makes another. -/
  | call (t : τ) (l : σ)
  /-- A thread comes to its next section. -/
  | enter (t : τ)
  /-- A reader takes its next lock. -/
  | rLock (t : τ)
  /-- A writer announces itself at its next lock. -/
  | announce (t : τ)
  /-- A writer has seen the readers leave, and takes the lock. -/
  | lock (t : τ)
  /-- All locks are taken. -/
  | start (t : τ)
  /-- The next access. -/
  | access (t : τ)
  /-- The body of the section is through. -/
  | commit (t : τ)
  /-- The lock taken last is released. -/
  | unlock (t : τ)
  /-- All locks are released. -/
  | leave (t : τ)

namespace State

variable {c c' : State τ ι α σ} {t t' : τ} {i : ι} {p : Phase ι α σ}

/-- Write a lock. -/
def setMutex (c : State τ ι α σ) (i : ι) (m : RWMutex τ) : State τ ι α σ :=
  { c with mutex := Function.update c.mutex i m }

/-- No thread is in a section and all locks are free. -/
def idle (mem : ι → α) (loc : τ → σ) : State τ ι α σ where
  mem := mem
  mutex := fun _ => RWMutex.free
  thread := fun t => .outside (loc t)

end State

/-! ### Who has which lock -/

namespace State

/-- **What the locks and the threads have in common**: the writer of a lock is the thread that
holds it for writing or has announced itself there, its readers are those that hold it for
reading, and there are none while a writer holds it. -/
structure Inv (P : Program ι α σ) (c : State τ ι α σ) : Prop where
  writer : ∀ i t, (c.mutex i).writer = some t ↔ (c.thread t).Claims i
  readers : ∀ i t, t ∈ (c.mutex i).readers ↔ (c.thread t).Holds .read i
  alone : ∀ i t t', (c.thread t).Holds .write i → t' ∉ (c.mutex i).readers
  ordered : ∀ t, (c.thread t).Ordered
  follows : ∀ t, (c.thread t).Follows P.next

variable {P : Program ι α σ} {c c' : State τ ι α σ} {t t' : τ} {i : ι} {p : Phase ι α σ}

@[simp] theorem setMutex_self (m : RWMutex τ) : (c.setMutex i m).mutex i = m :=
  Function.update_self ..

theorem setMutex_of_ne {j : ι} (h : j ≠ i) (m : RWMutex τ) :
    (c.setMutex i m).mutex j = c.mutex j := Function.update_of_ne h ..

theorem Inv.idle (mem : ι → α) (loc : τ → σ) : (idle mem loc : State τ ι α σ).Inv P where
  writer := fun i t => by
    refine iff_of_false (fun h => by cases h) (fun h => ?_)
    rcases h with ⟨h, -⟩ | h
    · cases h
    · cases h
  readers := fun i t => by
    refine iff_of_false (Finset.notMem_empty t) (fun h => ?_)
    cases h.1
  alone := fun i t t' h => by cases h.1
  ordered := fun _ => trivial
  follows := fun _ => trivial

/-- **Two threads that hold one lock are both readers.** -/
theorem Inv.exclusive (h : c.Inv P) (hne : t ≠ t') {m : Mode} (hi : (c.thread t).Holds .write i) :
    ¬(c.thread t').Holds m i := by
  intro hi'
  cases m with
  | read => exact h.alone i t t' hi ((h.readers i t').mpr hi')
  | write =>
    have hw : (c.mutex i).writer = some t := (h.writer i t).mpr (Or.inl hi)
    exact hne (Option.some.inj (hw.symm.trans ((h.writer i t').mpr (Or.inl hi'))))

/-- The locks of a section are those that a thread inside it holds. -/
theorem holds_inside {l : σ} {s : Section ι α σ} {b : Body (ι → α) σ}
    (h : c.thread t = .inside l s b) (hi : i ∈ s.locks) : (c.thread t).Holds s.mode i := by
  rw [h]
  exact ⟨rfl, List.mem_reverse.mpr hi⟩

/-- **A thread inside a section has its cells to itself**, as far as the other touches them. -/
theorem Inv.disjoint (h : c.Inv P) (hne : t ≠ t') {l l' : σ} {s s' : Section ι α σ}
    {b b' : Body (ι → α) σ} (ht : c.thread t = .inside l s b) (ht' : c.thread t' = .inside l' s' b')
    (hi : i ∈ s'.locks) : s.mode = .read ∨ i ∉ s.locks := by
  by_contra hcon
  rw [not_or, not_not] at hcon
  have hm := holds_inside ht hcon.2
  cases hs : s.mode with
  | read => exact hcon.1 hs
  | write =>
    rw [hs] at hm
    exact h.exclusive hne hm (holds_inside ht' hi)

theorem Inv.not_claims_of_writer (h : c.Inv P) (hw : (c.mutex i).writer = none) (t : τ) :
    ¬(c.thread t).Claims i := fun hc => by
  rw [← h.writer i t, hw] at hc
  cases hc

end State

/-! ### Steps -/

variable [DecidableEq τ]

namespace State

/-- Move a thread. -/
def put (c : State τ ι α σ) (t : τ) (p : Phase ι α σ) : State τ ι α σ :=
  { c with thread := Function.update c.thread t p }

/-- The lock without the thread that has it. -/
def release (mode : Mode) (t : τ) (m : RWMutex τ) : RWMutex τ :=
  match mode with
  | .write => { m with writer := none }
  | .read => { m with readers := m.readers.erase t }

end State

/-- **One step of one thread.** -/
inductive Step (P : Program ι α σ) : State τ ι α σ → Action τ σ → State τ ι α σ → Prop
  | call {c : State τ ι α σ} {t : τ} {l l' : σ} : c.thread t = .outside l → P.next l = none →
    P.calls l' → Step P c (.call t l') (c.put t (.outside l'))
  | enter {c : State τ ι α σ} {t : τ} {l : σ} {s : Section ι α σ} : c.thread t = .outside l →
    P.next l = some s → Step P c (.enter t) (c.put t (.locking l s [] s.locks))
  | rLock {c : State τ ι α σ} {t : τ} {l : σ} {s : Section ι α σ} {held todo : List ι} {i : ι} :
    c.thread t = .locking l s held (i :: todo) → s.mode = .read → (c.mutex i).writer = none →
    Step P c (.rLock t)
      ((c.setMutex i { c.mutex i with readers := insert t (c.mutex i).readers }).put t
        (.locking l s (i :: held) todo))
  | announce {c : State τ ι α σ} {t : τ} {l : σ} {s : Section ι α σ} {held todo : List ι} {i : ι} :
    c.thread t = .locking l s held (i :: todo) → s.mode = .write → (c.mutex i).writer = none →
    Step P c (.announce t)
      ((c.setMutex i { c.mutex i with writer := some t }).put t (.waiting l s held i todo))
  | lock {c : State τ ι α σ} {t : τ} {l : σ} {s : Section ι α σ} {held todo : List ι} {i : ι} :
    c.thread t = .waiting l s held i todo → (c.mutex i).readers = ∅ →
    Step P c (.lock t) (c.put t (.locking l s (i :: held) todo))
  | start {c : State τ ι α σ} {t : τ} {l : σ} {s : Section ι α σ} {held : List ι} :
    c.thread t = .locking l s held [] → Step P c (.start t) (c.put t (.inside l s s.body))
  | access {c : State τ ι α σ} {t : τ} {l : σ} {s : Section ι α σ} {write : (ι → α) → ι → α}
    {next : (ι → α) → Body (ι → α) σ} : c.thread t = .inside l s (.access write next) →
    Step P c (.access t) ({ c with mem := write c.mem }.put t (.inside l s (next c.mem)))
  | commit {c : State τ ι α σ} {t : τ} {l l' : σ} {s : Section ι α σ} :
    c.thread t = .inside l s (.done l') →
    Step P c (.commit t) (c.put t (.unlocking l' s s.locks.reverse))
  | unlock {c : State τ ι α σ} {t : τ} {l : σ} {s : Section ι α σ} {held : List ι} {i : ι} :
    c.thread t = .unlocking l s (i :: held) →
    Step P c (.unlock t)
      ((c.setMutex i (State.release s.mode t (c.mutex i))).put t (.unlocking l s held))
  | leave {c : State τ ι α σ} {t : τ} {l : σ} {s : Section ι α σ} :
    c.thread t = .unlocking l s [] → Step P c (.leave t) (c.put t (.outside l))

namespace State

variable {P : Program ι α σ} {c c' : State τ ι α σ} {t t' : τ} {i : ι} {p : Phase ι α σ}

@[simp] theorem put_self : (c.put t p).thread t = p := Function.update_self ..
theorem put_of_ne (h : t' ≠ t) : (c.put t p).thread t' = c.thread t' := Function.update_of_ne h ..

omit [DecidableEq τ] in
/-- A step of one thread, as far as the others and their locks are concerned. -/
theorem Inv.step_of (h : c.Inv P) (hthread : ∀ t', t' ≠ t → c'.thread t' = c.thread t')
    (hwriter : ∀ i t', t' ≠ t → ((c'.mutex i).writer = some t' ↔ (c.mutex i).writer = some t'))
    (hreaders : ∀ i t', t' ≠ t → (t' ∈ (c'.mutex i).readers ↔ t' ∈ (c.mutex i).readers))
    (hclaims : ∀ i, (c'.mutex i).writer = some t ↔ (c'.thread t).Claims i)
    (hholds : ∀ i, t ∈ (c'.mutex i).readers ↔ (c'.thread t).Holds .read i)
    (hw : ∀ i t', t' ≠ t → (c'.thread t).Holds .write i → t' ∉ (c.mutex i).readers)
    (hr : ∀ i t', t' ≠ t → (c'.thread t).Holds .read i → ¬(c.thread t').Holds .write i)
    (hordered : (c'.thread t).Ordered) (hfollows : (c'.thread t).Follows P.next) : c'.Inv P where
  writer := fun i t' => by
    rcases eq_or_ne t' t with rfl | hne
    · exact hclaims i
    · rw [hwriter i t' hne, hthread t' hne]
      exact h.writer i t'
  readers := fun i t' => by
    rcases eq_or_ne t' t with rfl | hne
    · exact hholds i
    · rw [hreaders i t' hne, hthread t' hne]
      exact h.readers i t'
  alone := fun i u u' hu hu' => by
    rcases eq_or_ne u t with rfl | hne
    · rcases eq_or_ne u' u with rfl | hne'
      · have hm : some Mode.write = some Mode.read := hu.1.symm.trans ((hholds i).mp hu').1
        cases hm
      · exact hw i u' hne' hu ((hreaders i u' hne').mp hu')
    · rw [hthread u hne] at hu
      rcases eq_or_ne u' t with rfl | hne'
      · exact hr i u hne ((hholds i).mp hu') hu
      · exact h.alone i u u' hu ((hreaders i u' hne').mp hu')
  ordered := fun t' => by
    rcases eq_or_ne t' t with rfl | hne
    · exact hordered
    · rw [hthread t' hne]
      exact h.ordered t'
  follows := fun t' => by
    rcases eq_or_ne t' t with rfl | hne
    · exact hfollows
    · rw [hthread t' hne]
      exact h.follows t'

/-- A step of one thread that takes and releases no lock. -/
theorem Inv.put (h : c.Inv P) (hmutex : c'.mutex = c.mutex)
    (hthread : c'.thread = (c.put t p).thread) (hann : p.announced = (c.thread t).announced)
    (hholds : ∀ m i, p.Holds m i ↔ (c.thread t).Holds m i) (hordered : p.Ordered)
    (hfollows : p.Follows P.next) : c'.Inv P := by
  have hself : c'.thread t = p := by rw [hthread, put_self]
  refine h.step_of (t := t) (fun t' hne => by rw [hthread, put_of_ne hne])
    (fun i t' _ => by rw [hmutex]) (fun i t' _ => by rw [hmutex]) (fun i => ?_) (fun i => ?_)
    (fun i t' hne hi => ?_) (fun i t' hne hi hw => ?_) (hself ▸ hordered) (hself ▸ hfollows)
  · rw [hmutex, hself, Phase.Claims, hann, hholds]
    exact h.writer i t
  · rw [hmutex, hself, hholds]
    exact h.readers i t
  · rw [hself, hholds] at hi
    exact h.alone i t t' hi
  · rw [hself, hholds] at hi
    exact h.exclusive hne hw hi

/-- A step of one thread at one lock. -/
theorem Inv.setMutex (h : c.Inv P) {m : RWMutex τ}
    (hother : ∀ j, j ≠ i → (p.Claims j ↔ (c.thread t).Claims j) ∧
      ∀ mo, p.Holds mo j ↔ (c.thread t).Holds mo j)
    (hwriter : ∀ t', t' ≠ t → (m.writer = some t' ↔ (c.mutex i).writer = some t'))
    (hreaders : ∀ t', t' ≠ t → (t' ∈ m.readers ↔ t' ∈ (c.mutex i).readers))
    (hclaims : m.writer = some t ↔ p.Claims i) (hholds : t ∈ m.readers ↔ p.Holds .read i)
    (hw : ¬p.Holds .write i) (hr : p.Holds .read i → (c.mutex i).writer = none)
    (hordered : p.Ordered) (hfollows : p.Follows P.next) :
    ((c.setMutex i m).put t p).Inv P := by
  have hself : ((c.setMutex i m).put t p).thread t = p := put_self
  have hmutex : ∀ j, j ≠ i → ((c.setMutex i m).put t p).mutex j = c.mutex j :=
    fun j hj => setMutex_of_ne hj m
  have hat : ((c.setMutex i m).put t p).mutex i = m := setMutex_self m
  -- for the other mutexes nothing has changed
  refine h.step_of (t := t) (fun t' hne => put_of_ne hne) (fun j t' hne => ?_)
    (fun j t' hne => ?_) (fun j => ?_) (fun j => ?_) (fun j t' hne hj => ?_)
    (fun j t' hne hj hj' => ?_) (by rwa [hself]) (by rwa [hself])
  · rcases eq_or_ne j i with rfl | hj
    · rw [hat]
      exact hwriter t' hne
    · rw [hmutex j hj]
  · rcases eq_or_ne j i with rfl | hj
    · rw [hat]
      exact hreaders t' hne
    · rw [hmutex j hj]
  · rw [hself]
    rcases eq_or_ne j i with rfl | hj
    · rw [hat]
      exact hclaims
    · rw [hmutex j hj, (hother j hj).1]
      exact h.writer j t
  · rw [hself]
    rcases eq_or_ne j i with rfl | hj
    · rw [hat]
      exact hholds
    · rw [hmutex j hj, (hother j hj).2]
      exact h.readers j t
  · rw [hself] at hj
    rcases eq_or_ne j i with rfl | hji
    · exact absurd hj hw
    · exact h.alone j t t' (((hother j hji).2 _).mp hj)
  · rw [hself] at hj
    rcases eq_or_ne j i with rfl | hji
    · exact h.not_claims_of_writer (hr hj) t' (Or.inl hj')
    · exact h.exclusive hne hj' (((hother j hji).2 _).mp hj)

/-- A reader takes a lock. -/
theorem Inv.rLock (h : c.Inv P) {l : σ} {s : Section ι α σ} {held todo : List ι}
    (ht : c.thread t = .locking l s held (i :: todo)) (hm : s.mode = .read)
    (hw : (c.mutex i).writer = none) :
    ((c.setMutex i { c.mutex i with readers := insert t (c.mutex i).readers }).put t
      (.locking l s (i :: held) todo)).Inv P := by
  have hnot : ∀ j, ¬Phase.Claims j (.locking l s (i :: held) todo) := fun j hc => by
    rcases hc with ⟨hc, -⟩ | hc
    · cases hm.symm.trans (Option.some.inj hc)
    · cases hc
  have hold : ∀ j, ¬(c.thread t).Claims j := fun j hc => by
    rw [ht] at hc
    rcases hc with ⟨hc, -⟩ | hc
    · cases hm.symm.trans (Option.some.inj hc)
    · cases hc
  have ho := h.ordered t
  have hf := h.follows t
  rw [ht] at ho hf
  refine h.setMutex (fun j hj => ⟨iff_of_false (hnot j) (hold j), fun mo => ?_⟩)
    (fun t' _ => Iff.rfl) (fun t' hne => ?_) (iff_of_false (fun hc => ?_) (hnot i))
    (iff_of_true (Finset.mem_insert_self _ _) ⟨congrArg some hm, List.mem_cons_self⟩)
    (fun hc => hnot i (Or.inl hc)) (fun _ => hw) ?_ hf
  · rw [ht]
    refine and_congr Iff.rfl ⟨fun hj' => ?_, List.mem_cons_of_mem i⟩
    exact (List.mem_cons.mp hj').resolve_left hj
  · exact ⟨fun hj => (Finset.mem_insert.mp hj).resolve_left hne, Finset.mem_insert_of_mem⟩
  · cases hw.symm.trans hc
  · rw [Phase.Ordered, List.reverse_cons, List.append_assoc]
    exact ho

/-- A writer announces itself at a lock. -/
theorem Inv.announce (h : c.Inv P) {l : σ} {s : Section ι α σ} {held todo : List ι}
    (ht : c.thread t = .locking l s held (i :: todo)) (hm : s.mode = .write)
    (hw : (c.mutex i).writer = none) :
    ((c.setMutex i { c.mutex i with writer := some t }).put t
      (.waiting l s held i todo)).Inv P := by
  have hnot : ¬(c.thread t).Claims i := h.not_claims_of_writer hw t
  have ho := h.ordered t
  have hf := h.follows t
  rw [ht] at ho hf hnot
  refine h.setMutex (fun j hj => ⟨?_, fun mo => by rw [ht]; rfl⟩) (fun t' hne => ?_)
    (fun t' _ => Iff.rfl) (iff_of_true rfl (Or.inr rfl)) ?_ (fun hc => hnot (Or.inl hc))
    (fun _ => hw) ⟨ho, hm⟩ hf
  · rw [ht]
    refine or_congr Iff.rfl (iff_of_false (fun hc => hj ?_) (fun hc => ?_))
    · exact (Option.some.inj hc).symm
    · cases hc
  · refine iff_of_false (fun hc => hne (Option.some.inj hc).symm) (fun hc => ?_)
    cases hw.symm.trans hc
  · refine (h.readers i t).trans ?_
    rw [ht]
    exact Iff.rfl

/-- A thread releases the lock it has taken last. -/
theorem Inv.unlock (h : c.Inv P) {l : σ} {s : Section ι α σ} {held : List ι}
    (ht : c.thread t = .unlocking l s (i :: held)) :
    ((c.setMutex i (release s.mode t (c.mutex i))).put t (.unlocking l s held)).Inv P := by
  have ho := h.ordered t
  rw [ht] at ho
  have hnodup : (i :: held).Nodup :=
    (List.nodup_reverse.mpr (s.sorted.imp fun hlt => hlt.ne)).sublist ho.sublist
  have hi : i ∉ held := (List.nodup_cons.mp hnodup).1
  have hother : ∀ j, j ≠ i → ∀ mo, Phase.Holds mo j (.unlocking l s held) ↔
      (c.thread t).Holds mo j := fun j hj mo => by
    rw [ht]
    exact and_congr Iff.rfl
      ⟨List.mem_cons_of_mem i, fun hj' => (List.mem_cons.mp hj').resolve_left hj⟩
  have hnone : ∀ mo, ¬Phase.Holds mo i (.unlocking l s held) := fun mo hc => hi hc.2
  have hclaims : ¬Phase.Claims i (.unlocking l s held) := fun hc => by
    rcases hc with hc | hc
    · exact hnone _ hc
    · cases hc
  -- the thread holds the lock in the mode of the section, and has announced none
  have hhas : (c.thread t).Holds s.mode i := by
    rw [ht]
    exact ⟨rfl, List.mem_cons_self⟩
  have hann : (c.thread t).announced = none := by rw [ht]; rfl
  refine h.setMutex (fun j hj => ⟨or_congr (hother j hj _) ?_, hother j hj⟩) ?_ ?_
    (iff_of_false ?_ hclaims) (iff_of_false ?_ (hnone _)) (hnone _)
    (fun hc => absurd hc (hnone _)) ((List.suffix_cons i held).trans ho) trivial
  · rw [hann]
    exact Iff.rfl
  · intro t' hne
    cases hm : s.mode with
    | read => exact Iff.rfl
    | write =>
      rw [hm] at hhas
      refine iff_of_false (fun hc => by cases hc) (fun hc => hne ?_)
      exact Option.some.inj (hc.symm.trans ((h.writer i t).mpr (Or.inl hhas)))
  · intro t' hne
    cases hm : s.mode with
    | read => exact ⟨Finset.mem_of_mem_erase, fun hc => Finset.mem_erase.mpr ⟨hne, hc⟩⟩
    | write => exact Iff.rfl
  · cases hm : s.mode with
    | read =>
      rw [hm] at hhas
      intro hc
      rcases (h.writer i t).mp hc with hc' | hc'
      · cases hhas.1.symm.trans hc'.1
      · cases hann.symm.trans hc'
    | write =>
      intro hc
      cases hc
  · cases hm : s.mode with
    | read => exact Finset.notMem_erase t _
    | write =>
      rw [hm] at hhas
      exact fun hc => h.alone i t t hhas hc

/-- A writer that has announced itself takes the lock when the readers have left. -/
theorem Inv.lock (h : c.Inv P) {l : σ} {s : Section ι α σ} {held todo : List ι}
    (ht : c.thread t = .waiting l s held i todo) (hr : (c.mutex i).readers = ∅) :
    (c.put t (.locking l s (i :: held) todo)).Inv P := by
  have hself : (c.put t (.locking l s (i :: held) todo)).thread t =
      .locking l s (i :: held) todo := put_self
  have ho := h.ordered t
  have hf := h.follows t
  rw [ht] at ho hf
  have hread : ∀ j, ¬Phase.Holds .read j (.locking l s (i :: held) todo) := fun j hc => by
    cases ho.2.symm.trans (Option.some.inj hc.1)
  have hold : ∀ j, ¬(c.thread t).Holds .read j := fun j hc => by
    rw [ht] at hc
    cases ho.2.symm.trans (Option.some.inj hc.1)
  refine h.step_of (t := t) (fun t' hne => put_of_ne hne) (fun j t' _ => Iff.rfl)
    (fun j t' _ => Iff.rfl) (fun j => ?_) (fun j => ?_) (fun j t' hne hj => ?_)
    (fun j t' hne hj => ?_) ?_ ?_
  · rw [hself]
    refine (h.writer j t).trans ?_
    rw [ht]
    constructor
    · rintro (⟨hm, hj⟩ | hj)
      · exact Or.inl ⟨hm, List.mem_cons_of_mem i hj⟩
      · exact Or.inl ⟨congrArg some ho.2, Option.some.inj hj ▸ List.mem_cons_self⟩
    · rintro (⟨hm, hj⟩ | hj)
      · rcases List.mem_cons.mp hj with rfl | hj
        · exact Or.inr rfl
        · exact Or.inl ⟨hm, hj⟩
      · cases hj
  · rw [hself]
    exact iff_of_false (fun hc => hold j ((h.readers j t).mp hc)) (hread j)
  · rw [hself] at hj
    rcases List.mem_cons.mp hj.2 with rfl | hj'
    · rw [hr]
      exact Finset.notMem_empty t'
    · refine h.alone j t t' ?_
      rw [ht]
      exact ⟨hj.1, hj'⟩
  · rw [hself] at hj
    exact absurd hj (hread j)
  · rw [hself, Phase.Ordered, List.reverse_cons, List.append_assoc]
    exact ho.1
  · rw [hself]
    exact hf

/-- **Every step keeps the locks and the threads in step.** -/
theorem Inv.step {a : Action τ σ} (h : c.Inv P) (hs : Step P c a c') : c'.Inv P := by
  have hnone : ∀ (q : Phase ι α σ) (mo : Mode) (j : ι), q.held = [] → ¬q.Holds mo j :=
    fun q mo j hq hc => by
      rw [Phase.Holds, hq] at hc
      exact absurd hc.2 List.not_mem_nil
  cases hs with
  | call ht hn hl =>
    refine h.put rfl rfl (by rw [ht]; rfl) (fun mo j => ?_) trivial trivial
    exact iff_of_false (hnone _ mo j rfl) (hnone _ mo j (by rw [ht]; rfl))
  | enter ht hn =>
    refine h.put rfl rfl (by rw [ht]; rfl) (fun mo j => ?_) rfl hn
    exact iff_of_false (hnone _ mo j rfl) (hnone _ mo j (by rw [ht]; rfl))
  | rLock ht hm hw => exact h.rLock ht hm hw
  | announce ht hm hw => exact h.announce ht hm hw
  | lock ht hr => exact h.lock ht hr
  | @start t l s held ht =>
    have ho := h.ordered t
    have hf := h.follows t
    rw [ht] at ho hf
    refine h.put rfl rfl (by rw [ht]; rfl) (fun mo j => ?_) trivial ⟨hf, s.within⟩
    rw [ht]
    refine and_congr Iff.rfl ?_
    change j ∈ s.locks.reverse ↔ j ∈ held
    rw [show s.locks = held.reverse from ho.symm.trans (List.append_nil _), List.reverse_reverse]
  | @access t l s write next ht =>
    have hf := h.follows t
    rw [ht] at hf
    refine h.put rfl rfl (by rw [ht]; rfl) (fun mo j => ?_) trivial ⟨hf.1, hf.2.2.2 c.mem⟩
    rw [ht]
    exact Iff.rfl
  | commit ht =>
    refine h.put rfl rfl (by rw [ht]; rfl) (fun mo j => ?_) (List.suffix_refl _) trivial
    rw [ht]
    exact Iff.rfl
  | unlock ht => exact h.unlock ht
  | leave ht =>
    refine h.put rfl rfl (by rw [ht]; rfl) (fun mo j => ?_) trivial trivial
    exact iff_of_false (hnone _ mo j rfl) (hnone _ mo j (by rw [ht]; rfl))

/-- **The locks and the threads are in step after every run.** -/
theorem Inv.run {l : List (Action τ σ)} (h : c.Inv P) (hr : Run (Step P) c l c') : c'.Inv P :=
  hr.invariant Inv.step h

end State

/-! ### The sections as single steps -/

/-- The cells, and where each thread is, when a section is one step. -/
structure Atomic (τ ι α σ : Type*) where
  mem : ι → α
  loc : τ → σ

/-- One step when a section is one step. -/
inductive Atomic.Action (τ σ : Type*)
  | call (t : τ) (l : σ)
  | perform (t : τ)

/-- **A section is one step.** -/
inductive Atomic.Step (P : Program ι α σ) :
    Atomic τ ι α σ → Atomic.Action τ σ → Atomic τ ι α σ → Prop
  | call {a : Atomic τ ι α σ} {t : τ} {l : σ} : P.next (a.loc t) = none → P.calls l →
    Step P a (.call t l) { a with loc := Function.update a.loc t l }
  | perform {a : Atomic τ ι α σ} {t : τ} {s : Section ι α σ} : P.next (a.loc t) = some s →
    Step P a (.perform t)
      { mem := (s.body.run a.mem).2, loc := Function.update a.loc t (s.body.run a.mem).1 }

/-- What a step is when a section is one step: the section is the step at which its body is
through. -/
def Action.atomic : Action τ σ → Option (Atomic.Action τ σ)
  | call t l => some (.call t l)
  | commit t => some (.perform t)
  | _ => none

variable {P : Program ι α σ} {c c' : State τ ι α σ} {a : Atomic τ ι α σ} {t t' : τ} {i : ι}

/-- **What a state has in common with one in which sections are single steps**: the local states
of the threads are the same; the rest of a body gives from the memory as it is what the whole body
gives from the other memory; and the memories differ only in cells that a thread inside a section
has locked for writing. -/
structure Refines (P : Program ι α σ) (c : State τ ι α σ) (a : Atomic τ ι α σ) : Prop where
  loc : ∀ t, (c.thread t).loc = a.loc t
  inside : ∀ t l s b, c.thread t = .inside l s b →
    (b.run c.mem).1 = (s.body.run a.mem).1 ∧
      Body.Agree s.locks (b.run c.mem).2 (s.body.run a.mem).2
  cells : ∀ i, (∀ t l s b, c.thread t = .inside l s b → s.mode = .read ∨ i ∉ s.locks) →
    c.mem i = a.mem i

omit [DecidableEq τ] in
theorem Refines.idle (mem : ι → α) (loc : τ → σ) :
    Refines P (State.idle mem loc : State τ ι α σ) ⟨mem, loc⟩ where
  loc := fun _ => rfl
  inside := fun t l s b h => by cases h
  cells := fun _ _ => rfl

/-- A step of a thread that is in no section before and after it, or in none yet. -/
theorem Refines.quiet (h : Refines P c a) {a' : Atomic τ ι α σ} {p : Phase ι α σ}
    (hmem : c'.mem = c.mem) (hthread : c'.thread = (c.put t p).thread) (hamem : a'.mem = a.mem)
    (hloc : a'.loc = Function.update a.loc t p.loc)
    (hp : ∀ l s b, p ≠ .inside l s b) (ht : ∀ l s b, c.thread t ≠ .inside l s b) :
    Refines P c' a' where
  loc := fun t' => by
    rw [hthread, hloc]
    rcases eq_or_ne t' t with rfl | hne
    · rw [State.put_self, Function.update_self]
    · rw [State.put_of_ne hne, Function.update_of_ne hne]
      exact h.loc t'
  inside := fun t' l s b hb => by
    rw [hmem, hamem]
    rw [hthread] at hb
    rcases eq_or_ne t' t with rfl | hne
    · rw [State.put_self] at hb
      exact absurd hb (hp l s b)
    · rw [State.put_of_ne hne] at hb
      exact h.inside t' l s b hb
  cells := fun i hi => by
    rw [hmem, hamem]
    refine h.cells i fun t' l s b hb => ?_
    rcases eq_or_ne t' t with rfl | hne
    · exact absurd hb (ht l s b)
    · refine hi t' l s b ?_
      rw [hthread, State.put_of_ne hne]
      exact hb

omit [DecidableEq τ] in
/-- The cells that a thread has locked are those of the other memory, unless it writes them
itself. -/
theorem Refines.agree (h : Refines P c a) (hinv : c.Inv P) {locks : List ι} {m : Mode}
    (hlocks : ∀ i ∈ locks, (c.thread t).Holds m i) (ht : ∀ l s b, c.thread t ≠ .inside l s b) :
    Body.Agree locks c.mem a.mem := by
  intro i hi
  refine h.cells i fun t' l s b hb => ?_
  have hne : t' ≠ t := by
    rintro rfl
    exact ht l s b hb
  by_contra hcon
  rw [not_or, not_not] at hcon
  have hholds := State.holds_inside hb hcon.2
  cases hs : s.mode with
  | read => exact hcon.1 hs
  | write =>
    rw [hs] at hholds
    exact hinv.exclusive hne hholds (hlocks i hi)

/-- All locks are taken. -/
theorem Refines.start (h : Refines P c a) (hinv : c.Inv P) {l : σ} {s : Section ι α σ}
    {held : List ι} (ht : c.thread t = .locking l s held []) :
    Refines P (c.put t (.inside l s s.body)) a where
  loc := fun t' => by
    have hl := h.loc t'
    rcases eq_or_ne t' t with rfl | hne
    · rw [State.put_self]
      rw [ht] at hl
      exact hl
    · rwa [State.put_of_ne hne]
  inside := fun t' l' s' b hb => by
    rcases eq_or_ne t' t with rfl | hne
    · rw [State.put_self] at hb
      cases hb
      have ho := hinv.ordered t'
      rw [ht, Phase.Ordered, List.append_nil] at ho
      have hagree : Body.Agree s.locks c.mem a.mem := by
        refine h.agree (t := t') (m := s.mode) hinv (fun i hi => ?_) (fun l' s' b hc => ?_)
        · rw [ht]
          refine ⟨rfl, ?_⟩
          rw [← ho] at hi
          exact List.mem_reverse.mp hi
        · cases ht.symm.trans hc
      exact Body.run_congr s.within hagree
    · rw [State.put_of_ne hne] at hb
      exact h.inside t' l' s' b hb
  cells := fun i hi => by
    refine h.cells i fun t' l' s' b hb => ?_
    have hne : t' ≠ t := by
      rintro rfl
      cases ht.symm.trans hb
    exact hi t' l' s' b (by rw [State.put_of_ne hne, hb])

/-- One access: the rest of the body is shorter, and nobody else has noticed. -/
theorem Refines.access (h : Refines P c a) (hinv : c.Inv P) {l : σ} {s : Section ι α σ}
    {write : (ι → α) → ι → α} {next : (ι → α) → Body (ι → α) σ}
    (ht : c.thread t = .inside l s (.access write next)) :
    Refines P ({ c with mem := write c.mem }.put t (.inside l s (next c.mem))) a := by
  have hwithin : (Body.access write next).Within s.mode s.locks := by
    have hf := hinv.follows t
    rw [ht] at hf
    exact hf.2
  have hself : ({ c with mem := write c.mem }.put t (.inside l s (next c.mem))).thread t =
      .inside l s (next c.mem) := State.put_self
  have hother : ∀ t', t' ≠ t →
      ({ c with mem := write c.mem }.put t (.inside l s (next c.mem))).thread t' = c.thread t' :=
    fun t' hne => State.put_of_ne hne
  constructor
  · intro t'
    have hl := h.loc t'
    rcases eq_or_ne t' t with rfl | hne
    · rw [hself]
      rw [ht] at hl
      exact hl
    · rw [hother t' hne]
      exact hl
  · intro t' l' s' b hb
    rcases eq_or_ne t' t with rfl | hne
    · rw [hself] at hb
      cases hb
      exact h.inside t' l s _ ht
    · rw [hother t' hne] at hb
      have hb' : b.Within s'.mode s'.locks := by
        have hf := hinv.follows t'
        rw [hb] at hf
        exact hf.2
      -- the access leaves alone what the other thread has locked
      have hagree : Body.Agree s'.locks (write c.mem) c.mem := fun i hi =>
        hwithin.1 c.mem i (hinv.disjoint hne.symm ht hb hi)
      have hrun := Body.run_congr hb' hagree
      have hold := h.inside t' l' s' b hb
      exact ⟨hrun.1.trans hold.1, hrun.2.trans hold.2⟩
  · intro i hi
    have hti := hi t l s (next c.mem) hself
    refine (hwithin.1 c.mem i hti).trans (h.cells i fun t' l' s' b hb => ?_)
    rcases eq_or_ne t' t with rfl | hne
    · cases ht.symm.trans hb
      exact hti
    · exact hi t' l' s' b ((hother t' hne).trans hb)

/-- The body of a section is through: this is where the section is one step. -/
theorem Refines.commit (h : Refines P c a) (hinv : c.Inv P) {l l' : σ} {s : Section ι α σ}
    (ht : c.thread t = .inside l s (.done l')) :
    P.next (a.loc t) = some s ∧
      Refines P (c.put t (.unlocking l' s s.locks.reverse))
        { mem := (s.body.run a.mem).2, loc := Function.update a.loc t (s.body.run a.mem).1 } := by
  have hnext : P.next l = some s := by
    have hf := hinv.follows t
    rw [ht] at hf
    exact hf.1
  have hloc : a.loc t = l := by
    have hl := h.loc t
    rw [ht] at hl
    exact hl.symm
  obtain ⟨hret, hagree⟩ := h.inside t l s _ ht
  refine ⟨hloc ▸ hnext, ?_, ?_, ?_⟩
  · intro t'
    rcases eq_or_ne t' t with rfl | hne
    · rw [State.put_self]
      simp only [Function.update_self]
      exact hret
    · rw [State.put_of_ne hne]
      simp only [Function.update_of_ne hne]
      exact h.loc t'
  · intro t' k s' b hb
    rcases eq_or_ne t' t with rfl | hne
    · rw [State.put_self] at hb
      cases hb
    · rw [State.put_of_ne hne] at hb
      have hold := h.inside t' k s' b hb
      -- what the section has written is not locked by the other thread
      have hframe : Body.Agree s'.locks a.mem (s.body.run a.mem).2 := fun i hi =>
        (Body.run_frame s.within a.mem (hinv.disjoint hne.symm ht hb hi)).symm
      have hrun := Body.run_congr s'.within hframe
      exact ⟨hold.1.trans hrun.1, hold.2.trans hrun.2⟩
  · intro i hi
    by_cases hti : s.mode = .read ∨ i ∉ s.locks
    · refine Eq.trans ?_ (Body.run_frame s.within a.mem hti).symm
      refine h.cells i fun t' k s' b hb => ?_
      rcases eq_or_ne t' t with rfl | hne
      · cases ht.symm.trans hb
        exact hti
      · exact hi t' k s' b (by rw [State.put_of_ne hne, hb])
    · rw [not_or, not_not] at hti
      exact hagree i hti.2

/-- **One step of the threads is one step of the sections or none.** -/
theorem Refines.step {x : Action τ σ} (h : Refines P c a) (hinv : c.Inv P)
    (hs : Step P c x c') :
    (x.atomic = none ∧ Refines P c' a) ∨
      ∃ y a', x.atomic = some y ∧ Atomic.Step P a y a' ∧ Refines P c' a' := by
  have hsame : ∀ (t : τ) (p : Phase ι α σ), p.loc = (c.thread t).loc →
      a.loc = Function.update a.loc t p.loc := fun t p hp => by
    rw [hp, h.loc t, Function.update_eq_self]
  cases hs with
  | @call t l l' ht hn hl =>
    have hloc : a.loc t = l := by
      have hl := h.loc t
      rw [ht] at hl
      exact hl.symm
    refine Or.inr ⟨_, _, rfl, Atomic.Step.call (t := t) (hloc ▸ hn) hl, ?_⟩
    exact h.quiet rfl rfl rfl rfl (by simp) (by simp [ht])
  | @enter t l s ht hn =>
    exact Or.inl ⟨rfl, h.quiet rfl rfl rfl (hsame t _ (by rw [ht]; rfl)) (by simp) (by simp [ht])⟩
  | @rLock t l s held todo i ht hm hw =>
    exact Or.inl ⟨rfl, h.quiet rfl rfl rfl (hsame t _ (by rw [ht]; rfl)) (by simp) (by simp [ht])⟩
  | @announce t l s held todo i ht hm hw =>
    exact Or.inl ⟨rfl, h.quiet rfl rfl rfl (hsame t _ (by rw [ht]; rfl)) (by simp) (by simp [ht])⟩
  | @lock t l s held todo i ht hr =>
    exact Or.inl ⟨rfl, h.quiet rfl rfl rfl (hsame t _ (by rw [ht]; rfl)) (by simp) (by simp [ht])⟩
  | start ht => exact Or.inl ⟨rfl, h.start hinv ht⟩
  | access ht => exact Or.inl ⟨rfl, h.access hinv ht⟩
  | @commit t l l' s ht =>
    obtain ⟨hn, href⟩ := h.commit hinv ht
    exact Or.inr ⟨_, _, rfl, Atomic.Step.perform hn, href⟩
  | @unlock t l s held i ht =>
    exact Or.inl ⟨rfl, h.quiet rfl rfl rfl (hsame t _ (by rw [ht]; rfl)) (by simp) (by simp [ht])⟩
  | @leave t l s ht =>
    exact Or.inl ⟨rfl, h.quiet rfl rfl rfl (hsame t _ (by rw [ht]; rfl)) (by simp) (by simp [ht])⟩

/-- **A run of the threads is a run of the sections**, each taken when its body is through. -/
theorem Refines.run {l : List (Action τ σ)} (h : Refines P c a) (hinv : c.Inv P)
    (hr : Run (Step P) c l c') :
    ∃ a', Run (Atomic.Step P) a (l.filterMap Action.atomic) a' ∧ Refines P c' a' := by
  induction hr generalizing a with
  | nil s => exact ⟨a, Run.nil a, h⟩
  | @cons c d e x l h1 _ ih =>
    rcases h.step hinv h1 with ⟨hx, hd⟩ | ⟨y, b, hx, hb, hd⟩
    · rw [List.filterMap_cons_none hx]
      exact ih hd (hinv.step h1)
    · obtain ⟨a', hrun, ha'⟩ := ih hd (hinv.step h1)
      rw [List.filterMap_cons_some hx]
      exact ⟨a', Run.cons hb hrun, ha'⟩

omit [DecidableEq τ] in
/-- When no thread is inside a section the two memories are the same. -/
theorem Refines.mem_eq (h : Refines P c a) (hq : ∀ t l s b, c.thread t ≠ .inside l s b) :
    c.mem = a.mem :=
  funext fun i => h.cells i fun t l s b hb => absurd hb (hq t l s b)

/-! ### Two accesses at once -/

omit [DecidableEq τ] in
/-- **Two accesses that can both come next can come in either order**, and neither has any
influence on what the other one reads. -/
theorem State.Inv.commute (h : c.Inv P) (hne : t ≠ t') {l l' : σ} {s s' : Section ι α σ}
    {write write' : (ι → α) → ι → α} {next next' : (ι → α) → Body (ι → α) σ}
    (ht : c.thread t = .inside l s (.access write next))
    (ht' : c.thread t' = .inside l' s' (.access write' next')) :
    write (write' c.mem) = write' (write c.mem) ∧ next (write' c.mem) = next c.mem ∧
      next' (write c.mem) = next' c.mem := by
  have hw : (Body.access write next).Within s.mode s.locks := by
    have hf := h.follows t
    rw [ht] at hf
    exact hf.2
  have hw' : (Body.access write' next').Within s'.mode s'.locks := by
    have hf := h.follows t'
    rw [ht'] at hf
    exact hf.2
  have hagree : Body.Agree s.locks (write' c.mem) c.mem := fun i hi =>
    hw'.1 c.mem i (h.disjoint hne.symm ht' ht hi)
  have hagree' : Body.Agree s'.locks (write c.mem) c.mem := fun i hi =>
    hw.1 c.mem i (h.disjoint hne ht ht' hi)
  refine ⟨funext fun i => ?_, (hw.2.1 _ _ hagree).2, (hw'.2.1 _ _ hagree').2⟩
  by_cases hi : i ∈ s.locks
  · -- the other thread leaves this cell alone, before and after
    have hfree := h.disjoint hne.symm ht' ht hi
    exact ((hw.2.1 _ _ hagree).1 i hi).trans (hw'.1 (write c.mem) i hfree).symm
  · refine (hw.1 (write' c.mem) i (Or.inr hi)).trans ?_
    by_cases hi' : i ∈ s'.locks
    · exact ((hw'.2.1 _ _ hagree').1 i hi').symm
    · rw [hw'.1 c.mem i (Or.inr hi'), hw'.1 (write c.mem) i (Or.inr hi'), hw.1 c.mem i (Or.inr hi)]

end Locking
