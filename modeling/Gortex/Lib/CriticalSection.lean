import Mathlib.Data.List.Basic
import Mathlib.Order.Basic

/-!
# Critical sections

What a thread does to shared cells while it holds the locks of some of them: one access to the
memory after the other, and what it does next depends on what it has read (`Body`). A body stays
within the locks it is run under if an access leaves every cell alone that is not locked for
writing, and neither what it writes nor what comes next depends on a cell that is not locked at
all (`Body.Within`).

Two memories that agree on the locked cells are the same to such a body: it returns the same and
they agree afterwards (`Body.run_congr`), and the other cells are as before (`Body.run_frame`).
-/

namespace Locking

variable {ι α ρ ρ' μ : Type*}

/-- What a lock is taken for. -/
inductive Mode
  | read
  | write
deriving DecidableEq, Repr

/-- What a thread does to a memory, one access after the other. -/
inductive Body (μ : Type*) (ρ : Type*)
  /-- Nothing more: the result. -/
  | done (r : ρ)
  /-- Write, and go on as what has been read says. -/
  | access (write : μ → μ) (next : μ → Body μ ρ)

namespace Body

/-- What a body returns, and the memory it leaves, when nothing comes between. -/
def run : Body μ ρ → μ → ρ × μ
  | done r, m => (r, m)
  | access write next, m => (next m).run (write m)

/-- One body and then another. -/
def bind : Body μ ρ → (ρ → Body μ ρ') → Body μ ρ'
  | done r, k => k r
  | access write next, k => access write fun m => (next m).bind k

/-- Read something of the memory. -/
def read (f : μ → ρ) : Body μ ρ := access id fun m => done (f m)

/-- Write the memory. -/
def modify (f : μ → μ) : Body μ Unit := access f fun _ => done ()

/-- A body for every entry of a list, with an accumulator. -/
def forEach {β : Type*} (f : ρ → β → Body μ ρ) : List β → ρ → Body μ ρ
  | [], r => done r
  | b :: l, r => (f r b).bind (forEach f l)

/-- A result that the body comes to in some run, with whatever is read at each access. -/
inductive Ends : Body μ ρ → ρ → Prop
  | done (r : ρ) : Ends (done r) r
  | access {write : μ → μ} {next : μ → Body μ ρ} {m : μ} {r : ρ} :
    Ends (next m) r → Ends (access write next) r

theorem ends_bind {b : Body μ ρ} {k : ρ → Body μ ρ'} {r' : ρ'} (h : (b.bind k).Ends r') :
    ∃ r, (k r).Ends r' := by
  induction b with
  | done r => exact ⟨r, h⟩
  | access w next ih =>
    cases h with
    | access h => exact ih _ h

@[simp] theorem run_access (w : μ → μ) (k : μ → Body μ ρ) (m : μ) :
    (access w k).run m = (k m).run (w m) := rfl

@[simp] theorem run_modify (f : μ → μ) (m : μ) : (modify f).run m = ((), f m) := rfl

@[simp] theorem run_bind (b : Body μ ρ) (k : ρ → Body μ ρ') (m : μ) :
    (b.bind k).run m = (k (b.run m).1).run (b.run m).2 := by
  induction b generalizing m with
  | done r => rfl
  | access w next ih => exact ih m (w m)

/-! ### The cells a body touches -/

/-- Two memories agree on the listed cells. -/
def Agree (locks : List ι) (m m' : ι → α) : Prop := ∀ i ∈ locks, m i = m' i

theorem Agree.trans {locks : List ι} {m m' m'' : ι → α} (h : Agree locks m m')
    (h' : Agree locks m' m'') : Agree locks m m'' :=
  fun i hi => (h i hi).trans (h' i hi)

/-- **A body within its locks**: no access writes a cell that is not locked for writing, or
depends on a cell that is not locked. -/
def Within (mode : Mode) (locks : List ι) : Body (ι → α) ρ → Prop
  | done _ => True
  | access write next =>
    (∀ m i, mode = .read ∨ i ∉ locks → write m i = m i) ∧
      (∀ m m', Agree locks m m' → Agree locks (write m) (write m') ∧ next m = next m') ∧
      ∀ m, (next m).Within mode locks

variable {mode : Mode} {locks : List ι} {b : Body (ι → α) ρ} {m m' : ι → α}

/-- **The other cells are as before.** -/
theorem run_frame (h : b.Within mode locks) (m : ι → α) {i : ι} (hi : mode = .read ∨ i ∉ locks) :
    (b.run m).2 i = m i := by
  induction b generalizing m with
  | done r => rfl
  | access w next ih =>
    obtain ⟨hw, -, hnext⟩ := h
    exact (ih m (hnext m) (w m)).trans (hw m i hi)

/-- **Only the locked cells matter** to a body: what it returns and how it leaves them. -/
theorem run_congr (h : b.Within mode locks) (hm : Agree locks m m') :
    (b.run m).1 = (b.run m').1 ∧ Agree locks (b.run m).2 (b.run m').2 := by
  induction b generalizing m m' with
  | done r => exact ⟨rfl, hm⟩
  | access w next ih =>
    obtain ⟨-, hcongr, hnext⟩ := h
    obtain ⟨hw, hn⟩ := hcongr m m' hm
    rw [run_access, run_access, ← hn]
    exact ih m (hnext m) hw

theorem within_read {f : (ι → α) → ρ} (h : ∀ m m', Agree locks m m' → f m = f m') :
    (read f).Within mode locks :=
  ⟨fun _ _ _ => rfl, fun m m' hm => ⟨hm, congrArg done (h m m' hm)⟩, fun _ => trivial⟩

theorem within_modify {f : (ι → α) → ι → α} (hw : ∀ m i, mode = .read ∨ i ∉ locks → f m i = m i)
    (hc : ∀ m m', Agree locks m m' → Agree locks (f m) (f m')) :
    (modify f).Within mode locks :=
  ⟨hw, fun m m' hm => ⟨hc m m' hm, rfl⟩, fun _ => trivial⟩

theorem Within.bind {k : ρ → Body (ι → α) ρ'} (hb : b.Within mode locks)
    (hk : ∀ r, (k r).Within mode locks) : (b.bind k).Within mode locks := by
  induction b with
  | done r => exact hk r
  | access w next ih =>
    obtain ⟨hw, hcongr, hnext⟩ := hb
    exact ⟨hw, fun m m' hm => ⟨(hcongr m m' hm).1, congrArg (Body.bind · k) (hcongr m m' hm).2⟩,
      fun m => ih m (hnext m)⟩

/-- Whatever is done under the write locks of all cells is within them. -/
theorem within_of_all (hall : ∀ i, i ∈ locks) (b : Body (ι → α) ρ) : b.Within .write locks := by
  induction b with
  | done r => trivial
  | access w next ih =>
    refine ⟨fun m i hi => ?_, fun m m' hm => ?_, ih⟩
    · rcases hi with hi | hi
      · cases hi
      · exact absurd (hall i) hi
    · obtain rfl : m = m' := funext fun i => hm i (hall i)
      exact ⟨fun _ _ => rfl, rfl⟩

end Body

/-- **A critical section**: the locks in the order in which they are taken, which is that of the
cells, and what is done under them. -/
structure Section (ι α σ : Type*) [LT ι] where
  mode : Mode
  locks : List ι
  body : Body (ι → α) σ
  sorted : locks.Pairwise (· < ·)
  within : body.Within mode locks

end Locking
