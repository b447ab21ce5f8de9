import Gortex.Lib.Ledger
import Gortex.Lib.Run
import Gortex.Savings.Store

/-!
# Processes that share a savings file

The processes take the steps of `Open`, `AddObservation`, `Flush` and `Reset` in any
order. A flush holds the lock between its reading and its writing, so these are two
steps; it can fail before either. A reset takes no lock.

What the processes are for is the `Ledger`: an observation is posted, it is pending in
its process, and a flush that succeeds commits it. `Gortex.Savings.Refines` says that
the totals on the disk are what the committed entries amount to, and the deltas of a
process what it has pending. A step keeps this if it is `Gortex.Savings.System.Fresh`: a
flush that finds no file must not bring old totals back from the memory of its process.
-/

namespace Gortex.Savings

/-! ### The system -/

/-- Where a process is in a flush: `due` is an `AddObservation` that is about to flush. -/
inductive Phase
  | idle
  | due
  | writing (merged : SavingsFile)

/-- A process that has opened the file. -/
structure Process where
  store : Store
  phase : Phase

/-- The file, the process that holds its lock, and the processes. -/
structure System (ι : Type) where
  disk : OnDisk
  lock : Option ι := none
  procs : ι → Option Process

/-- What can happen. -/
inductive Action (ι : Type)
  | open (p : ι) (now : ℤ) (moved : Bool) (readErr : Option String)
  | observe (p : ι) (o : Observation) (now : ℤ)
  /-- A flush takes the lock, reads the file and merges. -/
  | read (p : ι) (now : ℤ) (moved : Bool)
  /-- The flush writes the file and releases the lock. -/
  | write (p : ι)
  /-- A flush fails. -/
  | fail (p : ι)
  | reset (p : ι) (now : ℤ) (removeErr : Option String)

namespace System

variable {ι : Type} [DecidableEq ι]

/-- Write the state of one process. -/
def setProc (σ : System ι) (p : ι) (x : Process) : System ι :=
  { σ with procs := fun q => if q = p then some x else σ.procs q }

/-- One step. -/
def step (ord : GoMap.RangeOrder Buckets) (path : String) (σ : System ι) :
    Action ι → Option (System ι)
  | .open p now moved readErr =>
    match σ.procs p with
    | some _ => none
    | none =>
      let r := openStore path σ.disk now moved readErr
      some ({ σ with disk := r.2.1 }.setProc p ⟨r.1, .idle⟩)
  | .observe p o now =>
    match σ.procs p with
    | some ⟨s, .idle⟩ =>
      let s := s.observe o now
      some (σ.setProc p ⟨s, if flushEvery ≤ s.pending then .due else .idle⟩)
    | _ => none
  | .read p now moved =>
    match σ.lock, σ.procs p with
    | none, some ⟨s, _⟩ =>
      let r := readFile σ.disk moved
      some ({ σ with disk := r.2, lock := some p }.setProc p ⟨s, .writing (s.merge ord r.1 now)⟩)
    | _, _ => none
  | .write p =>
    match σ.procs p with
    | some ⟨s, .writing merged⟩ =>
      some ({ σ with disk := .file merged, lock := none }.setProc p ⟨s.adopt merged, .idle⟩)
    | _ => none
  | .fail p =>
    match σ.procs p with
    | some ⟨s, .writing _⟩ => some ({ σ with lock := none }.setProc p ⟨s, .idle⟩)
    | some ⟨s, _⟩ => some (σ.setProc p ⟨s, .idle⟩)
    | none => none
  | .reset p now removeErr =>
    match σ.procs p with
    | some ⟨s, .idle⟩ =>
      let r := s.reset σ.disk now removeErr
      some ({ σ with disk := r.2.1 }.setProc p ⟨r.1, .idle⟩)
    | _ => none

/-- A step of a run. -/
def Step (ord : GoMap.RangeOrder Buckets) (path : String) (σ : System ι) (a : Action ι)
    (τ : System ι) : Prop :=
  σ.step ord path a = some τ

/-- The system before any process has opened the file. -/
def start (disk : OnDisk) : System ι where
  disk := disk
  procs := fun _ => none

/-- What the disk does not have of a process yet. -/
def deltaAt (σ : System ι) (p : ι) (scope : Scope) : Totals :=
  ((σ.procs p).map fun x => x.store.deltaAt scope).getD 0

omit [DecidableEq ι] in
theorem deltaAt_eq {σ : System ι} {p : ι} {x : Process} (h : σ.procs p = some x) (scope : Scope) :
    σ.deltaAt p scope = x.store.deltaAt scope := by
  rw [deltaAt, h]
  rfl

theorem procs_setProc (σ : System ι) (p q : ι) (x : Process) :
    (σ.setProc p x).procs q = if q = p then some x else σ.procs q := rfl

/-- **A flush no other step comes between** is the flush of the store. -/
theorem run_flush {ord : GoMap.RangeOrder Buckets} {path : String} {σ : System ι} {p : ι}
    {s : Store} {ph : Phase} (hs : s.path ≠ "") (hp : σ.procs p = some ⟨s, ph⟩)
    (hlock : σ.lock = none) (now : ℤ) (moved : Bool) :
    ∃ τ, Run (Step ord path) σ [.read p now moved, .write p] τ ∧ τ.lock = none ∧
      τ.disk = (s.flushLocked ord σ.disk now moved none).2.1 ∧
      τ.procs p = some ⟨(s.flushLocked ord σ.disk now moved none).1, .idle⟩ ∧
      ∀ q, q ≠ p → τ.procs q = σ.procs q := by
  let merged := s.merge ord (readFile σ.disk moved).1 now
  let ρ := { σ with disk := (readFile σ.disk moved).2, lock := some p }.setProc p
    ⟨s, .writing merged⟩
  have hread : σ.step ord path (.read p now moved) = some ρ := by
    simp only [step, hlock, hp]
    rfl
  have hwrite : ρ.step ord path (.write p) =
      some ({ ρ with disk := .file merged, lock := none }.setProc p ⟨s.adopt merged, .idle⟩) := by
    have hρ : ρ.procs p = some ⟨s, .writing merged⟩ := if_pos rfl
    simp only [step, hρ]
  refine ⟨_, Run.cons hread (Run.cons hwrite (Run.nil _)), rfl, ?_, ?_, fun q hq => ?_⟩
  · simp only [Store.flushLocked, if_neg hs]
    rfl
  · simp only [Store.flushLocked, if_neg hs]
    exact if_pos rfl
  · exact (if_neg hq).trans (if_neg hq)

/-- **AddObservation, if no other step comes between**, is the call of the step and the flush. -/
theorem run_addObservation {ord : GoMap.RangeOrder Buckets} {path : String} {σ : System ι} {p : ι}
    {s : Store} (hs : s.path ≠ "") (hp : σ.procs p = some ⟨s, .idle⟩) (hlock : σ.lock = none)
    (o : Observation) (now : ℤ) (moved : Bool) :
    ∃ l τ, Run (Step ord path) σ (.observe p o now :: l) τ ∧ τ.lock = none ∧
      τ.disk = (s.addObservation ord σ.disk o now moved none).2 ∧
      τ.procs p = some ⟨(s.addObservation ord σ.disk o now moved none).1, .idle⟩ ∧
      ∀ q, q ≠ p → τ.procs q = σ.procs q := by
  let ρ := σ.setProc p ⟨s.observe o now,
    if flushEvery ≤ (s.observe o now).pending then .due else .idle⟩
  have hobserve : Step ord path σ (.observe p o now) ρ := by
    simp only [Step, step, hp]
    rfl
  by_cases hfull : flushEvery ≤ (s.observe o now).pending
  · have hρ : ρ.procs p = some ⟨s.observe o now, .due⟩ := by
      rw [procs_setProc, if_pos rfl, if_pos hfull]
    have hpath : (s.observe o now).path ≠ "" := hs
    obtain ⟨τ, hrun, hfree, hdisk, hself, hother⟩ :=
      run_flush hpath hρ hlock now moved
    refine ⟨_, τ, .cons hobserve hrun, hfree, ?_, ?_, fun q hq => (hother q hq).trans (if_neg hq)⟩
    · rw [hdisk, Store.addObservation, if_pos hfull]
      rfl
    · rw [hself, Store.addObservation, if_pos hfull]
      rfl
  · refine ⟨[], ρ, .cons hobserve (.nil ρ), hlock, ?_, ?_, fun q hq => if_neg hq⟩
    · rw [Store.addObservation, if_neg hfull]
      rfl
    · rw [procs_setProc, if_pos rfl, if_neg hfull, Store.addObservation, if_neg hfull]

end System

end Gortex.Savings
