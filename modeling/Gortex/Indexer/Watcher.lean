import Gortex.Indexer.Index

/-!
# The watcher

`internal/indexer/watcher.go`. An event of the filesystem arms a timer for its path,
and another event of the path before it fires replaces the timer. When events come too
fast they are collected in a batch instead, which a timer of its own drains. The
callbacks of the timers run on their own goroutines: here each is a job, and a step
of the watcher is one step of one job, so that every interleaving is a run.

A patch of one file takes its steps one at a time, as the source does (evict, read the
disk, add, resolve); `Gortex.Patch.finish_callback` and `Gortex.Patch.finish_drain`
say that the steps in a row are the functions `patchGraph` and `patchGraphNoResolve`
of the source. What time decides, when a timer fires and whether events come too fast,
is left open. The events and the history the watcher publishes are left out.
-/

namespace Gortex

open GoPath

/-! ### Events and patches -/

/-- What happened to a file. -/
inductive ChangeKind
  | created
  | modified
  | deleted
  | renamed
deriving DecidableEq, Repr

/-- Whether the file is gone. -/
def ChangeKind.isRemoval : ChangeKind → Bool
  | deleted | renamed => true
  | created | modified => false

/-- The path of a file below the watched root, as the filesystem reports it. -/
abbrev TreePath (root : String) := {p : String // IsClean p ∧ isAbs p = true ∧ Under root p}

/-- What the watcher is set to. -/
structure WatchConfig where
  /-- Whether a path matches a pattern to be ignored. -/
  isExcluded : String → Bool := fun _ => false
  /-- The number of events in a window above which they are a storm; none if it is not
  positive. -/
  stormThreshold : ℤ := 0

/-- An event of the filesystem. -/
structure FsEvent (root : String) where
  name : TreePath root
  kind : ChangeKind

/-- Where a patch is: the step it takes next. -/
inductive Stage
  /-- The eviction before the file is indexed, or the only one of a removal. -/
  | evictFile
  | evict
  | read
  | add (result : ExtractionResult)
  | resolve
  | stat

/-- A patch of one file. -/
structure Patch (root : String) where
  path : TreePath root
  kind : ChangeKind
  /-- Whether it resolves the edges of the file: a patch of a batch does not. -/
  resolve : Bool
  stage : Stage

namespace Indexer

variable (idx : Indexer) (ord : MapOrder) (disk : Disk) (s : Store)

/-- **patchGraph** without its report: what a callback does to the graph. -/
def patchGraph (path : String) (kind : ChangeKind) : Indexer × Store :=
  match kind with
  | .created =>
    let r := idx.IndexFile ord disk s path
    (r.1, r.2.1)
  | .modified =>
    let r := idx.IndexFile ord disk (idx.evictFile ord s path) path
    (r.1, r.2.1)
  | .deleted | .renamed => (idx, idx.evictFile ord s path)

/-- **patchGraphNoResolve**: what a drain does to the graph for one path. -/
def patchGraphNoResolve (path : String) (kind : ChangeKind) : Indexer × Store :=
  match kind with
  | .created | .modified =>
    let r := idx.IndexFileNoResolve ord disk s path
    (r.1, r.2.1)
  | .deleted | .renamed => (idx, idx.evictFile ord s path)

end Indexer

namespace Patch

variable {root : String}

/-- A patch at its start; that of a callback evicts a file that was modified twice. -/
def start (path : TreePath root) (kind : ChangeKind) (resolve : Bool) : Patch root where
  path := path
  kind := kind
  resolve := resolve
  stage := if kind.isRemoval || (kind = .modified ∧ resolve) then .evictFile else .evict

/-- The next step of a patch, and where it is then, unless it is done. -/
def next (ord : MapOrder) (disk : Disk) (idx : Indexer) (s : Store) (p : Patch root) :
    Indexer × Store × Option (Patch root) :=
  let absPath := GoPath.abs disk.cwd p.path
  let relPath := idx.relPathOf p.path absPath
  match p.stage with
  | .evictFile =>
    (idx, idx.evictFile ord s p.path,
      if p.kind.isRemoval then none else some { p with stage := .evict })
  | .evict => (idx, Indexer.evictPath ord s (idx.prefixPath relPath), some { p with stage := .read })
  | .read =>
    match idx.extractFile disk absPath relPath with
    | .ok (some result) => (idx, s, some { p with stage := .add result })
    | _ => (idx, s, none)
  | .add result =>
    (idx, idx.addExtracted s result,
      some { p with stage := if p.resolve then .resolve else .stat })
  | .resolve =>
    (idx, { s with graph := (s.graph.resolveFile ord (idx.prefixPath relPath)).1 },
      some { p with stage := .stat })
  | .stat => (idx.recordMtime disk absPath relPath, s, none)

/-- A patch that takes its steps in a row, `fuel` of them at most. -/
def finish (ord : MapOrder) (disk : Disk) :
    (fuel : ℕ) → Indexer → Store → Option (Patch root) → Indexer × Store
  | _, idx, s, none => (idx, s)
  | 0, idx, s, some _ => (idx, s)
  | fuel + 1, idx, s, some p =>
    finish ord disk fuel (p.next ord disk idx s).1 (p.next ord disk idx s).2.1
      (p.next ord disk idx s).2.2

theorem finish_evict (ord : MapOrder) (disk : Disk) (idx : Indexer) (s : Store) (fuel : ℕ)
    (p : Patch root) (hp : p.stage = .evict) :
    finish ord disk (fuel + 5) idx s (some p) =
      ((idx.indexFile ord disk s p.path p.resolve).1,
        (idx.indexFile ord disk s p.path p.resolve).2.1) := by
  obtain ⟨path, kind, resolve, stage⟩ := p
  obtain rfl : stage = .evict := hp
  unfold Indexer.indexFile
  simp only [finish, next]
  cases idx.extractFile disk (GoPath.abs disk.cwd path)
      (idx.relPathOf path (GoPath.abs disk.cwd path)) with
  | error err => cases fuel <;> rfl
  | ok result =>
    cases result with
    | none => cases fuel <;> rfl
    | some result => cases resolve <;> cases fuel <;> rfl

/-- **The steps of a callback's patch in a row are `patchGraph`.** -/
theorem finish_callback (ord : MapOrder) (disk : Disk) (idx : Indexer) (s : Store)
    (path : TreePath root) (kind : ChangeKind) :
    finish ord disk 6 idx s (some (start path kind true)) = idx.patchGraph ord disk s path kind := by
  cases kind with
  | created => exact finish_evict ord disk idx s 1 _ rfl
  | modified => exact finish_evict ord disk idx (idx.evictFile ord s path) 0 ⟨path, _, _, _⟩ rfl
  | deleted => rfl
  | renamed => rfl

/-- **The steps of a drain's patch in a row are `patchGraphNoResolve`.** -/
theorem finish_drain (ord : MapOrder) (disk : Disk) (idx : Indexer) (s : Store)
    (path : TreePath root) (kind : ChangeKind) :
    finish ord disk 6 idx s (some (start path kind false)) =
      idx.patchGraphNoResolve ord disk s path kind := by
  cases kind with
  | created => exact finish_evict ord disk idx s 1 _ rfl
  | modified => exact finish_evict ord disk idx s 1 _ rfl
  | deleted => rfl
  | renamed => rfl

end Patch

/-! ### State -/

/-- A goroutine: a callback with its patch, a callback that has patched and is about to
clear the pending timer, a drain before it has its batch, and a drain with the paths
left and the patch of the one it is at. -/
inductive Job (root : String)
  | callback (p : Patch root)
  | cleanup (path : TreePath root)
  | takeBatch
  | drain (rest : List (TreePath root × ChangeKind)) (p : Option (Patch root))

/-- The watcher, the disk it watches and the store it writes. -/
structure Watcher (root : String) where
  disk : Disk
  indexer : Indexer
  store : Store
  /-- The events not handled yet, the oldest first. -/
  queue : List (FsEvent root) := []
  /-- The last timer of a path, as far as it is known. -/
  pending : GoMap (TreePath root) ℕ := ∅
  /-- The timers that are armed. -/
  timers : GoMap ℕ (TreePath root × ChangeKind) := ∅
  stormBatch : GoMap (TreePath root) ChangeKind := ∅
  stormActive : Bool := false
  /-- Whether the timer of the batch is armed. -/
  stormTimer : Bool := false
  jobs : GoMap ℕ (Job root) := ∅
  /-- The first number no timer and no job has had. -/
  nextID : ℕ := 0

/-- A step: a change on the disk, or something the watcher does. -/
inductive Action (root : String)
  | writeFile (path : TreePath root) (f : DiskFile)
  | removeFile (path : TreePath root) (rename : Bool)
  /-- The loop handles the oldest event. -/
  | handle (storm : Bool)
  /-- A timer fires. -/
  | fire (timer : ℕ)
  /-- The timer of the batch fires. -/
  | fireStorm
  /-- A job takes its next step; a drain takes the path at a place of its list. -/
  | work (job pick : ℕ)

namespace Watcher

variable {root : String} (cfg : WatchConfig) (ord : MapOrder) (w : Watcher root)

/-! ### Handling an event -/

/-- Whether the watcher takes an event: its path is not excluded, and it has a language
or is gone. -/
def takes (ev : FsEvent root) : Bool :=
  ¬cfg.isExcluded ev.name ∧
    ((w.indexer.registry.detectLanguage ev.name).isSome ∨ ev.kind.isRemoval)

/-- **shouldEnterStorm**: whether the answer `storm` is one it can give. The rate of the
events is left open. -/
def mayEnterStorm (storm : Bool) : Bool :=
  if cfg.stormThreshold ≤ 0 then !storm else !w.stormActive || storm

/-- The armed timers after the one pending for a path is stopped. -/
def stopPending (path : TreePath root) : GoMap ℕ (TreePath root × ChangeKind) :=
  match w.pending.lookup path with
  | some timer => w.timers.erase timer
  | none => w.timers

/-- **recordInStorm** puts a path into the batch. -/
def recordInStorm (path : TreePath root) (kind : ChangeKind) : Watcher root :=
  { w with
    stormActive := true
    timers := w.stopPending path
    pending := w.pending.erase path
    stormBatch := w.stormBatch.insert path kind
    stormTimer := true }

/-- Arm the timer of a path, in place of the one pending. -/
def debounce (path : TreePath root) (kind : ChangeKind) : Watcher root :=
  { w with
    timers := (w.stopPending path).insert w.nextID (path, kind)
    pending := w.pending.insert path w.nextID
    nextID := w.nextID + 1 }

/-- **handleEvent**. -/
def handleEvent (ev : FsEvent root) (storm : Bool) : Watcher root :=
  if w.takes cfg ev then
    if storm then w.recordInStorm ev.name ev.kind else w.debounce ev.name ev.kind
  else w

/-! ### Jobs -/

/-- Start a job. -/
def spawn (job : Job root) : Watcher root :=
  { w with
    jobs := w.jobs.insert w.nextID job
    nextID := w.nextID + 1 }

/-- A job goes on as another one. -/
def setJob (j : ℕ) (job : Job root) : Watcher root := { w with jobs := w.jobs.insert j job }

/-- A job is done. -/
def endJob (j : ℕ) : Watcher root := { w with jobs := w.jobs.erase j }

/-- The step of a job that patches, which goes on as `cont` says. -/
def stepPatch (j : ℕ) (p : Patch root) (cont : Option (Patch root) → Job root) : Watcher root :=
  let r := p.next ord w.disk w.indexer w.store
  { w with
    indexer := r.1
    store := r.2.1
    jobs := w.jobs.insert j (cont r.2.2) }

/-- A callback goes on with its patch, or clears the pending timer. -/
def callbackCont (path : TreePath root) : Option (Patch root) → Job root
  | some p => .callback p
  | none => .cleanup path

/-- **drainStorm** takes the batch. -/
def takeBatch (j : ℕ) : Watcher root :=
  let w' := { w with
    stormBatch := ∅
    stormActive := false }
  if w.stormBatch.keys = [] then w'.endJob j else w'.setJob j (.drain w.stormBatch.pairs none)

/-- The step a job takes. -/
def work (j pick : ℕ) : Option (Watcher root) :=
  match w.jobs.lookup j with
  | none => none
  | some (.callback p) => some (w.stepPatch ord j p (callbackCont p.path))
  | some (.cleanup path) => some ({ w with pending := w.pending.erase path }.endJob j)
  | some .takeBatch => some (w.takeBatch j)
  | some (.drain rest (some p)) => some (w.stepPatch ord j p (.drain rest))
  | some (.drain [] none) =>
    some ({ w with store := Indexer.resolveAll ord w.store }.endJob j)
  | some (.drain rest none) =>
    (rest[pick]?).map fun e =>
      w.setJob j (.drain (rest.eraseIdx pick) (some (Patch.start e.1 e.2 false)))

/-! ### Steps -/

/-- The disk changes, and an event is queued. -/
def change (path : TreePath root) (disk : Disk) (kind : ChangeKind) : Watcher root :=
  { w with
    disk := disk
    queue := w.queue ++ [⟨path, kind⟩] }

/-- **One step.** -/
def step : Action root → Option (Watcher root)
  | .writeFile path f =>
    some (w.change path (w.disk.write path ⟨path.2.1, path.2.2.1⟩ f)
      (if path.1 ∈ w.disk.files then .modified else .created))
  | .removeFile path rename =>
    if path.1 ∈ w.disk.files then
      some (w.change path (w.disk.remove path) (if rename then .renamed else .deleted))
    else none
  | .handle storm =>
    match w.queue with
    | [] => none
    | ev :: queue =>
      if w.mayEnterStorm cfg storm then some ({ w with queue := queue }.handleEvent cfg ev storm)
      else none
  | .fire timer =>
    (w.timers.lookup timer).map fun e =>
      { w with timers := w.timers.erase timer }.spawn (.callback (Patch.start e.1 e.2 true))
  | .fireStorm =>
    if w.stormTimer then some ({ w with stormTimer := false }.spawn .takeBatch) else none
  | .work j pick => w.work ord j pick

/-- The steps of the watcher, as a relation. -/
def Step (w : Watcher root) (a : Action root) (w' : Watcher root) : Prop :=
  w.step cfg ord a = some w'

end Watcher

end Gortex
