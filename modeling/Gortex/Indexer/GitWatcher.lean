import Gortex.Indexer.Convergence
import Gortex.Indexer.NameStatus

/-!
# The git watcher

`internal/indexer/git_watcher.go`. When git moves and fsnotify reports it, a timer is armed; when it
fires, a callback on its own goroutine asks git for the commit that is checked out and for the
names of the files that differ from the commit it has seen last, evicts or indexes them one by
one, resolves once, and records the commit. Nothing keeps two callbacks apart: a step of the
watcher is one step of one callback, and a file is patched step by step, as by the watcher of
the files (`Gortex.Patch.next`).

What git says is a parameter (`Gortex.GitRepo`): the working tree of a commit, and the output of
`git diff --name-status`, which `Gortex.Indexer.parseDiffNameStatus` reads. A command of git may
fail. `Start` watches the file `HEAD`, which git replaces, `packed-refs`, and `refs/heads` without
the directories below it, so not every move is reported: whether one is, is left open. Timeouts, the
number of files patched and the discovery of the directory of git are left out.
-/

namespace Gortex

open GoPath Graph Indexer

/-! ### What git says -/

/-- **A repository**: the working tree of a commit, the output of the diff of two commits, and
the text of a path. -/
structure GitRepo where
  tree : String → Disk
  diff : String → String → Bytes
  text : Bytes → String

namespace GitRepo

variable (git : GitRepo) {root : String}

/-- The file that a path of a change names. -/
def file (path : Bytes) : Option (TreePath root) :=
  let p := GoPath.join root (git.text path)
  if h : IsClean p ∧ isAbs p = true ∧ Under root p then some ⟨p, h⟩ else none

/-- The file is to be evicted. -/
def evicts (path : Bytes) : List (TreePath root × ChangeKind) :=
  ((git.file path).map fun f => (f, .deleted)).toList

/-- The file is to be indexed. -/
def indexes (path : Bytes) : List (TreePath root × ChangeKind) :=
  ((git.file path).map fun f => (f, .created)).toList

/-- **applyChanges**, one change: the files to be evicted and to be indexed, in order. -/
def patches (c : GitChange) : List (TreePath root × ChangeKind) :=
  if c.status = 65 ∨ c.status = 77 ∨ c.status = 84 then git.indexes c.path
  else if c.status = 68 then git.evicts c.path
  else if c.status = 82 then
    (if c.oldPath ≠ [] then git.evicts c.oldPath else []) ++ git.indexes c.path
  else if c.status = 67 then git.indexes c.path
  else []

end GitRepo

/-! ### State -/

/-- Where a callback is: the step of `reconcile` it takes next. -/
inductive Reconcile (root : String)
  | check
  | head
  | last (new : String)
  | diff (old new : String)
  | apply (new : String) (rest : List (TreePath root × ChangeKind)) (patch : Option (Patch root))
  | resolve (new : String)
  | record (new : String)

/-- **The git watcher**, what git shows of the repository, and the store it writes. -/
structure GitWatcher (root : String) where
  indexer : Indexer
  store : Store
  /-- The commit that is checked out. -/
  head : String
  /-- Whether a rebase, a merge or a cherry-pick is in progress. -/
  rebasing : Bool := false
  /-- The number of events that are not handled yet. -/
  events : ℕ := 0
  timer : Bool := false
  lastSHA : String
  jobs : GoMap ℕ (Reconcile root) := ∅
  nextID : ℕ := 0

/-- A step: git moves, which is reported or not, an event is handled, the timer fires, or a callback
takes a step; or the command of git that it runs fails. -/
inductive GitAction
  | move (sha : String) (rebasing reported : Bool)
  | handle
  | fire
  | work (j : ℕ)
  | fail (j : ℕ)

/-- The action is the failure of a command. -/
def GitAction.isFailure : GitAction → Bool
  | .fail _ => true
  | _ => false

/-- Git moves, and an event reports it. -/
def GitAction.isReported : GitAction → Bool
  | .move _ _ reported => reported
  | _ => false

/-- A command fails, or git moves without an event. -/
def GitAction.isLost : GitAction → Bool
  | .fail _ => true
  | .move _ _ reported => !reported
  | _ => false

theorem GitAction.isLost_of_isFailure {a : GitAction} (h : a.isFailure = true) :
    a.isLost = true := by
  cases a with
  | fail j => rfl
  | _ => cases h

/-- **What is lost is made up for**: after a command that fails or a move without an event git
moves again, and this is reported. -/
def GitAction.madeUp : List GitAction → Bool
  | [] => true
  | a :: l => (!a.isLost || l.any isReported) && madeUp l

namespace GitWatcher

variable {root : String} (git : GitRepo) (ord : MapOrder) (w : GitWatcher root)

/-- The working tree. -/
def disk : Disk := git.tree w.head

/-- A callback goes on. -/
def setJob (j : ℕ) (job : Reconcile root) : GitWatcher root :=
  { w with jobs := w.jobs.insert j job }

/-- A callback returns. -/
def endJob (j : ℕ) : GitWatcher root := { w with jobs := w.jobs.erase j }

/-- A step of a patch. -/
def stepPatch (j : ℕ) (new : String) (rest : List (TreePath root × ChangeKind))
    (p : Patch root) : GitWatcher root :=
  let r := p.next ord (w.disk git) w.indexer w.store
  { w with
    indexer := r.1
    store := r.2.1 }.setJob j (.apply new rest r.2.2)

/-- **reconcile**, one step. -/
def work (j : ℕ) : Option (GitWatcher root) :=
  match w.jobs.lookup j with
  | none => none
  | some .check => some (if w.rebasing then w.endJob j else w.setJob j .head)
  | some .head => some (if w.head = "" then w.endJob j else w.setJob j (.last w.head))
  | some (.last new) =>
    some (if w.lastSHA = new then w.endJob j
      else if w.lastSHA = "" then w.setJob j (.record new)
      else w.setJob j (.diff w.lastSHA new))
  | some (.diff old new) =>
    some (w.setJob j
      (.apply new ((parseDiffNameStatus (git.diff old new)).flatMap git.patches) none))
  | some (.apply new rest (some p)) => some (w.stepPatch git ord j new rest p)
  | some (.apply new [] none) => some (w.setJob j (.resolve new))
  | some (.apply new ((f, kind) :: rest) none) =>
    some (w.setJob j (.apply new rest
      (if kind.isRemoval then some (Patch.start f kind false)
        else if ((w.disk git).stat f).isNone then none else some (Patch.start f kind false))))
  | some (.resolve new) =>
    some ({ w with store := resolveAll ord w.store }.setJob j (.record new))
  | some (.record new) => some ({ w with lastSHA := new }.endJob j)

/-- The command of a callback fails. -/
def fail (j : ℕ) : Option (GitWatcher root) :=
  match w.jobs.lookup j with
  | some .head => some (w.endJob j)
  | some (.diff _ _) => some (w.endJob j)
  | _ => none

/-- **One step.** -/
def step : GitAction → Option (GitWatcher root)
  | .move sha rebasing reported =>
    if sha = "" then none
    else some { w with
      head := sha
      rebasing := rebasing
      events := if reported then w.events + 1 else w.events }
  | .handle =>
    match w.events with
    | 0 => none
    | n + 1 => some { w with events := n, timer := true }
  | .fire =>
    if w.timer then some ({ w with
      timer := false
      nextID := w.nextID + 1 }.setJob w.nextID .check)
    else none
  | .work j => w.work git ord j
  | .fail j => w.fail j

/-- **An undisturbed step**: git does not move while a callback runs. -/
def StillStep (w : GitWatcher root) (a : GitAction) (w' : GitWatcher root) : Prop :=
  w.step git ord a = some w' ∧
    ∀ sha rebasing reported, a = .move sha rebasing reported → w.jobs.keys = []

/-! ### What a step can do -/

end GitWatcher

namespace Reconcile

variable {root : String}

/-- The patch that a callback is at. -/
def patch? : Reconcile root → Option (Patch root)
  | .apply _ _ p => p
  | _ => none

/-- The commit that a callback has read. -/
def new? : Reconcile root → Option String
  | .last new => some new
  | .diff _ new => some new
  | .apply new _ _ => some new
  | .resolve new => some new
  | .record new => some new
  | _ => none

/-- A callback that has begun to patch files. -/
def applies : Reconcile root → Bool
  | .apply _ _ _ => true
  | .resolve _ => true
  | .record _ => true
  | _ => false

/-- The files that a callback has left. -/
def rest : Reconcile root → List (TreePath root × ChangeKind)
  | .apply _ rest _ => rest
  | _ => []

end Reconcile

namespace GitWatcher

variable {root : String} (git : GitRepo) (ord : MapOrder) (w : GitWatcher root)

/-- **What a step can do.** -/
inductive Moves (w : GitWatcher root) : GitAction → GitWatcher root → Prop
  | move {sha : String} {rebasing reported : Bool} : sha ≠ "" →
    Moves w (.move sha rebasing reported) { w with
      head := sha
      rebasing := rebasing
      events := if reported then w.events + 1 else w.events }
  | handle {n : ℕ} : w.events = n + 1 → Moves w .handle { w with events := n, timer := true }
  | fire : w.timer = true → Moves w .fire ({ w with
    timer := false
    nextID := w.nextID + 1 }.setJob w.nextID .check)
  | leave {a : GitAction} {j : ℕ} {job : Reconcile root} : w.jobs.lookup j = some job →
    job.applies = false →
    (a.isFailure = true ∨ w.rebasing = true ∨ w.head = "" ∨ job.new? = some w.lastSHA) →
    Moves w a (w.endJob j)
  | go {j : ℕ} {job job' : Reconcile root} : w.jobs.lookup j = some job →
    job.applies = false → job'.applies = false →
    (∀ {sha}, job'.new? = some sha → sha = w.head ∨ job.new? = some sha) →
    (∀ {old new}, job' = .diff old new → old = w.lastSHA) → Moves w (.work j) (w.setJob j job')
  | first {j : ℕ} {new : String} : w.lastSHA = "" → Moves w (.work j) (w.setJob j (.record new))
  | begin {j : ℕ} {old new : String} : w.jobs.lookup j = some (.diff old new) →
    Moves w (.work j) (w.setJob j
      (.apply new ((parseDiffNameStatus (git.diff old new)).flatMap git.patches) none))
  | skip {j : ℕ} {new : String} {f : TreePath root} {kind : ChangeKind}
    {rest : List (TreePath root × ChangeKind)} :
    w.jobs.lookup j = some (.apply new ((f, kind) :: rest) none) → kind.isRemoval = false →
    (w.disk git).stat f = none → Moves w (.work j) (w.setJob j (.apply new rest none))
  | start {j : ℕ} {new : String} {f : TreePath root} {kind : ChangeKind}
    {rest : List (TreePath root × ChangeKind)} :
    w.jobs.lookup j = some (.apply new ((f, kind) :: rest) none) →
    Moves w (.work j) (w.setJob j (.apply new rest (some (Patch.start f kind false))))
  | patch {j : ℕ} {new : String} {rest : List (TreePath root × ChangeKind)} {p : Patch root} :
    w.jobs.lookup j = some (.apply new rest (some p)) →
    Moves w (.work j) (w.stepPatch git ord j new rest p)
  | applied {j : ℕ} {new : String} : w.jobs.lookup j = some (.apply new [] none) →
    Moves w (.work j) (w.setJob j (.resolve new))
  | resolve {j : ℕ} {new : String} : w.jobs.lookup j = some (.resolve new) →
    Moves w (.work j) ({ w with store := resolveAll ord w.store }.setJob j (.record new))
  | record {j : ℕ} {new : String} : w.jobs.lookup j = some (.record new) →
    Moves w (.work j) ({ w with lastSHA := new }.endJob j)

variable {git ord w} {w' : GitWatcher root} {a : GitAction} {l : List GitAction}

theorem moves_work {j : ℕ} (h : w.work git ord j = some w') : Moves git ord w (.work j) w' := by
  rw [work] at h
  split at h
  · cases h
  · rename_i hj
    cases h
    split
    · rename_i hr
      exact .leave hj rfl (Or.inr (Or.inl hr))
    · exact .go hj rfl rfl (fun hc => nomatch hc) fun hc => nomatch hc
  · rename_i hj
    cases h
    split
    · rename_i hh
      exact .leave hj rfl (Or.inr (Or.inr (Or.inl hh)))
    · exact .go hj rfl rfl (fun hc => Or.inl (Option.some.inj hc).symm) fun hc => nomatch hc
  · rename_i new hj
    cases h
    split
    · rename_i hl
      exact .leave hj rfl (Or.inr (Or.inr (Or.inr (congrArg some hl.symm))))
    · split
      · rename_i hl
        exact .first hl
      · refine .go hj rfl rfl (fun hc => Or.inr hc) fun hc => ?_
        cases hc
        rfl
  · rename_i old new hj
    cases h
    exact .begin hj
  · rename_i new rest p hj
    cases h
    exact .patch hj
  · rename_i new hj
    cases h
    exact .applied hj
  · rename_i new f kind rest hj
    cases h
    split
    · exact .start hj
    · rename_i hk
      split
      · rename_i hs
        exact .skip hj (by simpa using hk) (Option.isNone_iff_eq_none.mp hs)
      · exact .start hj
  · rename_i new hj
    cases h
    exact .resolve hj
  · rename_i new hj
    cases h
    exact .record hj

/-- **A step does one of these things.** -/
theorem moves (h : w.step git ord a = some w') : Moves git ord w a w' := by
  cases a with
  | move sha rebasing reported =>
    rw [step] at h
    split at h
    · cases h
    · rename_i hsha
      cases h
      exact .move hsha
  | handle =>
    rw [step] at h
    split at h
    · cases h
    · rename_i n hn
      cases h
      exact .handle hn
  | fire =>
    rw [step] at h
    split at h
    · rename_i ht
      cases h
      exact .fire ht
    · cases h
  | work j => exact moves_work h
  | fail j =>
    rw [step, fail] at h
    split at h
    · rename_i hj
      cases h
      exact .leave hj rfl (Or.inl rfl)
    · rename_i hj
      cases h
      exact .leave hj rfl (Or.inl rfl)
    · cases h

end GitWatcher

end Gortex
