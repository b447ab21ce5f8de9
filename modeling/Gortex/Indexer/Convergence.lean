import Gortex.Indexer.Nodes
import Gortex.Indexer.Watcher
import Gortex.Lib.Run

/-!
# The watcher and the disk

Does the graph follow the disk? A file is *synced* if the nodes of its path are what its
extraction gives now, and a path is *waiting* if a change of it is queued, timed or in a
batch. Every path is followed, `Gortex.Watcher.Tracks`: it is waiting, or the patch of it
that is under way will sync it, or there is none and it is synced. This holds of the runs
whose steps are orderly, `Gortex.Watcher.Orderly`, and not of all of them: nothing in the
watcher keeps two patches of a path apart, and a patch that has read the file before a
change can add its nodes after the one that has read it since.
-/

namespace Gortex

open GoPath Graph

variable {root : String}

/-! ### What is under way -/

namespace Indexer

/-- The path of a watched file in the graph. -/
def treePath (idx : Indexer) (f : TreePath root) : String := idx.prefixPath (idx.relPathOf f f)

variable {idx idx' : Indexer}

theorem Alike.treePath (h : Alike idx idx') (f : TreePath root) :
    idx'.treePath f = idx.treePath f := by
  rw [Indexer.treePath, Indexer.treePath, h.relPathOf, h.prefixPath]

theorem relPathOf_inj (hroot : idx.rootPath = root) {f f' : TreePath root}
    (h : idx.relPathOf f f = idx.relPathOf f' f') : f = f' := by
  obtain ⟨f, hc, ha, hu⟩ := f
  obtain ⟨f', hc', ha', hu'⟩ := f'
  obtain ⟨ws, -, hrel⟩ := hu.rel_eq
  obtain ⟨ws', -, hrel'⟩ := hu'.rel_eq
  simp only [relPathOf, hroot, hrel, hrel'] at h
  exact Subtype.ext (rel_inj hc hc' hu hu' (by rw [hrel, hrel', h]))

/-- Different files have different paths in the graph. -/
theorem treePath_inj (hroot : idx.rootPath = root) {f f' : TreePath root}
    (h : idx.treePath f = idx.treePath f') : f = f' :=
  relPathOf_inj hroot (prefixPath_inj h)

end Indexer

/-- The patch has not written all its nodes yet. -/
def Patch.writes (p : Patch root) : Bool :=
  match p.stage with
  | .evictFile | .evict | .read | .add _ => true
  | .resolve | .stat => false

namespace Job

/-- The patch a job is at. -/
def patch? : Job root → Option (Patch root)
  | callback p => some p
  | drain _ p => p
  | cleanup _ | takeBatch => none

/-- The paths a job has left. -/
def rest : Job root → List (TreePath root × ChangeKind)
  | drain rest _ => rest
  | callback _ | cleanup _ | takeBatch => []

end Job

/-- The action changes the file on the disk. -/
def Action.changes (f : TreePath root) : Action root → Prop
  | .writeFile path _ | .removeFile path _ => path = f
  | _ => False

namespace Watcher

variable (w : Watcher root)

/-- The patch the job of a number is at. -/
def patchAt (j : ℕ) : Option (Patch root) := (w.jobs.lookup j).bind Job.patch?

/-- The paths the job of a number has left. -/
def restAt (j : ℕ) : List (TreePath root × ChangeKind) := ((w.jobs.lookup j).map Job.rest).getD []

/-- A change of the path waits to be patched. -/
def Waiting (f : TreePath root) : Prop :=
  (∃ ev ∈ w.queue, ev.name = f) ∨ (∃ t e, w.timers.lookup t = some e ∧ e.1 = f) ∨
    f ∈ w.stormBatch ∨ ∃ j, ∃ e ∈ w.restAt j, e.1 = f

/-- A patch of the path is under way that has nodes to write. -/
def Writing (f : TreePath root) : Prop := ∃ j p, w.patchAt j = some p ∧ p.path = f ∧ p.writes

/-- **The graph has exactly the nodes the extraction of the file gives now**, none if it
is not there. -/
def Synced (f : TreePath root) : Prop :=
  w.store.graph.nodesIn (w.indexer.treePath f) =
    w.indexer.extractedNodes w.disk f (w.indexer.relPathOf f f)

/-- The patch will sync its path, if the disk does not change. -/
def Fresh (p : Patch root) : Prop :=
  match p.stage with
  | .evictFile => p.kind.isRemoval → p.path.1 ∉ w.disk.files
  | .evict => True
  | .read => w.store.graph.nodesIn (w.indexer.treePath p.path) = ∅
  | .add result => w.store.graph.nodesIn (w.indexer.treePath p.path) = ∅ ∧
      w.indexer.extractFile w.disk p.path (w.indexer.relPathOf p.path p.path) = .ok (some result)
  | .resolve | .stat => True

/-- What is under way syncs the path, and if nothing is, it is synced. -/
structure Settled (f : TreePath root) : Prop where
  fresh : ∀ j p, w.patchAt j = some p → p.path = f → p.writes → w.Fresh p
  synced : ¬w.Writing f → w.Synced f

/-- **The path is followed.** -/
def Tracks (f : TreePath root) : Prop := w.Waiting f ∨ w.Settled f

/-- Nothing is left to do: every callback that was started has finished. -/
structure Quiescent : Prop where
  queue : w.queue = []
  timers : w.timers.keys = []
  stormBatch : w.stormBatch.keys = []
  jobs : w.jobs.keys = []

/-! ### Orderly runs -/

/-- The patch a step starts. -/
def starts : Action root → Option (TreePath root × ChangeKind)
  | .fire timer => w.timers.lookup timer
  | .work j pick =>
    match w.jobs.lookup j with
    | some (.drain rest none) => rest[pick]?
    | _ => none
  | _ => none

/-- **An orderly step.** A patch starts only when no other patch of its path has nodes to
write, and one of a removal only if the file is not on the disk, or another change of it
waits. -/
def Orderly (a : Action root) (w' : Watcher root) : Prop :=
  ∀ e, w.starts a = some e → ¬w.Writing e.1 ∧
    (e.2.isRemoval → e.1.1 ∈ w.disk.files → w'.Waiting e.1)

variable (cfg : WatchConfig) (ord : MapOrder)

/-- The orderly steps of the watcher. -/
def OrderlyStep (w : Watcher root) (a : Action root) (w' : Watcher root) : Prop :=
  Step cfg ord w a w' ∧ w.Orderly a w'

/-- What does not depend on the schedule. -/
structure Sane (base : Indexer) (w : Watcher root) : Prop where
  weak : Weak w.store.graph
  alike : Indexer.Alike base w.indexer
  jobs_lt : ∀ j job, w.jobs.lookup j = some job → j < w.nextID
  timers_lt : ∀ t e, w.timers.lookup t = some e → t < w.nextID
  pending_lt : ∀ f t, w.pending.lookup f = some t → t < w.nextID
  /-- The timer pending for a path is one of the path. -/
  pending_path : ∀ f t e, w.pending.lookup f = some t → w.timers.lookup t = some e → e.1 = f
  /-- What a patch is about to add was extracted from its file. -/
  genuine : ∀ j p result, w.patchAt j = some p → p.stage = .add result →
    ∃ disk, base.extractFile disk p.path (base.relPathOf p.path p.path) = .ok (some result)

/-- At most one patch of a path has nodes to write. -/
def Single : Prop :=
  ∀ i j p q, w.patchAt i = some p → w.patchAt j = some q → p.path = q.path → p.writes →
    q.writes → i = j

/-! ### Jobs -/

variable {w} {w' : Watcher root} {f : TreePath root}

theorem patchAt_insert {j : ℕ} {job : Job root} (h : w'.jobs = w.jobs.insert j job) (i : ℕ) :
    w'.patchAt i = if i = j then job.patch? else w.patchAt i := by
  rw [patchAt, patchAt, h, GoMap.lookup_insert]
  split <;> rfl

theorem restAt_insert {j : ℕ} {job : Job root} (h : w'.jobs = w.jobs.insert j job) (i : ℕ) :
    w'.restAt i = if i = j then job.rest else w.restAt i := by
  rw [restAt, restAt, h, GoMap.lookup_insert]
  split <;> rfl

theorem patchAt_erase {j : ℕ} (h : w'.jobs = w.jobs.erase j) (i : ℕ) :
    w'.patchAt i = if i = j then none else w.patchAt i := by
  rw [patchAt, patchAt, h, GoMap.lookup_erase]
  split <;> rfl

theorem restAt_erase {j : ℕ} (h : w'.jobs = w.jobs.erase j) (i : ℕ) :
    w'.restAt i = if i = j then [] else w.restAt i := by
  rw [restAt, restAt, h, GoMap.lookup_erase]
  split <;> rfl

theorem patchAt_of_lookup {j : ℕ} {job : Job root} (h : w.jobs.lookup j = some job) :
    w.patchAt j = job.patch? := by
  rw [patchAt, h]
  rfl

theorem restAt_of_lookup {j : ℕ} {job : Job root} (h : w.jobs.lookup j = some job) :
    w.restAt j = job.rest := by
  rw [restAt, h]
  rfl

/-! ### Frames -/

/-- Nothing that concerns the path has changed in the graph, the indexer and on the
disk. -/
structure SameFor (f : TreePath root) (w w' : Watcher root) : Prop where
  nodes : w'.store.graph.nodesIn (w'.indexer.treePath f) =
    w.store.graph.nodesIn (w.indexer.treePath f)
  alike : Indexer.Alike w.indexer w'.indexer
  extract : ∀ rel, w'.indexer.extractFile w'.disk f rel = w.indexer.extractFile w.disk f rel
  mem : f.1 ∈ w'.disk.files ↔ f.1 ∈ w.disk.files

theorem SameFor.of_eq (hd : w'.disk = w.disk) (hi : w'.indexer = w.indexer)
    (hs : w'.store = w.store) : SameFor f w w' :=
  ⟨by rw [hi, hs], hi ▸ Indexer.Alike.refl _, fun _ => by rw [hi, hd], by rw [hd]⟩

theorem SameFor.synced (h : SameFor f w w') : w'.Synced f ↔ w.Synced f := by
  unfold Synced Indexer.extractedNodes
  rw [h.nodes, h.alike.relPathOf, h.extract]

theorem SameFor.fresh {p : Patch root} (h : SameFor p.path w w') : w'.Fresh p ↔ w.Fresh p := by
  unfold Fresh
  cases p.stage with
  | evictFile => exact imp_congr_right fun _ => not_congr h.mem
  | read =>
    simp only
    rw [h.nodes]
  | add result =>
    simp only
    rw [h.nodes, h.alike.relPathOf, h.extract]
  | evict => exact Iff.rfl
  | resolve => exact Iff.rfl
  | stat => exact Iff.rfl

/-- A path stays settled under what keeps its patches, and their being fresh, and its
being synced. -/
theorem Settled.frame (h : w.Settled f) (hfresh : ∀ p, p.path = f → w.Fresh p → w'.Fresh p)
    (hsynced : w.Synced f → w'.Synced f)
    (hp : ∀ j p, p.path = f → p.writes → (w'.patchAt j = some p ↔ w.patchAt j = some p)) :
    w'.Settled f where
  fresh := fun j p hj hf hw => hfresh p hf (h.fresh j p ((hp j p hf hw).mp hj) hf hw)
  synced := fun hno => hsynced (h.synced fun ⟨j, p, hj, hf, hw⟩ =>
    hno ⟨j, p, (hp j p hf hw).mpr hj, hf, hw⟩)

theorem Settled.of_same (h : w.Settled f) (hsame : SameFor f w w')
    (hp : ∀ j p, p.path = f → p.writes → (w'.patchAt j = some p ↔ w.patchAt j = some p)) :
    w'.Settled f :=
  h.frame (fun p hf hfr => by
    subst hf
    exact hsame.fresh.mpr hfr) hsame.synced.mpr hp

/-! ### One step of a patch -/

section next

variable (idx : Indexer) (disk : Disk) (s : Store) (p : Patch root)

theorem abs_treePath (f : TreePath root) : GoPath.abs disk.cwd f = f.1 :=
  disk.abs_eq f.2.1 f.2.2.1

theorem evictFile_treePath (f : TreePath root) :
    idx.evictFile ord s f = Indexer.evictPath ord s (idx.treePath f) := rfl

theorem alike_next : Indexer.Alike idx (p.next ord disk idx s).1 := by
  unfold Patch.next
  cases p.stage with
  | read =>
    simp only
    split <;> exact Indexer.Alike.refl idx
  | stat => exact Indexer.alike_recordMtime ..
  | evictFile => exact Indexer.Alike.refl idx
  | evict => exact Indexer.Alike.refl idx
  | add result => exact Indexer.Alike.refl idx
  | resolve => exact Indexer.Alike.refl idx

theorem weak_next (h : Weak s.graph) : Weak (p.next ord disk idx s).2.1.graph := by
  unfold Patch.next
  cases p.stage with
  | evictFile => exact Indexer.weak_evictPath h ord _
  | evict => exact Indexer.weak_evictPath h ord _
  | read =>
    simp only
    split <;> exact h
  | add result => exact Indexer.weak_addResult h result
  | resolve => exact (Quiet.resolveFile ord _ _).weak h
  | stat => exact h

/-- A patch stays at its path, and does not begin to write again. -/
theorem path_next {p' : Patch root} (h : (p.next ord disk idx s).2.2 = some p') :
    p'.path = p.path ∧ (p'.writes → p.writes) := by
  unfold Patch.next at h
  cases hst : p.stage <;> simp only [hst] at h
  case evictFile =>
    split at h
    · cases h
    · cases h
      exact ⟨rfl, fun _ => by rw [Patch.writes, hst]⟩
  case read =>
    split at h
    · cases h
      exact ⟨rfl, fun _ => by rw [Patch.writes, hst]⟩
    · cases h
  case evict =>
    cases h
    exact ⟨rfl, fun _ => by rw [Patch.writes, hst]⟩
  case add result =>
    cases h
    exact ⟨rfl, fun _ => by rw [Patch.writes, hst]⟩
  case resolve =>
    cases h
    exact ⟨rfl, fun hw => by simp [Patch.writes] at hw⟩
  case stat => cases h

/-- What a patch is about to add, it has just read. -/
theorem genuine_next {p' : Patch root} {result : ExtractionResult}
    (h : (p.next ord disk idx s).2.2 = some p') (hadd : p'.stage = .add result) :
    idx.extractFile disk p.path (idx.relPathOf p.path p.path) = .ok (some result) := by
  unfold Patch.next at h
  simp only [abs_treePath] at h
  cases hst : p.stage <;> simp only [hst] at h
  case evictFile =>
    split at h
    · cases h
    · cases h
      cases hadd
  case read =>
    split at h
    · rename_i res hres
      cases h
      cases hadd
      exact hres
    · cases h
  case evict =>
    cases h
    cases hadd
  case add =>
    cases h
    simp only at hadd
    split at hadd <;> cases hadd
  case resolve =>
    cases h
    cases hadd
  case stat => cases h

/-- Another path keeps its nodes, unless an ID of theirs is added. -/
theorem nodesIn_next_of_ne (h : Weak s.graph) {q : String} (hq : q ≠ idx.treePath p.path)
    (hadd : ∀ result, p.stage = .add result →
      (∀ n ∈ result.nodes, n.filePath = idx.treePath p.path) ∧
        ∀ n ∈ s.graph.nodesIn q, result.nodeAt n.id = none) :
    (p.next ord disk idx s).2.1.graph.nodesIn q = s.graph.nodesIn q := by
  unfold Patch.next
  simp only [abs_treePath]
  cases hst : p.stage with
  | evictFile => exact (Indexer.nodesIn_evictPath h ord _ q).trans (if_neg hq)
  | evict => exact (Indexer.nodesIn_evictPath h ord _ q).trans (if_neg hq)
  | read =>
    simp only
    split <;> rfl
  | add result =>
    exact Indexer.nodesIn_addResult_of_ne h.nodes (hadd result hst).1 hq (hadd result hst).2
  | resolve => exact (Quiet.resolveFile ord _ _).nodes.nodesIn q
  | stat => rfl

end next

/-- A file that is not on the disk gives no nodes. -/
theorem extractedNodes_of_notMem {idx : Indexer} {disk : Disk} {f : TreePath root}
    (h : f.1 ∉ disk.files) (rel : String) : idx.extractedNodes disk f rel = ∅ := by
  have hstat : disk.stat f = none := by
    rw [disk.stat_eq f.2.1 f.2.2.1]
    exact AList.lookup_eq_none.mpr h
  unfold Indexer.extractedNodes Indexer.extractFile
  rw [disk.readFile_of_stat_eq_none hstat]

theorem extractedNodes_of_some {idx : Indexer} {disk : Disk} {p rel : String}
    {res : ExtractionResult} (h : idx.extractFile disk p rel = .ok (some res)) :
    idx.extractedNodes disk p rel = res.nodeSet := by
  rw [Indexer.extractedNodes, h]

theorem extractedNodes_of_not_some {idx : Indexer} {disk : Disk} {p rel : String}
    (h : ∀ res, idx.extractFile disk p rel ≠ .ok (some res)) :
    idx.extractedNodes disk p rel = ∅ := by
  unfold Indexer.extractedNodes
  split
  · rename_i res hres
    exact absurd hres (h res)
  · rfl

/-- **A patch that will sync its path goes on so, until it has.** -/
theorem fresh_next (hreg : w.indexer.registry.Lawful) (hweak : Weak w.store.graph) {p : Patch root}
    (hwrites : p.writes) (hfresh : w.Fresh p) (hd : w'.disk = w.disk)
    (hi : w'.indexer = (p.next ord w.disk w.indexer w.store).1)
    (hs : w'.store = (p.next ord w.disk w.indexer w.store).2.1) :
    (∀ p', (p.next ord w.disk w.indexer w.store).2.2 = some p' → p'.writes → w'.Fresh p') ∧
      ((∀ p', (p.next ord w.disk w.indexer w.store).2.2 = some p' → ¬p'.writes) →
        w'.Synced p.path) := by
  obtain ⟨path, kind, resolve, stage⟩ := p
  unfold Patch.next at hi hs ⊢
  simp only [abs_treePath] at hi hs ⊢
  -- a patch that writes has evicted the nodes before it reads, and adds what it has read
  cases stage with
  | evictFile =>
    simp only at hi hs ⊢
    refine ⟨fun p' hp' _ => ?_, fun hno => ?_⟩
    · split at hp'
      · cases hp'
      · cases hp'
        trivial
    · by_cases hk : kind.isRemoval
      · unfold Synced
        rw [hi, hs, hd, extractedNodes_of_notMem (hfresh hk), evictFile_treePath,
          Indexer.nodesIn_evictPath hweak, if_pos rfl]
      · rw [if_neg hk] at hno
        exact absurd rfl (hno _ rfl)
  | evict =>
    refine ⟨fun p' hp' _ => ?_, fun hno => absurd rfl (hno _ rfl)⟩
    cases hp'
    change w'.store.graph.nodesIn (w'.indexer.treePath path) = ∅
    rw [hi, hs]
    exact (Indexer.nodesIn_evictPath hweak ord _ _).trans (if_pos rfl)
  | read =>
    have hempty : w.store.graph.nodesIn (w.indexer.treePath path) = ∅ := hfresh
    cases hx : w.indexer.extractFile w.disk path (w.indexer.relPathOf path path) with
    | error err =>
      simp only [hx] at hi hs ⊢
      refine ⟨fun p' hp' => (nomatch hp'), fun _ => ?_⟩
      unfold Synced
      rw [hi, hs, hd, hempty, extractedNodes_of_not_some fun res hc => nomatch hx.symm.trans hc]
    | ok res =>
      cases res with
      | none =>
        simp only [hx] at hi hs ⊢
        refine ⟨fun p' hp' => (nomatch hp'), fun _ => ?_⟩
        unfold Synced
        rw [hi, hs, hd, hempty, extractedNodes_of_not_some fun res hc => nomatch hx.symm.trans hc]
      | some result =>
        simp only [hx] at hi hs ⊢
        refine ⟨fun p' hp' _ => ?_, fun hno => absurd rfl (hno _ rfl)⟩
        cases hp'
        change w'.store.graph.nodesIn (w'.indexer.treePath path) = ∅ ∧ _
        rw [hi, hs, hd]
        exact ⟨hempty, hx⟩
  | add result =>
    obtain ⟨hempty, hx⟩ := hfresh
    refine ⟨fun p' hp' hw' => ?_, fun _ => ?_⟩
    · cases hp'
      cases resolve <;> cases hw'
    · unfold Synced
      rw [hi, hs, hd, extractedNodes_of_some hx]
      exact Indexer.nodesIn_addResult hweak.nodes (Indexer.filePath_of_extractFile hreg hx) hempty
  | resolve => cases hwrites
  | stat => cases hwrites

/-- A patch starts with an eviction. -/
theorem stage_start (path : TreePath root) (kind : ChangeKind) (resolve : Bool) :
    (Patch.start path kind resolve).stage = .evictFile ∨
      (Patch.start path kind resolve).stage = .evict := by
  unfold Patch.start
  simp only
  split
  · exact Or.inl rfl
  · exact Or.inr rfl

/-! ### What does not depend on the schedule -/

namespace Sane

variable {cfg ord} {base : Indexer}

theorem change (h : Sane base w) (path : TreePath root) (disk : Disk) (kind : ChangeKind) :
    Sane base (w.change path disk kind) :=
  ⟨h.weak, h.alike, h.jobs_lt, h.timers_lt, h.pending_lt, h.pending_path, h.genuine⟩

theorem setJob (h : Sane base w) {j : ℕ} {job : Job root} (hj : j < w.nextID)
    (hadd : ∀ p result, job.patch? = some p → p.stage = .add result →
      ∃ disk, base.extractFile disk p.path (base.relPathOf p.path p.path) = .ok (some result)) :
    Sane base (w.setJob j job) where
  weak := h.weak
  alike := h.alike
  timers_lt := h.timers_lt
  pending_lt := h.pending_lt
  pending_path := h.pending_path
  jobs_lt := fun i job' hi => by
    rw [Watcher.setJob, GoMap.lookup_insert] at hi
    split at hi
    · rename_i hij
      exact hij ▸ hj
    · exact h.jobs_lt i job' hi
  genuine := fun i p result hi hst => by
    rw [patchAt_insert (w := w) rfl] at hi
    split at hi
    · exact hadd p result hi hst
    · exact h.genuine i p result hi hst

theorem endJob (h : Sane base w) (j : ℕ) : Sane base (w.endJob j) where
  weak := h.weak
  alike := h.alike
  timers_lt := h.timers_lt
  pending_lt := h.pending_lt
  pending_path := h.pending_path
  jobs_lt := fun i job' hi => by
    rw [Watcher.endJob, GoMap.lookup_erase] at hi
    split at hi
    · cases hi
    · exact h.jobs_lt i job' hi
  genuine := fun i p result hi hst => by
    rw [patchAt_erase (w := w) rfl] at hi
    split at hi
    · cases hi
    · exact h.genuine i p result hi hst

/-- A number more is in use. -/
theorem succ (h : Sane base w) : Sane base { w with nextID := w.nextID + 1 } :=
  ⟨h.weak, h.alike, fun j job hj => Nat.lt_succ_of_lt (h.jobs_lt j job hj),
    fun t e ht => Nat.lt_succ_of_lt (h.timers_lt t e ht),
    fun f t hf => Nat.lt_succ_of_lt (h.pending_lt f t hf), h.pending_path, h.genuine⟩

theorem spawn (h : Sane base w) {job : Job root} (hadd : ∀ p result, job.patch? = some p →
    p.stage = .add result →
      ∃ disk, base.extractFile disk p.path (base.relPathOf p.path p.path) = .ok (some result)) :
    Sane base (w.spawn job) :=
  (h.succ).setJob (Nat.lt_succ_self _) hadd

/-- Fewer timers are armed. -/
theorem eraseTimer (h : Sane base w) (timer : ℕ) :
    Sane base { w with timers := w.timers.erase timer } where
  weak := h.weak
  alike := h.alike
  jobs_lt := h.jobs_lt
  genuine := h.genuine
  pending_lt := h.pending_lt
  timers_lt := fun t e ht => by
    rw [GoMap.lookup_erase] at ht
    split at ht
    · cases ht
    · exact h.timers_lt t e ht
  pending_path := fun f t e hf ht => by
    rw [GoMap.lookup_erase] at ht
    split at ht
    · cases ht
    · exact h.pending_path f t e hf ht

theorem stopPending (h : Sane base w) (path : TreePath root) :
    Sane base { w with timers := w.stopPending path } := by
  unfold Watcher.stopPending
  split
  · exact h.eraseTimer _
  · exact h

theorem erasePending (h : Sane base w) (path : TreePath root) :
    Sane base { w with pending := w.pending.erase path } where
  weak := h.weak
  alike := h.alike
  jobs_lt := h.jobs_lt
  genuine := h.genuine
  timers_lt := h.timers_lt
  pending_lt := fun f t hf => by
    rw [GoMap.lookup_erase] at hf
    split at hf
    · cases hf
    · exact h.pending_lt f t hf
  pending_path := fun f t e hf ht => by
    rw [GoMap.lookup_erase] at hf
    split at hf
    · cases hf
    · exact h.pending_path f t e hf ht

theorem recordInStorm (h : Sane base w) (path : TreePath root) (kind : ChangeKind) :
    Sane base (w.recordInStorm path kind) :=
  have h' := (h.stopPending path).erasePending path
  ⟨h'.weak, h'.alike, h'.jobs_lt, h'.timers_lt, h'.pending_lt, h'.pending_path, h'.genuine⟩

theorem debounce (h : Sane base w) (path : TreePath root) (kind : ChangeKind) :
    Sane base (w.debounce path kind) where
  weak := h.weak
  alike := h.alike
  genuine := h.genuine
  jobs_lt := h.succ.jobs_lt
  timers_lt := fun t e ht => by
    rw [Watcher.debounce, GoMap.lookup_insert] at ht
    split at ht
    · rename_i htid
      exact htid ▸ Nat.lt_succ_self _
    · exact Nat.lt_succ_of_lt ((h.stopPending path).timers_lt t e ht)
  pending_lt := fun f t hf => by
    rw [Watcher.debounce, GoMap.lookup_insert] at hf
    split at hf
    · cases hf
      exact Nat.lt_succ_self _
    · exact Nat.lt_succ_of_lt (h.pending_lt f t hf)
  pending_path := fun f t e hf ht => by
    rw [Watcher.debounce, GoMap.lookup_insert] at hf ht
    split at hf
    · rename_i hfp
      cases hf
      rw [if_pos rfl] at ht
      cases ht
      exact hfp.symm
    · have hlt := h.pending_lt f t hf
      rw [if_neg (Nat.ne_of_lt hlt)] at ht
      exact (h.stopPending path).pending_path f t e hf ht

theorem handleEvent (h : Sane base w) (ev : FsEvent root) (storm : Bool) :
    Sane base (w.handleEvent cfg ev storm) := by
  unfold Watcher.handleEvent
  split
  · split
    · exact h.recordInStorm ..
    · exact h.debounce ..
  · exact h

theorem stepPatch (h : Sane base w) {j : ℕ} {p : Patch root}
    {cont : Option (Patch root) → Job root} (hj : j < w.nextID)
    (hcont : ∀ o, (cont o).patch? = o) : Sane base (w.stepPatch ord j p cont) where
  weak := weak_next ord _ _ _ p h.weak
  alike := h.alike.trans (alike_next ord _ _ _ p)
  timers_lt := h.timers_lt
  pending_lt := h.pending_lt
  pending_path := h.pending_path
  jobs_lt := fun i job' hi => by
    rw [Watcher.stepPatch, GoMap.lookup_insert] at hi
    split at hi
    · rename_i hij
      exact hij ▸ hj
    · exact h.jobs_lt i job' hi
  genuine := fun i q result hi hst => by
    rw [patchAt_insert (w := w) rfl] at hi
    split at hi
    · rw [hcont] at hi
      obtain ⟨hpath, -⟩ := path_next ord _ _ _ p hi
      refine ⟨w.disk, ?_⟩
      rw [hpath, ← h.alike.relPathOf, ← h.alike.extractFile]
      exact genuine_next ord _ _ _ p hi hst
    · exact h.genuine i q result hi hst

theorem stage_start_ne (path : TreePath root) (kind : ChangeKind) (resolve : Bool)
    (result : ExtractionResult) : (Patch.start path kind resolve).stage ≠ .add result := by
  rcases stage_start path kind resolve with h | h <;> rw [h] <;> exact fun hc => nomatch hc

theorem work (h : Sane base w) {j pick : ℕ} (hs : w.work ord j pick = some w') :
    Sane base w' := by
  unfold Watcher.work at hs
  split at hs
  · cases hs
  · rename_i p hj
    cases hs
    exact h.stepPatch (h.jobs_lt j _ hj) fun o => by cases o <;> rfl
  · cases hs
    exact (h.erasePending _).endJob j
  · rename_i hj
    cases hs
    have hbatch : Sane base { w with
        stormBatch := ∅
        stormActive := false } :=
      ⟨h.weak, h.alike, h.jobs_lt, h.timers_lt, h.pending_lt, h.pending_path, h.genuine⟩
    unfold Watcher.takeBatch
    simp only
    split
    · exact hbatch.endJob j
    · exact hbatch.setJob (h.jobs_lt j _ hj) fun p result hp => nomatch hp
  · rename_i hj
    cases hs
    exact h.stepPatch (h.jobs_lt j _ hj) fun o => rfl
  · cases hs
    have hquiet := Indexer.quiet_resolveAll ord w.store
    have hres : Sane base { w with store := Indexer.resolveAll ord w.store } :=
      ⟨hquiet.weak h.weak, h.alike, h.jobs_lt, h.timers_lt, h.pending_lt, h.pending_path, h.genuine⟩
    exact hres.endJob j
  · rename_i hj
    obtain ⟨e, -, rfl⟩ := Option.map_eq_some_iff.mp hs
    refine h.setJob (h.jobs_lt j _ hj) fun p result hp hst => ?_
    cases hp
    exact (stage_start_ne _ _ _ _ hst).elim

theorem step {a : Action root} (h : Sane base w) (hs : Step cfg ord w a w') : Sane base w' := by
  unfold Step Watcher.step at hs
  cases a with
  | writeFile path file =>
    cases hs
    exact h.change ..
  | removeFile path rename =>
    simp only at hs
    split at hs
    · cases hs
      exact h.change ..
    · cases hs
  | handle storm =>
    simp only at hs
    split at hs
    · cases hs
    · rename_i ev queue _
      split at hs
      · cases hs
        have hpop : Sane base { w with queue := queue } :=
          ⟨h.weak, h.alike, h.jobs_lt, h.timers_lt, h.pending_lt, h.pending_path, h.genuine⟩
        exact hpop.handleEvent ev storm
      · cases hs
  | fire timer =>
    obtain ⟨e, -, rfl⟩ := Option.map_eq_some_iff.mp hs
    refine (h.eraseTimer timer).spawn fun p result hp hst => ?_
    cases hp
    exact (stage_start_ne _ _ _ _ hst).elim
  | fireStorm =>
    simp only at hs
    split at hs
    · cases hs
      have hoff : Sane base { w with stormTimer := false } :=
        ⟨h.weak, h.alike, h.jobs_lt, h.timers_lt, h.pending_lt, h.pending_path, h.genuine⟩
      exact hoff.spawn fun p result hp => nomatch hp
    · cases hs
  | work j pick => exact h.work hs

end Sane

/-! ### What a step does -/

/-- The watcher takes the changes of the path. -/
structure Watched (cfg : WatchConfig) (idx : Indexer) (f : TreePath root) : Prop where
  excluded : cfg.isExcluded f = false
  language : (idx.registry.detectLanguage f).isSome

/-- A step that only moves changes on, or resolves. -/
structure Bookkeeping (cfg : WatchConfig) (w w' : Watcher root) : Prop where
  disk : w'.disk = w.disk
  indexer : w'.indexer = w.indexer
  quiet : Quiet w.store.graph w'.store.graph
  patchAt : ∀ j, w'.patchAt j = w.patchAt j
  waiting : ∀ f, Watched cfg w.indexer f → w.Waiting f → w'.Waiting f

/-- A step that starts the patch of a path. -/
structure Started (e : TreePath root × ChangeKind) (w w' : Watcher root) : Prop where
  disk : w'.disk = w.disk
  indexer : w'.indexer = w.indexer
  store : w'.store = w.store
  patchAt : ∃ j resolve, ∀ i,
    w'.patchAt i = if i = j then some (Patch.start e.1 e.2 resolve) else w.patchAt i
  idle : ∀ j p, w.patchAt j = some p → w'.patchAt j = some p
  waiting : ∀ f, f ≠ e.1 → w.Waiting f → w'.Waiting f

/-- A step of a patch. -/
structure Patched (ord : MapOrder) (j : ℕ) (p : Patch root) (w w' : Watcher root) : Prop where
  disk : w'.disk = w.disk
  indexer : w'.indexer = (p.next ord w.disk w.indexer w.store).1
  store : w'.store = (p.next ord w.disk w.indexer w.store).2.1
  before : w.patchAt j = some p
  patchAt : ∀ i, w'.patchAt i =
    if i = j then (p.next ord w.disk w.indexer w.store).2.2 else w.patchAt i
  waiting : ∀ f, w.Waiting f → w'.Waiting f

section cases

variable {cfg ord} {base : Indexer}

/-- A change waits on if its timer, its place in the batch and its place in a job are
kept, and its event, or another change of the path waits. -/
theorem Waiting.of_kept (h : w.Waiting f)
    (hqueue : ∀ ev ∈ w.queue, ev.name = f → w'.Waiting f)
    (htimers : ∀ t e, w.timers.lookup t = some e → e.1 = f → w'.Waiting f)
    (hbatch : f ∈ w.stormBatch → w'.Waiting f)
    (hrest : ∀ j, ∀ e ∈ w.restAt j, e.1 = f → w'.Waiting f) : w'.Waiting f := by
  rcases h with ⟨ev, hev, hf⟩ | ⟨t, e, ht, hf⟩ | hb | ⟨j, e, he, hf⟩
  · exact hqueue ev hev hf
  · exact htimers t e ht hf
  · exact hbatch hb
  · exact hrest j e he hf

theorem Waiting.of_queue {ev : FsEvent root} (h : ev ∈ w.queue) (hf : ev.name = f) :
    w.Waiting f := Or.inl ⟨ev, h, hf⟩

theorem Waiting.of_timer {t : ℕ} {e : TreePath root × ChangeKind} (h : w.timers.lookup t = some e)
    (hf : e.1 = f) : w.Waiting f := Or.inr (Or.inl ⟨t, e, h, hf⟩)

theorem Waiting.of_batch (h : f ∈ w.stormBatch) : w.Waiting f := Or.inr (Or.inr (Or.inl h))

theorem Waiting.of_rest {j : ℕ} {e : TreePath root × ChangeKind} (h : e ∈ w.restAt j)
    (hf : e.1 = f) : w.Waiting f := Or.inr (Or.inr (Or.inr ⟨j, e, h, hf⟩))

/-- A timer that is not of the path stays armed when the pending one is stopped. -/
theorem Sane.lookup_stopPending (h : Sane base w) {path : TreePath root} {t : ℕ}
    {e : TreePath root × ChangeKind} (ht : w.timers.lookup t = some e) (hne : e.1 ≠ path) :
    (w.stopPending path).lookup t = some e := by
  unfold Watcher.stopPending
  split
  · rename_i timer hp
    have htimer : t ≠ timer := fun hc => hne (h.pending_path path timer e hp (hc ▸ ht))
    rw [GoMap.lookup_erase, if_neg htimer]
    exact ht
  · exact ht

theorem Sane.waiting_recordInStorm (h : Sane base w) (path : TreePath root) (kind : ChangeKind)
    (hw : w.Waiting f) : (w.recordInStorm path kind).Waiting f := by
  have hself : (w.recordInStorm path kind).Waiting path :=
    Waiting.of_batch ((AList.mem_insert _).mpr (Or.inl rfl))
  by_cases hf : f = path
  · exact hf ▸ hself
  · refine hw.of_kept (fun ev hev hn => Waiting.of_queue hev hn) (fun t e ht he => ?_)
      (fun hb => Waiting.of_batch ((AList.mem_insert _).mpr (Or.inr hb)))
      fun j e he hn => Waiting.of_rest (j := j) he hn
    exact Waiting.of_timer (h.lookup_stopPending ht fun hc => hf (he.symm.trans hc)) he

theorem Sane.waiting_debounce (h : Sane base w) (path : TreePath root) (kind : ChangeKind)
    (hw : w.Waiting f) : (w.debounce path kind).Waiting f := by
  have hself : (w.debounce path kind).Waiting path :=
    Waiting.of_timer (t := w.nextID) (e := (path, kind)) (AList.lookup_insert _) rfl
  by_cases hf : f = path
  · exact hf ▸ hself
  · refine hw.of_kept (fun ev hev hn => Waiting.of_queue hev hn) (fun t e ht he => ?_)
      (fun hb => Waiting.of_batch hb) fun j e he hn => Waiting.of_rest (j := j) he hn
    refine Waiting.of_timer (t := t) (e := e) ?_ he
    rw [Watcher.debounce, GoMap.lookup_insert, if_neg (Nat.ne_of_lt (h.timers_lt t e ht))]
    exact h.lookup_stopPending ht fun hc => hf (he.symm.trans hc)

/-- **Handling an event** only moves changes on. -/
theorem Sane.bookkeeping_handleEvent (h : Sane base w) {ev : FsEvent root}
    {queue : List (FsEvent root)} (hq : w.queue = ev :: queue) (storm : Bool) :
    Bookkeeping cfg w ({ w with queue := queue }.handleEvent cfg ev storm) := by
  have hpop : Sane base { w with queue := queue } :=
    ⟨h.weak, h.alike, h.jobs_lt, h.timers_lt, h.pending_lt, h.pending_path, h.genuine⟩
  have hwait : ∀ f, w.Waiting f → f = ev.name ∨ Waiting { w with queue := queue } f := by
    intro f hw
    by_cases hf : f = ev.name
    · exact Or.inl hf
    · refine Or.inr (hw.of_kept (fun ev' hev hn => ?_) (fun t e ht he => Waiting.of_timer ht he)
        (fun hb => Waiting.of_batch hb) fun j e he hn => Waiting.of_rest (j := j) he hn)
      rw [hq, List.mem_cons] at hev
      rcases hev with rfl | hev
      · exact absurd hn.symm hf
      · exact Waiting.of_queue hev hn
  unfold Watcher.handleEvent
  by_cases htakes : takes cfg { w with queue := queue } ev
  · rw [if_pos htakes]
    cases storm with
    | true =>
      refine ⟨rfl, rfl, Quiet.refl _, fun _ => rfl, fun f _ hw => ?_⟩
      rcases hwait f hw with rfl | hw
      · exact Waiting.of_batch ((AList.mem_insert _).mpr (Or.inl rfl))
      · exact hpop.waiting_recordInStorm _ _ hw
    | false =>
      refine ⟨rfl, rfl, Quiet.refl _, fun _ => rfl, fun f _ hw => ?_⟩
      rcases hwait f hw with rfl | hw
      · exact Waiting.of_timer (t := w.nextID) (e := (ev.name, ev.kind)) (AList.lookup_insert _) rfl
      · exact hpop.waiting_debounce _ _ hw
  · rw [if_neg htakes]
    refine ⟨rfl, rfl, Quiet.refl _, fun _ => rfl, fun f hf hw => ?_⟩
    rcases hwait f hw with rfl | hw
    · exact absurd (by simp [takes, hf.excluded, hf.language]) htakes
    · exact hw

theorem Sane.lookup_nextID (h : Sane base w) : w.jobs.lookup w.nextID = none := by
  cases hj : w.jobs.lookup w.nextID with
  | none => rfl
  | some job => exact absurd (h.jobs_lt _ _ hj) (lt_irrefl _)

/-- What waits in a job waits on, if the job keeps it. -/
theorem Waiting.setJob (h : w.Waiting f) (j : ℕ) (job : Job root)
    (hrest : ∀ e ∈ w.restAt j, e.1 = f → e ∈ job.rest) : (w.setJob j job).Waiting f := by
  refine h.of_kept (fun ev hev hn => Waiting.of_queue hev hn)
    (fun t e ht he => Waiting.of_timer ht he) (fun hb => Waiting.of_batch hb)
    fun i e he hn => Waiting.of_rest (j := i) (e := e) ?_ hn
  rw [restAt_insert (w := w) rfl]
  by_cases hi : i = j
  · rw [if_pos hi]
    exact hrest e (hi ▸ he) hn
  · rw [if_neg hi]
    exact he

theorem Waiting.endJob {j : ℕ} (h : w.Waiting f) (hrest : w.restAt j = []) :
    (w.endJob j).Waiting f := by
  refine h.of_kept (fun ev hev hn => Waiting.of_queue hev hn)
    (fun t e ht he => Waiting.of_timer ht he) (fun hb => Waiting.of_batch hb)
    fun i e he hn => Waiting.of_rest (j := i) (e := e) ?_ hn
  have hi : i ≠ j := fun hc => by
    rw [hc, hrest] at he
    cases he
  rw [restAt_erase (w := w) rfl, if_neg hi]
  exact he

/-- A job that patches nothing goes away. -/
theorem bookkeeping_endJob (cfg : WatchConfig) {j : ℕ} (hp : w.patchAt j = none) (hrest : w.restAt j = []) :
    Bookkeeping cfg w (w.endJob j) := by
  refine ⟨rfl, rfl, Quiet.refl _, fun i => ?_, fun f _ hw => hw.endJob hrest⟩
  rw [patchAt_erase (w := w) rfl]
  split
  · rename_i hij
    rw [hij, hp]
  · rfl

/-- A job that starts the patch of a path, at a number that patches nothing. -/
theorem Started.of_setJob {e : TreePath root × ChangeKind} {j : ℕ} {job : Job root}
    (resolve : Bool) (hp : w.patchAt j = none) (hjob : job.patch? = some (Patch.start e.1 e.2 resolve))
    (hrest : ∀ x ∈ w.restAt j, x.1 ≠ e.1 → x ∈ job.rest) : Started e w (w.setJob j job) where
  disk := rfl
  indexer := rfl
  store := rfl
  patchAt := ⟨j, resolve, fun i => by rw [patchAt_insert (w := w) rfl, hjob]⟩
  idle := fun i p hi => by
    have hij : i ≠ j := fun hc => by
      rw [hc, hp] at hi
      cases hi
    rw [patchAt_insert (w := w) rfl, if_neg hij]
    exact hi
  waiting := fun f hf hw => hw.setJob j job fun x hx hn => hrest x hx fun hc => hf (hn.symm.trans hc)

/-- A timer fires. -/
theorem Sane.started_fire (h : Sane base w) {timer : ℕ} {e : TreePath root × ChangeKind}
    (he : w.timers.lookup timer = some e) :
    Started e w ({ w with timers := w.timers.erase timer }.spawn
      (.callback (Patch.start e.1 e.2 true))) := by
  have hfree := h.lookup_nextID
  have hp : w.patchAt w.nextID = none := by rw [patchAt, hfree, Option.bind_none]
  have hr : w.restAt w.nextID = [] := by rw [restAt, hfree, Option.map_none, Option.getD_none]
  let v : Watcher root := { w with
    timers := w.timers.erase timer
    nextID := w.nextID + 1 }
  have hv : Started e v (v.setJob w.nextID (.callback (Patch.start e.1 e.2 true))) :=
    Started.of_setJob true hp rfl fun x hx => by
      change x ∈ w.restAt w.nextID at hx
      rw [hr] at hx
      cases hx
  refine ⟨rfl, rfl, rfl, hv.patchAt, hv.idle, fun f hf hw => hv.waiting f hf ?_⟩
  refine hw.of_kept (fun ev hev hn => Waiting.of_queue hev hn) (fun t x ht hx => ?_)
    (fun hb => Waiting.of_batch hb) fun i x hx hn => Waiting.of_rest (j := i) hx hn
  refine Waiting.of_timer (t := t) (e := x) ?_ hx
  have hne : t ≠ timer := fun hc => by
    rw [hc, he, Option.some.injEq] at ht
    exact hf (by rw [ht, hx])
  rw [GoMap.lookup_erase, if_neg hne]
  exact ht

/-- A job that patches takes a step. -/
theorem patched_stepPatch {j : ℕ} {p : Patch root} {cont : Option (Patch root) → Job root}
    {job : Job root} (hj : w.jobs.lookup j = some job) (hp : job.patch? = some p)
    (hcont : ∀ o, (cont o).patch? = o) (hrest : ∀ o, (cont o).rest = job.rest) :
    Patched ord j p w (w.stepPatch ord j p cont) where
  disk := rfl
  indexer := rfl
  store := rfl
  before := (patchAt_of_lookup hj).trans hp
  patchAt := fun i => by rw [patchAt_insert (w := w) rfl, hcont]
  waiting := fun f hw => by
    have hset := hw.setJob j (cont (p.next ord w.disk w.indexer w.store).2.2)
      fun e he _ => by rwa [hrest, ← restAt_of_lookup hj]
    exact hset.of_kept (fun ev hev hn => Waiting.of_queue hev hn)
      (fun t e ht he => Waiting.of_timer ht he) (fun hb => Waiting.of_batch hb)
      fun i e he hn => Waiting.of_rest (j := i) he hn

/-- A drain takes the batch. -/
theorem bookkeeping_takeBatch {j : ℕ} (hj : w.jobs.lookup j = some .takeBatch) :
    Bookkeeping cfg w (w.takeBatch j) := by
  have hp : w.patchAt j = none := patchAt_of_lookup hj
  have hr : w.restAt j = [] := restAt_of_lookup hj
  unfold takeBatch
  simp only
  by_cases hb : w.stormBatch.keys = []
  · rw [if_pos hb]
    refine ⟨rfl, rfl, Quiet.refl _, fun i => ?_, fun f _ hw => ?_⟩
    · rw [patchAt_erase (w := w) rfl]
      split
      · rename_i hij
        rw [hij, hp]
      · rfl
    · refine (Waiting.endJob (w := w) hw hr).of_kept (fun ev hev hn => Waiting.of_queue hev hn)
        (fun t e ht he => Waiting.of_timer ht he) (fun hm => ?_)
        fun i e he hn => Waiting.of_rest (j := i) he hn
      change f ∈ w.stormBatch at hm
      rw [AList.mem_keys, hb] at hm
      cases hm
  · rw [if_neg hb]
    refine ⟨rfl, rfl, Quiet.refl _, fun i => ?_, fun f _ hw => ?_⟩
    · rw [patchAt_insert (w := w) rfl]
      split
      · rename_i hij
        rw [hij, hp]
        rfl
      · rfl
    · have hset := hw.setJob j (.drain w.stormBatch.pairs none) fun e he _ => by
        rw [hr] at he
        cases he
      refine hset.of_kept (fun ev hev hn => Waiting.of_queue hev hn)
        (fun t e ht he => Waiting.of_timer ht he) (fun hm => ?_)
        fun i e he hn => Waiting.of_rest (j := i) he hn
      obtain ⟨kind, hk⟩ := Option.isSome_iff_exists.mp (AList.lookup_isSome.mpr hm)
      refine Waiting.of_rest (j := j) (e := (f, kind)) ?_ rfl
      rw [restAt_insert (w := w) rfl, if_pos rfl]
      exact GoMap.mem_pairs.mpr hk

theorem mem_eraseIdx_of_ne {α : Type} {l : List α} {i : ℕ} {a x : α} (hi : l[i]? = some a)
    (hx : x ∈ l) (hne : x ≠ a) : x ∈ l.eraseIdx i := by
  rw [List.mem_eraseIdx_iff_getElem?]
  obtain ⟨k, hk⟩ := List.mem_iff_getElem?.mp hx
  refine ⟨k, fun hc => hne ?_, hk⟩
  rw [hc, hi] at hk
  exact (Option.some.inj hk).symm

/-- **A step only moves changes on, or is a change on the disk, or starts a patch, or is a
step of one.** -/
theorem Sane.step_cases {a : Action root} (h : Sane base w) (hs : Step cfg ord w a w') :
    (∃ path disk kind, w' = w.change path disk kind ∧ w.starts a = none ∧
        ∀ f : TreePath root, f ≠ path → disk.stat f = w.disk.stat f) ∨
      (Bookkeeping cfg w w' ∧ w.starts a = none) ∨
      (∃ e, Started e w w' ∧ w.starts a = some e) ∨
      ∃ j p, Patched ord j p w w' ∧ w.starts a = none := by
  have hne : ∀ {f path : TreePath root}, f ≠ path → GoPath.abs w.disk.cwd f ≠ path.1 := by
    intro f path hf hc
    rw [abs_treePath] at hc
    exact hf (Subtype.ext hc)
  unfold Step Watcher.step at hs
  -- a file changes on the disk; events and timers are bookkeeping; a job starts a patch, or takes
  -- a step of one
  cases a with
  | writeFile path file =>
    cases hs
    exact Or.inl ⟨path, _, _, rfl, rfl, fun f hf => w.disk.stat_write_of_ne _ _ (hne hf)⟩
  | removeFile path rename =>
    simp only at hs
    split at hs
    · cases hs
      exact Or.inl ⟨path, _, _, rfl, rfl, fun f hf => w.disk.stat_remove_of_ne (hne hf)⟩
    · cases hs
  | handle storm =>
    simp only at hs
    split at hs
    · cases hs
    · rename_i ev queue hq
      split at hs
      · cases hs
        exact Or.inr (Or.inl ⟨h.bookkeeping_handleEvent hq storm, rfl⟩)
      · cases hs
  | fire timer =>
    obtain ⟨e, he, rfl⟩ := Option.map_eq_some_iff.mp hs
    exact Or.inr (Or.inr (Or.inl ⟨e, h.started_fire he, he⟩))
  | fireStorm =>
    simp only at hs
    split at hs
    · cases hs
      have hfree := h.lookup_nextID
      have hp : w.patchAt w.nextID = none := by rw [patchAt, hfree, Option.bind_none]
      have hr : w.restAt w.nextID = [] := by rw [restAt, hfree, Option.map_none, Option.getD_none]
      refine Or.inr (Or.inl ⟨⟨rfl, rfl, Quiet.refl _, fun i => ?_, fun f _ hw => ?_⟩, rfl⟩)
      · rw [Watcher.spawn, patchAt_insert (w := w) rfl]
        split
        · rename_i hij
          rw [hij, hp]
          rfl
        · rfl
      · have hset := hw.setJob w.nextID .takeBatch fun e he _ => by
          rw [hr] at he
          cases he
        exact hset.of_kept (fun ev hev hn => Waiting.of_queue hev hn)
          (fun t e ht he => Waiting.of_timer ht he) (fun hb => Waiting.of_batch hb)
          fun i e he hn => Waiting.of_rest (j := i) he hn
    · cases hs
  | work j pick =>
    change w.work ord j pick = some w' at hs
    unfold Watcher.work at hs
    split at hs
    · cases hs
    · rename_i p hj
      cases hs
      refine Or.inr (Or.inr (Or.inr ⟨j, p, ?_, by rw [starts, hj]⟩))
      exact patched_stepPatch hj rfl (fun o => by cases o <;> rfl) fun o => by cases o <;> rfl
    · rename_i path hj
      cases hs
      have hend := bookkeeping_endJob cfg (w := { w with pending := w.pending.erase path })
        (patchAt_of_lookup hj) (restAt_of_lookup hj)
      exact Or.inr (Or.inl ⟨⟨rfl, rfl, Quiet.refl _, hend.patchAt, hend.waiting⟩, by rw [starts, hj]⟩)
    · rename_i hj
      cases hs
      exact Or.inr (Or.inl ⟨bookkeeping_takeBatch hj, by rw [starts, hj]⟩)
    · rename_i rest p hj
      cases hs
      refine Or.inr (Or.inr (Or.inr ⟨j, p, ?_, by rw [starts, hj]⟩))
      exact patched_stepPatch hj rfl (fun o => rfl) fun o => rfl
    · rename_i hj
      cases hs
      have hend := bookkeeping_endJob cfg
        (w := { w with store := Indexer.resolveAll ord w.store })
        (patchAt_of_lookup hj) (restAt_of_lookup hj)
      exact Or.inr (Or.inl ⟨⟨rfl, rfl, Indexer.quiet_resolveAll ord w.store, hend.patchAt,
        hend.waiting⟩, by rw [starts, hj]; rfl⟩)
    · rename_i rest _ hj
      obtain ⟨e, he, rfl⟩ := Option.map_eq_some_iff.mp hs
      refine Or.inr (Or.inr (Or.inl ⟨e, ?_, by rw [starts, hj]; exact he⟩))
      refine Started.of_setJob false (patchAt_of_lookup hj) rfl fun x hx hne => ?_
      rw [restAt_of_lookup hj] at hx
      exact mem_eraseIdx_of_ne he hx fun hc => hne (congrArg Prod.fst hc)

end cases

/-! ### Orderly runs keep track -/

section orderly

variable {cfg ord} {base : Indexer}

theorem writes_start (path : TreePath root) (kind : ChangeKind) (resolve : Bool) :
    (Patch.start path kind resolve).writes := by
  unfold Patch.writes
  rcases stage_start path kind resolve with h | h <;> rw [h]

/-- A patch at its start is fresh, one of a removal if the file is not on the disk. -/
theorem fresh_start {path : TreePath root} {kind : ChangeKind} (resolve : Bool)
    (h : kind.isRemoval → path.1 ∉ w.disk.files) : w.Fresh (Patch.start path kind resolve) := by
  unfold Fresh
  rcases stage_start path kind resolve with hst | hst <;> rw [hst]
  · exact h
  · trivial

theorem Single.step {a : Action root} (hsingle : w.Single) (h : Sane base w)
    (hs : OrderlyStep cfg ord w a w') : w'.Single := by
  intro i k p q hi hk hpq hpw hqw
  rcases h.step_cases hs.1 with ⟨path, disk, kind, rfl, -, -⟩ | ⟨hb, -⟩ | ⟨e, hst, he⟩ |
    ⟨j, r, hpat, -⟩
  · exact hsingle i k p q hi hk hpq hpw hqw
  · rw [hb.patchAt] at hi hk
    exact hsingle i k p q hi hk hpq hpw hqw
  · obtain ⟨hidle, -⟩ := hs.2 e he
    obtain ⟨j, resolve, hj⟩ := hst.patchAt
    rw [hj] at hi hk
    by_cases hij : i = j
    · by_cases hkj : k = j
      · rw [hij, hkj]
      · rw [if_pos hij] at hi
        rw [if_neg hkj] at hk
        cases hi
        exact absurd ⟨k, q, hk, hpq.symm, hqw⟩ hidle
    · rw [if_neg hij] at hi
      by_cases hkj : k = j
      · rw [if_pos hkj] at hk
        cases hk
        exact absurd ⟨i, p, hi, hpq, hpw⟩ hidle
      · rw [if_neg hkj] at hk
        exact hsingle i k p q hi hk hpq hpw hqw
  · -- a patch that goes on writing has been writing, at the same number and path
    have hback : ∀ {i p}, w'.patchAt i = some p → p.writes →
        ∃ p₀, w.patchAt i = some p₀ ∧ p₀.path = p.path ∧ p₀.writes := by
      intro i p hi hw
      rw [hpat.patchAt] at hi
      by_cases hij : i = j
      · rw [if_pos hij] at hi
        obtain ⟨hpath, hwrites⟩ := path_next ord _ _ _ r hi
        exact ⟨r, hij ▸ hpat.before, hpath.symm, hwrites hw⟩
      · rw [if_neg hij] at hi
        exact ⟨p, hi, rfl, hw⟩
    obtain ⟨p₀, hi₀, hp₀, hpw₀⟩ := hback hi hpw
    obtain ⟨q₀, hk₀, hq₀, hqw₀⟩ := hback hk hqw
    exact hsingle i k p₀ q₀ hi₀ hk₀ (hp₀.trans (hpq.trans hq₀.symm)) hpw₀ hqw₀

/-- A change of another path. -/
theorem Tracks.change {path : TreePath root} {disk : Disk} (kind : ChangeKind)
    (h : w.Tracks f) (hdisk : ∀ f : TreePath root, f ≠ path → disk.stat f = w.disk.stat f) :
    (w.change path disk kind).Tracks f := by
  by_cases hf : f = path
  · exact Or.inl (Waiting.of_queue (List.mem_append_right _ (List.mem_singleton.mpr rfl)) hf.symm)
  · rcases h with hw | hset
    · exact Or.inl (hw.of_kept (fun ev hev hn => Waiting.of_queue (List.mem_append_left _ hev) hn)
        (fun t e ht he => Waiting.of_timer ht he) (fun hb => Waiting.of_batch hb)
        fun i e he hn => Waiting.of_rest (j := i) he hn)
    · have hstat := hdisk f hf
      refine Or.inr (hset.of_same ⟨rfl, Indexer.Alike.refl _, fun rel => ?_, ?_⟩ fun _ _ _ _ => Iff.rfl)
      · unfold Indexer.extractFile
        rw [Watcher.change, w.disk.readFile_congr hstat]
      · rw [Disk.stat_eq _ f.2.1 f.2.2.1, Disk.stat_eq _ f.2.1 f.2.2.1] at hstat
        rw [← AList.lookup_isSome, ← AList.lookup_isSome, Watcher.change, hstat]

theorem Tracks.bookkeeping (hf : Watched cfg w.indexer f) (h : w.Tracks f)
    (hb : Bookkeeping cfg w w') : w'.Tracks f := by
  rcases h with hw | hset
  · exact Or.inl (hb.waiting f hf hw)
  · refine Or.inr (hset.of_same ⟨?_, ?_, fun rel => ?_, ?_⟩ fun j p _ _ => by rw [hb.patchAt])
    · rw [hb.indexer]
      exact hb.quiet.nodes.nodesIn _
    · rw [hb.indexer]
      exact Indexer.Alike.refl _
    · rw [hb.indexer, hb.disk]
    · rw [hb.disk]

theorem Tracks.started {e : TreePath root × ChangeKind} (h : w.Tracks f) (hst : Started e w w')
    (hidle : ¬w.Writing e.1) (hrem : e.2.isRemoval → e.1.1 ∈ w.disk.files → w'.Waiting e.1) :
    w'.Tracks f := by
  obtain ⟨j, resolve, hj⟩ := hst.patchAt
  by_cases hf : f = e.1
  · subst hf
    by_cases hw : w'.Waiting e.1
    · exact Or.inl hw
    · refine Or.inr ⟨fun i p hi hp hpw => ?_, fun hno => ?_⟩
      · rw [hj] at hi
        split at hi
        · cases hi
          refine fresh_start resolve fun hk hm => hw (hrem hk ?_)
          rwa [hst.disk] at hm
        · exact absurd ⟨i, p, hi, hp, hpw⟩ hidle
      · exact absurd ⟨j, _, (hj j).trans (if_pos rfl), rfl, writes_start ..⟩ hno
  · rcases h with hw | hset
    · exact Or.inl (hst.waiting f hf hw)
    · refine Or.inr (hset.of_same (SameFor.of_eq hst.disk hst.indexer hst.store)
        fun i p hp _ => ⟨fun hi => ?_, hst.idle i p⟩)
      rw [hj] at hi
      split at hi
      · cases hi
        exact absurd hp.symm hf
      · exact hi

/-- A patch that has written its nodes leaves the nodes alone. -/
theorem nodesIn_next_of_not_writes {p : Patch root} (hp : ¬p.writes) (q : String) :
    (p.next ord w.disk w.indexer w.store).2.1.graph.nodesIn q = w.store.graph.nodesIn q := by
  unfold Patch.writes at hp
  unfold Patch.next
  cases hst : p.stage <;> simp only [hst] at hp
  case resolve => exact (Quiet.resolveFile ord _ _).nodes.nodesIn q
  case stat => rfl
  all_goals exact absurd trivial hp

/-- What a patch of another path is about to add has no ID of a synced path. -/
theorem Synced.free (hreg : base.registry.Lawful) (hroot : base.rootPath = root) (h : Sane base w)
    (hf : w.Synced f) {j : ℕ} {p : Patch root} {result : ExtractionResult}
    (hp : w.patchAt j = some p) (hst : p.stage = .add result) (hne : p.path ≠ f) :
    ∀ n ∈ w.store.graph.nodesIn (w.indexer.treePath f), result.nodeAt n.id = none := by
  intro n hn
  obtain ⟨disk, hres⟩ := h.genuine j p result hp hst
  rw [show w.store.graph.nodesIn _ = _ from hf] at hn
  unfold Indexer.extractedNodes at hn
  split at hn
  · rename_i res hx
    rw [h.alike.relPathOf, h.alike.extractFile] at hx
    refine ExtractionResult.nodeAt_eq_none.mpr fun m hm hid => hne ?_
    exact Indexer.relPathOf_inj hroot (Indexer.apart_of_extractFile hreg hres hx hm
      (ExtractionResult.mem_of_nodeAt hn).1 hid)
  · cases hn

theorem Tracks.patched (hreg : base.registry.Lawful) (hroot : base.rootPath = root)
    (hs : Sane base w) (hsingle : w.Single) (h : w.Tracks f) {j : ℕ} {p : Patch root}
    (hpat : Patched ord j p w w') : w'.Tracks f := by
  rcases h with hw | hset
  · exact Or.inl (hpat.waiting f hw)
  refine Or.inr ?_
  have halike : Indexer.Alike w.indexer w'.indexer := by
    rw [hpat.indexer]
    exact alike_next ..
  have hback : ∀ {p'}, w'.patchAt j = some p' → p'.path = p.path ∧ (p'.writes → p.writes) :=
    fun hp' => path_next ord _ _ _ p (((hpat.patchAt j).trans (if_pos rfl)).symm.trans hp')
  have hothers : ∀ {i}, i ≠ j → w'.patchAt i = w.patchAt i := fun hi =>
    (hpat.patchAt _).trans (if_neg hi)
  have hnodes : (∀ q, w'.store.graph.nodesIn q = w.store.graph.nodesIn q) → SameFor f w w' :=
    fun hq => ⟨by rw [halike.treePath, hq], halike,
      fun rel => by rw [halike.extractFile, hpat.disk], by rw [hpat.disk]⟩
  -- only the patch of the path that writes can change what the graph has of it
  by_cases hwrites : p.writes
  · by_cases hf : p.path = f
    · -- the step of the one patch of the path that writes
      have hreg' : w.indexer.registry.Lawful := hs.alike.registry ▸ hreg
      subst hf
      obtain ⟨h1, h2⟩ := fresh_next ord hreg' hs.weak hwrites
        (hset.fresh j p hpat.before rfl hwrites) hpat.disk hpat.indexer hpat.store
      refine ⟨fun i q hi hq hqw => ?_, fun hno => h2 fun p' hp' hw' => hno ?_⟩
      · by_cases hij : i = j
        · rw [hpat.patchAt, if_pos hij] at hi
          exact h1 q hi hqw
        · rw [hothers hij] at hi
          exact absurd (hsingle i j q p hi hpat.before hq hqw hwrites) hij
      · have hj : w'.patchAt j = some p' := ((hpat.patchAt j).trans (if_pos rfl)).trans hp'
        exact ⟨j, p', hj, (hback hj).1, hw'⟩
    · -- a step of a patch of another path
      have hkeep : (∀ result, p.stage = .add result →
          ∀ n ∈ w.store.graph.nodesIn (w.indexer.treePath f), result.nodeAt n.id = none) →
          w'.store.graph.nodesIn (w'.indexer.treePath f) =
            w.store.graph.nodesIn (w.indexer.treePath f) := fun hfree => by
        rw [halike.treePath, hpat.store]
        refine nodesIn_next_of_ne ord _ _ _ p hs.weak (fun hc => hf ?_) fun result hst => ⟨?_, hfree result hst⟩
        · have hroot' : w.indexer.rootPath = root := hs.alike.rootPath.trans hroot
          exact (Indexer.treePath_inj hroot' hc).symm
        · obtain ⟨disk, hres⟩ := hs.genuine j p result hpat.before hst
          rw [hs.alike.treePath]
          exact Indexer.filePath_of_extractFile hreg hres
      refine hset.frame (fun q hq hfr => ?_) (fun hsy => ?_) fun i q hq hqw => ?_
      · subst hq
        have hempty : w.store.graph.nodesIn (w.indexer.treePath q.path) = ∅ →
            w'.store.graph.nodesIn (w'.indexer.treePath q.path) = ∅ := fun he => by
          refine (hkeep fun _ _ n hn => ?_).trans he
          rw [he] at hn
          cases hn
        unfold Fresh at hfr ⊢
        cases hst : q.stage <;> simp only [hst] at hfr ⊢
        case evictFile => rwa [hpat.disk]
        case read => exact hempty hfr
        case add result =>
          refine ⟨hempty hfr.1, ?_⟩
          rw [halike.extractFile, halike.relPathOf, hpat.disk]
          exact hfr.2
      · have hsame : SameFor f w w' :=
          ⟨hkeep fun result hst => hsy.free hreg hroot hs hpat.before hst hf, halike,
            fun rel => by rw [halike.extractFile, hpat.disk], by rw [hpat.disk]⟩
        exact hsame.synced.mpr hsy
      · by_cases hij : i = j
        · rw [hij, hpat.before]
          refine ⟨fun hi => absurd ((hback hi).1.symm.trans hq) hf, fun hi => ?_⟩
          cases hi
          exact absurd hq hf
        · rw [hothers hij]
  · refine hset.of_same (hnodes fun q => by rw [hpat.store, nodesIn_next_of_not_writes hwrites]) ?_
    intro i q hq hqw
    by_cases hij : i = j
    · rw [hij, hpat.before]
      refine ⟨fun hi => absurd ((hback hi).2 hqw) hwrites, fun hi => ?_⟩
      cases hi
      exact absurd hqw hwrites
    · rw [hothers hij]

/-- **An orderly step keeps track of every path that is watched.** -/
theorem Tracks.step (hreg : base.registry.Lawful) (hroot : base.rootPath = root)
    (hf : Watched cfg base f) {a : Action root} (hs : Sane base w) (hsingle : w.Single)
    (h : w.Tracks f) (hstep : OrderlyStep cfg ord w a w') : w'.Tracks f := by
  rcases hs.step_cases hstep.1 with ⟨path, disk, kind, rfl, -, hdisk⟩ | ⟨hb, -⟩ | ⟨e, hst, he⟩ |
    ⟨j, p, hpat, -⟩
  · exact h.change kind hdisk
  · exact h.bookkeeping ⟨hf.excluded, by rw [hs.alike.registry]; exact hf.language⟩ hb
  · exact h.started hst (hstep.2 e he).1 (hstep.2 e he).2
  · exact h.patched hreg hroot hs hsingle hpat

theorem extractFile_of_no_language {idx : Indexer} {disk : Disk}
    (h : idx.registry.detectLanguage f = none) (rel : String) (res : ExtractionResult) :
    idx.extractFile disk f rel ≠ .ok (some res) := by
  unfold Indexer.extractFile
  rw [h, Option.bind_none]
  split <;> exact fun hc => nomatch hc

theorem extractedNodes_of_no_language {idx : Indexer} {disk : Disk}
    (h : idx.registry.detectLanguage f = none) {rel : String} :
    idx.extractedNodes disk f rel = ∅ :=
  extractedNodes_of_not_some (extractFile_of_no_language h rel)

/-- A file no extractor takes is given no nodes. -/
theorem Sane.nodesIn_eq_empty_step (hreg : base.registry.Lawful) (hroot : base.rootPath = root)
    (hlang : base.registry.detectLanguage f = none) {a : Action root} (hs : Sane base w)
    (h : w.store.graph.nodesIn (base.treePath f) = ∅) (hstep : Step cfg ord w a w') :
    w'.store.graph.nodesIn (base.treePath f) = ∅ := by
  rcases hs.step_cases hstep with ⟨path, disk, kind, rfl, -, -⟩ | ⟨hb, -⟩ | ⟨e, hst, -⟩ |
    ⟨j, p, hpat, -⟩
  · exact h
  · exact (hb.quiet.nodes.nodesIn _).trans h
  · rwa [hst.store]
  · rw [hpat.store]
    by_cases hf : p.path = f
    · unfold Patch.next
      simp only [abs_treePath]
      rw [← hs.alike.treePath] at h ⊢
      cases hst : p.stage with
      | evictFile =>
        rw [evictFile_treePath, Indexer.nodesIn_evictPath hs.weak]
        split
        · rfl
        · exact h
      | evict =>
        rw [Indexer.nodesIn_evictPath hs.weak]
        split
        · rfl
        · exact h
      | read =>
        simp only
        split <;> exact h
      | add result =>
        obtain ⟨disk, hres⟩ := hs.genuine j p result hpat.before hst
        rw [hf] at hres
        exact absurd hres (extractFile_of_no_language hlang _ result)
      | resolve => exact ((Quiet.resolveFile ord _ _).nodes.nodesIn _).trans h
      | stat => exact h
    · refine (nodesIn_next_of_ne ord _ _ _ p hs.weak (fun hc => hf ?_) fun result hst =>
        ⟨?_, fun n hn => ?_⟩).trans h
      · rw [hs.alike.treePath] at hc
        exact (Indexer.treePath_inj hroot hc).symm
      · obtain ⟨disk, hres⟩ := hs.genuine j p result hpat.before hst
        rw [hs.alike.treePath]
        exact Indexer.filePath_of_extractFile hreg hres
      · rw [h] at hn
        cases hn

/-- **Where nothing is left to do, every path that is followed is synced.** -/
theorem Tracks.synced (h : w.Tracks f) (hq : w.Quiescent) : w.Synced f := by
  have hjobs : ∀ j, w.jobs.lookup j = none := GoMap.lookup_of_keys_nil hq.jobs
  rcases h with (⟨ev, hev, -⟩ | ⟨t, e, ht, -⟩ | hb | ⟨j, e, he, -⟩) | hset
  · rw [hq.queue] at hev
    cases hev
  · rw [GoMap.lookup_of_keys_nil hq.timers] at ht
    cases ht
  · rw [AList.mem_keys, hq.stormBatch] at hb
    cases hb
  · rw [restAt, hjobs] at he
    cases he
  · refine hset.synced fun ⟨j, p, hj, _⟩ => ?_
    rw [patchAt, hjobs] at hj
    cases hj

theorem waiting_of_changes {a : Action root} (hs : Step cfg ord w a w') (ha : a.changes f) :
    w'.Waiting f := by
  unfold Step Watcher.step at hs
  cases a with
  | writeFile path file =>
    cases hs
    exact Waiting.of_queue (List.mem_append_right _ (List.mem_singleton.mpr rfl)) ha
  | removeFile path rename =>
    simp only at hs
    split at hs
    · cases hs
      exact Waiting.of_queue (List.mem_append_right _ (List.mem_singleton.mpr rfl)) ha
    · cases hs
  | _ => exact ha.elim

/-- A watcher at its start. -/
def new (disk : Disk) (base : Indexer) (store : Store) : Watcher root where
  disk := disk
  indexer := base
  store := store

theorem sane_new (disk : Disk) (base : Indexer) {store : Store} (h : Reachable store.graph) :
    Sane base (new disk base store : Watcher root) :=
  ⟨h.weak, Indexer.Alike.refl base, fun _ _ hj => (nomatch hj), fun _ _ ht => (nomatch ht),
    fun _ _ hp => (nomatch hp), fun _ _ _ hp => (nomatch hp), fun _ _ _ hp => (nomatch hp)⟩

theorem settled_new {disk : Disk} {store : Store} (h : (new disk base store).Synced f) :
    (new disk base store).Settled f :=
  ⟨fun _ _ hj => (nomatch hj), fun _ => h⟩

end orderly

/-! ### Convergence -/

/-- **The graph follows the disk in the runs of these steps**: once every callback has
finished, the nodes of every path that is not excluded, and that was synced at the start
or has a language and was changed, are exactly those the extraction of its file gives,
none if it was deleted. -/
def Converges (base : Indexer) (step : Watcher root → Action root → Watcher root → Prop) : Prop :=
  ∀ disk store acts w (f : TreePath root), Reachable store.graph → cfg.isExcluded f = false →
    Run step (new disk base store) acts w → w.Quiescent →
    ((new disk base store).Synced f ∨
      (base.registry.detectLanguage f).isSome ∧ ∃ a ∈ acts, a.changes f) → w.Synced f

/-- **The watcher converges in its orderly runs.** -/
theorem converges_orderly {base : Indexer} (hreg : base.registry.Lawful)
    (hroot : base.rootPath = root) : @Converges root cfg base (OrderlyStep cfg ord) := by
  intro disk store acts w f hgraph hexcl hrun hq hchanged
  have hsane : Sane base (new disk base store : Watcher root) := sane_new disk base hgraph
  have hsingle : (new disk base store : Watcher root).Single := fun _ _ _ _ hp => nomatch hp
  have hinv : ∀ {v a v'}, Sane base v ∧ v.Single → @OrderlyStep root cfg ord v a v' →
      Sane base v' ∧ v'.Single := fun hJ hs => ⟨hJ.1.step hs.1, hJ.2.step hJ.1 hs⟩
  by_cases hlang : (base.registry.detectLanguage f).isSome
  · have htracks : w.Tracks f := by
      refine hrun.since (I := fun v => v.Tracks f) (J := fun v => Sane base v ∧ v.Single)
        (P := fun a => a.changes f) hinv
        (fun hJ hI hs => hI.step hreg hroot ⟨hexcl, hlang⟩ hJ.1 hJ.2 hs) (fun hs ha => ?_)
        ⟨hsane, hsingle⟩ (hchanged.imp (fun h => Or.inr (settled_new h)) And.right)
      exact Or.inl (waiting_of_changes hs.1 ha)
    exact htracks.synced hq
  · -- no extractor takes the file: it has no nodes at the start, and is given none
    rw [Bool.not_eq_true, Option.isSome_eq_false_iff, Option.isNone_iff_eq_none] at hlang
    have hsynced : (new disk base store).Synced f :=
      hchanged.resolve_right fun h => by simp [hlang] at h
    have hend : Sane base w ∧ w.store.graph.nodesIn (base.treePath f) = ∅ := by
      refine hrun.invariant (I := fun v =>
        Sane base v ∧ v.store.graph.nodesIn (base.treePath f) = ∅) (fun hI hs => ?_) ⟨hsane, ?_⟩
      · exact ⟨hI.1.step hs.1, hI.1.nodesIn_eq_empty_step hreg hroot hlang hI.2 hs.1⟩
      · exact hsynced.trans (extractedNodes_of_no_language hlang)
    unfold Synced
    rw [hend.1.alike.treePath, hend.2, extractedNodes_of_no_language]
    rw [hend.1.alike.registry, hlang]

/-! ### Two runs -/

section runs

instance (f : TreePath root) : Decidable (w.Writing f) :=
  decidable_of_iff (∃ e ∈ w.jobs.pairs, ∃ p ∈ e.2.patch?, p.path = f ∧ p.writes)
    ⟨fun ⟨e, he, p, hp, h⟩ => ⟨e.1, p, (patchAt_of_lookup (GoMap.mem_pairs.mp he)).trans hp, h⟩,
      fun ⟨j, p, hj, h⟩ => by
        obtain ⟨job, hjob, hp⟩ := Option.bind_eq_some_iff.mp hj
        exact ⟨(j, job), GoMap.mem_pairs.mpr hjob, p, hp, h⟩⟩

instance (f : TreePath root) : Decidable (w.Waiting f) :=
  decidable_of_iff ((∃ ev ∈ w.queue, ev.name = f) ∨ (∃ e ∈ w.timers.pairs, e.2.1 = f) ∨
      f ∈ w.stormBatch ∨ ∃ e ∈ w.jobs.pairs, ∃ x ∈ e.2.rest, x.1 = f) <| by
    unfold Waiting
    refine or_congr_right (or_congr ?_ (or_congr_right ?_))
    · exact ⟨fun ⟨e, he, hf⟩ => ⟨e.1, e.2, GoMap.mem_pairs.mp he, hf⟩,
        fun ⟨t, e, he, hf⟩ => ⟨(t, e), GoMap.mem_pairs.mpr he, hf⟩⟩
    · refine ⟨fun ⟨e, he, x, hx, hf⟩ => ⟨e.1, x, ?_, hf⟩, fun ⟨j, x, hx, hf⟩ => ?_⟩
      · rwa [restAt_of_lookup (GoMap.mem_pairs.mp he)]
      · cases hj : w.jobs.lookup j with
        | none =>
          rw [restAt, hj] at hx
          cases hx
        | some job =>
          rw [restAt_of_lookup hj] at hx
          exact ⟨(j, job), GoMap.mem_pairs.mpr hj, x, hx, hf⟩

instance (a : Action root) (w' : Watcher root) : Decidable (w.Orderly a w') := by
  unfold Orderly
  cases w.starts a with
  | none => exact isTrue fun e he => nomatch he
  | some e =>
    exact decidable_of_iff (¬w.Writing e.1 ∧
      (e.2.isRemoval → e.1.1 ∈ w.disk.files → w'.Waiting e.1))
      ⟨fun h x hx => Option.some.inj hx ▸ h, fun h => h e rfl⟩

/-- Take the actions of a list, unless one is not possible or not orderly. -/
def exec (orderly : Bool) : List (Action root) → Watcher root → Option (Watcher root)
  | [], w => some w
  | a :: acts, w =>
    match w.step cfg ord a with
    | none => none
    | some w' => if orderly → w.Orderly a w' then exec orderly acts w' else none

variable {cfg ord}

theorem run_of_exec {orderly : Bool} {acts : List (Action root)}
    (h : exec cfg ord orderly acts w = some w') :
    Run (fun w a w' => Step cfg ord w a w' ∧ (orderly → w.Orderly a w')) w acts w' := by
  induction acts generalizing w with
  | nil =>
    cases h
    exact Run.nil _
  | cons a acts ih =>
    unfold exec at h
    split at h
    · cases h
    · rename_i w₁ hs
      split at h
      · rename_i ho
        exact Run.cons ⟨hs, ho⟩ (ih h)
      · cases h

/-- One function, whose name tells the size of the file. -/
def sizeNode (p : String) (src : ByteArray) : Node where
  id := p ++ if src.size = 1 then "::Old" else "::New"
  kind := .kindFunction
  name := if src.size = 1 then "Old" else "New"
  filePath := p

/-- An extractor that finds it. -/
def sizeExtractor : Extractor where
  language := "go"
  extensions := [".go"]
  extract := fun p src => .ok ⟨[sizeNode p src], []⟩

/-- An indexer of the directory `/r` with this extractor. -/
def sizeIndexer : Indexer where
  registry := ({} : Registry).register sizeExtractor
  rootPath := "/r"

theorem sizeIndexer_lawful : sizeIndexer.registry.Lawful := by
  have hext : ∀ {p src res}, sizeIndexer.registry.Extracts p src res → res.nodes = [sizeNode p src] := by
    rintro p src res ⟨lang, ext, hlang, hres⟩
    have hlookup : sizeIndexer.registry.getByLanguage lang =
        if lang = "go" then some sizeExtractor else none :=
      (GoMap.lookup_insert _ _ _ _).trans rfl
    rw [hlookup] at hlang
    split at hlang
    · cases hlang
      cases hres
      rfl
    · cases hlang
  refine ⟨fun hx hn => ?_, fun hx hn hx' hn' hid => ?_⟩
  · rw [hext hx, List.mem_singleton] at hn
    rw [hn]
    rfl
  · rw [hext hx, List.mem_singleton] at hn
    rw [hext hx', List.mem_singleton] at hn'
    subst hn hn'
    have hlen : ∀ b : Prop, ∀ [Decidable b], (if b then "::Old" else "::New").toList.length = 5 :=
      fun b _ => by split <;> rfl
    have hl := congrArg String.toList hid
    simp only [sizeNode, String.toList_append] at hl
    exact String.toList_inj.mp (List.append_inj_left' hl ((hlen _).trans (hlen _).symm))

/-- The file `a.go` of `/r`. -/
def fileA : TreePath "/r" := ⟨"/r/a.go", by decide +kernel⟩

/-- A file of so many bytes. -/
def fileOf (size : ℕ) : DiskFile := ⟨⟨(List.replicate size 0).toArray⟩, size, none⟩

/-- A disk without files. -/
def emptyDisk : Disk := ⟨∅, "/r", [], Disk.isClean_empty⟩

/-- A watcher of `/r` with an empty graph. -/
def sizeWatcher : Watcher "/r" := new emptyDisk sizeIndexer {}

/-- The file is created, and the callback of its timer runs alone. -/
def aloneRun : List (Action "/r") :=
  [.writeFile fileA (fileOf 1), .handle false, .fire 0] ++ List.replicate 6 (.work 1 0)

/-- The file is written a second time when the callback has read it, and the callback of
that event runs before the first one goes on. -/
def staleRun : List (Action "/r") :=
  [.writeFile fileA (fileOf 1), .handle false, .fire 0, .work 1 0, .work 1 0,
    .writeFile fileA (fileOf 2), .handle false, .fire 2] ++ List.replicate 7 (.work 3 0) ++
    List.replicate 4 (.work 1 0)

/-- Where the run of a list ends. -/
def endOf (orderly : Bool) (acts : List (Action "/r")) : Watcher "/r" :=
  (exec {} GoMap.RangeOrder.default orderly acts sizeWatcher).getD sizeWatcher

theorem run_endOf (orderly : Bool) (acts : List (Action "/r"))
    (h : (exec {} GoMap.RangeOrder.default orderly acts sizeWatcher).isSome) :
    Run (fun w a w' => Step {} GoMap.RangeOrder.default w a w' ∧ (orderly → w.Orderly a w'))
      sizeWatcher acts (endOf orderly acts) := by
  obtain ⟨w', hw'⟩ := Option.isSome_iff_exists.mp h
  refine run_of_exec ?_
  rw [endOf, hw', Option.getD_some]

/-- An orderly run. -/
theorem converges_orderly_alone : (endOf true aloneRun).Synced fileA := by
  have hrun := run_endOf true aloneRun (by decide +kernel)
  exact converges_orderly {} GoMap.RangeOrder.default sizeIndexer_lawful rfl emptyDisk {} aloneRun _
    fileA ⟨[], Run.nil _⟩ rfl (hrun.mono fun h => ⟨h.1, h.2 rfl⟩)
    ⟨by decide +kernel, by decide +kernel, by decide +kernel, by decide +kernel⟩
    (Or.inr ⟨by decide +kernel, _, List.mem_cons_self, rfl⟩)

/-- **The watcher does not converge in every run**: the nodes of the file before its last
change are left beside those of the file it is. -/
theorem not_converges_stale :
    ¬∀ (cfg : WatchConfig) (ord : MapOrder) (base : Indexer), base.registry.Lawful →
      base.rootPath = "/r" → @Converges "/r" cfg base (Step cfg ord) := by
  intro h
  have hrun := run_endOf false staleRun (by decide +kernel)
  have hsynced : (endOf false staleRun).Synced fileA :=
    h {} GoMap.RangeOrder.default sizeIndexer sizeIndexer_lawful rfl emptyDisk {} staleRun _ fileA
      ⟨[], Run.nil _⟩ rfl (hrun.mono fun h => h.1)
      ⟨by decide +kernel, by decide +kernel, by decide +kernel, by decide +kernel⟩
      (Or.inr ⟨by decide +kernel, _, List.mem_cons_self, rfl⟩)
  have hold : ((endOf false staleRun).store.graph.nodeAt "a.go::Old").map (fun n =>
      (n.id, n.filePath)) = some ("a.go::Old", "a.go") := by decide +kernel
  have hpath : (endOf false staleRun).indexer.treePath fileA = "a.go" := by decide +kernel
  have hnew : (((endOf false staleRun).indexer.extractFile (endOf false staleRun).disk fileA
      ((endOf false staleRun).indexer.relPathOf fileA fileA)).toOption.join.all
        fun res => (res.nodeAt "a.go::Old").isNone) = true := by decide +kernel
  obtain ⟨n, hn, hn'⟩ := Option.map_eq_some_iff.mp hold
  obtain ⟨hid, hfile⟩ := Prod.mk.inj hn'
  have hmem : n ∈ (endOf false staleRun).store.graph.nodesIn
      ((endOf false staleRun).indexer.treePath fileA) :=
    ⟨by rw [hid, hn], by rw [hfile, hpath]⟩
  rw [show (endOf false staleRun).store.graph.nodesIn _ = _ from hsynced] at hmem
  unfold Indexer.extractedNodes at hmem
  split at hmem
  · rename_i res hres
    have hsome : res.nodeAt n.id = some n := hmem
    rw [hres, ← hid] at hnew
    change (res.nodeAt n.id).isNone = true at hnew
    rw [hsome] at hnew
    cases hnew
  · cases hmem

end runs

end Watcher

end Gortex
