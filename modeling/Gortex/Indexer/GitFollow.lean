import Gortex.Indexer.GitWatcher

/-!
# The graph follows the commits

After a checkout, a merge or a reset the git watcher patches the files that differ. Nothing
keeps its callbacks apart, and each reads the working tree as it goes; but while git does not move
under a callback, they patch the same files in the same way. A file whose nodes were those of the
commit seen last has them again whenever no callback runs
(`Gortex.GitWatcher.nodes_of_last`). And it has those of the commit that is checked out once there
is nothing left to do, if git has moved once more, and an event has reported it, after the last
command that failed and the last move without an event (`Gortex.GitWatcher.nodes_of_head`).
-/

namespace Gortex

open GoPath Graph Indexer

variable {root : String}

/-! ### What git promises -/

/-- The path that a change removes. -/
def Indexer.Change.removed : Change → Option Bytes
  | .one .deleted path => some path
  | .two .renamed _ oldPath _ => some oldPath
  | _ => none

/-- The path that a change writes. -/
def Indexer.Change.written : Change → Option Bytes
  | .one .deleted _ => none
  | .one _ path => some path
  | .two _ _ _ newPath => some newPath

namespace GitRepo

/-- **The changes are those of two working trees**: a file that differs is named, what is
removed is not in the new one, and what is written is. -/
structure Describes (git : GitRepo) (root : String) (changes : List Change) (old new : Disk) :
    Prop where
  covers : ∀ f : TreePath root, old.readFile f ≠ new.readFile f → ∃ c ∈ changes, ∃ path,
    (c.removed = some path ∨ c.written = some path) ∧ git.file path = some f
  removed : ∀ c ∈ changes, ∀ path (f : TreePath root), c.removed = some path →
    git.file path = some f → f.1 ∉ new.files
  written : ∀ c ∈ changes, ∀ path (f : TreePath root), c.written = some path →
    git.file path = some f → f.1 ∈ new.files

/-- **What git promises** of a diff: it is the rendering of changes that are those of the two
working trees, of paths that fit into the buffer of the scanner. -/
def Sound (git : GitRepo) (root : String) : Prop :=
  ∀ old new, ∃ changes : List Change, git.diff old new = Change.renderAll changes ∧
    (∀ c ∈ changes, c.WellFormed ∧ c.Fits) ∧
    git.Describes root changes (git.tree old) (git.tree new)

variable {git : GitRepo}

theorem mem_patches {c : Change} (hc : c.WellFormed) {e : TreePath root × ChangeKind} :
    e ∈ git.patches c.gitChange ↔
      (∃ path, c.removed = some path ∧ git.file path = some e.1 ∧ e.2 = .deleted) ∨
      ∃ path, c.written = some path ∧ git.file path = some e.1 ∧ e.2 = .created := by
  obtain ⟨f, kind⟩ := e
  have hindexes : ∀ path, (f, kind) ∈ git.indexes path ↔
      git.file path = some f ∧ kind = .created := by
    intro path
    rw [indexes, Option.mem_toList, Option.map_eq_some_iff]
    constructor
    · rintro ⟨g, hg, heq⟩
      cases heq
      exact ⟨hg, rfl⟩
    · rintro ⟨hg, rfl⟩
      exact ⟨f, hg, rfl⟩
  have hevicts : ∀ path, (f, kind) ∈ git.evicts path ↔
      git.file path = some f ∧ kind = .deleted := by
    intro path
    rw [evicts, Option.mem_toList, Option.map_eq_some_iff]
    constructor
    · rintro ⟨g, hg, heq⟩
      cases heq
      exact ⟨hg, rfl⟩
    · rintro ⟨hg, rfl⟩
      exact ⟨f, hg, rfl⟩
  cases c with
  | one change path =>
    cases change <;>
      simp [patches, Change.gitChange, OnePath.letter, Change.removed, Change.written, hindexes,
        hevicts]
  | two change similarity oldPath newPath =>
    have hne : oldPath ≠ [] := (hc oldPath List.mem_cons_self).1
    cases change <;>
      simp [patches, Change.gitChange, TwoPaths.letter, Change.removed, Change.written, hindexes,
        hevicts, hne]

/-- **The files that a callback patches**, by what git promises. -/
structure Covers (git : GitRepo) (old new : String) (rest : List (TreePath root × ChangeKind)) :
    Prop where
  differs : ∀ f : TreePath root, (git.tree old).readFile f ≠ (git.tree new).readFile f →
    f ∈ rest.map Prod.fst
  onDisk : ∀ e ∈ rest, e.2 = .deleted ∧ e.1.1 ∉ (git.tree new).files ∨
    e.2 = .created ∧ e.1.1 ∈ (git.tree new).files

theorem Sound.covers (h : git.Sound root) (old new : String) :
    git.Covers old new ((parseDiffNameStatus (git.diff old new)).flatMap git.patches :
      List (TreePath root × ChangeKind)) := by
  obtain ⟨changes, hdiff, hok, hdesc⟩ := h old new
  have hread : parseDiffNameStatus (git.diff old new) = changes.map Change.gitChange := by
    rw [hdiff, Change.parse_renderAll fun c hc => (hok c hc).1,
      List.takeWhile_eq_self_iff.mpr fun c hc => decide_eq_true (hok c hc).2]
  rw [hread]
  refine ⟨fun f hf => ?_, fun e he => ?_⟩
  · obtain ⟨c, hc, path, hpath, hfile⟩ := hdesc.covers f hf
    rcases hpath with hpath | hpath
    · refine List.mem_map.mpr ⟨(f, .deleted), List.mem_flatMap.mpr
        ⟨c.gitChange, List.mem_map_of_mem hc, ?_⟩, rfl⟩
      exact (mem_patches (hok c hc).1).mpr (Or.inl ⟨path, hpath, hfile, rfl⟩)
    · refine List.mem_map.mpr ⟨(f, .created), List.mem_flatMap.mpr
        ⟨c.gitChange, List.mem_map_of_mem hc, ?_⟩, rfl⟩
      exact (mem_patches (hok c hc).1).mpr (Or.inr ⟨path, hpath, hfile, rfl⟩)
  · obtain ⟨gc, hgc, he⟩ := List.mem_flatMap.mp he
    obtain ⟨c, hc, rfl⟩ := List.mem_map.mp hgc
    rcases (mem_patches (hok c hc).1).mp he with ⟨path, hpath, hfile, hk⟩ |
      ⟨path, hpath, hfile, hk⟩
    · exact Or.inl ⟨hk, hdesc.removed c hc path e.1 hpath hfile⟩
    · exact Or.inr ⟨hk, hdesc.written c hc path e.1 hpath hfile⟩

end GitRepo

/-! ### The nodes of a file -/

/-- The nodes that a file has at a commit. -/
def GitRepo.nodesAt (git : GitRepo) (base : Indexer) (sha : String) (f : TreePath root) :
    Set Node :=
  base.extractedNodes (git.tree sha) f (base.relPathOf f f)

/-- A file that is the same at two commits has the same nodes. -/
theorem GitRepo.nodesAt_congr {git : GitRepo} {base : Indexer} {old new : String}
    {f : TreePath root} (h : (git.tree old).readFile f = (git.tree new).readFile f) :
    git.nodesAt base old f = git.nodesAt base new f := by
  rw [nodesAt, nodesAt, extractedNodes, extractedNodes, extractFile, extractFile, h]

namespace GitWatcher

variable (base : Indexer) (git : GitRepo) (ord : MapOrder) (w : GitWatcher root)

/-- The nodes that a file has. -/
def nodes (f : TreePath root) : Set Node := w.store.graph.nodesIn (base.treePath f)

/-- The file has the nodes of the commit that is checked out. -/
def AtHead (f : TreePath root) : Prop := w.nodes base f = git.nodesAt base w.head f

/-- The file has the nodes of the commit seen last. -/
def AtLast (f : TreePath root) : Prop := w.nodes base f = git.nodesAt base w.lastSHA f

/-- **A patch does right**, whatever other callbacks do to its file. -/
def Fresh (p : Patch root) : Prop :=
  match p.stage with
  | .evictFile => p.kind.isRemoval = true ∧ p.path.1 ∉ (w.disk git).files
  | .evict => True
  | .read => w.nodes base p.path = ∅ ∨ w.AtHead base git p.path
  | .add result => (w.nodes base p.path = ∅ ∨ w.AtHead base git p.path) ∧
      base.extractFile (w.disk git) p.path (base.relPathOf p.path p.path) = .ok (some result)
  | .resolve => True
  | .stat => True

/-- **A callback does right.** -/
structure Good (job : Reconcile root) : Prop where
  new : ∀ {sha}, job.new? = some sha → sha = w.head
  old : ∀ {old new}, job = .diff old new → old = w.lastSHA ∨ w.lastSHA = w.head
  rest : ∀ e ∈ job.rest, e.2 = .deleted ∧ e.1.1 ∉ (w.disk git).files ∨
    e.2 = .created ∧ e.1.1 ∈ (w.disk git).files
  patch : ∀ {p}, job.patch? = some p → w.Fresh base git p

/-- **What does not depend on the file.** -/
structure Sane : Prop where
  weak : Weak w.store.graph
  alike : Alike base w.indexer
  head : w.head ≠ ""
  last : w.lastSHA ≠ ""
  jobs_lt : ∀ {j job}, w.jobs.lookup j = some job → j < w.nextID
  good : ∀ {j job}, w.jobs.lookup j = some job → w.Good base git job

/-- A callback is at a patch of the file that has nodes to write. -/
def Writing (f : TreePath root) : Prop :=
  ∃ j job p, w.jobs.lookup j = some job ∧ job.patch? = some p ∧ p.path = f ∧ p.writes = true

/-- **A file is followed**: it is being patched, or has the nodes of the commit that is checked
out, or those of the commit seen last, and then every callback will still patch it. -/
structure Follows (f : TreePath root) : Prop where
  clean : w.Writing f ∨ w.AtHead base git f ∨ w.AtLast base git f ∧
    ∀ j job, w.jobs.lookup j = some job → job.applies = true → f ∈ job.rest.map Prod.fst
  idle : (∀ j job, w.jobs.lookup j = some job → job.applies = false) → w.AtLast base git f

variable {base git ord w} {w' : GitWatcher root} {a : GitAction} {l : List GitAction}
  {f : TreePath root}

theorem lookup_setJob (w : GitWatcher root) (j : ℕ) (job : Reconcile root) (i : ℕ) :
    (w.setJob j job).jobs.lookup i = if i = j then some job else w.jobs.lookup i :=
  GoMap.lookup_insert _ _ _ _

theorem lookup_endJob (w : GitWatcher root) (j i : ℕ) :
    (w.endJob j).jobs.lookup i = if i = j then none else w.jobs.lookup i :=
  GoMap.lookup_erase _ _ _

/-! ### One step of a patch -/

/-- What is about to be added has no ID of another file with the nodes of a commit. -/
theorem Fresh.free (hreg : base.registry.Lawful) (hroot : base.rootPath = root) {p : Patch root}
    {result : ExtractionResult} (hp : w.Fresh base git p) (hst : p.stage = .add result)
    {sha : String} (hf : w.nodes base f = ∅ ∨ w.nodes base f = git.nodesAt base sha f)
    (hne : p.path ≠ f) : ∀ n ∈ w.store.graph.nodesIn (base.treePath f),
      result.nodeAt n.id = none := by
  rw [Fresh, hst] at hp
  intro n hn
  change n ∈ w.nodes base f at hn
  rcases hf with hf | hf
  · rw [hf] at hn
    cases hn
  · rw [hf, GitRepo.nodesAt, extractedNodes] at hn
    split at hn
    · rename_i res hx
      refine ExtractionResult.nodeAt_eq_none.mpr fun m hm hid => hne ?_
      exact relPathOf_inj hroot (apart_of_extractFile hreg hp.2 hx hm
        (ExtractionResult.mem_of_nodeAt hn).1 hid)
    · cases hn

/-- The step of a patch leaves another file alone that has the nodes of a commit. -/
theorem nodes_next_of_ne (ord : MapOrder) (hreg : base.registry.Lawful)
    (hroot : base.rootPath = root) (h : Sane base git w) {p : Patch root}
    (hp : w.Fresh base git p) {sha : String}
    (hf : w.nodes base f = ∅ ∨ w.nodes base f = git.nodesAt base sha f) (hne : p.path ≠ f) :
    (p.next ord (w.disk git) w.indexer w.store).2.1.graph.nodesIn (base.treePath f) =
      w.nodes base f := by
  refine Watcher.nodesIn_next_of_ne ord _ _ _ p h.weak ?_ fun result hst => ?_
  · rw [h.alike.treePath]
    exact fun heq => hne (treePath_inj hroot heq).symm
  · refine ⟨?_, hp.free hreg hroot hst hf hne⟩
    rw [h.alike.treePath]
    rw [Fresh, hst] at hp
    exact filePath_of_extractFile hreg hp.2

/-- The path added to has the extracted nodes, if it had none but them. -/
theorem nodesIn_addResult_of_subset {g : Graph} {res : ExtractionResult} (h : NodeInv g)
    {p : String} (hp : ∀ n ∈ res.nodes, n.filePath = p) (hsub : g.nodesIn p ⊆ res.nodeSet) :
    (addResult g res).nodesIn p = res.nodeSet := by
  ext n
  constructor
  · rintro ⟨hn, hf⟩
    rw [nodeAt_addResult h] at hn
    rcases Option.or_eq_some_iff.mp hn with hr | ⟨-, hg⟩
    · exact hr
    · exact hsub ⟨hg, hf⟩
  · intro hn
    have hn' : res.nodeAt n.id = some n := hn
    refine ⟨?_, hp n (ExtractionResult.mem_of_nodeAt hn').1⟩
    rw [nodeAt_addResult h, hn']
    rfl

/-- What the step of a patch makes of the nodes of its file, and where it is then. -/
structure Patched (base : Indexer) (git : GitRepo) (w w' : GitWatcher root) (p : Patch root)
    (p' : Option (Patch root)) : Prop where
  fresh : ∀ q, p' = some q → w'.Fresh base git q
  synced : p.writes = true → (∀ q, p' = some q → q.writes = false) → w'.AtHead base git p.path
  nodes : w'.nodes base p.path = ∅ ∨ w'.AtHead base git p.path ∨
    w'.nodes base p.path = w.nodes base p.path
  quiet : p.writes = false → ∀ f, w'.nodes base f = w.nodes base f

theorem patched_next (ord : MapOrder) (w' : GitWatcher root) (hreg : base.registry.Lawful)
    (h : Sane base git w) {p : Patch root}
    (hp : w.Fresh base git p) (hhead : w'.head = w.head)
    (hstore : w'.store = (p.next ord (w.disk git) w.indexer w.store).2.1) :
    Patched base git w w' p (p.next ord (w.disk git) w.indexer w.store).2.2 := by
  obtain ⟨path, kind, resolve, stage⟩ := p
  have hdisk : w'.disk git = w.disk git := by rw [disk, disk, hhead]
  have hat : ∀ f, w'.AtHead base git f ↔ w'.nodes base f = git.nodesAt base w.head f :=
    fun f => by rw [AtHead, hhead]
  have hpath : w.indexer.prefixPath (w.indexer.relPathOf path path) = base.treePath path := by
    rw [← h.alike.treePath]
    rfl
  unfold Patch.next at hstore ⊢
  simp only [Watcher.abs_treePath] at hstore ⊢
  -- an eviction leaves nothing under the path, an addition what the commit gives; the other steps
  -- leave the nodes alone
  cases stage with
  | evictFile =>
    obtain ⟨hk, hmem⟩ : kind.isRemoval = true ∧ path.1 ∉ (w.disk git).files := hp
    have hnodes : w'.nodes base path = ∅ := by
      rw [nodes, hstore, Watcher.evictFile_treePath, h.alike.treePath,
        nodesIn_evictPath h.weak, if_pos rfl]
    refine ⟨fun q hq => ?_, fun _ _ => ?_, Or.inl hnodes, fun hw => nomatch hw⟩
    · rw [if_pos hk] at hq
      cases hq
    · rw [hat, hnodes, GitRepo.nodesAt]
      exact (Watcher.extractedNodes_of_notMem hmem _).symm
  | evict =>
    have hnodes : w'.nodes base path = ∅ := by
      rw [nodes, hstore, hpath, nodesIn_evictPath h.weak, if_pos rfl]
    refine ⟨fun q hq => ?_, fun _ hno => ?_, Or.inl hnodes, fun hw => nomatch hw⟩
    · cases hq
      exact Or.inl hnodes
    · exact nomatch hno _ rfl
  | read =>
    have hx : w.indexer.extractFile (w.disk git) path (w.indexer.relPathOf path path) =
        base.extractFile (w.disk git) path (base.relPathOf path path) := by
      rw [h.alike.relPathOf, h.alike.extractFile]
    have hold : w.nodes base path = ∅ ∨ w.AtHead base git path := hp
    simp only [hx] at hstore ⊢
    have hnodes : ∀ f, w'.nodes base f = w.nodes base f := fun f => by
      rw [nodes, hstore]
      split <;> rfl
    have hfail : (∀ res, base.extractFile (w.disk git) path (base.relPathOf path path) ≠
        .ok (some res)) → w'.AtHead base git path := fun hno => by
      have hempty : git.nodesAt base w.head path = ∅ := Watcher.extractedNodes_of_not_some hno
      rw [hat, hnodes, hempty]
      exact hold.elim id fun ha => ha.trans hempty
    refine ⟨fun q hq => ?_, fun _ hno => ?_, Or.inr (Or.inr (hnodes path)), fun hw => nomatch hw⟩
    · split at hq
      · rename_i result hres
        cases hq
        refine ⟨?_, by rw [hdisk]; exact hres⟩
        rw [hat, hnodes]
        exact hold
      · cases hq
    · refine hfail fun res hres => ?_
      simp only [hres] at hno
      exact nomatch hno _ rfl
  | add result =>
    obtain ⟨hold, hx⟩ : (w.nodes base path = ∅ ∨ w.AtHead base git path) ∧
        base.extractFile (w.disk git) path (base.relPathOf path path) = .ok (some result) := hp
    have hset : git.nodesAt base w.head path = result.nodeSet :=
      Watcher.extractedNodes_of_some hx
    have hsub : w.store.graph.nodesIn (base.treePath path) ⊆ result.nodeSet := by
      rcases hold with hold | hold
      · exact hold.subset.trans (Set.empty_subset _)
      · exact (hold.trans hset).subset
    have hnodes : w'.AtHead base git path := by
      rw [hat, hset, nodes, hstore]
      exact nodesIn_addResult_of_subset h.weak.nodes (filePath_of_extractFile hreg hx) hsub
    refine ⟨fun q hq => ?_, fun _ _ => hnodes, Or.inr (Or.inl hnodes), fun hw => nomatch hw⟩
    cases hq
    cases resolve <;> trivial
  | resolve =>
    have hnodes : ∀ f, w'.nodes base f = w.nodes base f := fun f => by
      rw [nodes, hstore]
      exact (Quiet.resolveFile ord _ _).nodes.nodesIn _
    refine ⟨fun q hq => ?_, fun hw => (nomatch hw), Or.inr (Or.inr (hnodes path)),
      fun _ => hnodes⟩
    cases hq
    trivial
  | stat =>
    have hnodes : ∀ f, w'.nodes base f = w.nodes base f := fun f => by rw [nodes, hstore, nodes]
    exact ⟨fun q hq => (nomatch hq), fun hw => (nomatch hw), Or.inr (Or.inr (hnodes path)),
      fun _ => hnodes⟩

/-! ### What does not depend on the file -/

theorem Fresh.mono {p : Patch root} (hp : w.Fresh base git p) (hhead : w'.head = w.head)
    (hnodes : w.nodes base p.path = ∅ ∨ w.AtHead base git p.path →
      w'.nodes base p.path = ∅ ∨ w'.AtHead base git p.path) : w'.Fresh base git p := by
  have hdisk : w'.disk git = w.disk git := by rw [disk, disk, hhead]
  rw [Fresh] at hp ⊢
  rw [hdisk]
  cases hst : p.stage with
  | read =>
    rw [hst] at hp
    exact hnodes hp
  | add result =>
    rw [hst] at hp
    exact ⟨hnodes hp.1, hp.2⟩
  | evictFile | evict | resolve | stat =>
    rw [hst] at hp
    exact hp

/-- A callback that did right does right, if its patch does. -/
theorem Good.mono {job : Reconcile root} (h : w.Good base git job) (hhead : w'.head = w.head)
    (hlast : w'.lastSHA = w.lastSHA ∨ w'.lastSHA = w.head)
    (hpatch : ∀ {p}, job.patch? = some p → w'.Fresh base git p) : w'.Good base git job := by
  have hdisk : w'.disk git = w.disk git := by rw [disk, disk, hhead]
  refine ⟨fun hn => (h.new hn).trans hhead.symm, fun hd => ?_, fun e he => ?_, hpatch⟩
  · rcases hlast with hl | hl
    · rw [hl, hhead]
      exact h.old hd
    · exact Or.inr (hl.trans hhead.symm)
  · rw [hdisk]
    exact h.rest e he

/-- A step that leaves the nodes alone. -/
theorem Sane.frame (h : Sane base git w) (hweak : Weak w'.store.graph)
    (hindexer : w'.indexer = w.indexer) (hhead : w'.head = w.head)
    (hnodes : ∀ f, w'.nodes base f = w.nodes base f) (hne : w'.lastSHA ≠ "")
    (hlast : w'.lastSHA = w.lastSHA ∨ w'.lastSHA = w.head) (hnext : w.nextID ≤ w'.nextID)
    (hjobs : ∀ {j job}, w'.jobs.lookup j = some job → w.jobs.lookup j = some job ∨
      j < w'.nextID ∧ w'.Good base git job) : Sane base git w' where
  weak := hweak
  alike := hindexer ▸ h.alike
  head := hhead ▸ h.head
  last := hne
  jobs_lt hj := (hjobs hj).elim (fun ho => (h.jobs_lt ho).trans_le hnext) And.left
  good {j job} hj := by
    rcases hjobs hj with ho | hnew
    · refine (h.good ho).mono hhead hlast fun hp => ((h.good ho).patch hp).mono hhead ?_
      rw [AtHead, AtHead, hnodes, hhead]
      exact id
    · exact hnew.2

/-- A callback goes on, or begins. -/
theorem Sane.setJob (h : Sane base git w) {j : ℕ} {job : Reconcile root} (hj : j < w.nextID)
    (hgood : w.Good base git job) : Sane base git (w.setJob j job) := by
  refine h.frame h.weak rfl rfl (fun _ => rfl) h.last (Or.inl rfl) le_rfl fun {i job'} hi => ?_
  rw [lookup_setJob] at hi
  split at hi
  · rename_i hij
    cases hi
    exact Or.inr ⟨hij ▸ hj, hgood.mono rfl (Or.inl rfl) hgood.patch⟩
  · exact Or.inl hi

theorem Sane.endJob (h : Sane base git w) (j : ℕ) : Sane base git (w.endJob j) := by
  refine h.frame h.weak rfl rfl (fun _ => rfl) h.last (Or.inl rfl) le_rfl fun {i job'} hi => ?_
  rw [lookup_endJob] at hi
  split at hi
  · cases hi
  · exact Or.inl hi

/-- **A patch takes a step.** -/
theorem Sane.patch (hreg : base.registry.Lawful) (hroot : base.rootPath = root)
    (h : Sane base git w) {j : ℕ} {new : String} {rest : List (TreePath root × ChangeKind)}
    {p : Patch root} (hj : w.jobs.lookup j = some (.apply new rest (some p))) :
    Sane base git (w.stepPatch git ord j new rest p) := by
  have hp : w.Fresh base git p := (h.good hj).patch rfl
  have hpat := patched_next ord (w.stepPatch git ord j new rest p) hreg h hp rfl rfl
  refine ⟨Watcher.weak_next ord _ _ _ p h.weak, h.alike.trans (Watcher.alike_next ord _ _ _ p),
    h.head, h.last, fun {i job} hi => ?_, fun {i job} hi => ?_⟩
  · rw [stepPatch, lookup_setJob] at hi
    split at hi
    · rename_i hij
      rw [hij]
      exact h.jobs_lt hj
    · exact h.jobs_lt hi
  · rw [stepPatch, lookup_setJob] at hi
    split at hi
    · cases hi
      have hgood := h.good hj
      exact ⟨hgood.new, fun hd => (nomatch hd), hgood.rest, fun {q} hq => hpat.fresh q hq⟩
    · refine (h.good hi).mono rfl (Or.inl rfl) fun {q} hq => ((h.good hi).patch hq).mono rfl ?_
      intro hold
      by_cases hpq : p.path = q.path
      · rw [← hpq] at hold ⊢
        rcases hpat.nodes with hn | hn | hn
        · exact Or.inl hn
        · exact Or.inr hn
        · rw [AtHead, hn]
          exact hold
      · have hn := nodes_next_of_ne ord hreg hroot h hp hold hpq
        change (w.stepPatch git ord j new rest p).nodes base q.path = _ at hn
        rw [AtHead, hn]
        exact hold

theorem quiet_resolveAll (w : GitWatcher root) (f : TreePath root) :
    (resolveAll ord w.store).graph.nodesIn (base.treePath f) = w.nodes base f :=
  (Indexer.quiet_resolveAll ord w.store).nodes.nodesIn _

theorem fresh_start {e : TreePath root × ChangeKind}
    (he : e.2 = .deleted ∧ e.1.1 ∉ (w.disk git).files ∨
      e.2 = .created ∧ e.1.1 ∈ (w.disk git).files) :
    w.Fresh base git (Patch.start e.1 e.2 false) := by
  obtain ⟨f, kind⟩ := e
  rcases he with ⟨rfl, hmem⟩ | ⟨rfl, -⟩
  · exact ⟨rfl, hmem⟩
  · trivial

theorem Sane.step (hgit : git.Sound root) (hreg : base.registry.Lawful)
    (hroot : base.rootPath = root) (h : Sane base git w) (hs : StillStep git ord w a w') :
    Sane base git w' := by
  cases moves hs.1 with
  | @move sha rebasing reported hsha =>
    have hnone : ∀ j, w.jobs.lookup j = none := fun j => by
      rw [AList.lookup_eq_none, AList.mem_keys, hs.2 sha rebasing reported rfl]
      exact List.not_mem_nil
    exact ⟨h.weak, h.alike, hsha, h.last, fun hj => h.jobs_lt hj,
      fun {j job} hj => nomatch (hnone j).symm.trans hj⟩
  | handle _ =>
    exact h.frame h.weak rfl rfl (fun _ => rfl) h.last (Or.inl rfl) le_rfl fun hj => Or.inl hj
  | fire _ =>
    have hold : Sane base git { w with
        timer := false
        nextID := w.nextID + 1 } :=
      h.frame h.weak rfl rfl (fun _ => rfl) h.last (Or.inl rfl) (Nat.le_succ _)
        fun hj => Or.inl hj
    exact hold.setJob (Nat.lt_succ_self _) ⟨fun hn => (nomatch hn), fun hd => (nomatch hd),
      fun _ he => (nomatch he), fun hp => nomatch hp⟩
  | @leave _ j job _ _ _ => exact h.endJob j
  | @go j job job' hj _ ha hnew hdiff =>
    refine h.setJob (h.jobs_lt hj) ⟨fun hn => ?_, fun hd => ?_, fun e he => ?_, fun hp => ?_⟩
    · exact (hnew hn).elim id fun hold => (h.good hj).new hold
    · exact Or.inl (hdiff hd)
    · cases job' with
      | apply _ _ _ => cases ha
      | _ => cases he
    · cases job' with
      | apply _ _ _ => cases ha
      | _ => cases hp
  | first hl => exact absurd hl h.last
  | @begin j old new hj =>
    have hnew : new = w.head := (h.good hj).new rfl
    have hcov := hgit.covers old new
    refine h.setJob (h.jobs_lt hj) ⟨fun hn => ?_, fun hd => (nomatch hd), fun e he => ?_,
      fun hp => nomatch hp⟩
    · exact (h.good hj).new hn
    · rw [disk, ← hnew]
      exact hcov.onDisk e he
  | @skip j new f kind rest hj _ _ =>
    have hgood := h.good hj
    exact h.setJob (h.jobs_lt hj) ⟨hgood.new, fun hd => (nomatch hd),
      fun e he => hgood.rest e (List.mem_cons_of_mem _ he), fun hp => nomatch hp⟩
  | @start j new f kind rest hj =>
    have hgood := h.good hj
    refine h.setJob (h.jobs_lt hj) ⟨hgood.new, fun hd => (nomatch hd),
      fun e he => hgood.rest e (List.mem_cons_of_mem _ he), fun hp => ?_⟩
    cases hp
    exact fresh_start (hgood.rest (f, kind) List.mem_cons_self)
  | @patch j new rest p hj => exact h.patch hreg hroot hj
  | @applied j new hj =>
    exact h.setJob (h.jobs_lt hj) ⟨(h.good hj).new, fun hd => (nomatch hd),
      fun _ he => (nomatch he), fun hp => nomatch hp⟩
  | @resolve j new hj =>
    have hold : Sane base git { w with store := resolveAll ord w.store } :=
      h.frame ((Indexer.quiet_resolveAll ord w.store).weak h.weak) rfl rfl
        (fun f => quiet_resolveAll w f) h.last (Or.inl rfl) le_rfl fun hj => Or.inl hj
    exact hold.setJob (h.jobs_lt hj) ⟨(h.good hj).new, fun hd => (nomatch hd),
      fun _ he => (nomatch he), fun hp => nomatch hp⟩
  | @record j new hj =>
    have hnew : new = w.head := (h.good hj).new rfl
    have hold : Sane base git { w with lastSHA := new } :=
      h.frame h.weak rfl rfl (fun _ => rfl) (hnew ▸ h.head) (Or.inr hnew) le_rfl
        fun hj => Or.inl hj
    exact hold.endJob j

/-! ### A file is followed -/

/-- A step that patches nothing: the callbacks that patch are as they were. -/
theorem Follows.frame (h : w.Follows base git f) (hhead : w'.head = w.head)
    (hlast : w'.lastSHA = w.lastSHA) (hnodes : w'.nodes base f = w.nodes base f)
    (hjobs : ∀ {j job}, job.applies = true →
      (w'.jobs.lookup j = some job ↔ w.jobs.lookup j = some job)) : w'.Follows base git f := by
  refine ⟨?_, fun hno => ?_⟩
  · rcases h.clean with ⟨j, job, p, hj, hp, hrest⟩ | ha | ⟨hl, hrest⟩
    · refine Or.inl ⟨j, job, p, (hjobs ?_).mpr hj, hp, hrest⟩
      cases job with
      | apply _ _ _ => rfl
      | _ => cases hp
    · refine Or.inr (Or.inl ?_)
      rw [AtHead, hnodes, hhead]
      exact ha
    · refine Or.inr (Or.inr ⟨?_, fun j job hj ha => hrest j job ((hjobs ha).mp hj) ha⟩)
      rw [AtLast, hnodes, hlast]
      exact hl
  · rw [AtLast, hnodes, hlast]
    refine h.idle fun j job hj => ?_
    by_contra ha
    rw [Bool.not_eq_false] at ha
    exact absurd (hno j job ((hjobs ha).mpr hj)) (by rw [ha]; exact Bool.noConfusion)

/-- A callback that patches goes on, and its file is followed. -/
theorem Follows.of_applies (hclean : w.Writing f ∨ w.AtHead base git f ∨ w.AtLast base git f ∧
      ∀ j job, w.jobs.lookup j = some job → job.applies = true → f ∈ job.rest.map Prod.fst)
    {j : ℕ} {job : Reconcile root} (hj : w.jobs.lookup j = some job) (ha : job.applies = true) :
    w.Follows base git f :=
  ⟨hclean, fun hno => absurd (hno j job hj) (by rw [ha]; exact Bool.noConfusion)⟩

theorem applies_of_patch {job : Reconcile root} {p : Patch root} (h : job.patch? = some p) :
    job.applies = true := by
  cases job with
  | apply _ _ _ => rfl
  | _ => cases h

/-- A patch that is not at its file does not write it. -/
theorem Writing.setJob (h : w.Writing f) {j : ℕ} {job : Reconcile root}
    (hold : ∀ {job' p}, w.jobs.lookup j = some job' → job'.patch? = some p → p.path = f →
      p.writes = true → ∃ p', job.patch? = some p' ∧ p'.path = f ∧ p'.writes = true) :
    (w.setJob j job).Writing f := by
  obtain ⟨i, job', p, hi, hp, hf, hw⟩ := h
  by_cases hij : i = j
  · obtain ⟨p', hp', hf', hw'⟩ := hold (hij ▸ hi) hp hf hw
    exact ⟨j, job, p', by rw [lookup_setJob, if_pos rfl], hp', hf', hw'⟩
  · exact ⟨i, job', p, by rw [lookup_setJob, if_neg hij]; exact hi, hp, hf, hw⟩

/-- **A callback begins to patch**: if the file is not one of those, it is the same at both
commits. -/
theorem Follows.begin (hgit : git.Sound root) (hs : Sane base git w) (h : w.Follows base git f)
    {j : ℕ} {old new : String} (hj : w.jobs.lookup j = some (.diff old new)) :
    (w.setJob j (.apply new ((parseDiffNameStatus (git.diff old new)).flatMap git.patches)
      none)).Follows base git f := by
  have hnew : new = w.head := (hs.good hj).new rfl
  have hcov := hgit.covers old new
  refine Follows.of_applies ?_ ((lookup_setJob w j _ j).trans (if_pos rfl)) rfl
  rcases h.clean with hw | ha | ⟨hl, hrest⟩
  · refine Or.inl (hw.setJob fun hj' hp _ _ => ?_)
    cases hj.symm.trans hj'
    cases hp
  · exact Or.inr (Or.inl ha)
  · rcases (hs.good hj).old rfl with hold | hold
    · by_cases hf : (git.tree old).readFile f = (git.tree new).readFile f
      · refine Or.inr (Or.inl ?_)
        change w.nodes base f = git.nodesAt base w.head f
        rw [← hnew, ← GitRepo.nodesAt_congr hf, hold]
        exact hl
      · refine Or.inr (Or.inr ⟨hl, fun i job hi hia => ?_⟩)
        rw [lookup_setJob] at hi
        split at hi
        · cases hi
          exact hcov.differs f hf
        · exact hrest i job hi hia
    · refine Or.inr (Or.inl ?_)
      change w.nodes base f = git.nodesAt base w.head f
      rw [← hold]
      exact hl

/-- **A patch takes a step.** -/
theorem Follows.patch (hreg : base.registry.Lawful) (hroot : base.rootPath = root)
    (hs : Sane base git w) (h : w.Follows base git f) {j : ℕ} {new : String}
    {rest : List (TreePath root × ChangeKind)} {p : Patch root}
    (hj : w.jobs.lookup j = some (.apply new rest (some p))) :
    (w.stepPatch git ord j new rest p).Follows base git f := by
  have hp : w.Fresh base git p := (hs.good hj).patch rfl
  have hpat := patched_next ord (w.stepPatch git ord j new rest p) hreg hs hp rfl rfl
  have hlookup : ∀ i, (w.stepPatch git ord j new rest p).jobs.lookup i = if i = j then
      some (.apply new rest (p.next ord (w.disk git) w.indexer w.store).2.2)
      else w.jobs.lookup i := fun i => GoMap.lookup_insert _ _ _ _
  have hother : ∀ {job q}, (∃ i, i ≠ j ∧ w.jobs.lookup i = some job) → job.patch? = some q →
      q.path = f → q.writes = true → (w.stepPatch git ord j new rest p).Writing f :=
    fun ⟨i, hij, hi⟩ hq hf hw => ⟨i, _, _, by rw [hlookup, if_neg hij]; exact hi, hq, hf, hw⟩
  refine Follows.of_applies ?_ ((hlookup j).trans (if_pos rfl)) rfl
  have hrest : (∀ i job, w.jobs.lookup i = some job → job.applies = true →
      f ∈ job.rest.map Prod.fst) → ∀ i job,
      (w.stepPatch git ord j new rest p).jobs.lookup i = some job → job.applies = true →
      f ∈ job.rest.map Prod.fst := fun hrest i job hi hia => by
    rw [hlookup] at hi
    split at hi
    · cases hi
      exact hrest j (.apply new rest (some p)) hj rfl
    · exact hrest i job hi hia
  -- the patch is of the file, and goes on writing or has written
  have hown : p.path = f → p.writes = true → (w.stepPatch git ord j new rest p).Writing f ∨
      (w.stepPatch git ord j new rest p).AtHead base git f := fun hf hw => by
    by_cases hend : ∃ q, (p.next ord (w.disk git) w.indexer w.store).2.2 = some q ∧
        q.writes = true
    · obtain ⟨q, hq, hqw⟩ := hend
      refine Or.inl ⟨j, _, q, (hlookup j).trans (if_pos rfl), hq, ?_, hqw⟩
      exact (Watcher.path_next ord _ _ _ p hq).1.trans hf
    · refine Or.inr (hf ▸ hpat.synced hw fun q hq => ?_)
      rw [Bool.eq_false_iff]
      exact fun hqw => hend ⟨q, hq, hqw⟩
  -- otherwise the file keeps the nodes of a commit
  have hkeep : ∀ sha, w.nodes base f = git.nodesAt base sha f →
      ¬(p.path = f ∧ p.writes = true) →
      (w.stepPatch git ord j new rest p).nodes base f = w.nodes base f := fun sha hf hno => by
    by_cases hpf : p.path = f
    · exact hpat.quiet (Bool.eq_false_iff.mpr fun hw => hno ⟨hpf, hw⟩) f
    · exact nodes_next_of_ne ord hreg hroot hs hp (Or.inr hf) hpf
  rcases h.clean with ⟨i, job, q, hi, hq, hf, hw⟩ | ha | ⟨hl, hold⟩
  · by_cases hij : i = j
    · rw [hij, hj] at hi
      cases hi
      cases hq
      exact (hown hf hw).imp_right Or.inl
    · exact Or.inl (hother ⟨i, hij, hi⟩ hq hf hw)
  · by_cases hpw : p.path = f ∧ p.writes = true
    · exact (hown hpw.1 hpw.2).imp_right Or.inl
    · refine Or.inr (Or.inl ?_)
      rw [AtHead, hkeep _ ha hpw]
      exact ha
  · by_cases hpw : p.path = f ∧ p.writes = true
    · exact (hown hpw.1 hpw.2).imp_right Or.inl
    · refine Or.inr (Or.inr ⟨?_, hrest hold⟩)
      rw [AtLast, hkeep _ hl hpw]
      exact hl

/-- A callback without files left goes on: its files are patched. -/
theorem Follows.goOn (hclean : w.Writing f ∨ w.AtHead base git f) {j : ℕ}
    {job job' : Reconcile root} (hj : w.jobs.lookup j = some job) (hpatch : job.patch? = none)
    (ha : job'.applies = true) : (w.setJob j job').Follows base git f := by
  refine Follows.of_applies ?_ ((lookup_setJob w j _ j).trans (if_pos rfl)) ha
  refine hclean.imp (fun hw => hw.setJob fun hj' hp _ _ => ?_) Or.inl
  rw [hj] at hj'
  cases hj'
  rw [hpatch] at hp
  cases hp

/-- No callback that patches has the file left. -/
theorem Follows.settled (h : w.Follows base git f) {j : ℕ} {job : Reconcile root}
    (hj : w.jobs.lookup j = some job) (ha : job.applies = true) (hrest : job.rest = []) :
    w.Writing f ∨ w.AtHead base git f := by
  refine h.clean.imp_right fun hc => hc.elim id fun hl => ?_
  have hmem := hl.2 j job hj ha
  rw [hrest] at hmem
  cases hmem

theorem Follows.step (hgit : git.Sound root) (hreg : base.registry.Lawful)
    (hroot : base.rootPath = root) (hs : Sane base git w) (h : w.Follows base git f)
    (hstep : StillStep git ord w a w') : w'.Follows base git f := by
  cases moves hstep.1 with
  | @move sha rebasing reported hsha =>
    have hnone : ∀ j, w.jobs.lookup j = none := fun j => by
      rw [AList.lookup_eq_none, AList.mem_keys, hstep.2 sha rebasing reported rfl]
      exact List.not_mem_nil
    have hl : w.AtLast base git f := h.idle fun j job hj => nomatch (hnone j).symm.trans hj
    exact ⟨Or.inr (Or.inr ⟨hl, fun j job hj => nomatch (hnone j).symm.trans hj⟩), fun _ => hl⟩
  | handle _ => exact h.frame rfl rfl rfl fun _ => Iff.rfl
  | fire _ =>
    refine h.frame rfl rfl rfl fun {j job} ha => ?_
    rw [lookup_setJob]
    split
    · rename_i hj
      rw [hj]
      refine ⟨fun heq => ?_, fun heq => absurd (hs.jobs_lt heq) (lt_irrefl _)⟩
      cases heq
      cases ha
    · exact Iff.rfl
  | @leave _ j job hj hna _ =>
    refine h.frame rfl rfl rfl fun {i job'} ha => ?_
    rw [lookup_endJob]
    split
    · rename_i hij
      rw [hij, hj]
      refine ⟨fun heq => (nomatch heq), fun heq => ?_⟩
      cases heq
      rw [hna] at ha
      cases ha
    · exact Iff.rfl
  | @go j job job' hj hna hna' _ _ =>
    refine h.frame rfl rfl rfl fun {i job''} ha => ?_
    rw [lookup_setJob]
    split
    · rename_i hij
      rw [hij, hj]
      refine ⟨fun heq => ?_, fun heq => ?_⟩
      · cases heq
        rw [hna'] at ha
        cases ha
      · cases heq
        rw [hna] at ha
        cases ha
    · exact Iff.rfl
  | first hl => exact absurd hl hs.last
  | begin hj => exact h.begin hgit hs hj
  | @skip j new g kind rest hj hk hstat =>
    -- the working tree has what git says it writes
    have hmem := (hs.good hj).rest (g, kind) List.mem_cons_self
    rcases hmem with ⟨rfl, -⟩ | ⟨-, hmem⟩
    · cases hk
    · rw [(w.disk git).stat_eq g.2.1 g.2.2.1] at hstat
      exact absurd hmem (AList.lookup_eq_none.mp hstat)
  | @start j new g kind rest hj =>
    have hmem := (hs.good hj).rest (g, kind) List.mem_cons_self
    have hwrites : (Patch.start g kind false).writes = true := by
      rcases hmem with ⟨rfl, -⟩ | ⟨rfl, -⟩ <;> rfl
    refine Follows.of_applies ?_ ((lookup_setJob w j _ j).trans (if_pos rfl)) rfl
    by_cases hg : g = f
    · exact Or.inl ⟨j, _, _, (lookup_setJob w j _ j).trans (if_pos rfl), rfl, hg, hwrites⟩
    · rcases h.clean with hw | ha | ⟨hl, hrest⟩
      · refine Or.inl (hw.setJob fun hj' hp _ _ => ?_)
        cases hj.symm.trans hj'
        cases hp
      · exact Or.inr (Or.inl ha)
      · refine Or.inr (Or.inr ⟨hl, fun i job hi hia => ?_⟩)
        rw [lookup_setJob] at hi
        split at hi
        · cases hi
          refine (List.mem_cons.mp (hrest j _ hj rfl)).resolve_left fun heq => ?_
          exact hg heq.symm
        · exact hrest i job hi hia
  | patch hj => exact h.patch hreg hroot hs hj
  | applied hj => exact Follows.goOn (h.settled hj rfl rfl) hj rfl rfl
  | @resolve j new hj =>
    have hclean : GitWatcher.Writing { w with store := resolveAll ord w.store } f ∨
        AtHead base git { w with store := resolveAll ord w.store } f :=
      (h.settled hj rfl rfl).imp_right fun ha => (quiet_resolveAll w f).trans ha
    exact Follows.goOn hclean hj rfl rfl
  | @record j new hj =>
    have hnew : new = w.head := (hs.good hj).new rfl
    have hset := h.settled hj rfl rfl
    have hclean : ({ w with lastSHA := new }.endJob j).Writing f ∨
        ({ w with lastSHA := new }.endJob j).AtHead base git f := by
      refine hset.imp_left fun ⟨i, job, p, hi, hp, hf, hw⟩ => ⟨i, job, p, ?_, hp, hf, hw⟩
      rw [lookup_endJob, if_neg]
      · exact hi
      · rintro rfl
        cases hj.symm.trans hi
        cases hp
    refine ⟨hclean.imp_right Or.inl, fun hno => ?_⟩
    rcases hclean with ⟨i, job, p, hi, hp, -⟩ | ha
    · exact absurd (hno i job hi) (by rw [applies_of_patch hp]; exact Bool.noConfusion)
    · change _ = git.nodesAt base new f
      rw [hnew]
      exact ha

/-! ### Runs -/

/-- A git watcher at its start. -/
def new (base : Indexer) (store : Store) (sha : String) : GitWatcher root where
  indexer := base
  store := store
  head := sha
  lastSHA := sha

/-- Nothing is left to do. -/
structure Quiescent (w : GitWatcher root) : Prop where
  events : w.events = 0
  timer : w.timer = false
  jobs : w.jobs.keys = []

theorem sane_new {store : Store} (hgraph : Reachable store.graph) {sha : String} (hsha : sha ≠ "") :
    Sane base git (new base store sha : GitWatcher root) :=
  ⟨hgraph.weak, Alike.refl base, hsha, hsha, fun hj => (nomatch hj), fun hj => nomatch hj⟩

theorem lookup_eq_none_of_keys (h : w.jobs.keys = []) (j : ℕ) : w.jobs.lookup j = none := by
  rw [AList.lookup_eq_none, AList.mem_keys, h]
  exact List.not_mem_nil

/-- A file keeps up with what the callbacks record. -/
theorem nodes_of_last_of_run (hgit : git.Sound root) (hreg : base.registry.Lawful)
    (hroot : base.rootPath = root) {store : Store} {sha : String}
    (h : Run (StillStep git ord) (new base store sha) l w)
    (hnew : Sane base git (new base store sha : GitWatcher root)) (hf : (new base store sha).AtHead base git f)
    (hjobs : w.jobs.keys = []) : w.AtLast base git f := by
  have hinv := h.invariant (I := fun w => Sane base git w ∧ w.Follows base git f)
    (fun hi hs => ⟨hi.1.step hgit hreg hroot hs, hi.2.step hgit hreg hroot hi.1 hs⟩)
    ⟨hnew, Or.inr (Or.inl hf), fun _ => hf⟩
  exact hinv.2.idle fun j job hj => nomatch (lookup_eq_none_of_keys hjobs j).symm.trans hj

/-- **The graph at rest is that of the commit seen last**: while git does not move under a
callback, a file that had the nodes of the first commit has, whenever no callback runs, the nodes
of the commit that the watcher has recorded, whatever the callbacks do at once, and wherever a
command of git fails. -/
theorem nodes_of_last (hgit : git.Sound root) (hreg : base.registry.Lawful)
    (hroot : base.rootPath = root) {store : Store} (hgraph : Reachable store.graph)
    {sha : String} (hsha : sha ≠ "") (h : Run (StillStep git ord) (new base store sha) l w)
    (hf : (new base store sha).AtHead base git f) (hjobs : w.jobs.keys = []) :
    w.AtLast base git f :=
  nodes_of_last_of_run hgit hreg hroot h (sane_new hgraph hsha) hf hjobs

/-- The watcher has seen the commit that is checked out, or will look for it. -/
def Seen (w : GitWatcher root) : Prop :=
  w.lastSHA = w.head ∨ w.events ≠ 0 ∨ w.timer = true ∨ w.rebasing = true ∨
    ∃ j job, w.jobs.lookup j = some job

theorem seen_step (hs : Sane base git w) (ha : a.isLost = false)
    (hstep : StillStep git ord w a w') : w'.Seen := by
  have hjob : ∀ {w : GitWatcher root} {j : ℕ} {job : Reconcile root}, (w.setJob j job).Seen :=
    fun {w j job} => Or.inr (Or.inr (Or.inr (Or.inr
      ⟨j, job, (lookup_setJob w j job j).trans (if_pos rfl)⟩)))
  cases moves hstep.1 with
  | @move sha rebasing reported _ =>
    obtain rfl : reported = true := by simpa [GitAction.isLost] using ha
    exact Or.inr (Or.inl (Nat.succ_ne_zero _))
  | handle _ => exact Or.inr (Or.inr (Or.inl rfl))
  | fire _ => exact hjob
  | leave hj _ hwhy =>
    rcases hwhy with hf | hr | hh | hn
    · rw [GitAction.isLost_of_isFailure hf] at ha
      cases ha
    · exact Or.inr (Or.inr (Or.inr (Or.inl hr)))
    · exact absurd hh hs.head
    · exact Or.inl ((hs.good hj).new hn)
  | go _ _ _ _ _ => exact hjob
  | first _ => exact hjob
  | begin _ => exact hjob
  | skip _ _ _ => exact hjob
  | start _ => exact hjob
  | patch _ => exact hjob
  | applied _ => exact hjob
  | resolve _ => exact hjob
  | record hj => exact Or.inl ((hs.good hj).new rfl)

/-- A reported move is seen, and only what is lost is not seen. -/
theorem seen_run (hgit : git.Sound root) (hreg : base.registry.Lawful)
    (hroot : base.rootPath = root) (h : Run (StillStep git ord) w l w') (hs : Sane base git w)
    (hseen : w.Seen ∨ l.any GitAction.isReported = true) (hl : GitAction.madeUp l = true) :
    w'.Seen := by
  induction h with
  | nil => exact hseen.resolve_right Bool.false_ne_true
  | @cons w t u a l h1 _ ih =>
    rw [GitAction.madeUp, Bool.and_eq_true] at hl
    refine ih (hs.step hgit hreg hroot h1) ?_ hl.2
    cases ha : a.isLost with
    | true => exact Or.inr (by simpa [ha] using hl.1)
    | false => exact Or.inl (seen_step hs ha h1)

namespace OneFile

open Watcher

/-- The size of the file at a commit, zero if it is not there. -/
def size (sha : String) : ℕ := if sha = "c1" then 1 else if sha = "c2" then 2 else 0

/-- The name of the file in the diff. -/
def name : Bytes := [97, 46, 103, 111]

/-- What differs. -/
def change (old new : ℕ) : List Change :=
  if old = new then []
  else if new = 0 then [.one .deleted name]
  else if old = 0 then [.one .added name]
  else [.one .modified name]

/-- The working tree with the file of a size. -/
def treeOf (n : ℕ) : Disk :=
  if n = 0 then emptyDisk else emptyDisk.write fileA.1 ⟨fileA.2.1, fileA.2.2.1⟩ (fileOf n)

def repo : GitRepo where
  tree sha := treeOf (size sha)
  diff old new := Change.renderAll (change (size old) (size new))
  text b := String.ofList (b.map fun x => Char.ofNat x.toNat)

theorem mem_treeOf (n : ℕ) : fileA.1 ∈ (treeOf n).files ↔ n ≠ 0 := by
  rw [treeOf]
  split
  · rename_i hn
    exact ⟨fun hm => absurd hm List.not_mem_nil, fun hne => absurd hn hne⟩
  · rename_i hn
    refine ⟨fun _ => hn, fun _ => ?_⟩
    rw [Disk.write, AList.mem_insert]
    exact Or.inl rfl

theorem readFile_treeOf {f : TreePath "/r"} (hf : f ≠ fileA) (n : ℕ) :
    (treeOf n).readFile f = emptyDisk.readFile f := by
  rw [treeOf]
  split
  · rfl
  · refine emptyDisk.readFile_congr (emptyDisk.stat_write_of_ne _ _ fun heq => hf (Subtype.ext ?_))
    rwa [emptyDisk.abs_eq f.2.1 f.2.2.1] at heq

theorem file_name : repo.file name = some fileA := by decide +kernel

theorem mem_change {old new : ℕ} {c : Change} (h : c ∈ change old new) :
    c = .one .deleted name ∧ new = 0 ∨
      (c = .one .added name ∨ c = .one .modified name) ∧ new ≠ 0 := by
  rw [change] at h
  split at h
  · cases h
  · split at h
    · rename_i hn
      exact Or.inl ⟨List.mem_singleton.mp h, hn⟩
    · rename_i hn
      split at h
      · exact Or.inr ⟨Or.inl (List.mem_singleton.mp h), hn⟩
      · exact Or.inr ⟨Or.inr (List.mem_singleton.mp h), hn⟩

theorem change_of_ne {old new : ℕ} (h : old ≠ new) :
    ∃ c ∈ change old new, c.removed = some name ∨ c.written = some name := by
  rw [change, if_neg h]
  split
  · exact ⟨_, List.mem_singleton_self _, Or.inl rfl⟩
  · split
    · exact ⟨_, List.mem_singleton_self _, Or.inr rfl⟩
    · exact ⟨_, List.mem_singleton_self _, Or.inr rfl⟩

theorem fits (kind : OnePath) :
    (Change.one kind name).WellFormed ∧ (Change.one kind name).Fits := by
  have hname : ∀ path ∈ (Change.one kind name).paths, path = name := fun _ => List.mem_singleton.mp
  refine ⟨fun path hp => ?_, fun path hp => ?_⟩
  · rw [hname path hp]
    decide
  · rw [hname path hp]
    decide

theorem sound : repo.Sound "/r" := by
  intro old new
  refine ⟨change (size old) (size new), rfl, fun c hc => ?_, fun f hf => ?_,
    fun c hc path f hp hfile => ?_, fun c hc path f hp hfile => ?_⟩
  · rcases mem_change hc with ⟨rfl, -⟩ | ⟨rfl | rfl, -⟩ <;> exact fits _
  · by_cases hfa : f = fileA
    · obtain ⟨c, hc, hname⟩ := change_of_ne fun heq : size old = size new =>
        hf (by rw [repo]; simp only [heq])
      exact ⟨c, hc, name, hname, hfa ▸ file_name⟩
    · exact absurd ((readFile_treeOf hfa _).trans (readFile_treeOf hfa _).symm) hf
  · rcases mem_change hc with ⟨rfl, hn⟩ | ⟨rfl | rfl, -⟩
    · cases hp
      cases file_name.symm.trans hfile
      exact fun hm => (mem_treeOf _).mp hm hn
    · cases hp
    · cases hp
  · rcases mem_change hc with ⟨rfl, -⟩ | ⟨rfl | rfl, hn⟩
    · cases hp
    · cases hp
      cases file_name.symm.trans hfile
      exact (mem_treeOf _).mpr hn
    · cases hp
      cases file_name.symm.trans hfile
      exact (mem_treeOf _).mpr hn

/-- The watcher at a commit without the file. -/
def start : GitWatcher "/r" := new sizeIndexer {} "c0"

/-- A step, unless git moves under a callback. -/
def stillStep (w : GitWatcher "/r") (a : GitAction) : Option (GitWatcher "/r") :=
  match a with
  | .move _ _ _ => if w.jobs.keys = [] then w.step repo GoMap.RangeOrder.default a else none
  | _ => w.step repo GoMap.RangeOrder.default a

theorem still_of_step {w w' : GitWatcher "/r"} {a : GitAction} (h : stillStep w a = some w') :
    StillStep repo GoMap.RangeOrder.default w a w' := by
  cases a with
  | move sha rebasing reported =>
    change (if w.jobs.keys = [] then _ else none) = some w' at h
    split at h
    · rename_i hjobs
      exact ⟨h, fun _ _ _ _ => hjobs⟩
    · cases h
  | handle | fire | work | fail => exact ⟨h, fun _ _ _ heq => nomatch heq⟩

/-- A commit is checked out without an event and then another, with the file, and a callback patches
it. -/
def checkout : List GitAction :=
  [.move "c2" false false, .move "c1" false true, .handle, .fire] ++ List.replicate 12 (.work 0)

/-- Where the checkout leads. -/
def checkedOut : GitWatcher "/r" := (checkout.foldlM stillStep start).getD start

theorem run_checkout :
    Run (StillStep repo GoMap.RangeOrder.default) start checkout checkedOut := by
  have h : (checkout.foldlM stillStep start).isSome = true := by decide +kernel
  obtain ⟨w, hw⟩ := Option.isSome_iff_exists.mp h
  have heq : checkedOut = w := by rw [checkedOut, hw, Option.getD_some]
  exact heq ▸ (Run.of_foldlM hw).mono fun hs => still_of_step hs

theorem atHead_start : start.AtHead sizeIndexer repo fileA := by
  have hnone : repo.nodesAt sizeIndexer "c0" fileA = ∅ :=
    extractedNodes_of_notMem (fun hm => (mem_treeOf 0).mp hm rfl) _
  refine Eq.trans (Set.eq_empty_of_forall_notMem fun n hn => ?_) hnone.symm
  cases hn.1

end OneFile

theorem nodes_of_last_checkout :
    OneFile.checkedOut.AtLast Watcher.sizeIndexer OneFile.repo Watcher.fileA :=
  nodes_of_last OneFile.sound Watcher.sizeIndexer_lawful rfl ⟨[], Run.nil _⟩ (by decide)
    OneFile.run_checkout OneFile.atHead_start (by decide +kernel)

end GitWatcher

end Gortex
