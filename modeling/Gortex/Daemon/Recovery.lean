import Gortex.Daemon.Restart

/-!
# What a restart recovers

What a daemon that starts on the snapshot of another one makes of the nodes under the path of a
file: a path is evicted if the table of the snapshot has it and there is no file any more, or if
its file is read; what is neither read nor evicted is kept. The files that are not read are those
whose modification time is still the one of when the repository was tracked, and these have not
changed since.
-/

namespace Gortex

open Graph GoString Indexer MultiIndexer

/-! ### What a warm start evicts and keeps -/

theorem GoPath.join_walkRel {root path : String} (hroot : GoPath.isAbs root = true)
    (hp : GoPath.IsClean path ∧ GoPath.isAbs path = true) (hunder : GoPath.Under root path) :
    GoPath.join root (walkRel root path) = path := by
  obtain ⟨ws, hws, hrel⟩ := hunder.rel_eq
  have hne : ws ≠ [] := by
    rintro rfl
    exact hunder.2.2 (by rw [hws, List.append_nil])
  have hplain : ∀ w ∈ ws, GoPath.Plain w := fun w hw =>
    hp.1.plain w (by rw [hws]; exact List.mem_append_right _ hw)
  have hwalk : walkRel root path = GoPath.render ⟨false, ws⟩ := by rw [walkRel, hrel]
  have hsplit : GoPath.splitSlash (walkRel root path).toList = ws := by
    rw [hwalk, GoPath.splitSlash_render hne hplain]
  obtain ⟨hclean, habs⟩ := GoPath.isClean_join hroot (walkRel root path)
  refine hclean.eq_of_comps hp.1 habs hp.2 ?_
  rw [GoPath.comps_join hroot (hsplit.symm ▸ hplain), hsplit, hws]

section Warm

variable {env : RepoEnv} {sord : SnapshotOrder} {disk : Disk} {C : String → Prop}
  {mi : MultiIndexer} {repos : GoMap String SnapshotRepo} {entry : RepoEntry} {path : String}
  {g g' : Graph}

variable (h : WarmStart env disk C mi) (hw : Warmed env sord disk repos mi C g g')
  (hentry : entry ∈ mi.configRepos) (hpath : Below disk entry path)

include h hw hentry hpath

/-- **A path that is evicted** has nothing but what its file gives. -/
theorem WarmStart.bareIn_of_gone (hgone : mi.graphPath env disk entry path ∈
      warmGone mi env disk entry (priorOf sord disk repos entry)) {id : String} (hid : ¬C id)
    (hnone : path ∈ warmFiles mi env disk entry (priorOf sord disk repos entry) →
      (mi.entryIndexer env disk entry).extractedAt disk path
        (walkRel (rootOf disk entry) path) id = none) :
    g'.bareIn (mi.graphPath env disk entry path) id = none := by
  by_cases hnew : ∃ n, ∃ entry' ∈ mi.configRepos,
      WarmNew mi env disk entry' (priorOf sord disk repos entry') id n
  · obtain ⟨n, hn⟩ := hnew
    exact h.bareIn_of_other hw hentry hpath hid hn hnone
  · refine Option.eq_none_iff_forall_ne_some.mpr fun m hm => ?_
    obtain ⟨hat, hfile⟩ := bareIn_eq_some.mp hm
    rw [hw.kept hid fun n hn => hnew ⟨n, hn⟩] at hat
    have hnot := of_decide_eq_true (Option.filter_eq_some_iff.mp hat).2
    refine hnot (List.mem_flatMap.mpr ⟨entry, hentry, ?_⟩)
    rw [hfile]
    exact hgone

/-- **A path that is not evicted** keeps what its file does not give. -/
theorem WarmStart.bareIn_of_not_gone (hgen : Genuine env disk C mi g)
    (hgone : ∀ entry' ∈ mi.configRepos, mi.graphPath env disk entry path ∉
      warmGone mi env disk entry' (priorOf sord disk repos entry')) {id : String} (hid : ¬C id)
    (hnone : path ∈ warmFiles mi env disk entry (priorOf sord disk repos entry) →
      (mi.entryIndexer env disk entry).extractedAt disk path
        (walkRel (rootOf disk entry) path) id = none) :
    g'.bareIn (mi.graphPath env disk entry path) id =
      g.bareIn (mi.graphPath env disk entry path) id := by
  by_cases hnew : ∃ n, ∃ entry' ∈ mi.configRepos,
      WarmNew mi env disk entry' (priorOf sord disk repos entry') id n
  · -- another file gives the ID, so it was never given by this one
    obtain ⟨n, hn⟩ := hnew
    rw [h.bareIn_of_other hw hentry hpath hid hn hnone]
    refine (Option.eq_none_iff_forall_ne_some.mpr fun m hm => ?_).symm
    obtain ⟨d, m', hm', -⟩ := hgen.of_bareIn h hentry hpath hid hm
    obtain ⟨entry', hentry', path', hpath', hx⟩ := hn
    have hbelow := below_of_mem_filesOf (mem_filesOf_of_mem_warmFiles hpath')
    obtain ⟨rfl, rfl⟩ := h.sameFile hentry' hentry hbelow hpath hx hm'
    rw [hx] at hnone
    cases hnone hpath'
  · exact hw.bareIn_of_kept hid hgone fun entry' hentry' n hn => hnew ⟨n, entry', hentry', hn⟩

/-- **What is asked of a file** after a warm start, if the files it does not read are in the graph
already where the snapshot has a table for their repository. -/
theorem WarmStart.inSync_iff_covered (hgen : Genuine env disk C mi g)
    (hfollows : mi.Follows env disk entry path)
    (hunread : (priorOf sord disk repos entry).keys ≠ [] → path ∈ mi.filesOf env disk entry →
      path ∉ warmFiles mi env disk entry (priorOf sord disk repos entry) →
        (mi.entryIndexer env disk entry).InSync disk C (rootOf disk entry) path g) :
    (mi.entryIndexer env disk entry).InSync disk C (rootOf disk entry) path g' ↔
      Covered env disk C mi g (priorOf sord disk repos entry) entry path := by
  have hgone := fun {entry'} (hentry' : entry' ∈ mi.configRepos) =>
    @WarmStart.mem_warmGone_iff env disk mi C entry h entry' hentry hentry' path hpath
      (priorOf sord disk repos)
  unfold Covered
  by_cases hfile : path ∈ mi.filesOf env disk entry
  · rw [if_pos hfile]
    by_cases hk : (priorOf sord disk repos entry).keys = []
    · -- the repository is indexed over what the graph has, and nothing is evicted
      have hkept := fun {id : String} (hid : ¬C id) hnone =>
        h.bareIn_of_not_gone hw hentry hpath hgen
          (fun entry' hentry' hc => ((hgone hentry').mp hc).2.1 hk) hid hnone
      have hwarm : warmFiles mi env disk entry (priorOf sord disk repos entry) =
          (mi.entryIndexer env disk entry).indexFiles disk (rootOf disk entry) := if_pos hk
      rw [or_iff_right fun hc => hc hk]
      by_cases hread : path ∈ (mi.entryIndexer env disk entry).indexFiles disk (rootOf disk entry)
      · rw [if_pos hread]
        refine ⟨fun hsync id n hid hn => ?_, fun hstray => ?_⟩
        · by_contra hnone
          rw [Option.not_isSome_iff_eq_none] at hnone
          have hafter := (hkept hid fun _ => hnone).symm.trans (hsync id hid)
          rw [hnone] at hafter
          exact absurd (hn.symm.trans hafter) (Option.some_ne_none _)
        · exact h.inSync_of_read hw hentry hfile (hwarm ▸ hread) (Or.inr hstray)
      · rw [if_neg hread]
        refine forall₂_congr fun id hid => ?_
        change g'.bareIn (mi.graphPath env disk entry path) id = _ ↔
          g.bareIn (mi.graphPath env disk entry path) id = _
        rw [hkept hid fun hc => absurd (hwarm ▸ hc) hread]
    · refine iff_of_true ?_ (Or.inl hk)
      by_cases hread : path ∈ warmFiles mi env disk entry (priorOf sord disk repos entry)
      · exact h.inSync_of_read hw hentry hfile hread (Or.inl hk)
      · intro id hid
        refine Eq.trans ?_ (hunread hk hfile hread id hid)
        refine h.bareIn_of_not_gone hw hentry hpath hgen (fun entry' hentry' hc => ?_) hid
          fun hc => absurd hc hread
        exact ((hgone hentry').mp hc).2.2.elim hread fun hc => hc.2 hfile
  · rw [if_neg hfile]
    -- the file is gone: the table has its path, or the graph has nothing of it
    have hstat : disk.stat path = none := (hfollows.resolve_left hfile).2.2
    have hread : path ∉ warmFiles mi env disk entry (priorOf sord disk repos entry) := fun hc =>
      hfile (mem_filesOf_of_mem_warmFiles hc)
    have hgives : ∀ id, (mi.entryIndexer env disk entry).extractedAt disk path
        (walkRel (rootOf disk entry) path) id = none := fun id => by
      unfold extractedAt extractFile
      rw [disk.readFile_of_stat_eq_none hstat]
    have hsync : (mi.entryIndexer env disk entry).InSync disk C (rootOf disk entry) path g' ↔
        ∀ id, ¬C id → g'.bareIn (mi.graphPath env disk entry path) id = none := by
      refine forall₂_congr fun id hid => ?_
      rw [hgives]
      rfl
    rw [hsync]
    by_cases hkey : walkRel (rootOf disk entry) path ∈ (priorOf sord disk repos entry).keys
    · refine iff_of_true (fun id hid => ?_) (Or.inl hkey)
      refine h.bareIn_of_gone hw hentry hpath ?_ hid fun _ => hgives id
      exact (hgone hentry).mpr ⟨rfl, List.ne_nil_of_mem hkey, Or.inr ⟨hkey, hfile⟩⟩
    · rw [or_iff_right hkey]
      refine forall₂_congr fun id hid => ?_
      rw [h.bareIn_of_not_gone hw hentry hpath hgen (fun entry' hentry' hc => ?_) hid
        fun _ => hgives id]
      exact ((hgone hentry').mp hc).2.2.elim hread fun hc => hkey hc.1

end Warm

/-! ### What has changed since the repositories were tracked -/

/-- **The table of a full index** has the modification times of the files it takes. -/
theorem lookup_mtimesOf {disk : Disk} {root : String} {files : List String}
    (hfiles : ∀ p ∈ files, GoPath.IsClean p ∧ GoPath.Under root p) {path : String}
    (hc : GoPath.IsClean path) (hu : GoPath.Under root path) {t : ℤ}
    (h : (mtimesOf disk root files).lookup (walkRel root path) = some t) :
    path ∈ files ∧ ∃ info, disk.stat path = some info ∧ info.modTime = t := by
  induction files using List.reverseRecOn with
  | nil => cases h
  | append_singleton files p ih =>
    have hbefore := ih fun q hq => hfiles q (List.mem_append_left _ hq)
    obtain ⟨hpc, hpu⟩ := hfiles p (List.mem_append_right _ (List.mem_singleton_self p))
    have hold : (mtimesOf disk root files).lookup (walkRel root path) = some t →
        path ∈ files ++ [p] ∧ ∃ info, disk.stat path = some info ∧ info.modTime = t := fun hm =>
      ⟨List.mem_append_left _ (hbefore hm).1, (hbefore hm).2⟩
    unfold mtimesOf at h
    rw [List.foldl_append, List.foldl_cons, List.foldl_nil] at h
    cases hstat : disk.stat p with
    | none =>
      rw [hstat] at h
      exact hold h
    | some info =>
      rw [hstat] at h
      change ((mtimesOf disk root files).insert _ _).lookup _ = _ at h
      rw [GoMap.lookup_insert] at h
      by_cases hrel : walkRel root path = walkRel root p
      · rw [if_pos hrel] at h
        obtain rfl := walkRel_inj_of_under hc hpc hu hpu hrel
        exact ⟨List.mem_append_right _ (List.mem_singleton_self path), info, hstat,
          Option.some.inj h⟩
      · rw [if_neg hrel] at h
        exact hold h

namespace Watching

section

variable {env : RepoEnv} {sord : SnapshotOrder} {disk : Disk} {C : String → Prop}
  {mi : MultiIndexer} {w : Watching} {entry : RepoEntry} {path : String}

theorem Since.rootOf_eq (h : Since env disk C mi w) (entry : RepoEntry) :
    rootOf w.disk entry = rootOf disk entry := by
  unfold rootOf
  rw [h.cwd]

theorem Since.entryPrefix_eq (h : Since env disk C mi w) (entry : RepoEntry) :
    entryPrefix env w.disk entry = entryPrefix env disk entry := by
  unfold entryPrefix
  rw [h.rootOf_eq]

theorem Since.entryIndexer_eq (h : Since env disk C mi w) (entry : RepoEntry) :
    mi.entryIndexer env w.disk entry = mi.entryIndexer env disk entry := by
  unfold entryIndexer
  rw [h.entryPrefix_eq]

/-- **The repositories are there** as long as only files change. -/
theorem Since.warmStart (h : Since env disk C mi w) (hwarm : WarmStart env disk C mi)
    (hcontracts : ContractIDs env.extractors w.disk C) : WarmStart env w.disk C mi where
  cwd := h.cwd ▸ hwarm.cwd
  lawful := hwarm.lawful
  contracts := hcontracts
  multi := hwarm.multi
  prefixes := fun entry hentry => by
    rw [h.entryPrefix_eq]
    exact hwarm.prefixes entry hentry
  apart := fun entry hentry entry' hentry' {r r'} => by
    rw [h.entryPrefix_eq, h.entryPrefix_eq]
    exact hwarm.apart entry hentry entry' hentry'
  distinct := by
    have hpre : entryPrefix env w.disk = entryPrefix env disk := funext h.entryPrefix_eq
    rw [hpre]
    exact hwarm.distinct
  dirs := fun entry hentry => by
    have hdir := hwarm.dirs entry hentry
    unfold Disk.isDir at hdir ⊢
    rw [h.rootOf_eq, h.cwd, h.dirs]
    split at hdir
    · rename_i hmem
      rw [if_pos hmem]
    · obtain ⟨_, -, hfalse⟩ := Option.map_eq_some_iff.mp hdir
      cases hfalse

theorem Since.genuine_now (h : Since env disk C mi w) {g : Graph}
    (hg : Genuine env disk C mi g) : Genuine env w.disk C mi g := by
  intro id n hid hn
  obtain ⟨entry, hentry, path, d, m, hbelow, hm, hbare⟩ := hg id n hid hn
  refine ⟨entry, hentry, path, d, m, ?_, ?_, hbare⟩
  · unfold Below
    rw [h.rootOf_eq]
    exact hbelow
  · rw [h.entryIndexer_eq, h.rootOf_eq]
    exact hm

/-- **A file that a restart does not read** has not changed since its repository was tracked, so
that the graph has it. -/
theorem Since.inSync_of_not_read (h : Since env disk C mi w) (hwarm : WarmStart env disk C mi)
    (hentry : entry ∈ mi.configRepos)
    (hk : (mi.metadataOf env disk entry).fileMtimes.keys ≠ [])
    (hfile : path ∈ mi.filesOf env w.disk entry)
    (hread : path ∉ warmFiles mi env w.disk entry (mi.metadataOf env disk entry).fileMtimes) :
    (mi.entryIndexer env w.disk entry).InSync w.disk C (rootOf w.disk entry) path
      w.multiIndexer.store.graph := by
  set table := (mi.metadataOf env disk entry).fileMtimes
  obtain ⟨hp, hunder⟩ := below_of_mem_filesOf hfile
  have hroot : GoPath.isAbs (rootOf w.disk entry) = true :=
    (GoPath.isClean_abs (h.cwd ▸ hwarm.cwd) _).2
  unfold warmFiles at hread
  rw [if_neg hk] at hread
  have hfresh : ¬(mi.priorIndexer env w.disk entry table).isStale w.disk
      (walkRel (rootOf w.disk entry) path) = true := fun hc =>
    hread (List.mem_filter.mpr ⟨hfile, hc⟩)
  have hjoin : GoPath.join (mi.priorIndexer env w.disk entry table).rootPath
      (walkRel (rootOf w.disk entry) path) = path :=
    GoPath.join_walkRel hroot hp hunder
  unfold isStale at hfresh
  rw [hjoin] at hfresh
  split at hfresh
  · exact absurd rfl hfresh
  rename_i t ht
  split at hfresh
  · exact absurd rfl hfresh
  rename_i info' hinfo'
  have hsame : info'.modTime = t := by
    by_contra hc
    exact hfresh (decide_eq_true hc)
  rw [h.rootOf_eq] at hunder ht
  -- the table has the time of the file as it was then
  have hfiles : ∀ p ∈ (mi.entryIndexer env disk entry).indexFiles disk (rootOf disk entry),
      GoPath.IsClean p ∧ GoPath.Under (rootOf disk entry) p := fun p hp =>
    (mem_walkFiles (mem_walkFiles_of_mem_indexFiles hp)).imp And.left id
  obtain ⟨hthen, info, hinfo, htime⟩ := lookup_mtimesOf hfiles hp.1 hunder ht
  rw [disk.stat_eq hp.1 hp.2] at hinfo
  rw [w.disk.stat_eq hp.1 hp.2] at hinfo'
  have hunchanged : path ∉ w.changed := fun hc =>
    h.restamped path hc info info' hinfo hinfo' (hsame.trans htime.symm)
  intro id hid
  have hsync := h.synced entry hentry path hthen hunchanged id hid
  rw [h.entryIndexer_eq, h.rootOf_eq, hsync, extractedAt_congr hp (h.same path hunchanged)]

end

end Watching

/-! ### Restarting -/

section Congr

variable {env : RepoEnv} {disk : Disk} {C : String → Prop} {mi : MultiIndexer} {g g' : Graph}

theorem Indexer.InSync.congr {idx : Indexer} {root path : String}
    (hg : ∀ id, ¬C id → g'.bareAt id = g.bareAt id) (h : idx.InSync disk C root path g) :
    idx.InSync disk C root path g' := fun id hid => by
  rw [bareIn, hg id hid]
  exact h id hid

/-- What has been covered depends on the nodes only. -/
theorem Covered.congr (hg : ∀ id, ¬C id → g'.bareAt id = g.bareAt id)
    {prior : GoMap String ℤ} {entry : RepoEntry} {path : String}
    (h : Covered env disk C mi g prior entry path) : Covered env disk C mi g' prior entry path := by
  have hin : ∀ p id, ¬C id → g'.bareIn p id = g.bareIn p id := fun p id hid => by
    rw [bareIn, hg id hid, bareIn]
  unfold Covered at h ⊢
  split
  · rename_i hfile
    rw [if_pos hfile] at h
    refine h.imp_right fun h => ?_
    split
    · rename_i hread
      rw [if_pos hread] at h
      exact fun id n hid hn => h id n hid ((hin _ id hid).symm.trans hn)
    · rename_i hread
      rw [if_neg hread] at h
      exact InSync.congr hg h
  · rename_i hfile
    rw [if_neg hfile] at h
    exact h.imp_right fun h id hid => (hin _ id hid).trans (h id hid)

/-- What a warm start does depends on the configuration only. -/
theorem Warmed.of_eq {sord : SnapshotOrder} {repos : GoMap String SnapshotRepo}
    {mi' : MultiIndexer} (hw : Warmed env sord disk repos mi' C g g')
    (hreg : mi'.registry = mi.registry) (hconfig : mi'.configRepos = mi.configRepos) :
    Warmed env sord disk repos mi C g g' := by
  have hentry : ∀ entry, mi'.entryIndexer env disk entry = mi.entryIndexer env disk entry :=
    entryIndexer_of_eq hreg hconfig
  unfold Warmed WarmNew warmGone warmFiles priorIndexer at hw ⊢
  simp only [hentry, hconfig] at hw
  exact hw

end Congr

namespace Watching

section

variable {β : Type} (c : Codec β) {env : RepoEnv} {sord : SnapshotOrder} {ord : MapOrder}
  {disk : Disk} {C : String → Prop} {registry : Registry} {configRepos : List RepoEntry}
  {w w' : Watching} {online offline : List WatchAction}

/-- **What a restart makes of a path.** -/
theorem inSync_restart_iff (h : WarmStart env disk C (.fresh registry configRepos))
    (hroots : (configRepos.map (rootOf disk)).Nodup)
    (hrun : Run (Step ord) (start env sord disk (.fresh registry configRepos)) online w)
    (hdown : Run (Step ord) w offline w') (hoffline : ∀ a ∈ offline, a.isChange = true)
    (hcontracts : ContractIDs env.extractors w'.disk C) (snapContracts : List SnapshotContract)
    (version : String) (config : IndexConfig) {entry : RepoEntry} (hentry : entry ∈ configRepos)
    {path : String}
    (hfollows : (MultiIndexer.fresh registry configRepos).Follows env w'.disk entry path) :
    ((MultiIndexer.fresh registry configRepos).entryIndexer env w'.disk entry).InSync w'.disk C
        (rootOf w'.disk entry) path
        (restart env sord c ord w snapContracts version w'.disk registry config
          configRepos).multiIndexer.store.graph ↔
      Covered env w'.disk C (.fresh registry configRepos) w.multiIndexer.store.graph
        ((MultiIndexer.fresh registry configRepos).metadataOf env disk entry).fileMtimes entry
        path := by
  set mi := MultiIndexer.fresh registry configRepos with hmi
  have hsince : Since env disk C mi w := (since_start h rfl rfl rfl).run h hrun
  have hsince' : Since env disk C mi w' := hsince.run h hdown
  have hdaemon : w'.multiIndexer = w.multiIndexer := multiIndexer_of_changes hdown hoffline
  have hwarm' : WarmStart env w'.disk C mi := hsince'.warmStart h hcontracts
  set D := savedSnapshot c ord w.multiIndexer.store.graph
    (collectSnapshotRepos env w.multiIndexer) snapContracts version
  -- the snapshot brings back all nodes but those of contracts
  have hloaded : ∀ id, ¬C id → (loadSnapshot c Graph.new D.file).graph.bareAt id =
      w.multiIndexer.store.graph.bareAt id := fun id hid =>
    bareAt_savedSnapshot h hsince.weak hsince.genuine hid
  have hgen : Genuine env w'.disk C mi (loadSnapshot c Graph.new D.file).graph :=
    hsince'.genuine_now fun id n hid hn => hsince.genuine id n hid ((hloaded id hid).symm.trans hn)
  have hw : Warmed env sord w'.disk (loadedRepos (collectSnapshotRepos env w.multiIndexer)) mi C
      (loadSnapshot c Graph.new D.file).graph
      (restart env sord c ord w snapContracts version w'.disk registry config
        configRepos).multiIndexer.store.graph := by
    unfold restart
    rw [← file_savedSnapshot]
    obtain ⟨state, hstate⟩ : ∃ state, state = buildDaemonState c D.file registry config
      configRepos := ⟨_, rfl⟩
    have hreg : state.multiIndexer.registry = mi.registry := by rw [hstate]; rfl
    have hconfig : state.multiIndexer.configRepos = mi.configRepos := by rw [hstate]; rfl
    rw [← hstate]
    exact (D.warmed hstate (hwarm'.of_eq hreg hconfig)).of_eq hreg hconfig
  have hprior : priorOf sord w'.disk (loadedRepos (collectSnapshotRepos env w.multiIndexer)) entry =
      (mi.metadataOf env disk entry).fileMtimes := by
    refine Eq.trans ?_ (@priorOf_collected env sord disk C mi w entry hsince h hroots hentry)
    unfold priorOf
    rw [hsince'.cwd]
  have hpath : Below w'.disk entry path :=
    hfollows.elim below_of_mem_filesOf fun hf => ⟨hf.1, hf.2.1⟩
  rw [hwarm'.inSync_iff_covered hw hentry hpath hgen hfollows, hprior]
  · exact ⟨fun hc => hc.congr fun id hid => (hloaded id hid).symm, fun hc => hc.congr hloaded⟩
  · rw [hprior]
    intro hk hfile hread
    have hsync := hsince'.inSync_of_not_read h hentry hk hfile hread
    rw [hdaemon] at hsync
    exact hsync.congr hloaded

/-- **A restart recovers exactly if** every path is covered: in every run of a daemon that tracks
its repositories, patches files and stops, whatever happens to the files before the next one
starts. -/
theorem recovers_iff (h : WarmStart env disk C (.fresh registry configRepos))
    (hroots : (configRepos.map (rootOf disk)).Nodup)
    (hrun : Run (Step ord) (start env sord disk (.fresh registry configRepos)) online w)
    (hdown : Run (Step ord) w offline w') (hoffline : ∀ a ∈ offline, a.isChange = true)
    (hcontracts : ContractIDs env.extractors w'.disk C) (snapContracts : List SnapshotContract)
    (version : String) (config : IndexConfig) :
    Recovers env w'.disk C (.fresh registry configRepos)
        (restart env sord c ord w snapContracts version w'.disk registry config
          configRepos).multiIndexer.store.graph ↔
      ∀ entry ∈ configRepos, ∀ path,
        (MultiIndexer.fresh registry configRepos).Follows env w'.disk entry path →
          Covered env w'.disk C (.fresh registry configRepos) w.multiIndexer.store.graph
            ((MultiIndexer.fresh registry configRepos).metadataOf env disk entry).fileMtimes
            entry path :=
  forall₂_congr fun _ hentry => forall₂_congr fun _ hfollows =>
    inSync_restart_iff c h hroots hrun hdown hoffline hcontracts snapContracts version config
      hentry hfollows

end

end Watching

/-! ### Two repositories -/

namespace TwoRepos

/-- The daemon that has tracked the two repositories. -/
def running : Watching := .start env GoMap.RangeOrder.default disk configured

/-- Where a daemon gets to. -/
def endOf (w : Watching) (acts : List WatchAction) : Watching :=
  (acts.foldlM (Watching.step GoMap.RangeOrder.default) w).getD w

theorem run_endOf {acts : List WatchAction} {w : Watching}
    (h : (acts.foldlM (Watching.step GoMap.RangeOrder.default) w).isSome = true) :
    Run (Watching.Step GoMap.RangeOrder.default) w acts (endOf w acts) := by
  obtain ⟨w', hw'⟩ := Option.isSome_iff_exists.mp h
  have hend : endOf w acts = w' := by
    rw [endOf, hw']
    rfl
  rw [hend]
  clear h hend
  induction acts generalizing w with
  | nil =>
    obtain rfl := Option.some.inj hw'
    exact Run.nil w
  | cons a acts ih =>
    rw [List.foldlM_cons] at hw'
    obtain ⟨w₁, hs, hrest⟩ := Option.bind_eq_some_iff.mp hw'
    exact Run.cons hs (ih hrest)

/-- The file of the first repository is edited, and its watcher patches it. -/
def edit : List WatchAction :=
  [.writeFile "/w/a/x.go" (by decide +kernel) (Watcher.fileOf 2),
    .patch "a" "/w/a/x.go" (by decide +kernel) .modified true]

/-- It is deleted while the daemon is down. -/
def deletion : List WatchAction := [.removeFile "/w/a/x.go"]

/-- A file is created in the first repository, and its watcher patches it. -/
def creation : List WatchAction :=
  [.writeFile "/w/a/new.go" (by decide +kernel) (Watcher.fileOf 1),
    .patch "a" "/w/a/new.go" (by decide +kernel) .created true]

/-- That file is deleted while the daemon is down. -/
def undoing : List WatchAction := [.removeFile "/w/a/new.go"]

/-- The disk in the end. -/
def diskAfter (online offline : List WatchAction) : Disk :=
  (endOf (endOf running online) offline).disk

/-- The daemon that starts then. -/
def restarted (online offline : List WatchAction) : DaemonState :=
  Watching.restart env GoMap.RangeOrder.default Record.codec GoMap.RangeOrder.default
    (endOf running online) [] "v1" (diskAfter online offline) Watcher.sizeIndexer.registry {}
    [repoA, repoB]

theorem nodup_roots : ([repoA, repoB].map (rootOf disk)).Nodup := by decide +kernel

theorem isChange_remove {path : String} : ∀ a ∈ [WatchAction.removeFile path], a.isChange = true :=
  fun a ha => by
    obtain rfl := List.mem_singleton.mp ha
    rfl

theorem run_edit : Run (Watching.Step GoMap.RangeOrder.default) running edit (endOf running edit) :=
  run_endOf (by decide +kernel)

theorem run_deletion : Run (Watching.Step GoMap.RangeOrder.default) (endOf running edit) deletion
    (endOf (endOf running edit) deletion) :=
  run_endOf (by decide +kernel)

theorem covered_edit {entry : RepoEntry} (hentry : entry ∈ [repoA, repoB]) {path : String}
    (hfollows : configured.Follows env (diskAfter edit deletion) entry path) :
    Covered env (diskAfter edit deletion) IsDI configured
      (endOf running edit).multiIndexer.store.graph
      (configured.metadataOf env disk entry).fileMtimes entry path := by
  have hwarm : WarmStart env (diskAfter edit deletion) IsDI configured :=
    warmStart rfl rfl (by decide +kernel) (by decide +kernel)
  have hweak : Weak (endOf running edit).multiIndexer.store.graph :=
    ((Watching.since_start (warmStart rfl rfl rfl rfl) rfl rfl rfl).run (warmStart rfl rfl rfl rfl)
      run_edit).weak
  have hfiles : ((endOf running edit).multiIndexer.store.graph.allNodes
      GoMap.RangeOrder.default).all (fun r =>
        ((endOf running edit).multiIndexer.store.graph.node r).filePath = "a/x.go" ∨
          ((endOf running edit).multiIndexer.store.graph.node r).filePath = "b/y.go") = true := by
    decide +kernel
  have hkeys : ∀ e ∈ [repoA, repoB], (configured.metadataOf env disk e).fileMtimes.keys ≠ [] := by
    decide +kernel
  have hx : configured.graphPath env (diskAfter edit deletion) repoA "/w/a/x.go" = "a/x.go" := by
    decide +kernel
  have hy : configured.graphPath env (diskAfter edit deletion) repoB "/w/b/y.go" = "b/y.go" := by
    decide +kernel
  unfold Covered
  split
  · exact Or.inl (hkeys entry hentry)
  · rename_i hnot
    have hbelow : Below (diskAfter edit deletion) entry path :=
      hfollows.elim below_of_mem_filesOf fun hf => ⟨hf.1, hf.2.1⟩
    by_contra hc
    obtain ⟨hkey, hc⟩ := not_or.mp hc
    refine hc fun id hid => Option.eq_none_iff_forall_ne_some.mpr fun n hn => ?_
    obtain ⟨hat, hf⟩ := bareIn_eq_some.mp hn
    obtain ⟨m, hm, rfl⟩ := Option.map_eq_some_iff.mp hat
    obtain rfl := hweak.nodes.id_eq hm
    obtain ⟨r, hr, rfl⟩ := List.mem_map.mp ((hweak.mem_allNodes GoMap.RangeOrder.default).mpr hm)
    have hof := of_decide_eq_true (List.all_eq_true.mp hfiles r hr)
    -- the node is of one of the two files, and both are in the tables
    rcases hof with hof | hof
    · obtain ⟨rfl, rfl⟩ := hwarm.below_inj hentry List.mem_cons_self hbelow
        (by decide +kernel : Below (diskAfter edit deletion) repoA "/w/a/x.go")
        (hf.symm.trans (hof.trans hx.symm))
      exact hkey (by decide +kernel)
    · obtain ⟨rfl, rfl⟩ := hwarm.below_inj hentry (List.mem_cons_of_mem _ List.mem_cons_self) hbelow
        (by decide +kernel : Below (diskAfter edit deletion) repoB "/w/b/y.go")
        (hf.symm.trans (hof.trans hy.symm))
      exact hkey (by decide +kernel)

/-- **An edited file that is deleted while no daemon runs** is not in the graph any more. -/
theorem recovers_edit : Recovers env (diskAfter edit deletion) IsDI configured
    (restarted edit deletion).multiIndexer.store.graph :=
  (Watching.recovers_iff Record.codec (warmStart rfl rfl rfl rfl) nodup_roots run_edit run_deletion
    isChange_remove (contractIDs _) [] "v1" {}).mpr fun _ hentry _ hfollows =>
      covered_edit hentry hfollows

theorem run_creation : Run (Watching.Step GoMap.RangeOrder.default) running creation
    (endOf running creation) :=
  run_endOf (by decide +kernel)

theorem run_undoing : Run (Watching.Step GoMap.RangeOrder.default) (endOf running creation) undoing
    (endOf (endOf running creation) undoing) :=
  run_endOf (by decide +kernel)

/-- **A file that was created since** stays when it is deleted while no daemon runs. -/
theorem not_recovers_creation : ¬Recovers env (diskAfter creation undoing) IsDI configured
    (restarted creation undoing).multiIndexer.store.graph := by
  intro hrec
  have hfollows : configured.Follows env (diskAfter creation undoing) repoA "/w/a/new.go" :=
    Or.inr (by decide +kernel)
  have hcovered : Covered env (diskAfter creation undoing) IsDI configured
      (endOf running creation).multiIndexer.store.graph
      (configured.metadataOf env disk repoA).fileMtimes repoA "/w/a/new.go" :=
    (Watching.inSync_restart_iff Record.codec (warmStart rfl rfl rfl rfl) nodup_roots run_creation
      run_undoing isChange_remove (contractIDs _) [] "v1" {} List.mem_cons_self hfollows).mp
        (hrec repoA List.mem_cons_self "/w/a/new.go" hfollows)
  have hfile : "/w/a/new.go" ∉ configured.filesOf env (diskAfter creation undoing) repoA := by
    decide +kernel
  unfold Covered at hcovered
  rw [if_neg hfile] at hcovered
  rcases hcovered with hkey | hnone
  · exact absurd hkey (by decide +kernel)
  · have hstored : ((endOf running creation).multiIndexer.store.graph.bareIn
        (configured.graphPath env (diskAfter creation undoing) repoA "/w/a/new.go")
          "a/new.go::Old").isSome = true := by decide +kernel
    rw [hnone "a/new.go::Old" (by decide)] at hstored
    cases hstored

/-- **A restart does not always recover.** -/
theorem not_recovers : ¬∀ {β : Type} (c : Codec β) {env : RepoEnv} {sord : SnapshotOrder}
    {ord : MapOrder} {disk : Disk} {C : String → Prop} {registry : Registry}
    {configRepos : List RepoEntry} {w w' : Watching} {online offline : List WatchAction},
    WarmStart env disk C (.fresh registry configRepos) →
    (configRepos.map (rootOf disk)).Nodup →
    Run (Watching.Step ord) (.start env sord disk (.fresh registry configRepos)) online w →
    Run (Watching.Step ord) w offline w' → (∀ a ∈ offline, a.isChange = true) →
    ContractIDs env.extractors w'.disk C → ∀ (snapContracts : List SnapshotContract)
      (version : String) (config : IndexConfig),
      Recovers env w'.disk C (.fresh registry configRepos)
        (w.restart env sord c ord snapContracts version w'.disk registry config
          configRepos).multiIndexer.store.graph := by
  intro h
  exact not_recovers_creation (h Record.codec (warmStart rfl rfl rfl rfl) nodup_roots
    run_creation run_undoing isChange_remove (contractIDs _) [] "v1" {})

end TwoRepos

end Gortex
