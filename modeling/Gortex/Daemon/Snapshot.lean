import Gortex.Contracts.Contract
import Gortex.Graph.Reachable
import Gortex.Lib.Fold
import Gortex.Lib.GoString

/-!
# Snapshots of the daemon

`cmd/gortex/daemon_snapshot.go`: the daemon writes the graph, and what it knows of
the tracked repositories and their contracts, to a file when it stops, and loads
the file when it starts.

The file is a stream of records, each encoded on its own: a header with the number
of records of every section, and the sections. What encodes a record is the
standard library, which a `Codec` stands for. The loader goes on after a record that fails
to decode, stops at the end of the stream, and filters: records without an ID,
nodes whose ID is an absolute path, and edges with an endpoint it has not loaded.
-/

namespace Gortex

open GoString

/-! ### Records -/

/-- What a restart needs to know of a repository. -/
structure SnapshotRepo where
  repoPrefix : String
  rootPath : String
  fileMtimes : GoMap String ℤ
deriving DecidableEq

/-- The wire form of a contract. -/
structure SnapshotContract where
  id : String
  contractType : String
  role : String
  symbolID : String
  filePath : String
  line : ℤ
  repoPrefix : String
  metadata : Metadata
  confidence : ℚ
deriving DecidableEq

/-- The first record of a snapshot. -/
structure SnapshotHeader where
  schemaVersion : ℤ
  version : String
  nodeCount : ℤ
  edgeCount : ℤ
  repoCount : ℤ
  contractCount : ℤ
deriving DecidableEq

/-- The version of the layout. -/
def snapshotSchemaVersion : ℤ := 2

/-- Flatten a contract into its wire form. -/
def toSnapshotContract (c : Contract) : SnapshotContract where
  id := c.id
  contractType := c.contractType.str
  role := c.role.str
  symbolID := c.symbolID
  filePath := c.filePath
  line := c.line
  repoPrefix := c.repoPrefix
  metadata := c.metadata
  confidence := c.confidence

/-- Rebuild a contract from its wire form; unknown types and roles pass through. -/
def fromSnapshotContract (s : SnapshotContract) : Contract where
  id := s.id
  contractType := ⟨s.contractType⟩
  role := ⟨s.role⟩
  symbolID := s.symbolID
  filePath := s.filePath
  line := s.line
  repoPrefix := s.repoPrefix
  metadata := s.metadata
  confidence := s.confidence

/-- Whether an ID begins with an absolute path. -/
def isStaleAbsPathID (id : String) : Bool := hasPrefix id "/"

/-! ### The wire -/

/-- The encoding of one type of records: what is encoded decodes to itself, and
other bytes may decode or fail to, with the text of the error. -/
structure Format (β α : Type) where
  encode : α → β
  decode : β → Except String α
  decode_encode : ∀ a, decode (encode a) = .ok a

/-- The encodings of the five types of records. -/
structure Codec (β : Type) where
  header : Format β SnapshotHeader
  node : Format β Node
  edge : Format β Edge
  repo : Format β SnapshotRepo
  contract : Format β SnapshotContract

/-- The file at the path of the snapshot: it may not exist, fail to open, or not
be a compressed stream. -/
inductive SnapshotFile (β : Type)
  | absent
  | unreadable (err : String)
  | notGzip (err : String)
  | stream (records : List β)

variable {β : Type}

/-! ### Saving -/

/-- **saveSnapshot** writes the header, the nodes, the edges, the repositories and
the contracts; `ord` is the order the graph lists its nodes and edges in. -/
def saveSnapshot (c : Codec β) (ord : MapOrder) (g : Graph) (repos : List SnapshotRepo)
    (snapContracts : List SnapshotContract) (version : String) : List β :=
  let nodes := (g.allNodes ord).map g.node
  let edges := (g.allEdges ord).map g.edge
  let header : SnapshotHeader :=
    { schemaVersion := snapshotSchemaVersion
      version := version
      nodeCount := nodes.length
      edgeCount := edges.length
      repoCount := repos.length
      contractCount := snapContracts.length }
  c.header.encode header :: (nodes.map c.node.encode ++ (edges.map c.edge.encode ++
    (repos.map c.repo.encode ++ snapContracts.map c.contract.encode)))

/-! ### Loading -/

/-- What the loop of the loader works on. -/
structure Loading where
  graph : Graph
  /-- The IDs of the nodes dropped for being absolute paths. -/
  droppedNodes : List String := []
  loadedIDs : List String := []
  isPartial : Bool := false
  repos : GoMap String SnapshotRepo := ∅
  contracts : GoMap String (List Contract) := ∅

namespace Loading

/-- A record is lost. -/
def lose (s : Loading) : Loading := { s with isPartial := true }

/-- A node is decoded. -/
def addNode (s : Loading) (n : Node) : Loading :=
  if n.id = "" then s.lose
  else if isStaleAbsPathID n.id then { s with droppedNodes := n.id :: s.droppedNodes }
  else { s with graph := s.graph.putNode n, loadedIDs := n.id :: s.loadedIDs }

/-- An edge is decoded. -/
def addEdge (s : Loading) (e : Edge) : Loading :=
  if e.fromID ∈ s.droppedNodes then s
  else if e.toID ∈ s.droppedNodes then s
  else if e.fromID ∉ s.loadedIDs then s
  else if e.toID ∉ s.loadedIDs then s
  else { s with graph := s.graph.putEdge e }

/-- A repository is decoded. -/
def addRepo (s : Loading) (r : SnapshotRepo) : Loading :=
  if r.repoPrefix = "" then s.lose
  else { s with repos := s.repos.insert r.repoPrefix r }

/-- A contract is decoded. -/
def addContract (s : Loading) (sc : SnapshotContract) : Loading :=
  if sc.id = "" then s.lose
  else
    let prev := (s.contracts.lookup sc.repoPrefix).getD []
    { s with contracts := s.contracts.insert sc.repoPrefix (prev ++ [fromSnapshotContract sc]) }

end Loading

/-- **One section**: `n` records are read. At the end of the stream the load ends
with what it has; a record that fails to decode is skipped. -/
def readSection {α : Type} (f : Format β α) (add : Loading → α → Loading) :
    ℕ → Loading → List β → Except Loading (Loading × List β)
  | 0, s, l => .ok (s, l)
  | _ + 1, s, [] => .error s.lose
  | n + 1, s, b :: l =>
    match f.decode b with
    | .error _ => readSection f add n s.lose l
    | .ok a => readSection f add n (add s a) l

/-- The four sections, one after the other. -/
def readSections (c : Codec β) (header : SnapshotHeader) (g : Graph) (l : List β) :
    Except Loading (Loading × List β) := do
  let (s, l) ← readSection c.node Loading.addNode header.nodeCount.toNat { graph := g } l
  let (s, l) ← readSection c.edge Loading.addEdge header.edgeCount.toNat s l
  let (s, l) ← readSection c.repo Loading.addRepo header.repoCount.toNat s l
  readSection c.contract Loading.addContract header.contractCount.toNat s l

/-- What a load returns: the graph, the result of the source, and the text of its
error. -/
structure SnapshotLoad where
  graph : Graph
  loaded : Bool := false
  isPartial : Bool := false
  repos : GoMap String SnapshotRepo := ∅
  contracts : GoMap String (List Contract) := ∅
  err : Option String := none

/-- The result of a load, at the label `validate`. -/
def validate (s : Loading) : SnapshotLoad where
  graph := s.graph
  loaded := true
  isPartial := s.isPartial
  repos := s.repos
  contracts := s.contracts

/-- **loadSnapshot** streams a snapshot into `g`. -/
def loadSnapshot (c : Codec β) (g : Graph) : SnapshotFile β → SnapshotLoad
  | .absent => { graph := g }
  | .unreadable err => { graph := g, err := some ("open snapshot: " ++ err) }
  | .notGzip err => { graph := g, err := some ("gzip reader: " ++ err) }
  | .stream [] => { graph := g, err := some "decode snapshot header: EOF" }
  | .stream (b :: l) =>
    match c.header.decode b with
    | .error err => { graph := g, err := some ("decode snapshot header: " ++ err) }
    | .ok header =>
      if header.schemaVersion ≠ snapshotSchemaVersion then { graph := g }
      else
        match readSections c header g l with
        | .error s => validate s
        | .ok (s, _) => validate s

/-! ### One section -/

namespace Format

variable {α : Type} (f : Format β α)

/-- The record fails to decode. -/
def Fails (b : β) : Prop := ∃ err, f.decode b = .error err

/-- The record decodes to one with the property. -/
def Yields (P : α → Prop) (b : β) : Prop := ∃ a, f.decode b = .ok a ∧ P a

/-- **A record of the section is lost**: the stream ends before the section does,
or a record of it fails to decode or has the property `P`, which is what the loader
takes for damage. -/
def Lost (P : α → Prop) (n : ℕ) (l : List β) : Prop :=
  l.length < n ∨ ∃ b ∈ l.take n, f.Fails b ∨ f.Yields P b

variable {f}

theorem lost_zero {P : α → Prop} {l : List β} : ¬f.Lost P 0 l := by
  rintro (h | ⟨b, hb, -⟩)
  · exact absurd h (Nat.not_lt_zero _)
  · exact List.not_mem_nil hb

theorem lost_cons {P : α → Prop} {n : ℕ} {b : β} {l : List β} :
    f.Lost P (n + 1) (b :: l) ↔ (f.Fails b ∨ f.Yields P b) ∨ f.Lost P n l := by
  simp only [Lost, List.length_cons, List.take_succ_cons, List.mem_cons, exists_eq_or_imp,
    Nat.add_lt_add_iff_right]
  exact or_left_comm

end Format

/-- Where a load ends. -/
def endOf : Except Loading (Loading × List β) → Loading
  | .error s => s
  | .ok (s, _) => s

section Section

variable {α : Type} {f : Format β α} {add : Loading → α → Loading}

/-- **What every record keeps, a section keeps.** -/
theorem readSection_invariant {P : Loading → Prop} (hadd : ∀ s a, P s → P (add s a))
    (hlose : ∀ s, P s → P s.lose) {n : ℕ} {s : Loading} {l : List β} (hs : P s) :
    P (endOf (readSection f add n s l)) := by
  induction n generalizing s l with
  | zero => exact hs
  | succ n ih =>
    cases l with
    | nil => exact hlose s hs
    | cons b l =>
      unfold readSection
      cases f.decode b with
      | error err => exact ih (hlose s hs)
      | ok a => exact ih (hadd s a hs)

/-- The flag of a section that takes the records with `P` for damage. -/
theorem isPartial_readSection {P : α → Prop}
    (hadd : ∀ s a, (add s a).isPartial = true ↔ s.isPartial = true ∨ P a) {n : ℕ} {s : Loading}
    {l : List β} : (endOf (readSection f add n s l)).isPartial = true ↔
      s.isPartial = true ∨ f.Lost P n l := by
  induction n generalizing s l with
  | zero => exact (or_iff_left Format.lost_zero).symm
  | succ n ih =>
    cases l with
    | nil => exact iff_of_true rfl (Or.inr (Or.inl (Nat.succ_pos n)))
    | cons b l =>
      rw [Format.lost_cons, ← or_assoc]
      unfold readSection
      cases hb : f.decode b with
      | error err =>
        rw [ih]
        have hfail : f.Fails b := ⟨err, hb⟩
        exact or_congr_left (iff_of_true rfl (Or.inr (Or.inl hfail)))
      | ok a =>
        rw [ih, hadd]
        refine or_congr_left (or_congr_right ⟨fun h => Or.inr ⟨a, hb, h⟩, ?_⟩)
        rintro (⟨err, he⟩ | ⟨a', ha', h⟩)
        · rw [hb] at he
          cases he
        · rw [hb] at ha'
          cases ha'
          exact h

/-- A section that does not end the load has read its records. -/
theorem drop_of_readSection {n : ℕ} {s s' : Loading} {l l' : List β}
    (h : readSection f add n s l = .ok (s', l')) : l' = l.drop n := by
  induction n generalizing s l with
  | zero =>
    cases h
    rfl
  | succ n ih =>
    cases l with
    | nil => cases h
    | cons b l =>
      unfold readSection at h
      cases hb : f.decode b with
      | error err =>
        rw [hb] at h
        exact ih h
      | ok a =>
        rw [hb] at h
        exact ih h

/-- A section that ends the load found the end of the stream. -/
theorem lt_of_readSection {n : ℕ} {s s' : Loading} {l : List β}
    (h : readSection f add n s l = .error s') : l.length < n := by
  induction n generalizing s l with
  | zero => cases h
  | succ n ih =>
    cases l with
    | nil => exact Nat.succ_pos n
    | cons b l =>
      unfold readSection at h
      cases hb : f.decode b with
      | error err =>
        rw [hb] at h
        exact Nat.succ_lt_succ (ih h)
      | ok a =>
        rw [hb] at h
        exact Nat.succ_lt_succ (ih h)

/-- **A section that was written is read as it was.** -/
theorem readSection_encode (as : List α) (s : Loading) (l : List β) :
    readSection f add as.length s (as.map f.encode ++ l) = .ok (as.foldl add s, l) := by
  induction as generalizing s with
  | nil => rfl
  | cons a as ih =>
    rw [List.length_cons, List.map_cons, List.cons_append, readSection, f.decode_encode]
    exact ih (add s a)

variable {next : Loading × List β → Except Loading (Loading × List β)}

theorem readSection_encode_bind (as : List α) (s : Loading) (l : List β) :
    readSection f add as.length s (as.map f.encode ++ l) >>= next = next (as.foldl add s, l) := by
  rw [readSection_encode]
  rfl

/-- What every record keeps, a section and what follows it keep. -/
theorem readSection_bind_invariant {P : Loading → Prop} (hadd : ∀ s a, P s → P (add s a))
    (hlose : ∀ s, P s → P s.lose) (hnext : ∀ s l, P s → P (endOf (next (s, l)))) {n : ℕ}
    {s : Loading} {l : List β} (hs : P s) : P (endOf (readSection f add n s l >>= next)) := by
  have h := readSection_invariant (f := f) (n := n) (l := l) hadd hlose hs
  cases hr : readSection f add n s l with
  | error s' =>
    rw [hr] at h
    exact h
  | ok sl =>
    rw [hr] at h
    exact hnext sl.1 sl.2 h

/-- The flag of a section and what follows it. -/
theorem isPartial_readSection_bind {P : α → Prop} {Q : List β → Prop}
    (hadd : ∀ s a, (add s a).isPartial = true ↔ s.isPartial = true ∨ P a)
    (hnext : ∀ s l, (endOf (next (s, l))).isPartial = true ↔ s.isPartial = true ∨ Q l) {n : ℕ}
    {s : Loading} {l : List β} : (endOf (readSection f add n s l >>= next)).isPartial = true ↔
      s.isPartial = true ∨ f.Lost P n l ∨ Q (l.drop n) := by
  have h := isPartial_readSection (f := f) (n := n) (s := s) (l := l) hadd
  cases hr : readSection f add n s l with
  | error s' =>
    have hlost : f.Lost P n l := Or.inl (lt_of_readSection hr)
    rw [hr] at h
    exact iff_of_true (h.mpr (Or.inr hlost)) (Or.inr (Or.inl hlost))
  | ok sl =>
    obtain ⟨s', l'⟩ := sl
    rw [hr] at h
    rw [← drop_of_readSection hr, ← or_assoc, ← h]
    exact hnext s' l'

end Section

/-! ### The whole stream -/

/-- **A record of the snapshot is lost**: of one of the four sections, the first of
which starts at the head of the stream. -/
def SnapshotHeader.Lost (c : Codec β) (header : SnapshotHeader) (l : List β) : Prop :=
  c.node.Lost (fun n => n.id = "") header.nodeCount.toNat l ∨
    let l := l.drop header.nodeCount.toNat
    c.edge.Lost (fun _ => False) header.edgeCount.toNat l ∨
      let l := l.drop header.edgeCount.toNat
      c.repo.Lost (fun r => r.repoPrefix = "") header.repoCount.toNat l ∨
        let l := l.drop header.repoCount.toNat
        c.contract.Lost (fun sc => sc.id = "") header.contractCount.toNat l

namespace Loading

theorem isPartial_addNode (s : Loading) (n : Node) :
    (s.addNode n).isPartial = true ↔ s.isPartial = true ∨ n.id = "" := by
  unfold addNode
  by_cases hid : n.id = ""
  · rw [if_pos hid]
    exact iff_of_true rfl (Or.inr hid)
  · rw [if_neg hid, or_iff_left hid]
    split <;> rfl

theorem isPartial_addEdge (s : Loading) (e : Edge) : (s.addEdge e).isPartial = s.isPartial := by
  unfold addEdge
  split_ifs <;> rfl

theorem isPartial_addRepo (s : Loading) (r : SnapshotRepo) :
    (s.addRepo r).isPartial = true ↔ s.isPartial = true ∨ r.repoPrefix = "" := by
  unfold addRepo
  by_cases hp : r.repoPrefix = ""
  · rw [if_pos hp]
    exact iff_of_true rfl (Or.inr hp)
  · rw [if_neg hp, or_iff_left hp]

theorem isPartial_addContract (s : Loading) (sc : SnapshotContract) :
    (s.addContract sc).isPartial = true ↔ s.isPartial = true ∨ sc.id = "" := by
  unfold addContract
  by_cases hid : sc.id = ""
  · rw [if_pos hid]
    exact iff_of_true rfl (Or.inr hid)
  · rw [if_neg hid, or_iff_left hid]

end Loading

/-- **The flag says exactly whether a record is lost.** -/
theorem isPartial_readSections (c : Codec β) (header : SnapshotHeader) (g : Graph) (l : List β) :
    (endOf (readSections c header g l)).isPartial = true ↔ header.Lost c l := by
  unfold readSections SnapshotHeader.Lost
  rw [isPartial_readSection_bind Loading.isPartial_addNode fun s l =>
    isPartial_readSection_bind (fun s e => by rw [Loading.isPartial_addEdge, or_false]) fun s l =>
      isPartial_readSection_bind Loading.isPartial_addRepo fun s l =>
        isPartial_readSection Loading.isPartial_addContract]
  exact or_iff_right Bool.false_ne_true

/-- What holds of the graph while it is loaded: the invariant, the loaded nodes are
the stored ones, and an edge has both its endpoints among them. -/
structure Loading.OK (s : Loading) : Prop where
  inv : Graph.Inv s.graph
  loaded : ∀ id, id ∈ s.loadedIDs ↔ (s.graph.nodeAt id).isSome
  edges : ∀ e, s.graph.StoredEdge e → e.fromID ∈ s.loadedIDs ∧ e.toID ∈ s.loadedIDs

namespace Loading

theorem OK.of_eq {s s' : Loading} (h : OK s) (hg : s'.graph = s.graph)
    (hl : s'.loadedIDs = s.loadedIDs) : OK s' :=
  ⟨hg ▸ h.inv, by rw [hg, hl]; exact h.loaded, by rw [hg, hl]; exact h.edges⟩

theorem OK.lose {s : Loading} (h : OK s) : OK s.lose := h.of_eq rfl rfl

theorem OK.addNode {s : Loading} (h : OK s) (n : Node) : OK (s.addNode n) := by
  unfold Loading.addNode
  split
  · exact h.lose
  split
  · exact h.of_eq rfl rfl
  refine ⟨h.inv.putNode n, fun id => ?_, fun e he => ?_⟩
  · rw [h.inv.nodes.nodeAt_putNode, List.mem_cons, h.loaded]
    by_cases hid : id = n.id
    · rw [if_pos hid]
      exact iff_of_true (Or.inl hid) rfl
    · rw [if_neg hid, or_iff_right hid]
  · rw [Graph.storedEdge_putNode] at he
    exact ⟨List.mem_cons_of_mem _ (h.edges e he).1, List.mem_cons_of_mem _ (h.edges e he).2⟩

theorem OK.addEdge {s : Loading} (h : OK s) (e : Edge) : OK (s.addEdge e) := by
  unfold Loading.addEdge
  split_ifs with _ _ hf ht
  · exact h
  · exact h
  · refine ⟨h.inv.putEdge e, fun id => ?_, fun e' he' => ?_⟩
    · rw [Graph.nodeAt_putEdge]
      exact h.loaded id
    · rcases (h.inv.storedEdge_putEdge e e').mp he' with rfl | ⟨he', -⟩
      · exact ⟨hf, ht⟩
      · exact h.edges e' he'
  · exact h
  · exact h

theorem OK.addRepo {s : Loading} (h : OK s) (r : SnapshotRepo) : OK (s.addRepo r) := by
  unfold Loading.addRepo
  split
  · exact h.lose
  · exact h.of_eq rfl rfl

theorem OK.addContract {s : Loading} (h : OK s) (sc : SnapshotContract) :
    OK (s.addContract sc) := by
  unfold Loading.addContract
  split
  · exact h.lose
  · exact h.of_eq rfl rfl

end Loading

/-- **Whatever the stream holds, what is loaded is sound.** -/
theorem readSections_ok (c : Codec β) (header : SnapshotHeader) (l : List β) :
    (endOf (readSections c header Graph.new l)).OK := by
  unfold readSections
  refine readSection_bind_invariant (fun s n h => h.addNode n) (fun s h => h.lose) (fun s l h => ?_)
    ⟨Graph.Inv.new, fun id => ?_, fun e he => ?_⟩
  · refine readSection_bind_invariant (fun s e h => h.addEdge e) (fun s h => h.lose)
      (fun s l h => ?_) h
    refine readSection_bind_invariant (fun s r h => h.addRepo r) (fun s h => h.lose)
      (fun s l h => ?_) h
    exact readSection_invariant (fun s sc h => h.addContract sc) (fun s h => h.lose) h
  · simp [Graph.nodeAt, Graph.getNode, Graph.shardFor, Graph.new, newShard]
  · obtain ⟨r, hr, -⟩ := he
    exact absurd hr List.not_mem_nil

/-! ### The whole file -/

namespace SnapshotFile

/-- The header of a snapshot of the current version, and what follows it. -/
def body (c : Codec β) : SnapshotFile β → Option (SnapshotHeader × List β)
  | .stream (b :: l) =>
    match c.header.decode b with
    | .ok header =>
      if header.schemaVersion = snapshotSchemaVersion then some (header, l) else none
    | .error _ => none
  | _ => none

/-- The header is lost: there is a file, and no header can be read from it. -/
def HeaderLost (c : Codec β) : SnapshotFile β → Prop
  | .absent => False
  | .stream (b :: _) => c.header.Fails b
  | _ => True

end SnapshotFile

theorem loadSnapshot_of_body {c : Codec β} {g : Graph} {file : SnapshotFile β}
    {header : SnapshotHeader} {l : List β} (h : file.body c = some (header, l)) :
    loadSnapshot c g file = validate (endOf (readSections c header g l)) := by
  cases file with
  | stream records =>
    cases records with
    | nil => cases h
    | cons b l' =>
      simp only [SnapshotFile.body] at h
      cases hb : c.header.decode b with
      | error err =>
        rw [hb] at h
        cases h
      | ok header' =>
        rw [hb] at h
        by_cases hv : header'.schemaVersion = snapshotSchemaVersion
        · simp only [if_pos hv, Option.some.injEq, Prod.mk.injEq] at h
          obtain ⟨rfl, rfl⟩ := h
          simp only [loadSnapshot, hb]
          rw [if_neg (not_not.mpr hv)]
          cases readSections c header' g l' <;> rfl
        · simp only [if_neg hv] at h
          cases h
  | _ => cases h

/-- A file without a body is not loaded, and the error is that of the header. -/
theorem loadSnapshot_of_body_eq_none {c : Codec β} {g : Graph} {file : SnapshotFile β}
    (h : file.body c = none) :
    ∃ err, loadSnapshot c g file = { graph := g, err := err } ∧
      (file.HeaderLost c ↔ err.isSome = true) := by
  cases file with
  | absent => exact ⟨none, rfl, by simp [SnapshotFile.HeaderLost]⟩
  | unreadable err => exact ⟨_, rfl, by simp [SnapshotFile.HeaderLost]⟩
  | notGzip err => exact ⟨_, rfl, by simp [SnapshotFile.HeaderLost]⟩
  | stream records =>
    cases records with
    | nil => exact ⟨_, rfl, by simp [SnapshotFile.HeaderLost]⟩
    | cons b l =>
      simp only [SnapshotFile.body] at h
      simp only [loadSnapshot, SnapshotFile.HeaderLost, Format.Fails]
      cases hb : c.header.decode b with
      | error err => exact ⟨_, rfl, by simp⟩
      | ok header =>
        rw [hb] at h
        have hv : header.schemaVersion ≠ snapshotSchemaVersion := fun hv => by
          simp only [if_pos hv] at h
          cases h
        refine ⟨none, ?_, by simp⟩
        simp only
        rw [if_pos hv]

theorem not_headerLost_of_body {c : Codec β} {file : SnapshotFile β}
    {header : SnapshotHeader} {l : List β} (h : file.body c = some (header, l)) :
    ¬file.HeaderLost c := by
  cases file with
  | stream records =>
    cases records with
    | nil => cases h
    | cons b l' =>
      rintro ⟨err, hb⟩
      simp only [SnapshotFile.body, hb] at h
      cases h
  | _ => cases h

/-- **Loading is safe on damaged input**: whatever the file is, the graph loaded
satisfies the representation invariant, an edge of it has both endpoints among its
nodes, a lost header is an error, and past the header the result is partial iff a
record is lost; without a header of the current version nothing is loaded. -/
theorem loadSnapshot_safe (c : Codec β) (file : SnapshotFile β) :
    let r := loadSnapshot c Graph.new file
    r.graph.RepInv ∧
      (∀ e, r.graph.StoredEdge e →
        (r.graph.nodeAt e.fromID).isSome ∧ (r.graph.nodeAt e.toID).isSome) ∧
      (file.HeaderLost c ↔ r.err.isSome = true) ∧
      (∀ header l, file.body c = some (header, l) →
        r.loaded = true ∧ (r.isPartial = true ↔ header.Lost c l)) ∧
      (file.body c = none → r.graph = Graph.new ∧ r.loaded = false) := by
  intro r
  cases hb : file.body c with
  | none =>
    obtain ⟨err, hr, herr⟩ := loadSnapshot_of_body_eq_none (c := c) (g := Graph.new) hb
    have hr : r = { graph := Graph.new, err := err } := hr
    rw [hr]
    refine ⟨Graph.Inv.new.repInv, fun e he => ?_, herr,
      fun _ _ hc => (nomatch hc), fun _ => ⟨rfl, rfl⟩⟩
    obtain ⟨r, hr, -⟩ := he
    exact absurd hr List.not_mem_nil
  | some body =>
    obtain ⟨header, l⟩ := body
    have hok := readSections_ok c header l
    have hr : r = validate _ := loadSnapshot_of_body hb
    rw [hr]
    refine ⟨hok.inv.repInv, fun e he => ?_, ?_, fun header' l' hc => ?_, fun hc => (nomatch hc)⟩
    · exact ⟨(hok.loaded _).mp (hok.edges e he).1, (hok.loaded _).mp (hok.edges e he).2⟩
    · exact iff_of_false (not_headerLost_of_body hb) Bool.false_ne_true
    · cases hc
      exact ⟨rfl, isPartial_readSections c header Graph.new l⟩

/-! ### A codec -/

/-- The records as they are, with one that decodes as nothing. -/
inductive Record
  | header (h : SnapshotHeader)
  | node (n : Node)
  | edge (e : Edge)
  | repo (r : SnapshotRepo)
  | contract (sc : SnapshotContract)
  | corrupt

namespace Record

/-- The codec that keeps the records apart. -/
def codec : Codec Record where
  header :=
    { encode := header
      decode := fun | header h => .ok h | _ => .error "gob: type mismatch"
      decode_encode := fun _ => rfl }
  node :=
    { encode := node
      decode := fun | node n => .ok n | _ => .error "gob: type mismatch"
      decode_encode := fun _ => rfl }
  edge :=
    { encode := edge
      decode := fun | edge e => .ok e | _ => .error "gob: type mismatch"
      decode_encode := fun _ => rfl }
  repo :=
    { encode := repo
      decode := fun | repo r => .ok r | _ => .error "gob: type mismatch"
      decode_encode := fun _ => rfl }
  contract :=
    { encode := contract
      decode := fun | contract sc => .ok sc | _ => .error "gob: type mismatch"
      decode_encode := fun _ => rfl }

end Record

/-- **A snapshot cut before its header is not reported as partial.** -/
theorem not_isPartial_of_truncation :
    ¬∀ (ord : MapOrder) (g : Graph) (n : ℕ),
      n < (saveSnapshot Record.codec ord g [] [] "v1").length →
        (loadSnapshot Record.codec Graph.new
          (.stream ((saveSnapshot Record.codec ord g [] [] "v1").take n))).isPartial = true :=
  fun h => Bool.false_ne_true (h GoMap.RangeOrder.default (Graph.new.putNode
    { id := "a.go", kind := .kindFile, name := "a.go", filePath := "a.go" }) 0 (Nat.succ_pos _))

end Gortex
