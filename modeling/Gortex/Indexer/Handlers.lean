import Gortex.Contracts.SchemaEnrich
import Gortex.Indexer.Indexer

/-!
# Handlers in other files

`resolveProviderHandlers` of `internal/indexer/indexer.go`: a route that is registered in one
file with a handler of another gets the handler for its symbol, by the expression that it was
registered with. The pass takes the pending contracts one after the other and patches all
providers of their ID, so that where routes share an ID the last handler that is found wins for
all of them, whatever they were registered with and whether their schema had been extracted.
`Gortex.Indexer.perRoute_iff` says exactly when each contract is left with a handler of its own.

Files are read and listed once in the source, which makes no difference as neither the disk nor
the graph changes meanwhile.
-/

namespace Gortex

open Contracts GoString

namespace ContractRegistry

/-! ### Replacing the contracts of an ID -/

/-- **removeContract** drops the contracts that agree with another. -/
def removeContract (contracts : List Contract) (target : Contract) : List Contract :=
  contracts.filter fun c => ¬(c.filePath = target.filePath ∧ c.symbolID = target.symbolID ∧
    c.role = target.role ∧ c.id = target.id ∧ c.repoPrefix = target.repoPrefix)

/-- Drop a contract from the list under a key. -/
def removeAt (m : GoMap String (List Contract)) (key : String) (old : Contract) :
    GoMap String (List Contract) :=
  m.insert key (removeContract ((m.lookup key).getD []) old)

/-- Drop a contract from the indexes other than that by ID. -/
def unindex (r : ContractRegistry) (old : Contract) : ContractRegistry :=
  { r with
    byRepo := removeAt r.byRepo old.repoPrefix old
    bySymbol := if old.symbolID ≠ "" then removeAt r.bySymbol old.symbolID old else r.bySymbol
    byFilePath := removeAt r.byFilePath old.filePath old }

/-- Insert a contract under an ID. -/
def insertAt (id : String) (r : ContractRegistry) (c : Contract) : ContractRegistry where
  byID := append r.byID id c
  byRepo := append r.byRepo c.repoPrefix c
  bySymbol := if c.symbolID ≠ "" then append r.bySymbol c.symbolID c else r.bySymbol
  byFilePath := append r.byFilePath c.filePath c

/-- **ReplaceByID** exchanges the contracts of an ID. -/
def replaceByID (r : ContractRegistry) (id : String) (list : List Contract) : ContractRegistry :=
  let r := (r.ofID id).foldl unindex r
  list.foldl (insertAt id) { r with byID := r.byID.insert id [] }

theorem byID_foldl_unindex (r : ContractRegistry) (l : List Contract) :
    (l.foldl unindex r).byID = r.byID := by
  induction l generalizing r with
  | nil => rfl
  | cons c l ih => exact ih _

theorem ofID_insertAt (r : ContractRegistry) (id id' : String) (c : Contract) :
    (insertAt id r c).ofID id' = r.ofID id' ++ if id' = id then [c] else [] := by
  rw [ofID, insertAt, append, GoMap.lookup_insert]
  split_ifs with h
  · rw [h]
    rfl
  · rw [List.append_nil]
    rfl

/-- **What ReplaceByID leaves**: the list that it is given, and the other IDs as they were. -/
theorem ofID_replaceByID (r : ContractRegistry) (id id' : String) (list : List Contract) :
    (r.replaceByID id list).ofID id' = if id' = id then list else r.ofID id' := by
  have hlist : ∀ (r : ContractRegistry), (list.foldl (insertAt id) r).ofID id' =
      r.ofID id' ++ if id' = id then list else [] := by
    induction list with
    | nil => exact fun r => by rw [List.foldl_nil, ite_self, List.append_nil]
    | cons c list ih =>
      intro r
      rw [List.foldl_cons, ih, ofID_insertAt, List.append_assoc]
      split_ifs
      · rfl
      · rfl
  rw [replaceByID, hlist, ofID, GoMap.lookup_insert, byID_foldl_unindex]
  split_ifs
  · rfl
  · rw [List.append_nil]
    rfl

end ContractRegistry

namespace Indexer

/-! ### Finding a handler -/

/-- The identifier, or receiver and method, that a text begins with. -/
def handlerCandidate (l : List Char) : List Char :=
  let suffix := (l.dropWhile isWord).tail.takeWhile isWord
  if (l.dropWhile isWord).head? = some '.' ∧ suffix ≠ [] then l.takeWhile isWord ++ '.' :: suffix
  else l.takeWhile isWord

/-- The candidates of a text, given whether a word ends before it and how many characters belong
to a candidate. -/
def handlerCandidates : Bool → ℕ → List Char → List (List Char)
  | _, _, [] => []
  | _, skip + 1, c :: l => handlerCandidates (isWord c) skip l
  | inWord, 0, c :: l =>
    if inWord = false ∧ isIdentStart c = true then
      handlerCandidate (c :: l) ::
        handlerCandidates (isWord c) ((handlerCandidate (c :: l)).length - 1) l
    else handlerCandidates (isWord c) 0 l

/-- **HandlerCandidatesInTrail**: the identifiers of a call, with a method each if there is
one. -/
def handlerCandidatesInTrail (trail : String) : List String :=
  (handlerCandidates false 0 trail.toList).map String.ofList

/-- The middleware comes before the handler. -/
example : handlerCandidatesInTrail "\"/x\", WithAuth(auth, h.Create.Tuck), 2fa" =
    ["x", "WithAuth", "auth", "h.Create", "Tuck"] := by decide +kernel

/-- **lookupHandler**: the function or method of a name, if there is only one in the repository,
or else if there is only one. -/
def lookupHandler (g : Graph) (ident repoHint : String) : Option Node :=
  let name := String.ofList (ident.toList.reverse.takeWhile (· ≠ '.')).reverse
  if name = "" then none
  else
    let candidates := ((g.findNodesByName name).map g.node).filter fun n =>
      n.kind = .kindFunction ∨ n.kind = .kindMethod
    let inRepo : Node → Bool := fun n => repoHint ≠ "" ∧ hasPrefix n.id (repoHint ++ "/")
    match candidates.filter inRepo, candidates.filter fun n => !inRepo n with
    | [n], _ => some n
    | [], [n] => some n
    | _, _ => none

/-- **resolveInnermostHandler**: the last of the candidates that there is. -/
def resolveInnermostHandler (g : Graph) (trail fallback repoHint : String) : Option Node :=
  let candidates := handlerCandidatesInTrail trail
  let candidates := if candidates = [] ∧ fallback ≠ "" then [fallback] else candidates
  candidates.foldl (fun best c => (lookupHandler g c repoHint).or best) none

/-- The language of a file, by its ending. -/
def detectLangFromPath (path : String) : String :=
  if hasSuffix path ".go" then "go"
  else if hasSuffix path ".ts" ∨ hasSuffix path ".tsx" then "typescript"
  else if hasSuffix path ".js" ∨ hasSuffix path ".jsx" then "javascript"
  else if hasSuffix path ".py" then "python"
  else if hasSuffix path ".java" then "java"
  else if hasSuffix path ".kt" ∨ hasSuffix path ".kts" then "kotlin"
  else if hasSuffix path ".dart" then "dart"
  else ""

/-! ### The pass -/

/-- A contract of which the handler is looked for. -/
structure Pending where
  contractID : String
  trail : String
  fallback : String
  repoHint : String

/-- Whether the schema of a contract was found in the file that registers it. -/
def Extracted (c : Contract) : Prop :=
  c.metadata.getStr "schema_source" = "extracted" ∨ c.metadata.getStr "schema_source" = "partial"

instance (c : Contract) : Decidable (Extracted c) := inferInstanceAs (Decidable (_ ∨ _))

/-- What is looked for, if the contract is a provider with a handler to look for. -/
def pendingOf (c : Contract) : Option Pending :=
  if c.role ≠ .provider ∨ c.contractType ≠ .http then none
  else
    let trail := c.metadata.getStr "handler_trail"
    let fallback := c.metadata.getStr "handler_ident"
    if trail = "" ∧ fallback = "" then none
    else if Extracted c then none
    else some ⟨c.id, trail, fallback, c.repoPrefix⟩

/-- A handler with the lines of its file. -/
structure Handler where
  node : Node
  lines : List (List Char)

variable (idx : Indexer) (disk : Disk) (text : ByteArray → List Char)
  (enrichers : List SchemaEnricher) (g : Graph)

/-- The bytes of a file of the graph. -/
def handlerSource (filePath : String) : Option ByteArray :=
  let diskPath := if idx.repoPrefix ≠ "" ∧ hasPrefix filePath (idx.repoPrefix ++ "/") = true then
    trimPrefix filePath (idx.repoPrefix ++ "/") else filePath
  (disk.readFile (GoPath.join idx.rootPath diskPath)).toOption

/-- The handler that is found for a pending contract, if its file can be read; `text` decodes
the bytes. -/
def findHandler (p : Pending) : Option Handler :=
  (resolveInnermostHandler g p.trail p.fallback p.repoHint).bind fun n =>
    (idx.handlerSource disk n.filePath).map fun src => ⟨n, (text src).splitOn '\n'⟩

/-- **Patch a contract**: a provider gets the handler, and what is read off its body. -/
def patchHandler (h : Handler) (c : Contract) : Contract :=
  if c.role ≠ .provider then c
  else
    let enriched := EnrichHTTPContract enrichers
      { c with symbolID := h.node.id, filePath := h.node.filePath } h.lines
      ((g.getFileNodes h.node.filePath).map g.node) (detectLangFromPath h.node.filePath)
    { enriched with
      metadata := (enriched.metadata.erase "handler_ident").erase "handler_trail" }

/-- One pending contract. -/
def resolvePending (r : ContractRegistry) (p : Pending) : ContractRegistry :=
  match findHandler idx disk text g p with
  | none => r
  | some h =>
    if r.ofID p.contractID = [] then r
    else r.replaceByID p.contractID ((r.ofID p.contractID).map (patchHandler enrichers g h))

/-- **resolveProviderHandlers**: all pending contracts, as they are listed before. -/
def resolveProviderHandlers (ord : GoMap.RangeOrder ContractRegistry) (r : ContractRegistry) :
    ContractRegistry :=
  ((r.all ord).filterMap pendingOf).foldl (resolvePending idx disk text enrichers g) r

/-! ### What the pass does to an ID -/

/-- The handlers that are found for the pending contracts of an ID. -/
def handlersOf (ord : GoMap.RangeOrder ContractRegistry) (r : ContractRegistry) (id : String) :
    List Handler :=
  (((r.all ord).filterMap pendingOf).filter fun p => p.contractID = id).filterMap
    (findHandler idx disk text g)

variable {idx disk text enrichers g}

theorem ofID_resolvePending (r : ContractRegistry) (p : Pending) (id : String) :
    (resolvePending idx disk text enrichers g r p).ofID id = (r.ofID id).map fun c =>
      (([p].filter fun p => p.contractID = id).filterMap (findHandler idx disk text g)).foldl
        (fun c h => patchHandler enrichers g h c) c := by
  have hother : p.contractID ≠ id → ([p].filter fun p => p.contractID = id) = [] :=
    fun hid => List.filter_cons_of_neg (by simpa using hid)
  rw [resolvePending]
  rcases hfind : findHandler idx disk text g p with _ | h
  · have hnone : ([p].filter fun p => p.contractID = id).filterMap (findHandler idx disk text g) =
        [] := by
      by_cases hid : p.contractID = id
      · rw [List.filter_cons_of_pos (by simpa using hid), List.filter_nil, List.filterMap_cons,
          hfind, List.filterMap_nil]
      · rw [hother hid, List.filterMap_nil]
    rw [hnone]
    exact (List.map_id _).symm
  · by_cases hid : p.contractID = id
    · rw [List.filter_cons_of_pos (by simpa using hid), List.filter_nil, List.filterMap_cons,
        hfind, List.filterMap_nil, hid]
      simp only [List.foldl_cons, List.foldl_nil]
      split_ifs with hnil
      · rw [hnil, List.map_nil]
      · rw [ContractRegistry.ofID_replaceByID, if_pos rfl]
    · rw [hother hid, List.filterMap_nil]
      simp only [List.foldl_nil, List.map_id']
      split_ifs
      · rfl
      · rw [ContractRegistry.ofID_replaceByID, if_neg (Ne.symm hid)]

/-- **Every contract of an ID is patched for each handler of the ID.** -/
theorem ofID_resolveProviderHandlers (ord : GoMap.RangeOrder ContractRegistry)
    (r : ContractRegistry) (id : String) :
    (resolveProviderHandlers idx disk text enrichers g ord r).ofID id = (r.ofID id).map fun c =>
      (handlersOf idx disk text g ord r id).foldl (fun c h => patchHandler enrichers g h c) c := by
  rw [resolveProviderHandlers, handlersOf]
  generalize (r.all ord).filterMap pendingOf = todo
  induction todo generalizing r with
  | nil => exact (List.map_id _).symm
  | cons p todo ih =>
    have hsplit : ((p :: todo).filter fun p => p.contractID = id) =
        ([p].filter fun p => p.contractID = id) ++ todo.filter fun p => p.contractID = id :=
      List.filter_append [p] todo
    rw [List.foldl_cons, ih, ofID_resolvePending, List.map_map, hsplit, List.filterMap_append]
    refine List.map_congr_left fun c _ => ?_
    rw [List.foldl_append]
    rfl

/-! ### What a contract is left with -/

/-- What is read off the body of a handler for a contract. -/
def readOff (enrichers : List SchemaEnricher) (g : Graph) (c : Contract) (h : Handler) :
    Metadata :=
  let nodes := (g.getFileNodes h.node.filePath).map g.node
  enrichBody enrichers (detectLangFromPath h.node.filePath) c.role h.lines nodes
    (handlerBodyRange { c with symbolID := h.node.id, filePath := h.node.filePath } nodes h.lines)
    (withPathParams (c.metadata.getStr "path") ∅)

theorem mem_schemaKeys_of_readOff {c : Contract} {h : Handler} {key : String}
    (hkey : ((readOff enrichers g c h).lookup key).isSome = true) : key ∈ schemaKeys :=
  ((Overlays.enrichBody ..).comp (Overlays.withPathParams _)).key hkey

/-- The contract is not a provider, and is left alone. -/
theorem patchHandler_of_ne {c : Contract} (hc : c.role ≠ .provider) (h : Handler) :
    patchHandler enrichers g h c = c := if_pos hc

section Patch

variable {c : Contract} (hc : c.role = .provider) (h : Handler)
include hc

theorem symbolID_patchHandler : (patchHandler enrichers g h c).symbolID = h.node.id := by
  rw [patchHandler, if_neg (not_not.mpr hc)]
  rfl

theorem filePath_patchHandler : (patchHandler enrichers g h c).filePath = h.node.filePath := by
  rw [patchHandler, if_neg (not_not.mpr hc)]
  rfl

/-- **The metadata of a patched contract**: what is read off the body overlays them, and what the
handler was found by is removed. -/
theorem lookup_patchHandler (key : String) : (patchHandler enrichers g h c).metadata.lookup key =
    if key = "handler_trail" ∨ key = "handler_ident" then none
    else ((readOff enrichers g c h).lookup key).or (c.metadata.lookup key) := by
  have hoverlay := ((Overlays.enrichBody enrichers (detectLangFromPath h.node.filePath) c.role
    h.lines ((g.getFileNodes h.node.filePath).map g.node) (handlerBodyRange
      { c with symbolID := h.node.id, filePath := h.node.filePath }
      ((g.getFileNodes h.node.filePath).map g.node) h.lines)).comp
    (Overlays.withPathParams (c.metadata.getStr "path"))).lookup c.metadata key
  rw [patchHandler, if_neg (not_not.mpr hc)]
  simp only [GoMap.lookup_erase, EnrichHTTPContract]
  rw [if_neg (not_not.mpr hc), hoverlay, ite_or]
  rfl

/-- What is read off a body does not depend on what has been read off others. -/
theorem readOff_patchHandler (h' : Handler) :
    readOff enrichers g (patchHandler enrichers g h c) h' = readOff enrichers g c h' := by
  have hpath : (patchHandler enrichers g h c).metadata.getStr "path" =
      c.metadata.getStr "path" := by
    have hnone : (readOff enrichers g c h).lookup "path" = none := by
      by_contra hsome
      exact absurd (mem_schemaKeys_of_readOff (Option.isSome_iff_ne_none.mpr hsome)) (by decide)
    rw [Metadata.getStr, Metadata.getStr, lookup_patchHandler hc, if_neg (by decide), hnone,
      Option.none_or]
  have hrest : patchHandler enrichers g h c = { c with
      symbolID := h.node.id, filePath := h.node.filePath
      metadata := (patchHandler enrichers g h c).metadata } := by
    rw [patchHandler, if_neg (not_not.mpr hc)]
    rfl
  rw [readOff, hpath, hrest]
  rfl

end Patch

/-- The contracts of an ID after the pass. -/
def patched (enrichers : List SchemaEnricher) (g : Graph) (hs : List Handler) (c : Contract) :
    Contract := hs.foldl (fun c h => patchHandler enrichers g h c) c

theorem patched_append (hs hs' : List Handler) (c : Contract) :
    patched enrichers g (hs ++ hs') c = patched enrichers g hs' (patched enrichers g hs c) :=
  List.foldl_append

theorem role_patchHandler (h : Handler) (c : Contract) :
    (patchHandler enrichers g h c).role = c.role := by
  rw [patchHandler]
  split_ifs
  · rfl
  · rfl

theorem role_patched (hs : List Handler) (c : Contract) :
    (patched enrichers g hs c).role = c.role :=
  List.foldl_invariant (P := fun c' : Contract => c'.role = c.role)
    (fun c' h _ hc' => (role_patchHandler h c').trans hc') rfl

theorem readOff_patched {c : Contract} (hc : c.role = .provider) (hs : List Handler)
    (h : Handler) : readOff enrichers g (patched enrichers g hs c) h = readOff enrichers g c h := by
  induction hs using List.reverseRecOn with
  | nil => rfl
  | append_singleton hs h' ih =>
    rw [patched_append]
    exact (readOff_patchHandler ((role_patched hs c).trans hc) h' h).trans ih

/-- What was read off the last of the bodies that have a value for a key. -/
def lastRead (enrichers : List SchemaEnricher) (g : Graph) (hs : List Handler) (c : Contract)
    (key : String) : Option MetaValue :=
  hs.reverse.findSome? fun h => (readOff enrichers g c h).lookup key

/-- **The metadata after several handlers.** -/
theorem lookup_patched {c : Contract} (hc : c.role = .provider) (hs : List Handler) (h : Handler)
    (key : String) : (patched enrichers g (hs ++ [h]) c).metadata.lookup key =
      if key = "handler_trail" ∨ key = "handler_ident" then none
      else (lastRead enrichers g (hs ++ [h]) c key).or (c.metadata.lookup key) := by
  have hlast : ∀ (hs : List Handler) h, lastRead enrichers g (hs ++ [h]) c key =
      ((readOff enrichers g c h).lookup key).or (lastRead enrichers g hs c key) := by
    intro hs h
    rw [lastRead, List.reverse_append, List.reverse_singleton, List.singleton_append,
      List.findSome?_cons]
    cases (readOff enrichers g c h).lookup key with
    | none => rfl
    | some v => rfl
  induction hs using List.reverseRecOn generalizing h with
  | nil =>
    rw [hlast, lastRead, List.reverse_nil, List.findSome?_nil, Option.or_none]
    exact lookup_patchHandler hc h key
  | append_singleton hs h' ih =>
    rw [patched_append]
    change (patchHandler enrichers g h _).metadata.lookup key = _
    rw [lookup_patchHandler ((role_patched _ c).trans hc), readOff_patched hc, ih,
      hlast (hs ++ [h']) h]
    split_ifs
    · rfl
    · rw [Option.or_assoc]

/-! ### A handler for each route -/

/-- The handler of a contract itself, by the call or the identifier that it was registered
with. -/
def ownHandler (g : Graph) (c : Contract) : Option Node :=
  resolveInnermostHandler g (c.metadata.getStr "handler_trail") (c.metadata.getStr "handler_ident")
    c.repoPrefix

/-- **A contract is left with a handler of its own**: a route has the symbol that it had, or its
own handler, and a contract with a schema is as it was. -/
structure PerRoute (g : Graph) (c c' : Contract) : Prop where
  symbolID : c.role = .provider → c.contractType = .http →
    c'.symbolID = c.symbolID ∨ ∃ n, ownHandler g c = some n ∧ c'.symbolID = n.id
  extracted : Extracted c → c'.symbolID = c.symbolID ∧ c'.filePath = c.filePath ∧
    ∀ key, c'.metadata.lookup key = c.metadata.lookup key

/-- **The last handler of an ID suits a contract** that provides the ID: it is the symbol of the
contract, or its own handler, and if the contract has a schema, then it is the symbol, in its file,
the contract has no handler to look for, and its metadata say what is read off the bodies. -/
structure Suits (enrichers : List SchemaEnricher) (g : Graph) (hs : List Handler) (h : Handler)
    (c : Contract) : Prop where
  symbolID : c.contractType = .http →
    h.node.id = c.symbolID ∨ ∃ n, ownHandler g c = some n ∧ h.node.id = n.id
  extracted : Extracted c → h.node.id = c.symbolID ∧ h.node.filePath = c.filePath ∧
    c.metadata.lookup "handler_trail" = none ∧ c.metadata.lookup "handler_ident" = none ∧
    ∀ key v, lastRead enrichers g hs c key = some v → c.metadata.lookup key = some v

theorem PerRoute.refl (g : Graph) (c : Contract) : PerRoute g c c :=
  ⟨fun _ _ => .inl rfl, fun _ => ⟨rfl, rfl, fun _ => rfl⟩⟩

/-- No handler is looked for by what is read off a body. -/
theorem lastRead_eq_none {hs : List Handler} {c : Contract} {key : String}
    (hkey : key ∉ schemaKeys) : lastRead enrichers g hs c key = none := by
  refine List.findSome?_eq_none_iff.mpr fun h _ => ?_
  by_contra hsome
  exact hkey (mem_schemaKeys_of_readOff (Option.isSome_iff_ne_none.mpr hsome))

variable (enrichers g) in
/-- Several handlers leave the metadata as they were. -/
theorem metadata_patched_iff {c : Contract} (hc : c.role = .provider) (hs : List Handler)
    (h : Handler) :
    (∀ key, (patched enrichers g (hs ++ [h]) c).metadata.lookup key = c.metadata.lookup key) ↔
      c.metadata.lookup "handler_trail" = none ∧ c.metadata.lookup "handler_ident" = none ∧
        ∀ key v, lastRead enrichers g (hs ++ [h]) c key = some v →
          c.metadata.lookup key = some v := by
  simp only [lookup_patched hc]
  constructor
  · intro hall
    refine ⟨(hall "handler_trail").symm, (hall "handler_ident").symm, fun key v hv => ?_⟩
    rw [← hall key, if_neg, hv, Option.some_or]
    rintro (rfl | rfl)
    · rw [lastRead_eq_none (by decide)] at hv
      cases hv
    · rw [lastRead_eq_none (by decide)] at hv
      cases hv
  · rintro ⟨htrail, hident, hread⟩ key
    split_ifs with hkey
    · rcases hkey with rfl | rfl
      · exact htrail.symm
      · exact hident.symm
    · cases hv : lastRead enrichers g (hs ++ [h]) c key with
      | none => rw [Option.none_or]
      | some v => rw [Option.some_or, hread key v hv]

/-- One contract is left with a handler of its own exactly if the last one suits it. -/
theorem perRoute_patched_iff (hs : List Handler) (c : Contract) :
    PerRoute g c (patched enrichers g hs c) ↔
      (c.role = .provider → ∀ h ∈ hs.getLast?, Suits enrichers g hs h c) := by
  by_cases hc : c.role = .provider
  · rcases List.eq_nil_or_concat hs with rfl | ⟨hs, h, rfl⟩
    · exact iff_of_true (.refl g c) fun _ h hh => absurd hh (by simp)
    · have hsymbol : (patched enrichers g (hs ++ [h]) c).symbolID = h.node.id := by
        rw [patched_append]
        exact symbolID_patchHandler ((role_patched hs c).trans hc) h
      have hfile : (patched enrichers g (hs ++ [h]) c).filePath = h.node.filePath := by
        rw [patched_append]
        exact filePath_patchHandler ((role_patched hs c).trans hc) h
      rw [List.concat_eq_append, List.getLast?_append, List.getLast?_singleton, Option.some_or]
      simp only [hc, Option.mem_some_iff, forall_eq', true_implies]
      have hmeta := metadata_patched_iff enrichers g hc hs h
      constructor
      · rintro ⟨hown, hkept⟩
        refine ⟨fun ht => hsymbol ▸ hown hc ht, fun hx => ?_⟩
        obtain ⟨h1, h2, h3⟩ := hkept hx
        exact ⟨hsymbol ▸ h1, hfile ▸ h2, hmeta.mp h3⟩
      · rintro ⟨hown, hkept⟩
        refine ⟨fun _ ht => hsymbol ▸ hown ht, fun hx => ?_⟩
        obtain ⟨h1, h2, h3⟩ := hkept hx
        exact ⟨hsymbol ▸ h1, hfile ▸ h2, hmeta.mpr h3⟩
  · have hsame : patched enrichers g hs c = c :=
      List.foldl_invariant (P := fun c' => c' = c)
        (fun c' h _ hc' => by rw [hc', patchHandler_of_ne hc]) rfl
    rw [hsame]
    exact iff_of_true (.refl g c) fun h => absurd h hc

/-- **Routes are left with handlers of their own exactly if, for every ID, the last handler that is
found for it suits all of its providers.** -/
theorem perRoute_iff (ord : GoMap.RangeOrder ContractRegistry) (r : ContractRegistry) :
    (∀ id, List.Forall₂ (PerRoute g) (r.ofID id)
        ((resolveProviderHandlers idx disk text enrichers g ord r).ofID id)) ↔
      ∀ id, ∀ c ∈ r.ofID id, c.role = .provider →
        ∀ h ∈ (handlersOf idx disk text g ord r id).getLast?,
          Suits enrichers g (handlersOf idx disk text g ord r id) h c := by
  refine forall_congr' fun id => ?_
  rw [ofID_resolveProviderHandlers, List.forall₂_map_right_iff, List.forall₂_same]
  exact forall₂_congr fun c _ => perRoute_patched_iff _ c

/-! ### A route that is registered twice -/

namespace TwoRouters

/-- A handler. -/
def handler (id name filePath : String) : Node :=
  { id := id, kind := .kindFunction, name := name, filePath := filePath, startLine := 1 }

/-- Two handlers, in files of their own. -/
def graph : Graph :=
  (Graph.new.putNode (handler "list.go::List" "List" "list.go")).putNode
    (handler "show.go::Show" "Show" "show.go")

/-- The route, as a router registers it. -/
def route (filePath symbolID key value : String) : Contract where
  id := "http::GET::/users"
  contractType := .http
  role := .provider
  symbolID := symbolID
  filePath := filePath
  line := 3
  metadata := (∅ : Metadata).insert key (.str value)
  confidence := 1

/-- One router has the handler in its own file, and the other one in another. -/
def routes : ContractRegistry :=
  (({} : ContractRegistry).add
    (route "list.go" "list.go::List" "schema_source" "extracted")).add
    (route "router.go" "router.go::Routes" "handler_ident" "Show")

/-- A disk with the files of the handlers. -/
def files : Disk where
  files := ((∅ : GoMap String DiskFile).insert "/w/list.go" ⟨.empty, 0, none⟩).insert "/w/show.go"
    ⟨.empty, 0, none⟩
  cwd := "/w"
  isClean := by decide +kernel

/-- The indexer of the repository. -/
def indexer : Indexer where
  registry := {}
  rootPath := "/w"

end TwoRouters

open TwoRouters

/-- **The second router takes the first one's route**: the contract with a schema gets the handler
of the other one. -/
theorem not_perRoute_routes :
    ¬∀ id, List.Forall₂ (PerRoute graph) (routes.ofID id)
      ((resolveProviderHandlers indexer files (fun _ => []) [] graph .default routes).ofID id) := by
  intro h
  have hsymbols : ((resolveProviderHandlers indexer files (fun _ => []) [] graph .default
      routes).ofID "http::GET::/users").map Contract.symbolID =
        ["show.go::Show", "show.go::Show"] := by decide +kernel
  have hpair := h "http::GET::/users"
  generalize (resolveProviderHandlers indexer files (fun _ => []) [] graph .default
    routes).ofID "http::GET::/users" = after at hpair hsymbols
  cases hpair with
  | cons hfirst _ =>
    have hkept := (hfirst.extracted (.inl rfl)).1
    rw [(List.cons.inj hsymbols).1] at hkept
    exact absurd hkept (by decide)

end Indexer

end Gortex
