import Gortex.Contracts.Registry
import Gortex.Lib.Grouped
import Gortex.Lib.GoString

/-!
# The indexes of the contract registry

The registry of `internal/contracts/registry.go` in full: the operations that write its
four indexes. A contract is stored as the program stores it, a record whose field `Meta`
is a map, and a map is a reference: the copies of a contract in the four indexes share it.
So a state is the tables together with the memory of the maps, and UpgradeBareTypeRefs,
which writes through the references, changes the memory alone.

`Gortex.ContractTables.Indexed` says that the four tables group one multiset of records,
each by its own key; every operation keeps it, and says what becomes of the multiset.
What the tables hold for a reader who follows the references is the registry of the
other passes, `Gortex.ContractRegistry` (`Gortex.ContractTables.Reads`).
-/

namespace Gortex

open GoString Grouped

/-! ### Contracts as they are stored -/

/-- A `map[string]any`, by reference. -/
structure MetaRef where
  addr : ℕ
deriving DecidableEq, Repr

/-- The memory of the maps. -/
abbrev MetaHeap := MetaRef → Metadata

/-- A contract record. A `nil` map is no reference. -/
structure StoredContract where
  id : String
  contractType : ContractType
  role : Role
  symbolID : String
  filePath : String
  line : ℤ
  repoPrefix : String := ""
  metaRef : Option MetaRef := none
  confidence : ℚ
deriving DecidableEq

/-- The contract that a record stands for. -/
def StoredContract.read (heap : MetaHeap) (c : StoredContract) : Contract where
  id := c.id
  contractType := c.contractType
  role := c.role
  symbolID := c.symbolID
  filePath := c.filePath
  line := c.line
  repoPrefix := c.repoPrefix
  metadata := (c.metaRef.map heap).getD ∅
  confidence := c.confidence

/-- Whether `removeContract` takes a record for the target: the line, the type, the
confidence and the map do not matter. -/
def sameContract (target c : StoredContract) : Bool :=
  c.filePath = target.filePath ∧ c.symbolID = target.symbolID ∧ c.role = target.role ∧
    c.id = target.id ∧ c.repoPrefix = target.repoPrefix

/-- The records that are not taken for the target. -/
def removeContract (contracts : List StoredContract) (target : StoredContract) :
    List StoredContract :=
  contracts.filter fun c => !sameContract target c

/-- The four indexes. -/
structure ContractTables where
  byID : GoMap String (List StoredContract) := ∅
  byRepo : GoMap String (List StoredContract) := ∅
  bySymbol : GoMap String (List StoredContract) := ∅
  byFilePath : GoMap String (List StoredContract) := ∅

namespace ContractTables

/-! ### The operations -/

/-- Append a record under `id`, and under its keys in the other three indexes. -/
def insertAt (t : ContractTables) (id : String) (c : StoredContract) : ContractTables where
  byID := push t.byID id c
  byRepo := push t.byRepo c.repoPrefix c
  bySymbol := if c.symbolID ≠ "" then push t.bySymbol c.symbolID c else t.bySymbol
  byFilePath := push t.byFilePath c.filePath c

/-- **Add.** -/
def add (t : ContractTables) (c : StoredContract) : ContractTables := t.insertAt c.id c

/-- **AddAll** adds records as records of a repository. -/
def addAll (t : ContractTables) (contracts : List StoredContract) (repoPrefix : String) :
    ContractTables :=
  contracts.foldl (fun t c => t.add { c with repoPrefix := repoPrefix }) t

/-- `m[key] = removeContract(m[key], old)`. -/
def removeAt (m : GoMap String (List StoredContract)) (key : String) (old : StoredContract) :
    GoMap String (List StoredContract) :=
  m.insert key (removeContract (slice m key) old)

/-- Remove a record from the secondary indexes. -/
def unindex (t : ContractTables) (old : StoredContract) : ContractTables where
  byID := t.byID
  byRepo := removeAt t.byRepo old.repoPrefix old
  bySymbol := if old.symbolID ≠ "" then removeAt t.bySymbol old.symbolID old else t.bySymbol
  byFilePath := removeAt t.byFilePath old.filePath old

/-- **ReplaceByID** swaps the list of the records of an ID: the old ones leave the
secondary indexes, and the new ones are inserted. -/
def replaceByID (t : ContractTables) (id : String) (list : List StoredContract) : ContractTables :=
  let t := (slice t.byID id).foldl unindex t
  let t := { t with byID := t.byID.insert id [] }
  list.foldl (fun t c => t.insertAt id c) t

/-- The same as `removeAt`, and a list that is empty then is deleted. -/
def evictAt (m : GoMap String (List StoredContract)) (key : String) (old : StoredContract) :
    GoMap String (List StoredContract) :=
  if slice (removeAt m key old) key = [] then (removeAt m key old).erase key
  else removeAt m key old

/-- **EvictRepo** removes the records of a repository, and says how many they were. -/
def evictRepo (t : ContractTables) (repoPrefix : String) : ContractTables × ℕ :=
  let contracts := slice t.byRepo repoPrefix
  if contracts = [] then (t, 0)
  else
    ({ byID := contracts.foldl (fun m c => evictAt m c.id c) t.byID
       byRepo := t.byRepo.erase repoPrefix
       bySymbol := contracts.foldl
         (fun m c => if c.symbolID ≠ "" then evictAt m c.symbolID c else m) t.bySymbol
       byFilePath := contracts.foldl (fun m c => evictAt m c.filePath c) t.byFilePath },
      contracts.length)

/-- What resolves a bare type name to symbol IDs, given the repository to prefer. -/
abbrev TypeLookup := String → String → List String

/-- Rewrite a bare type name in a map, if there is one symbol ID for it. -/
def upgrade (lookup : TypeLookup) (key repoHint : String) (r : MetaRef) (heap : MetaHeap) :
    MetaHeap :=
  let v := (heap r).getStr key
  if v = "" ∨ contains v "::" then heap
  else
    match lookup v repoHint with
    | [candidate] => fun r' => if r' = r then (heap r).insert key (.str candidate) else heap r'
    | _ => heap

/-- Rewrite the request and the response type of a record. -/
def upgradeContract (lookup : TypeLookup) (heap : MetaHeap) (c : StoredContract) : MetaHeap :=
  match c.metaRef with
  | none => heap
  | some r =>
    upgrade lookup "response_type" c.repoPrefix r (upgrade lookup "request_type" c.repoPrefix r heap)

/-- One loop of UpgradeBareTypeRefs over an index. -/
def upgradeAll (ord : GoMap.RangeOrder MetaHeap) (lookup : TypeLookup) (heap : MetaHeap)
    (m : GoMap String (List StoredContract)) : MetaHeap :=
  ((ord.order heap m.pairs).flatMap Prod.snd).foldl (upgradeContract lookup) heap

/-- **UpgradeBareTypeRefs** rewrites bare type names in the maps of all records, walking
every index. The lists are put back as they were. -/
def upgradeBareTypeRefs (ord : GoMap.RangeOrder MetaHeap) (lookup : TypeLookup)
    (t : ContractTables) (heap : MetaHeap) : MetaHeap :=
  [t.byID, t.byRepo, t.bySymbol, t.byFilePath].foldl (upgradeAll ord lookup) heap

/-- **Clear.** -/
def clear (_ : ContractTables) : ContractTables := {}

/-! ### One multiset, four keys -/

/-- The key of a record in `bySymbol`: a record without a symbol has none. -/
def symbolKey (c : StoredContract) : Option String := if c.symbolID ≠ "" then some c.symbolID else none

/-- **The four indexes group one multiset of records.** -/
structure Indexed (t : ContractTables) (mult : StoredContract → ℕ) : Prop where
  byID : Groups (fun c => some c.id) mult t.byID
  byRepo : Groups (fun c => some c.repoPrefix) mult t.byRepo
  bySymbol : Groups symbolKey mult t.bySymbol
  byFilePath : Groups (fun c => some c.filePath) mult t.byFilePath

variable {t : ContractTables} {mult : StoredContract → ℕ}

theorem Indexed.empty : Indexed {} fun _ => 0 :=
  ⟨Groups.empty _, Groups.empty _, Groups.empty _, Groups.empty _⟩

theorem symbolKey_of_ne {c : StoredContract} (h : c.symbolID ≠ "") : symbolKey c = some c.symbolID :=
  if_pos h

theorem symbolKey_of_empty {c : StoredContract} (h : ¬c.symbolID ≠ "") : symbolKey c = none :=
  if_neg h

/-- Writing `bySymbol` for a record with a symbol, and leaving it for one without, is right
if the multiset changes at the record only. -/
theorem groups_symbol {m m' : GoMap String (List StoredContract)} {mult' : StoredContract → ℕ}
    {c : StoredContract} (h : Groups symbolKey mult m)
    (hkeep : c.symbolID = "" → ∀ c', symbolKey c' ≠ none → mult' c' = mult c')
    (hwrite : c.symbolID ≠ "" → Groups symbolKey mult' m') :
    Groups symbolKey mult' (if c.symbolID ≠ "" then m' else m) := by
  by_cases hs : c.symbolID = ""
  · rw [if_neg (not_not.mpr hs)]
    exact h.congr (fun c' k hk => hkeep hs c' (by rw [hk]; exact nofun)) fun _ => rfl
  · rw [if_pos hs]
    exact hwrite hs

/-- **Inserting a record** under its ID. -/
theorem Indexed.insertAt (h : Indexed t mult) {id : String} {c : StoredContract} (hid : c.id = id) :
    Indexed (t.insertAt id c) fun c' => mult c' + if c' = c then 1 else 0 := by
  subst hid
  refine ⟨h.byID.push rfl, h.byRepo.push rfl, ?_, h.byFilePath.push rfl⟩
  refine groups_symbol h.bySymbol (fun hs c' hk => ?_) fun hs => h.bySymbol.push (symbolKey_of_ne hs)
  have hne : c' ≠ c := fun hc => hk (symbolKey_of_empty (hc ▸ not_not.mpr hs))
  rw [if_neg hne, Nat.add_zero]

/-- Inserting records, all under one ID. -/
theorem Indexed.foldl_insertAt (h : Indexed t mult) {id : String} {l : List StoredContract}
    (hl : ∀ c ∈ l, c.id = id) :
    Indexed (l.foldl (fun t c => t.insertAt id c) t) fun c => mult c + l.count c := by
  induction l generalizing t mult with
  | nil => exact h
  | cons a l ih =>
    have hrest := ih (h.insertAt (hl a List.mem_cons_self)) fun c hc => hl c (List.mem_cons_of_mem _ hc)
    have heq : (fun c => (mult c + if c = a then 1 else 0) + l.count c) =
        fun c => mult c + (a :: l).count c := funext fun c => by
      rw [List.count_cons]
      by_cases hc : c = a
      · simp only [hc, beq_self_eq_true, if_true]
        omega
      · have hne : (a == c) = false := beq_eq_false_iff_ne.mpr (Ne.symm hc)
        simp [hc, hne]
    rwa [heq] at hrest

theorem Indexed.add (h : Indexed t mult) (c : StoredContract) :
    Indexed (t.add c) fun c' => mult c' + if c' = c then 1 else 0 :=
  h.insertAt rfl

/-- **AddAll** adds the records, as those of the repository. -/
theorem Indexed.addAll (h : Indexed t mult) (l : List StoredContract) (repoPrefix : String) :
    ∃ mult', Indexed (t.addAll l repoPrefix) mult' := by
  induction l generalizing t mult with
  | nil => exact ⟨mult, h⟩
  | cons a l ih => exact ih (h.add { a with repoPrefix := repoPrefix })

/-! ### Removing records -/

theorem sameContract_iff {a c : StoredContract} : sameContract a c = true ↔
    c.filePath = a.filePath ∧ c.symbolID = a.symbolID ∧ c.role = a.role ∧ c.id = a.id ∧
      c.repoPrefix = a.repoPrefix :=
  decide_eq_true_iff

/-- The multiset without the records taken for one of a list. -/
def without (mult : StoredContract → ℕ) (l : List StoredContract) (c : StoredContract) : ℕ :=
  if l.any (fun a => sameContract a c) = true then 0 else mult c

theorem without_cons (mult : StoredContract → ℕ) (a : StoredContract) (l : List StoredContract) :
    without mult (a :: l) = without (fun c => if sameContract a c = true then 0 else mult c) l := by
  funext c
  unfold without
  cases hl : l.any fun a => sameContract a c with
  | true => simp [hl]
  | false => cases ha : sameContract a c <;> simp [hl, ha]

theorem slice_removeAt (m : GoMap String (List StoredContract)) (key k : String)
    (old : StoredContract) : slice (removeAt m key old) k =
      if k = key then (slice m key).filter (fun c => !sameContract old c) else slice m k :=
  slice_insert m key k _

/-- Deleting an empty list changes no list. -/
theorem slice_evictAt (m : GoMap String (List StoredContract)) (key k : String)
    (old : StoredContract) : slice (evictAt m key old) k = slice (removeAt m key old) k := by
  unfold evictAt
  by_cases he : slice (removeAt m key old) key = []
  · rw [if_pos he, slice_erase]
    by_cases hk : k = key
    · rw [if_pos hk, hk, he]
    · rw [if_neg hk]
  · rw [if_neg he]

/-- **Removing a record from the list of its key.** -/
theorem groups_removeAt {key : StoredContract → Option String} {k : String} {old : StoredContract}
    {m m' : GoMap String (List StoredContract)} (h : Groups key mult m)
    (hkey : ∀ c, sameContract old c = true → key c = some k)
    (hm : ∀ k', slice m' k' = slice (removeAt m k old) k') :
    Groups key (fun c => if sameContract old c = true then 0 else mult c) m' :=
  h.filterAt hkey fun k' => (hm k').trans (slice_removeAt m k k' old)

/-- A loop that removes records from an index, each at its own key. -/
theorem groups_foldl_remove {key : StoredContract → Option String}
    {f : GoMap String (List StoredContract) → StoredContract → GoMap String (List StoredContract)}
    (hf : ∀ m mult a, Groups key mult m →
      Groups key (fun c => if sameContract a c = true then 0 else mult c) (f m a))
    {m : GoMap String (List StoredContract)} (h : Groups key mult m) (l : List StoredContract) :
    Groups key (without mult l) (l.foldl f m) := by
  induction l generalizing m mult with
  | nil => exact h
  | cons a l ih =>
    rw [without_cons]
    exact ih (hf m mult a h)

theorem symbolKey_of_same {a c : StoredContract} (hs : a.symbolID ≠ "")
    (h : sameContract a c = true) : symbolKey c = some a.symbolID := by
  have hc : c.symbolID = a.symbolID := (sameContract_iff.mp h).2.1
  rw [← hc] at hs ⊢
  exact symbolKey_of_ne hs

/-- Removing a record from `bySymbol`, if it has a symbol. -/
theorem groups_symbol_remove {m m' : GoMap String (List StoredContract)} {a : StoredContract}
    (h : Groups symbolKey mult m)
    (hm : ∀ k, slice m' k = slice (removeAt m a.symbolID a) k) :
    Groups symbolKey (fun c => if sameContract a c = true then 0 else mult c)
      (if a.symbolID ≠ "" then m' else m) := by
  refine groups_symbol h (fun hs c hk => if_neg fun hc => hk (symbolKey_of_empty ?_)) fun hs =>
    groups_removeAt h (fun c => symbolKey_of_same hs) hm
  exact not_not.mpr ((sameContract_iff.mp hc).2.1.trans hs)

/-- The secondary indexes after a list of records has left them. -/
theorem Indexed.foldl_unindex (h : Indexed t mult) (l : List StoredContract) :
    (l.foldl unindex t).byID = t.byID ∧
      Groups (fun c => some c.repoPrefix) (without mult l) (l.foldl unindex t).byRepo ∧
      Groups symbolKey (without mult l) (l.foldl unindex t).bySymbol ∧
      Groups (fun c => some c.filePath) (without mult l) (l.foldl unindex t).byFilePath := by
  have hproj : ∀ (l : List StoredContract) (t : ContractTables),
      (l.foldl unindex t).byID = t.byID ∧
      (l.foldl unindex t).byRepo = l.foldl (fun m c => removeAt m c.repoPrefix c) t.byRepo ∧
      (l.foldl unindex t).bySymbol = l.foldl
        (fun m c => if c.symbolID ≠ "" then removeAt m c.symbolID c else m) t.bySymbol ∧
      (l.foldl unindex t).byFilePath = l.foldl (fun m c => removeAt m c.filePath c) t.byFilePath := by
    intro l
    induction l with
    | nil => exact fun _ => ⟨rfl, rfl, rfl, rfl⟩
    | cons a l ih => exact fun t => ih (t.unindex a)
  obtain ⟨h1, h2, h3, h4⟩ := hproj l t
  refine ⟨h1, ?_, ?_, ?_⟩
  · rw [h2]
    exact groups_foldl_remove (fun m mult a hm => groups_removeAt hm
      (fun c hc => congrArg some (sameContract_iff.mp hc).2.2.2.2) fun _ => rfl) h.byRepo l
  · rw [h3]
    exact groups_foldl_remove (fun m mult a hm => groups_symbol_remove hm fun _ => rfl) h.bySymbol l
  · rw [h4]
    exact groups_foldl_remove (fun m mult a hm => groups_removeAt hm
      (fun c hc => congrArg some (sameContract_iff.mp hc).1) fun _ => rfl) h.byFilePath l

/-- Taking the records of a list out takes out all records of one key, if the list is that
of the key, and only them. -/
theorem without_slice {key : StoredContract → Option String} {m : GoMap String (List StoredContract)}
    {k : String} (h : Groups key mult m)
    (hkey : ∀ a c, sameContract a c = true → key a = key c) (c : StoredContract) :
    without mult (slice m k) c = if key c = some k then 0 else mult c := by
  unfold without
  by_cases hc : key c = some k
  · rw [if_pos hc]
    by_cases hmem : c ∈ slice m k
    · rw [if_pos]
      exact List.any_eq_true.mpr ⟨c, hmem, sameContract_iff.mpr ⟨rfl, rfl, rfl, rfl, rfl⟩⟩
    · have hzero : mult c = 0 := by
        by_contra hne
        exact hmem (h.mem_iff.mpr ⟨hc, Nat.pos_of_ne_zero hne⟩)
      rw [hzero, ite_self]
  · rw [if_neg hc, if_neg]
    intro hany
    obtain ⟨a, ha, hsame⟩ := List.any_eq_true.mp hany
    exact hc ((hkey a c hsame).symm.trans (h.mem_iff.mp ha).1)

/-- **ReplaceByID** puts the list in the place of the records of the ID. -/
theorem Indexed.replaceByID (h : Indexed t mult) {id : String} {l : List StoredContract}
    (hl : ∀ c ∈ l, c.id = id) :
    Indexed (t.replaceByID id l) fun c => (if c.id = id then 0 else mult c) + l.count c := by
  refine Indexed.foldl_insertAt ?_ hl
  have hout : without mult (slice t.byID id) = fun c => if c.id = id then 0 else mult c :=
    funext fun c => by
      rw [without_slice h.byID fun a c hs => congrArg some (sameContract_iff.mp hs).2.2.2.1.symm]
      exact if_congr Option.some_inj rfl rfl
  obtain ⟨h1, h2, h3, h4⟩ := h.foldl_unindex (slice t.byID id)
  rw [hout] at h2 h3 h4
  refine ⟨?_, h2, h3, h4⟩
  rw [h1]
  refine (h.byID.clearAt (slice_insert t.byID id · [])).congr (fun c k _ => ?_) fun _ => rfl
  exact if_congr Option.some_inj.symm rfl rfl

/-- **EvictRepo** takes the records of the repository out of the multiset. -/
theorem Indexed.evictRepo (h : Indexed t mult) (repoPrefix : String) :
    Indexed (t.evictRepo repoPrefix).1 fun c => if c.repoPrefix = repoPrefix then 0 else mult c := by
  have hout : without mult (slice t.byRepo repoPrefix) =
      fun c => if c.repoPrefix = repoPrefix then 0 else mult c := funext fun c => by
    rw [without_slice h.byRepo fun a c hs => congrArg some (sameContract_iff.mp hs).2.2.2.2.symm]
    exact if_congr Option.some_inj rfl rfl
  unfold ContractTables.evictRepo
  simp only
  by_cases hnil : slice t.byRepo repoPrefix = []
  · -- nothing is stored for the repository, so nothing has to go
    rw [if_pos hnil]
    have hsame : (fun c => if c.repoPrefix = repoPrefix then 0 else mult c) = mult := by
      rw [← hout, hnil]
      rfl
    rwa [hsame]
  · rw [if_neg hnil, ← hout]
    refine ⟨?_, ?_, ?_, ?_⟩
    · exact groups_foldl_remove (fun m mult a hm => groups_removeAt hm
        (fun c hc => congrArg some (sameContract_iff.mp hc).2.2.2.1) (slice_evictAt m a.id · a))
        h.byID _
    · rw [hout]
      refine (h.byRepo.clearAt (slice_erase t.byRepo repoPrefix ·)).congr (fun c k _ => ?_)
        fun _ => rfl
      exact if_congr Option.some_inj.symm rfl rfl
    · exact groups_foldl_remove (fun m mult a hm =>
        groups_symbol_remove hm (slice_evictAt m a.symbolID · a)) h.bySymbol _
    · exact groups_foldl_remove (fun m mult a hm => groups_removeAt hm
        (fun c hc => congrArg some (sameContract_iff.mp hc).1) (slice_evictAt m a.filePath · a))
        h.byFilePath _

/-! ### Runs of operations -/

/-- The operations that write the registry. -/
inductive Op
  | add (c : StoredContract)
  | addAll (contracts : List StoredContract) (repoPrefix : String)
  | replaceByID (id : String) (list : List StoredContract)
  | upgradeBareTypeRefs (ord : GoMap.RangeOrder MetaHeap) (lookup : TypeLookup)
  | evictRepo (repoPrefix : String)
  | clear

/-- What the callers of ReplaceByID guarantee: the new records are records of the ID. -/
def Op.Legal : Op → Prop
  | replaceByID id list => ∀ c ∈ list, c.id = id
  | _ => True

/-- The registry: its tables, and the memory of the maps. -/
structure State where
  tables : ContractTables
  heap : MetaHeap

/-- The registry after an operation. -/
def State.apply (s : State) : Op → State
  | .add c => { s with tables := s.tables.add c }
  | .addAll contracts repoPrefix => { s with tables := s.tables.addAll contracts repoPrefix }
  | .replaceByID id list => { s with tables := s.tables.replaceByID id list }
  | .upgradeBareTypeRefs ord lookup =>
    { s with heap := s.tables.upgradeBareTypeRefs ord lookup s.heap }
  | .evictRepo repoPrefix => { s with tables := (s.tables.evictRepo repoPrefix).1 }
  | .clear => { s with tables := s.tables.clear }

/-- Every stored record. -/
def contracts (t : ContractTables) : List StoredContract := elements t.byID

/-- **The registry is consistent**: a list of an index holds exactly the stored records of
its key, each as often as it is stored. -/
structure Consistent (t : ContractTables) : Prop where
  byID : ∀ id, (slice t.byID id).Perm (t.contracts.filter fun c => c.id = id)
  byRepo : ∀ repoPrefix,
    (slice t.byRepo repoPrefix).Perm (t.contracts.filter fun c => c.repoPrefix = repoPrefix)
  bySymbol : ∀ symbolID, (slice t.bySymbol symbolID).Perm
    (t.contracts.filter fun c => c.symbolID = symbolID ∧ symbolID ≠ "")
  byFilePath : ∀ filePath,
    (slice t.byFilePath filePath).Perm (t.contracts.filter fun c => c.filePath = filePath)

theorem Indexed.consistent (h : Indexed t mult) : Consistent t := by
  refine ⟨fun k => ?_, fun k => ?_, fun k => ?_, fun k => ?_⟩
  · simpa only [Option.some_inj, contracts] using h.byID.perm h.byID (fun _ => Option.some_ne_none _) k
  · simpa only [Option.some_inj, contracts] using h.byRepo.perm h.byID (fun _ => Option.some_ne_none _) k
  · have hkey : ∀ c, symbolKey c = some k ↔ c.symbolID = k ∧ k ≠ "" := fun c => by
      unfold symbolKey
      by_cases hs : c.symbolID = ""
      · rw [if_neg (not_not.mpr hs)]
        exact iff_of_false (Option.some_ne_none k).symm fun hc => hc.2 (hc.1.symm.trans hs)
      · rw [if_pos hs, Option.some_inj]
        exact ⟨fun hc => ⟨hc, hc ▸ hs⟩, And.left⟩
    simpa only [hkey, contracts] using h.bySymbol.perm h.byID (fun _ => Option.some_ne_none _) k
  · simpa only [Option.some_inj, contracts] using h.byFilePath.perm h.byID (fun _ => Option.some_ne_none _) k

theorem Indexed.count_contracts (h : Indexed t mult) (c : StoredContract) :
    t.contracts.count c = mult c :=
  h.byID.count_elements rfl

/-- **One operation keeps the four indexes together.** -/
theorem Indexed.apply {s : State} (h : Indexed s.tables mult) {op : Op} (hop : op.Legal) :
    ∃ mult', Indexed (s.apply op).tables mult' := by
  cases op with
  | add c => exact ⟨_, h.add c⟩
  | addAll l repoPrefix => exact h.addAll l repoPrefix
  | replaceByID id l => exact ⟨_, h.replaceByID hop⟩
  | upgradeBareTypeRefs ord lookup => exact ⟨mult, h⟩
  | evictRepo repoPrefix => exact ⟨_, h.evictRepo repoPrefix⟩
  | clear => exact ⟨_, Indexed.empty⟩

theorem Indexed.foldl_apply {ops : List Op} {s : State} (h : Indexed s.tables mult)
    (hops : ∀ op ∈ ops, op.Legal) : ∃ mult', Indexed (ops.foldl State.apply s).tables mult' := by
  induction ops generalizing s mult with
  | nil => exact ⟨mult, h⟩
  | cons op ops ih =>
    obtain ⟨mult', h'⟩ := h.apply (hops op List.mem_cons_self)
    exact ih h' fun op' hop' => hops op' (List.mem_cons_of_mem _ hop')

/-- What EvictRepo does to consistent tables: the records of the repository go, and no
other ones, and their number is returned. -/
theorem Indexed.perm_evictRepo (h : Indexed t mult) (repoPrefix : String) :
    (t.evictRepo repoPrefix).1.contracts.Perm
        (t.contracts.filter fun c => c.repoPrefix ≠ repoPrefix) ∧
      (t.evictRepo repoPrefix).2 =
        (t.contracts.filter fun c => c.repoPrefix = repoPrefix).length := by
  constructor
  · refine List.perm_iff_count.mpr fun c => ?_
    rw [(h.evictRepo repoPrefix).count_contracts]
    by_cases hc : c.repoPrefix = repoPrefix
    · rw [if_pos hc]
      exact (List.count_eq_zero_of_not_mem fun hmem => by simp [hc] at hmem).symm
    · rw [if_neg hc, List.count_filter (by simpa using hc), h.count_contracts]
  · rw [← (h.consistent.byRepo repoPrefix).length_eq]
    unfold ContractTables.evictRepo
    simp only
    by_cases hnil : slice t.byRepo repoPrefix = []
    · rw [if_pos hnil, hnil, List.length_nil]
    · rw [if_neg hnil]

/-- **The registry stays consistent**: after every sequence of operations, from the empty
registry and whatever the maps hold, the indexes hold the stored records, grouped by their
keys; and evicting a repository then removes its records and no others. -/
theorem consistent_run (ops : List Op) (hops : ∀ op ∈ ops, op.Legal) (heap : MetaHeap) :
    Consistent (ops.foldl State.apply ⟨{}, heap⟩).tables ∧
      ∀ repoPrefix,
        Consistent ((ops.foldl State.apply ⟨{}, heap⟩).tables.evictRepo repoPrefix).1 ∧
        ((ops.foldl State.apply ⟨{}, heap⟩).tables.evictRepo repoPrefix).1.contracts.Perm
          ((ops.foldl State.apply ⟨{}, heap⟩).tables.contracts.filter
            fun c => c.repoPrefix ≠ repoPrefix) := by
  have hempty : Indexed (State.mk {} heap).tables fun _ => 0 := Indexed.empty
  obtain ⟨mult, h⟩ := hempty.foldl_apply hops
  exact ⟨h.consistent, fun repoPrefix =>
    ⟨(h.evictRepo repoPrefix).consistent, (h.perm_evictRepo repoPrefix).1⟩⟩

namespace TwoRepos

/-- A route of one repository, called twice on one line from another. -/
def ops : List Op :=
  let route : StoredContract :=
    { id := "http::GET::/users", contractType := .http, role := .provider, symbolID := "api::list",
      filePath := "api/a.go", line := 3, repoPrefix := "api", metaRef := some ⟨0⟩, confidence := 1 }
  let call : StoredContract :=
    { route with role := .consumer, symbolID := "web::load", filePath := "web/b.ts",
                 repoPrefix := "web", metaRef := some ⟨1⟩ }
  [.add route, .addAll [call, call] "web",
    .upgradeBareTypeRefs GoMap.RangeOrder.default fun _ _ => ["api::User"],
    .replaceByID "http::GET::/users" [route, call, call, call]]

/-- Evicting the repository of the calls leaves the route. -/
theorem consistent_ops :
    Consistent (ops.foldl State.apply ⟨{}, fun _ => ∅⟩).tables ∧
      ((ops.foldl State.apply ⟨{}, fun _ => ∅⟩).tables.evictRepo "web").2 = 3 ∧
      (((ops.foldl State.apply ⟨{}, fun _ => ∅⟩).tables.evictRepo "web").1.contracts.map
        StoredContract.repoPrefix) = ["api"] :=
  have hops : ∀ op ∈ ops, op.Legal := by simp [ops, Op.Legal]
  ⟨(consistent_run ops hops fun _ => ∅).1, by decide +kernel, by decide +kernel⟩

end TwoRepos

/-! ### The registry that is read -/

/-- **The tables read as a registry**: following the references of the records of a list
gives the list of the registry. -/
structure Reads (t : ContractTables) (heap : MetaHeap) (r : ContractRegistry) : Prop where
  byID : ∀ k, r.byID.lookup k = (t.byID.lookup k).map (List.map (StoredContract.read heap))
  byRepo : ∀ k, r.byRepo.lookup k = (t.byRepo.lookup k).map (List.map (StoredContract.read heap))
  bySymbol : ∀ k,
    r.bySymbol.lookup k = (t.bySymbol.lookup k).map (List.map (StoredContract.read heap))
  byFilePath : ∀ k,
    r.byFilePath.lookup k = (t.byFilePath.lookup k).map (List.map (StoredContract.read heap))

/-- The registry that a reader of a state sees. -/
def State.registry (s : State) : ContractRegistry where
  byID := s.tables.byID.mapValues (List.map (StoredContract.read s.heap))
  byRepo := s.tables.byRepo.mapValues (List.map (StoredContract.read s.heap))
  bySymbol := s.tables.bySymbol.mapValues (List.map (StoredContract.read s.heap))
  byFilePath := s.tables.byFilePath.mapValues (List.map (StoredContract.read s.heap))

theorem State.reads_registry (s : State) : Reads s.tables s.heap s.registry :=
  ⟨GoMap.lookup_mapValues _ _, GoMap.lookup_mapValues _ _, GoMap.lookup_mapValues _ _,
    GoMap.lookup_mapValues _ _⟩

theorem lookup_append_read {heap : MetaHeap} {m : GoMap String (List StoredContract)}
    {m' : GoMap String (List Contract)}
    (h : ∀ k, m'.lookup k = (m.lookup k).map (List.map (StoredContract.read heap)))
    (key : String) (c : StoredContract) (k : String) :
    (ContractRegistry.append m' key (c.read heap)).lookup k =
      ((push m key c).lookup k).map (List.map (StoredContract.read heap)) := by
  unfold ContractRegistry.append push slice
  rw [GoMap.lookup_insert, GoMap.lookup_insert, h key, h k]
  by_cases hk : k = key
  · rw [if_pos hk, if_pos hk]
    cases m.lookup key <;> simp
  · rw [if_neg hk, if_neg hk]

/-- **Add on the records is add on what they stand for.** -/
theorem Reads.add {heap : MetaHeap} {r : ContractRegistry} (h : Reads t heap r)
    (c : StoredContract) : Reads (t.add c) heap (r.add (c.read heap)) := by
  refine ⟨lookup_append_read h.byID c.id c, lookup_append_read h.byRepo c.repoPrefix c,
    fun k => ?_, lookup_append_read h.byFilePath c.filePath c⟩
  unfold ContractRegistry.add ContractTables.add insertAt
  by_cases hs : c.symbolID ≠ ""
  · rw [if_pos hs, if_pos (show (c.read heap).symbolID ≠ "" from hs)]
    exact lookup_append_read h.bySymbol c.symbolID c k
  · rw [if_neg hs, if_neg (show ¬(c.read heap).symbolID ≠ "" from hs)]
    exact h.bySymbol k

/-- AddAll on the records is AddAll on what they stand for. -/
theorem Reads.addAll {heap : MetaHeap} {r : ContractRegistry} (h : Reads t heap r)
    (l : List StoredContract) (repoPrefix : String) :
    Reads (t.addAll l repoPrefix) heap (r.addAll (l.map (StoredContract.read heap)) repoPrefix) := by
  induction l generalizing t r with
  | nil => exact h
  | cons c l ih => exact ih (h.add { c with repoPrefix := repoPrefix })

/-- A registry that consistent tables read as stores a contract under its ID. -/
theorem Consistent.id_eq_of_reads {heap : MetaHeap} {r : ContractRegistry} (h : Consistent t)
    (hr : Reads t heap r) {id : String} {c : Contract} (hc : c ∈ r.ofID id) : c.id = id := by
  unfold ContractRegistry.ofID at hc
  rw [hr.byID id] at hc
  cases hl : t.byID.lookup id with
  | none => simp [hl] at hc
  | some l =>
    rw [hl, Option.map_some, Option.getD_some] at hc
    obtain ⟨c', hc', rfl⟩ := List.mem_map.mp hc
    have hslice : slice t.byID id = l := by rw [slice, hl, Option.getD_some]
    exact of_decide_eq_true (List.mem_filter.mp ((h.byID id).mem_iff.mp (hslice ▸ hc'))).2

end ContractTables

end Gortex
