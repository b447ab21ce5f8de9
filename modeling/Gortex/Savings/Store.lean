import Mathlib.Algebra.Group.Basic
import Mathlib.Algebra.BigOperators.Group.List.Basic
import Gortex.Lib.GoMap

/-!
# The savings store

`internal/savings/store.go`: every process keeps the totals it last saw on the disk with
what it has observed since, and apart from them the observations the disk does not have
yet. A flush reads the file again under a lock, merges these, and writes the file anew.

The file counts the same three numbers for several scopes – everything, a repository, a
language – and the results are stated scope by scope.
-/

/-- Addition of 64-bit integers, which wraps around. -/
instance Int64.instAddCommMonoid : AddCommMonoid Int64 where
  add_assoc := Int64.add_assoc
  zero_add := Int64.zero_add
  add_zero := Int64.add_zero
  add_comm := Int64.add_comm
  nsmul := nsmulRec

namespace Gortex.Savings

/-! ### Totals -/

/-- The record of one scope. -/
@[ext]
structure Totals where
  tokensSaved : Int64
  tokensReturned : Int64
  callsCounted : Int64
deriving DecidableEq

namespace Totals

instance : Zero Totals := ⟨⟨0, 0, 0⟩⟩

/-- `mergeTotals`. -/
instance : Add Totals := ⟨fun dst src =>
  ⟨dst.tokensSaved + src.tokensSaved, dst.tokensReturned + src.tokensReturned,
    dst.callsCounted + src.callsCounted⟩⟩

instance : AddCommMonoid Totals where
  add_assoc a b c := Totals.ext (add_assoc _ _ _) (add_assoc _ _ _) (add_assoc _ _ _)
  zero_add a := Totals.ext (zero_add _) (zero_add _) (zero_add _)
  add_zero a := Totals.ext (add_zero _) (add_zero _) (add_zero _)
  add_comm a b := Totals.ext (add_comm _ _) (add_comm _ _) (add_comm _ _)
  nsmul := nsmulRec

end Totals

/-- The totals by name. -/
abbrev Buckets := GoMap String Totals

/-- The totals of a name, zero if there are none. -/
def Buckets.at (m : Buckets) (key : String) : Totals := (m.lookup key).getD 0

/-- What totals are counted for. -/
inductive Scope
  | total
  | repo (path : String)
  | language (name : String)
deriving DecidableEq, Repr

/-! ### The file -/

/-- A file of the current schema version. -/
structure SavingsFile where
  firstSeen : ℤ
  lastUpdated : ℤ := 0
  totals : Totals := 0
  perRepo : Buckets := ∅
  perLanguage : Buckets := ∅

/-- What is at the path of the file: nothing, a file, or bytes that are no file of the
current schema version. -/
inductive OnDisk
  | missing
  | corrupt
  | file (f : SavingsFile)

/-- The totals of a file for a scope. -/
def SavingsFile.at (f : SavingsFile) : Scope → Totals
  | .total => f.totals
  | .repo path => f.perRepo.at path
  | .language name => f.perLanguage.at name

/-- The totals on the disk for a scope. -/
def OnDisk.at : OnDisk → Scope → Totals
  | .file f, scope => f.at scope
  | _, _ => 0

/-- Whether nothing is there. -/
def OnDisk.isMissing : OnDisk → Bool
  | .missing => true
  | _ => false

theorem OnDisk.isMissing_iff {disk : OnDisk} : disk.isMissing = true ↔ disk = .missing := by
  cases disk <;> simp [isMissing]

/-- **readFile**: a file that is corrupt is moved away, if that succeeds, and read as
missing. -/
def readFile (disk : OnDisk) (moved : Bool) : Option SavingsFile × OnDisk :=
  match disk with
  | .missing => (none, .missing)
  | .corrupt => (none, if moved then .missing else .corrupt)
  | .file f => (some f, .file f)

/-! ### The store -/

/-- One source-reading tool call. -/
structure Observation where
  repoPath : String
  language : String
  returned : Int64
  saved : Int64
deriving DecidableEq

/-- What a call adds to every scope it is counted for: the saved tokens are clamped at
zero. -/
def Observation.totals (o : Observation) : Totals where
  tokensSaved := if o.saved < 0 then 0 else o.saved
  tokensReturned := o.returned
  callsCounted := 1

/-- What a call adds to a scope. -/
def Observation.at (o : Observation) : Scope → Totals
  | .total => o.totals
  | .repo path => if path = o.repoPath ∧ o.repoPath ≠ "" then o.totals else 0
  | .language name => if name = o.language ∧ o.language ≠ "" then o.totals else 0

/-- The state of a process. -/
structure Store where
  path : String
  file : SavingsFile
  delta : Totals := 0
  perDelta : Buckets := ∅
  langDelta : Buckets := ∅
  pending : ℕ := 0

/-- The number of observations that are buffered before a flush. -/
def flushEvery : ℕ := 20

/-- What the disk does not have of a scope yet. -/
def Store.deltaAt (s : Store) : Scope → Totals
  | .total => s.delta
  | .repo path => s.perDelta.at path
  | .language name => s.langDelta.at name

/-- **Open** loads the savings, or starts with none. -/
def openStore (path : String) (disk : OnDisk) (now : ℤ) (moved : Bool) (readErr : Option String) :
    Store × OnDisk × Option String :=
  let s : Store := { path := path, file := { firstSeen := now } }
  if path = "" then (s, disk, none)
  else
    match readErr with
    | some err => (s, disk, some ("read savings: " ++ err))
    | none =>
      match readFile disk moved with
      | (none, disk) => (s, disk, none)
      | (some loaded, disk) => ({ s with file := loaded }, disk, none)

/-- Add to the totals of a name; nothing is counted for the empty one. -/
def addBucket (m : Buckets) (key : String) (t : Totals) : Buckets :=
  if key = "" then m else m.insert key (m.at key + t)

namespace Store

/-- What an observation does to the memory of a process. -/
def observe (s : Store) (o : Observation) (now : ℤ) : Store :=
  { s with
    file :=
      { s.file with
        totals := s.file.totals + o.totals
        lastUpdated := now
        perRepo := addBucket s.file.perRepo o.repoPath o.totals
        perLanguage := addBucket s.file.perLanguage o.language o.totals }
    delta := s.delta + o.totals
    perDelta := addBucket s.perDelta o.repoPath o.totals
    langDelta := addBucket s.langDelta o.language o.totals
    pending := s.pending + 1 }

/-- `mergeBucketDeltas`: a loop over the deltas. -/
def mergeBucketDeltas (ord : GoMap.RangeOrder Buckets) (merged deltas : Buckets) : Buckets :=
  (ord.order deltas deltas.pairs).foldl (fun merged p => merged.insert p.1 (merged.at p.1 + p.2))
    merged

/-- What a flush writes, by what it has read: the file with the deltas of the process, or
what the process has in memory. -/
def merge (ord : GoMap.RangeOrder Buckets) (s : Store) (read : Option SavingsFile) (now : ℤ) :
    SavingsFile :=
  match read with
  | none => s.file
  | some f =>
    { totals := f.totals + s.delta
      perRepo := mergeBucketDeltas ord f.perRepo s.perDelta
      perLanguage := mergeBucketDeltas ord f.perLanguage s.langDelta
      firstSeen :=
        if f.firstSeen = 0 ∨ s.file.firstSeen < f.firstSeen then s.file.firstSeen else f.firstSeen
      lastUpdated := now }

/-- A process after it has written the file. -/
def adopt (s : Store) (merged : SavingsFile) : Store :=
  { s with file := merged, delta := 0, perDelta := ∅, langDelta := ∅, pending := 0 }

end Store

/-- The steps of a flush that can fail. -/
inductive FlushStep
  | mkdir
  | lock
  | read
  | createTemp
  | encode
  | close
  | rename
deriving DecidableEq, Repr

/-- Whether a flush that fails at a step has read the file. -/
def FlushStep.hasRead : FlushStep → Bool
  | mkdir | lock | read => false
  | createTemp | encode | close | rename => true

namespace Store

/-- **flushLocked**, and the step it has failed at. -/
def flushLocked (ord : GoMap.RangeOrder Buckets) (s : Store) (disk : OnDisk) (now : ℤ)
    (moved : Bool) (fails : Option FlushStep) : Store × OnDisk × Option FlushStep :=
  if s.path = "" then ({ s with pending := 0 }, disk, none)
  else
    match fails with
    | some step => (s, if step.hasRead then (readFile disk moved).2 else disk, some step)
    | none =>
      let merged := s.merge ord (readFile disk moved).1 now
      (s.adopt merged, .file merged, none)

/-- **AddObservation** counts a call, and flushes when enough are buffered. -/
def addObservation (ord : GoMap.RangeOrder Buckets) (s : Store) (disk : OnDisk) (o : Observation)
    (now : ℤ) (moved : Bool) (fails : Option FlushStep) : Store × OnDisk :=
  let s := s.observe o now
  if flushEvery ≤ s.pending then
    let r := s.flushLocked ord disk now moved fails
    (r.1, r.2.1)
  else (s, disk)

/-- **Reset** wipes the memory of a process and removes the file; the removal may fail. -/
def reset (s : Store) (disk : OnDisk) (now : ℤ) (removeErr : Option String) :
    Store × OnDisk × Option String :=
  let s : Store := { path := s.path, file := { firstSeen := now } }
  if s.path = "" then (s, disk, none)
  else
    match removeErr with
    | some err => (s, disk, some err)
    | none => (s, .missing, none)

end Store

/-! ### Scope by scope -/

theorem Buckets.at_insert (m : Buckets) (key key' : String) (t : Totals) :
    Buckets.at (m.insert key t) key' = if key' = key then t else m.at key' := by
  unfold Buckets.at
  rw [GoMap.lookup_insert]
  split <;> rfl

theorem at_addBucket (m : Buckets) (key key' : String) (t : Totals) :
    (addBucket m key t).at key' = m.at key' + if key' = key ∧ key ≠ "" then t else 0 := by
  unfold addBucket
  by_cases hk : key = ""
  · rw [if_pos hk, if_neg fun h => h.2 hk, add_zero]
  · rw [if_neg hk, Buckets.at_insert]
    by_cases hkk : key' = key
    · rw [if_pos hkk, if_pos ⟨hkk, hk⟩, hkk]
    · rw [if_neg hkk, if_neg fun h => hkk h.1, add_zero]

/-- **An observation** adds its amount to every scope. -/
theorem file_observe (s : Store) (o : Observation) (now : ℤ) (scope : Scope) :
    (s.observe o now).file.at scope = s.file.at scope + o.at scope := by
  cases scope with
  | total => rfl
  | repo path => exact at_addBucket ..
  | language name => exact at_addBucket ..

theorem deltaAt_observe (s : Store) (o : Observation) (now : ℤ) (scope : Scope) :
    (s.observe o now).deltaAt scope = s.deltaAt scope + o.at scope := by
  cases scope with
  | total => rfl
  | repo path => exact at_addBucket ..
  | language name => exact at_addBucket ..

/-- What a loop over distinct names adds. -/
theorem at_foldl_insert {l : List (String × Totals)} (hl : (l.map Prod.fst).Nodup) (m : Buckets)
    (key : String) :
    Buckets.at (l.foldl (fun m p => m.insert p.1 (Buckets.at m p.1 + p.2)) m) key =
      m.at key + (l.map fun p => if p.1 = key then p.2 else 0).sum := by
  induction l generalizing m with
  | nil => exact (add_zero _).symm
  | cons p l ih =>
    rw [List.foldl_cons, ih (List.nodup_cons.mp hl).2, Buckets.at_insert, List.map_cons,
      List.sum_cons, ← add_assoc]
    by_cases hp : key = p.1
    · rw [if_pos hp, if_pos hp.symm, hp]
    · rw [if_neg hp, if_neg (Ne.symm hp), add_zero]

theorem sum_of_no_name {l : List (String × Totals)} {key : String} (h : key ∉ l.map Prod.fst) :
    (l.map fun p => if p.1 = key then p.2 else 0).sum = 0 := by
  refine List.sum_eq_zero fun x hx => ?_
  obtain ⟨q, hq, rfl⟩ := List.mem_map.mp hx
  have hne : q.1 ≠ key := fun hc => h (List.mem_map.mpr ⟨q, hq, hc⟩)
  exact if_neg hne

/-- Distinct names: at most one entry of a sum is of a name. -/
theorem sum_of_name {l : List (String × Totals)} (hl : (l.map Prod.fst).Nodup) {key : String}
    {t : Totals} (ht : (key, t) ∈ l) : (l.map fun p => if p.1 = key then p.2 else 0).sum = t := by
  induction l with
  | nil => cases ht
  | cons p l ih =>
    obtain ⟨hp, hl'⟩ := List.nodup_cons.mp hl
    rw [List.map_cons, List.sum_cons]
    rcases List.mem_cons.mp ht with rfl | ht
    · rw [if_pos rfl, sum_of_no_name hp, add_zero]
    · have hne : p.1 ≠ key := fun hc => hp (hc ▸ List.mem_map_of_mem ht)
      rw [if_neg hne, zero_add, ih hl' ht]

/-- **Merging** adds the deltas. -/
theorem at_mergeBucketDeltas (ord : GoMap.RangeOrder Buckets) (m deltas : Buckets) (key : String) :
    (Store.mergeBucketDeltas ord m deltas).at key = m.at key + deltas.at key := by
  have hperm := (ord.perm deltas deltas.pairs).map Prod.fst
  have hnodup : ((ord.order deltas deltas.pairs).map Prod.fst).Nodup :=
    hperm.nodup_iff.mpr (GoMap.nodup_pairs_fst deltas)
  rw [Store.mergeBucketDeltas, at_foldl_insert hnodup]
  congr 1
  cases hk : deltas.lookup key with
  | some t =>
    rw [sum_of_name hnodup (ord.mem.mpr (GoMap.mem_pairs.mpr hk)), Buckets.at, hk]
    rfl
  | none =>
    rw [sum_of_no_name, Buckets.at, hk]
    · rfl
    · intro hm
      obtain ⟨⟨k, t⟩, hp, rfl⟩ := List.mem_map.mp hm
      rw [GoMap.mem_pairs.mp (ord.mem.mp hp)] at hk
      cases hk

/-- **What a flush writes onto a file**, scope by scope. -/
theorem at_merge_some (ord : GoMap.RangeOrder Buckets) (s : Store) (f : SavingsFile) (now : ℤ)
    (scope : Scope) : (s.merge ord (some f) now).at scope = f.at scope + s.deltaAt scope := by
  cases scope with
  | total => rfl
  | repo path => exact at_mergeBucketDeltas ..
  | language name => exact at_mergeBucketDeltas ..

theorem deltaAt_adopt (s : Store) (merged : SavingsFile) (scope : Scope) :
    (s.adopt merged).deltaAt scope = 0 := by
  cases scope <;> rfl

end Gortex.Savings
