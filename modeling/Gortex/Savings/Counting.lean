import Gortex.Savings.System

/-!
# What the savings file counts

The ledger behind a run of the processes: an observation is posted, a flush that succeeds
commits what its process has pending, a reset wipes. The entry `held` of a process stands
for what it had pending when the ledger was opened. `Refines` relates the two, and is kept
by every step that is `Fresh`.

Without resets every step is fresh, so no update is lost
(`Gortex.Savings.totals_of_flushed`). A reset can be undone
(`Gortex.Savings.not_countsSince_staleBaseline`), by a flush that finds no file or that
has read it before the reset; it is not if no step does that
(`Gortex.Savings.countsSince_of_fresh`).
-/

namespace Gortex.Savings

open Ledger

variable {ι : Type} [DecidableEq ι]

/-! ### The ledger of a run -/

/-- An entry: an observation, or what the process had pending when the ledger was opened. -/
inductive Entry
  | held
  | seen (o : Observation)
deriving DecidableEq

/-- What a step does to the ledger. -/
def Action.event : Action ι → Option (Event ι Entry)
  | .observe p o _ => some (.post p (.seen o))
  | .write p => some (.commit p)
  | .reset p _ none => some (.wipe p)
  | .reset p _ (some _) => some (.drop p)
  | _ => none

/-- The ledger after a step. -/
def advance (L : Ledger ι Entry) (a : Action ι) : Ledger ι Entry :=
  L.run a.event.toList

/-- What an entry amounts to; `d` is what the processes had pending at the start. -/
def amount (d : ι → Scope → Totals) (scope : Scope) (p : ι) : Entry → Totals
  | .held => d p scope
  | .seen o => o.at scope

/-- **The ledger is what the system counts**, over the totals `base`. -/
structure Refines (path : String) (base : Scope → Totals) (d : ι → Scope → Totals) (σ : System ι)
    (L : Ledger ι Entry) : Prop where
  path : ∀ {p x}, σ.procs p = some x → x.store.path = path
  disk : ∀ scope, σ.disk.at scope = base scope + L.total (amount d scope)
  delta : ∀ {p x}, σ.procs p = some x → ∀ scope,
    x.store.deltaAt scope = L.due (amount d scope) p
  closed : ∀ {p}, σ.procs p = none → L.pending p = []
  /-- A flush that has read is the one that holds the lock, and what it is about to write
  is what is on the disk with its deltas. -/
  writing : ∀ {p s merged}, σ.procs p = some ⟨s, .writing merged⟩ → σ.lock = some p ∧
    ∀ scope, merged.at scope = σ.disk.at scope + s.deltaAt scope

/-- **A step that brings no old totals back**: a flush that finds no file has nothing in
memory but its deltas, and no flush is under way when the file is removed. -/
def System.Fresh (σ : System ι) : Action ι → Prop
  | .read p _ moved => ∀ x, σ.procs p = some x → (readFile σ.disk moved).1 = none →
      ∀ scope, x.store.file.at scope = x.store.deltaAt scope
  | .reset _ _ none => σ.lock = none
  | _ => True

/-- A step that removes the file. -/
def Action.removes : Action ι → Prop
  | .reset _ _ none => True
  | _ => False

/-! ### What a step keeps -/

theorem at_readFile (disk : OnDisk) (moved : Bool) (scope : Scope) :
    (readFile disk moved).2.at scope = disk.at scope := by
  cases disk with
  | missing => rfl
  | corrupt => cases moved <;> rfl
  | file f => rfl

theorem at_of_readFile_eq_none {disk : OnDisk} {moved : Bool} (h : (readFile disk moved).1 = none)
    (scope : Scope) : disk.at scope = 0 := by
  cases disk with
  | missing => rfl
  | corrupt => rfl
  | file f => cases h

theorem at_of_readFile_eq_some {disk : OnDisk} {moved : Bool} {f : SavingsFile}
    (h : (readFile disk moved).1 = some f) (scope : Scope) : disk.at scope = f.at scope := by
  cases disk with
  | missing => cases h
  | corrupt => cases h
  | file f' =>
    cases h
    rfl

/-- Opening the file leaves what it counts, and starts with nothing pending. -/
theorem openStore_spec (path : String) (disk : OnDisk) (now : ℤ) (moved : Bool)
    (readErr : Option String) :
    (openStore path disk now moved readErr).1.path = path ∧
      (∀ scope, (openStore path disk now moved readErr).1.deltaAt scope = 0) ∧
      ∀ scope, (openStore path disk now moved readErr).2.1.at scope = disk.at scope := by
  have hread := at_readFile disk moved
  unfold openStore
  simp only
  split
  · exact ⟨rfl, fun scope => by cases scope <;> rfl, fun _ => rfl⟩
  · split
    · exact ⟨rfl, fun scope => by cases scope <;> rfl, fun _ => rfl⟩
    · split
      · rename_i d hd
        rw [hd] at hread
        exact ⟨rfl, fun scope => by cases scope <;> rfl, hread⟩
      · rename_i loaded d hd
        rw [hd] at hread
        exact ⟨rfl, fun scope => by cases scope <;> rfl, hread⟩

/-- What a flush is about to write, if it is fresh. -/
theorem at_merge {ord : GoMap.RangeOrder Buckets} {s : Store} {disk : OnDisk} {moved : Bool}
    (hf : (readFile disk moved).1 = none → ∀ scope, s.file.at scope = s.deltaAt scope) (now : ℤ)
    (scope : Scope) : (s.merge ord (readFile disk moved).1 now).at scope =
      disk.at scope + s.deltaAt scope := by
  cases hr : (readFile disk moved).1 with
  | none =>
    rw [at_of_readFile_eq_none hr, zero_add]
    exact hf hr scope
  | some f => rw [at_merge_some, at_of_readFile_eq_some hr]

section Step

variable {ord : GoMap.RangeOrder Buckets} {path : String} {base : Scope → Totals}
  {d : ι → Scope → Totals} {σ τ : System ι} {L : Ledger ι Entry}

/-- **What keeps the relation**, when one process changes. -/
theorem Refines.update (h : Refines path base d σ L) {p : ι} {x : Process} {disk : OnDisk}
    {lock : Option ι} {c : List (ι × Entry)} {l : List Entry}
    (hpath : x.store.path = path)
    (hdisk : ∀ scope, disk.at scope = base scope + (c.map fun e => amount d scope e.1 e.2).sum)
    (hdelta : ∀ scope, x.store.deltaAt scope = (l.map (amount d scope p)).sum)
    (hself : ∀ s merged, x = ⟨s, .writing merged⟩ → lock = some p ∧
      ∀ scope, merged.at scope = disk.at scope + s.deltaAt scope)
    (hrest : ∀ q s merged, q ≠ p → σ.procs q = some ⟨s, .writing merged⟩ →
      lock = σ.lock ∧ ∀ scope, disk.at scope = σ.disk.at scope) :
    Refines path base d ({ σ with disk := disk, lock := lock }.setProc p x)
      ⟨c, Ledger.setPending L.pending p l⟩ where
  path := fun {q y} hq => by
    rw [System.procs_setProc] at hq
    split at hq
    · cases hq
      exact hpath
    · exact h.path hq
  disk := hdisk
  delta := fun {q y} hq scope => by
    rw [System.procs_setProc] at hq
    rw [Ledger.due_setPending]
    -- the process itself, then the others, whose buffers stay
    by_cases hqp : q = p
    · rw [if_pos hqp] at hq ⊢
      cases hq
      exact hdelta scope
    · rw [if_neg hqp] at hq ⊢
      exact h.delta hq scope
  closed := fun {q} hq => by
    rw [System.procs_setProc] at hq
    by_cases hqp : q = p
    · rw [if_pos hqp] at hq
      cases hq
    · rw [if_neg hqp] at hq
      exact (if_neg hqp).trans (h.closed hq)
  writing := fun {q s merged} hq => by
    rw [System.procs_setProc] at hq
    by_cases hqp : q = p
    · rw [if_pos hqp] at hq
      cases hq
      rw [hqp]
      exact hself s merged rfl
    · rw [if_neg hqp] at hq
      obtain ⟨hlock, hm⟩ := h.writing hq
      obtain ⟨hl, hd⟩ := hrest q s merged hqp hq
      exact ⟨hl.trans hlock, fun scope =>
        (hm scope).trans (congrArg (· + s.deltaAt scope) (hd scope).symm)⟩

omit [DecidableEq ι] in
theorem setPending_self [DecidableEq ι] (pending : ι → List Entry) (p : ι) :
    Ledger.setPending pending p (pending p) = pending :=
  funext fun q => by
    unfold Ledger.setPending
    split
    · rename_i hq
      rw [hq]
    · rfl

/-- The same, when the ledger stays as it is. -/
theorem Refines.same (h : Refines path base d σ L) {p : ι} {x : Process} {disk : OnDisk}
    {lock : Option ι} (hpath : x.store.path = path)
    (hdisk : ∀ scope, disk.at scope = σ.disk.at scope)
    (hdelta : ∀ scope, x.store.deltaAt scope = L.due (amount d scope) p)
    (hself : ∀ s merged, x = ⟨s, .writing merged⟩ → lock = some p ∧
      ∀ scope, merged.at scope = disk.at scope + s.deltaAt scope)
    (hrest : ∀ q s merged, q ≠ p → σ.procs q = some ⟨s, .writing merged⟩ → lock = σ.lock) :
    Refines path base d ({ σ with disk := disk, lock := lock }.setProc p x) L := by
  have hL : (⟨L.committed, Ledger.setPending L.pending p (L.pending p)⟩ : Ledger ι _) = L := by
    rw [setPending_self]
  rw [← hL]
  exact h.update hpath (fun scope => (hdisk scope).trans (h.disk scope)) hdelta hself
    fun q s merged hqp hq => ⟨hrest q s merged hqp hq, hdisk⟩

theorem Refines.open (h : Refines path base d σ L) {p : ι} {now : ℤ} {moved : Bool}
    {readErr : Option String} (hstep : System.Step ord path σ (.open p now moved readErr) τ) :
    Refines path base d τ L := by
  unfold System.Step System.step at hstep
  simp only at hstep
  split at hstep
  · cases hstep
  · rename_i hp
    cases hstep
    obtain ⟨hpath, hdelta, hdisk⟩ := openStore_spec path σ.disk now moved readErr
    refine h.same hpath hdisk (fun scope => ?_) (fun _ _ hx => nomatch hx)
      fun _ _ _ _ _ => rfl
    rw [hdelta, Ledger.due, h.closed hp]
    rfl

theorem Refines.observe (h : Refines path base d σ L) {p : ι} {o : Observation} {now : ℤ}
    (hstep : System.Step ord path σ (.observe p o now) τ) :
    Refines path base d τ (L.step (.post p (.seen o))) := by
  unfold System.Step System.step at hstep
  simp only at hstep
  split at hstep
  · rename_i s hp
    cases hstep
    have hs : s.path = path := h.path hp
    refine h.update hs h.disk (fun scope => ?_) (fun _ _ hx => ?_)
      fun _ _ _ _ _ => ⟨rfl, fun _ => rfl⟩
    · rw [deltaAt_observe, h.delta hp, List.map_cons, List.sum_cons, add_comm]
      rfl
    · simp only [Process.mk.injEq] at hx
      obtain ⟨-, hx⟩ := hx
      split at hx <;> cases hx
  · cases hstep

theorem Refines.read (h : Refines path base d σ L) {p : ι} {now : ℤ} {moved : Bool}
    (hstep : System.Step ord path σ (.read p now moved) τ)
    (hfresh : σ.Fresh (.read p now moved)) : Refines path base d τ L := by
  unfold System.Step System.step at hstep
  simp only at hstep
  split at hstep
  · rename_i s ph hlock hp
    cases hstep
    have hs : s.path = path := h.path hp
    have hd : ∀ scope, s.deltaAt scope = L.due (amount d scope) p := h.delta hp
    refine h.same hs (at_readFile σ.disk moved) hd (fun s' merged hx => ?_)
      fun q s' merged hqp hq => ?_
    · cases hx
      refine ⟨rfl, fun scope => ?_⟩
      rw [at_readFile]
      exact at_merge (fun hn => hfresh _ hp hn) now scope
    · exact absurd (h.writing hq).1 (by simp [hlock])
  · cases hstep

theorem Refines.write (h : Refines path base d σ L) {p : ι}
    (hstep : System.Step ord path σ (.write p) τ) :
    Refines path base d τ (L.step (.commit p)) := by
  unfold System.Step System.step at hstep
  simp only at hstep
  split at hstep
  · rename_i s merged hp
    cases hstep
    obtain ⟨hlock, hm⟩ := h.writing hp
    have hs : s.path = path := h.path hp
    refine h.update hs (fun scope => ?_) (fun scope => deltaAt_adopt ..)
      (fun _ _ hx => nomatch hx) fun q s' merged' hqp hq => ?_
    · have htotal := Ledger.total_commit L (amount d scope) p
      change merged.at scope = base scope + (L.step (.commit p)).total (amount d scope)
      rw [hm scope, h.disk scope, htotal, h.delta hp, add_assoc]
    · obtain ⟨hlock', -⟩ := h.writing hq
      rw [hlock] at hlock'
      exact absurd (Option.some.inj hlock').symm hqp
  · cases hstep

theorem Refines.fail (h : Refines path base d σ L) {p : ι}
    (hstep : System.Step ord path σ (.fail p) τ) : Refines path base d τ L := by
  unfold System.Step System.step at hstep
  simp only at hstep
  split at hstep
  · rename_i s merged hp
    cases hstep
    obtain ⟨hlock, -⟩ := h.writing hp
    have hs : s.path = path := h.path hp
    have hd : ∀ scope, s.deltaAt scope = L.due (amount d scope) p := h.delta hp
    refine h.same hs (fun _ => rfl) hd (fun _ _ hx => nomatch hx)
      fun q s' merged' hqp hq => ?_
    obtain ⟨hlock', -⟩ := h.writing hq
    rw [hlock] at hlock'
    exact absurd (Option.some.inj hlock').symm hqp
  · rename_i s ph _ hp
    cases hstep
    have hs : s.path = path := h.path hp
    have hd : ∀ scope, s.deltaAt scope = L.due (amount d scope) p := h.delta hp
    exact h.same hs (fun _ => rfl) hd (fun _ _ hx => nomatch hx) fun _ _ _ _ _ => rfl
  · cases hstep

theorem Refines.reset (h : Refines path base d σ L) (hpath : path ≠ "") {p : ι} {now : ℤ}
    {removeErr : Option String} (hstep : System.Step ord path σ (.reset p now removeErr) τ)
    (hfresh : σ.Fresh (.reset p now removeErr)) (hbase : removeErr = none → ∀ scope, base scope = 0) :
    Refines path base d τ (advance L (.reset p now removeErr)) := by
  unfold System.Step System.step at hstep
  simp only at hstep
  split at hstep
  · rename_i s hp
    have hs : s.path = path := h.path hp
    have hne : s.path ≠ "" := by rwa [hs]
    have hzero : ∀ scope, Store.deltaAt { path := s.path, file := { firstSeen := now } } scope =
        0 := fun scope => by cases scope <;> rfl
    unfold Store.reset at hstep
    simp only [if_neg hne] at hstep
    cases removeErr with
    | some err =>
      cases hstep
      exact h.update hs h.disk hzero (fun _ _ hx => nomatch hx) fun _ _ _ _ _ => ⟨rfl, fun _ => rfl⟩
    | none =>
      cases hstep
      refine h.update hs (fun scope => ?_) hzero
        (fun _ _ hx => nomatch hx) fun q s' merged hqp hq => ?_
      · rw [hbase rfl scope]
        rfl
      · have hlock : σ.lock = none := hfresh
        exact absurd (h.writing hq).1 (by simp [hlock])
  · cases hstep

/-- **A fresh step keeps the relation.** -/
theorem Refines.step (h : Refines path base d σ L) (hpath : path ≠ "") {a : Action ι}
    (hstep : System.Step ord path σ a τ) (hfresh : σ.Fresh a)
    (hbase : a.removes → ∀ scope, base scope = 0) : Refines path base d τ (advance L a) := by
  cases a with
  | «open» p now moved readErr => exact h.open hstep
  | observe p o now => exact h.observe hstep
  | read p now moved => exact h.read hstep hfresh
  | write p => exact h.write hstep
  | fail p => exact h.fail hstep
  | reset p now removeErr =>
    refine h.reset hpath hstep hfresh fun hr => hbase ?_
    rw [hr]
    trivial

/-- The events of a run. -/
def events (l : List (Action ι)) : List (Event ι Entry) := l.filterMap Action.event

omit [DecidableEq ι] in
theorem events_cons (a : Action ι) (l : List (Action ι)) :
    events (a :: l) = a.event.toList ++ events l := by
  unfold events
  rw [List.filterMap_cons]
  cases a.event <;> rfl

/-- **A run of fresh steps** follows the ledger. -/
theorem Refines.run {l : List (Action ι)}
    (hrun : Run (fun σ a τ => System.Step ord path σ a τ ∧ σ.Fresh a) σ l τ) (hpath : path ≠ "")
    (hbase : (∃ a ∈ l, a.removes) → ∀ scope, base scope = 0) (h : Refines path base d σ L) :
    Refines path base d τ (L.run (events l)) := by
  induction hrun generalizing L with
  | nil σ => exact h
  | cons hstep _ ih =>
    rw [events_cons, Ledger.run, List.foldl_append]
    exact ih (fun ⟨a, ha, hr⟩ => hbase ⟨a, List.mem_cons_of_mem _ ha, hr⟩)
      (h.step hpath hstep.1 hstep.2 fun hr => hbase ⟨_, List.mem_cons_self, hr⟩)

end Step

/-! ### No update is lost -/

/-- A reset, whether it removes the file or not. -/
def Action.isReset : Action ι → Prop
  | .reset _ _ _ => True
  | _ => False

/-- The observations of a run, with their processes. -/
def observed (l : List (Action ι)) : List (ι × Observation) :=
  l.filterMap fun a => match a with
    | .observe p o _ => some (p, o)
    | _ => none

/-- Every observation is followed by a flush of its process that succeeds. -/
def Flushed : List (Action ι) → Prop
  | [] => True
  | .observe p _ _ :: l => .write p ∈ l ∧ Flushed l
  | _ :: l => Flushed l

section NoReset

variable {ord : GoMap.RangeOrder Buckets} {path : String} {σ τ : System ι}

/-- **While there is no file**, a process has nothing in memory but its deltas. -/
structure Unwritten (σ : System ι) : Prop where
  notCorrupt : σ.disk ≠ .corrupt
  memory : σ.disk = .missing → ∀ p x, σ.procs p = some x →
    ∀ scope, x.store.file.at scope = x.store.deltaAt scope

theorem Unwritten.setProc (h : Unwritten σ) {p : ι} {x : Process} {disk : OnDisk}
    {lock : Option ι} (hc : disk ≠ .corrupt) (hd : disk = .missing → σ.disk = .missing)
    (hx : disk = .missing → ∀ scope, x.store.file.at scope = x.store.deltaAt scope) :
    Unwritten ({ σ with disk := disk, lock := lock }.setProc p x) := by
  refine ⟨hc, fun hm q y hq => ?_⟩
  rw [System.procs_setProc] at hq
  split at hq
  · cases hq
    exact hx hm
  · exact h.memory (hd hm) q y hq

theorem readFile_of_ne_corrupt {disk : OnDisk} (h : disk ≠ .corrupt) (moved : Bool) :
    (readFile disk moved).2 = disk := by
  cases disk with
  | missing => rfl
  | corrupt => exact absurd rfl h
  | file f => rfl

theorem Unwritten.step (h : Unwritten σ) {a : Action ι} (ha : ¬a.isReset)
    (hstep : System.Step ord path σ a τ) : Unwritten τ := by
  -- while there is no file, what a process remembers is what it has not written yet
  unfold System.Step System.step at hstep
  cases a with
  | «open» p now moved readErr =>
    simp only at hstep
    split at hstep
    · cases hstep
    · cases hstep
      have hfresh : ∀ scope, SavingsFile.at { firstSeen := now } scope = 0 := fun scope => by
        cases scope <;> rfl
      have hzero : ∀ (file : SavingsFile) scope, Store.deltaAt { path := path, file := file } scope =
          0 := fun file scope => by cases scope <;> rfl
      have hspec : (openStore path σ.disk now moved readErr).2.1 = σ.disk ∧
          (σ.disk = .missing → ∀ scope,
            (openStore path σ.disk now moved readErr).1.file.at scope =
              (openStore path σ.disk now moved readErr).1.deltaAt scope) := by
        unfold openStore
        have hread := readFile_of_ne_corrupt h.notCorrupt moved
        simp only
        split
        · exact ⟨rfl, fun _ scope => (hfresh scope).trans (hzero _ scope).symm⟩
        · split
          · exact ⟨rfl, fun _ scope => (hfresh scope).trans (hzero _ scope).symm⟩
          · split
            · rename_i d hd
              rw [hd] at hread
              exact ⟨hread, fun _ scope => (hfresh scope).trans (hzero _ scope).symm⟩
            · rename_i loaded d hd
              rw [hd] at hread
              refine ⟨hread, fun hm => ?_⟩
              rw [hm] at hd
              cases hd
      refine h.setProc (by rw [hspec.1]; exact h.notCorrupt)
        (fun hm => hspec.1.symm.trans hm) fun hm => hspec.2 (hspec.1.symm.trans hm)
  | observe p o now =>
    simp only at hstep
    split at hstep
    · rename_i s hp
      cases hstep
      refine h.setProc h.notCorrupt id fun hm scope => ?_
      rw [file_observe, deltaAt_observe, h.memory hm p _ hp]
    · cases hstep
  | read p now moved =>
    simp only at hstep
    split at hstep
    · rename_i s ph _ hp
      cases hstep
      have hread := readFile_of_ne_corrupt h.notCorrupt moved
      have hmem : σ.disk = .missing → ∀ scope, s.file.at scope = s.deltaAt scope :=
        fun hm => h.memory hm p _ hp
      refine h.setProc (by rw [hread]; exact h.notCorrupt) (fun hm => hread.symm.trans hm)
        fun hm => hmem (hread.symm.trans hm)
    · cases hstep
  | write p =>
    simp only at hstep
    split at hstep
    · cases hstep
      exact h.setProc (fun hc => nomatch hc) (fun hm => nomatch hm) fun hm => nomatch hm
    · cases hstep
  | fail p =>
    simp only at hstep
    split at hstep
    · rename_i s merged hp
      cases hstep
      have hmem : σ.disk = .missing → ∀ scope, s.file.at scope = s.deltaAt scope :=
        fun hm => h.memory hm p _ hp
      exact h.setProc h.notCorrupt id hmem
    · rename_i s ph _ hp
      cases hstep
      have hmem : σ.disk = .missing → ∀ scope, s.file.at scope = s.deltaAt scope :=
        fun hm => h.memory hm p _ hp
      exact h.setProc h.notCorrupt id hmem
    · cases hstep
  | reset p now removeErr => exact absurd trivial ha

omit [DecidableEq ι] in
/-- Without resets every step is fresh. -/
theorem Unwritten.fresh (h : Unwritten σ) {a : Action ι} (ha : ¬a.isReset) : σ.Fresh a := by
  cases a with
  | read p now moved =>
    intro x hx hn
    refine h.memory ?_ p x hx
    cases hd : σ.disk with
    | missing => rfl
    | corrupt => exact absurd hd h.notCorrupt
    | file f =>
      rw [hd] at hn
      cases hn
  | reset p now removeErr => exact absurd trivial ha
  | _ => trivial

/-- A run without resets has fresh steps only. -/
theorem Unwritten.run {l : List (Action ι)} (h : Unwritten σ)
    (hrun : Run (System.Step ord path) σ l τ) (hl : ∀ a ∈ l, ¬a.isReset) :
    Run (fun σ a τ => System.Step ord path σ a τ ∧ σ.Fresh a) σ l τ ∧ Unwritten τ := by
  induction hrun with
  | nil σ => exact ⟨Run.nil σ, h⟩
  | cons hstep _ ih =>
    have ha := hl _ List.mem_cons_self
    obtain ⟨hrun, hτ⟩ := ih (h.step ha hstep) fun b hb => hl b (List.mem_cons_of_mem _ hb)
    exact ⟨Run.cons ⟨hstep, h.fresh ha⟩ hrun, hτ⟩

end NoReset

omit [DecidableEq ι] in
/-- The ledger of a run without resets keeps everything. -/
theorem keeps_of_mem_events {l : List (Action ι)} (hl : ∀ a ∈ l, ¬a.isReset) :
    ∀ e ∈ events l, e.keeps := by
  intro e he
  obtain ⟨a, ha, hae⟩ := List.mem_filterMap.mp he
  have hr := hl a ha
  cases a with
  | reset p now removeErr => exact absurd trivial hr
  | observe p o now =>
    cases hae
    trivial
  | write p =>
    cases hae
    trivial
  | _ => cases hae

omit [DecidableEq ι] in
/-- What the ledger of a run is posted. -/
theorem postings_events (l : List (Action ι)) :
    postings (events l) = (observed l).map fun x => (x.1, .seen x.2) := by
  induction l with
  | nil => rfl
  | cons a l ih =>
    rw [events_cons]
    unfold postings at ih ⊢
    rw [List.filterMap_append, ih]
    cases a with
    | reset p now removeErr => cases removeErr <;> rfl
    | _ => rfl

omit [DecidableEq ι] in
theorem write_mem_events {l : List (Action ι)} {p : ι} (h : Action.write p ∈ l) :
    Event.commit p ∈ events l :=
  List.mem_filterMap.mpr ⟨_, h, rfl⟩

omit [DecidableEq ι] in
theorem settled_events {l : List (Action ι)} (h : Flushed l) (p : ι) : Settled p (events l) := by
  induction l with
  | nil => trivial
  | cons a l ih =>
    rw [events_cons]
    cases a with
    | observe q o now =>
      refine ⟨fun ⟨e, he⟩ => ?_, ih h.2⟩
      cases he
      exact write_mem_events h.1
    | write q => exact ⟨fun ⟨e, he⟩ => (nomatch he), ih h⟩
    | reset q now removeErr =>
      cases removeErr with
      | none => exact ⟨fun ⟨e, he⟩ => (nomatch he), ih h⟩
      | some err => exact ⟨fun ⟨e, he⟩ => (nomatch he), ih h⟩
    | «open» q now moved readErr => exact ih h
    | read q now moved => exact ih h
    | fail q => exact ih h

/-- **No update is lost**: in a run without resets, over a file that is missing or sound,
when every observation has been followed by a flush of its process that succeeded, the
totals on the disk are the initial ones and the sum of all observations. -/
theorem totals_of_flushed {ord : GoMap.RangeOrder Buckets} {path : String} (hpath : path ≠ "")
    {disk : OnDisk} (hdisk : disk ≠ .corrupt) {l : List (Action ι)} {τ : System ι}
    (hrun : Run (System.Step ord path) (System.start disk) l τ) (hreset : ∀ a ∈ l, ¬a.isReset)
    (hflushed : Flushed l) (scope : Scope) :
    τ.disk.at scope = disk.at scope + ((observed l).map fun x => x.2.at scope).sum := by
  have hun : Unwritten (System.start disk : System ι) :=
    ⟨hdisk, fun _ p x hx => nomatch hx⟩
  have hstart : Refines path disk.at (fun _ _ => 0) (System.start disk : System ι)
      ⟨[], fun _ => []⟩ :=
    ⟨fun hx => (nomatch hx), fun _ => (add_zero _).symm, fun hx => (nomatch hx), fun _ => rfl,
      fun hx => (nomatch hx)⟩
  have href := Refines.run (hun.run hrun hreset).1 hpath
    (fun ⟨a, ha, hr⟩ => by
      have hna := hreset a ha
      cases a with
      | reset p now removeErr => exact absurd trivial hna
      | _ => exact hr.elim) hstart
  have hperm := perm_posted (keeps_of_mem_events hreset)
    (L := (⟨[], fun _ => []⟩ : Ledger ι Entry)) ⟨rfl, fun _ => rfl⟩
    fun p => pending_run (settled_events hflushed p) (Or.inl rfl)
  rw [href.disk scope, Ledger.total, (hperm.map _).sum_eq, postings_events, List.map_map]
  rfl

/-- A call in `/r` that saves so many tokens. -/
def callIn (saved : Int64) : Observation := ⟨"/r", "go", 10, saved⟩

/-- Two processes that observe one call each, and flush. -/
def twoFlushes : List (Action Bool) :=
  [.open false 1 true none, .open true 2 true none, .observe false (callIn 5) 3,
    .observe true (callIn (-7)) 4, .read false 5 true, .write false, .read true 6 true, .write true]

theorem totals_of_flushed_two : ∃ τ : System Bool,
    Run (System.Step GoMap.RangeOrder.default "savings.json") (System.start .missing) twoFlushes τ ∧
      τ.disk.at (.repo "/r") = ⟨5, 20, 2⟩ := by
  have hsome : (twoFlushes.foldlM (System.step GoMap.RangeOrder.default "savings.json")
      (System.start .missing)).isSome = true := by decide +kernel
  obtain ⟨τ, hτ⟩ := Option.isSome_iff_exists.mp hsome
  have hrun : Run (System.Step GoMap.RangeOrder.default "savings.json") (System.start .missing)
      twoFlushes τ := Run.of_foldlM hτ
  have hmissing : OnDisk.missing ≠ .corrupt := fun h => nomatch h
  refine ⟨τ, hrun, (totals_of_flushed (by decide) hmissing hrun ?_ ?_ (.repo "/r")).trans ?_⟩
  · simp [twoFlushes, Action.isReset]
  · simp [twoFlushes, Flushed]
  · decide

/-! ### What a reset leaves -/

/-- **The disk counts since `σ`**: observations of the steps since, each at most once, and
what some of the processes had pending in `σ`, each at most once. -/
def CountsSince (σ : System ι) (l : List (Action ι)) (τ : System ι) : Prop :=
  ∃ (counted : List (ι × Observation)) (ps : List ι),
    counted.Subperm (observed l) ∧ ps.Nodup ∧ ∀ scope, τ.disk.at scope =
      (counted.map fun x => x.2.at scope).sum + (ps.map fun p => σ.deltaAt p scope).sum

section Reset

variable {ord : GoMap.RangeOrder Buckets} {path : String} {ρ σ τ : System ι}

/-- What every step keeps: the stores are of the path, and a flush that has read holds the
lock. -/
structure Sane (path : String) (σ : System ι) : Prop where
  path : ∀ {p x}, σ.procs p = some x → x.store.path = path
  lock : ∀ {p s merged}, σ.procs p = some ⟨s, .writing merged⟩ → σ.lock = some p

theorem Sane.setProc (h : Sane path σ) {p : ι} {x : Process} {disk : OnDisk} {lock : Option ι}
    (hpath : x.store.path = path) (hself : ∀ s merged, x = ⟨s, .writing merged⟩ → lock = some p)
    (hrest : ∀ q s merged, q ≠ p → σ.procs q = some ⟨s, .writing merged⟩ → lock = σ.lock) :
    Sane path ({ σ with disk := disk, lock := lock }.setProc p x) := by
  refine ⟨fun {q y} hq => ?_, fun {q s merged} hq => ?_⟩
  · rw [System.procs_setProc] at hq
    split at hq
    · cases hq
      exact hpath
    · exact h.path hq
  · rw [System.procs_setProc] at hq
    by_cases hqp : q = p
    · rw [if_pos hqp] at hq
      cases hq
      rw [hqp]
      exact hself s merged rfl
    · rw [if_neg hqp] at hq
      exact (hrest q s merged hqp hq).trans (h.lock hq)

theorem Sane.step (h : Sane path σ) {a : Action ι} (hstep : System.Step ord path σ a τ) :
    Sane path τ := by
  have hother : ∀ {p s merged}, σ.procs p = some ⟨s, .writing merged⟩ →
      ∀ q s' merged', q ≠ p → σ.procs q = some ⟨s', .writing merged'⟩ → (none : Option ι) = σ.lock :=
    fun hp q s' merged' hqp hq => by
      have hlock := (h.lock hp).symm.trans (h.lock hq)
      exact absurd (Option.some.inj hlock).symm hqp
  -- a process takes the lock when it reads, and writes only while it holds it
  unfold System.Step System.step at hstep
  cases a with
  | «open» p now moved readErr =>
    simp only at hstep
    split at hstep
    · cases hstep
    · cases hstep
      exact h.setProc (openStore_spec path σ.disk now moved readErr).1 (fun _ _ hx => nomatch hx)
        fun _ _ _ _ _ => rfl
  | observe p o now =>
    simp only at hstep
    split at hstep
    · rename_i s hp
      cases hstep
      have hs : s.path = path := h.path hp
      refine h.setProc hs (fun _ _ hx => ?_) fun _ _ _ _ _ => rfl
      simp only [Process.mk.injEq] at hx
      obtain ⟨-, hx⟩ := hx
      split at hx <;> cases hx
    · cases hstep
  | read p now moved =>
    simp only at hstep
    split at hstep
    · rename_i s ph hlock hp
      cases hstep
      have hs : s.path = path := h.path hp
      refine h.setProc hs (fun _ _ _ => rfl) fun q s' merged _ hq => ?_
      exact absurd (h.lock hq) (by simp [hlock])
    · cases hstep
  | write p =>
    simp only at hstep
    split at hstep
    · rename_i s merged hp
      cases hstep
      have hs : s.path = path := h.path hp
      exact h.setProc hs (fun _ _ hx => nomatch hx) (hother hp)
    · cases hstep
  | fail p =>
    simp only at hstep
    split at hstep
    · rename_i s merged hp
      cases hstep
      have hs : s.path = path := h.path hp
      exact h.setProc hs (fun _ _ hx => nomatch hx) (hother hp)
    · rename_i s ph _ hp
      cases hstep
      have hs : s.path = path := h.path hp
      exact h.setProc hs (fun _ _ hx => nomatch hx) fun _ _ _ _ _ => rfl
    · cases hstep
  | reset p now removeErr =>
    simp only at hstep
    split at hstep
    · rename_i s hp
      cases hstep
      have hs : (s.reset σ.disk now removeErr).1.path = path := by
        have hs' : s.path = path := h.path hp
        unfold Store.reset
        simp only
        split
        · exact hs'
        · split <;> exact hs'
      exact h.setProc hs (fun _ _ hx => nomatch hx) fun _ _ _ _ _ => rfl
    · cases hstep

theorem Sane.run {l : List (Action ι)} {disk : OnDisk}
    (hrun : Run (System.Step ord path) (System.start disk) l σ) : Sane path σ :=
  hrun.invariant (fun hs hstep => hs.step hstep) ⟨fun hx => (nomatch hx), fun hx => (nomatch hx)⟩

/-- The ledger a reset opens: every process has what it has. -/
def openedAt (σ : System ι) : Ledger ι Entry where
  pending := fun p => if (σ.procs p).isSome then [.held] else []

/-- **After a reset** the ledger starts at zero. -/
theorem refines_reset (hpath : path ≠ "") (h : Sane path ρ) {p : ι} {now : ℤ}
    (hstep : System.Step ord path ρ (.reset p now none) σ) (hlock : ρ.lock = none) :
    Refines path (fun _ => 0) σ.deltaAt σ (openedAt σ) := by
  have hsane := h.step hstep
  have hσ : σ.disk = .missing ∧ σ.lock = none := by
    unfold System.Step System.step at hstep
    simp only at hstep
    split at hstep
    · rename_i s hp
      have hs : s.path = path := h.path hp
      have hne : s.path ≠ "" := by rwa [hs]
      simp only [Store.reset, if_neg hne] at hstep
      cases hstep
      exact ⟨rfl, hlock⟩
    · cases hstep
  refine ⟨hsane.path, fun scope => ?_, fun {q x} hq scope => ?_, fun {q} hq => ?_, fun hq => ?_⟩
  · rw [hσ.1]
    rfl
  · have hpend : (openedAt σ).pending q = [.held] := if_pos (by rw [hq]; rfl)
    rw [Ledger.due, hpend, List.map_singleton, List.sum_singleton]
    exact (System.deltaAt_eq hq scope).symm
  · exact if_neg (by rw [hq]; exact Bool.false_ne_true)
  · have hl := hsane.lock hq
    rw [hσ.2] at hl
    cases hl

end Reset

/-- The observations among the entries. -/
def seenEntries (c : List (ι × Entry)) : List (ι × Observation) :=
  c.filterMap fun x => match x with
    | (p, .seen o) => some (p, o)
    | (_, .held) => none

/-- The processes with an entry `held`. -/
def heldEntries (c : List (ι × Entry)) : List ι :=
  c.filterMap fun x => match x with
    | (_, .seen _) => none
    | (p, .held) => some p

omit [DecidableEq ι] in
theorem sum_entries (d : ι → Scope → Totals) (scope : Scope) (c : List (ι × Entry)) :
    (c.map fun e => amount d scope e.1 e.2).sum =
      ((seenEntries c).map fun x => x.2.at scope).sum +
        ((heldEntries c).map fun p => d p scope).sum := by
  induction c with
  | nil => exact (add_zero _).symm
  | cons x c ih =>
    obtain ⟨p, e⟩ := x
    rw [List.map_cons, List.sum_cons, ih]
    cases e with
    | held => exact add_left_comm _ _ _
    | seen o => exact (add_assoc _ _ _).symm

theorem count_seenEntries (c : List (ι × Entry)) (p : ι) (o : Observation) :
    (seenEntries c).count (p, o) = c.count (p, .seen o) := by
  induction c with
  | nil => rfl
  | cons x c ih =>
    obtain ⟨q, e⟩ := x
    rw [List.count_cons, ← ih]
    cases e with
    | held =>
      rw [if_neg (by simp)]
      rfl
    | seen o' =>
      change ((q, o') :: seenEntries c).count (p, o) = _
      rw [List.count_cons]
      simp

theorem count_heldEntries (c : List (ι × Entry)) (p : ι) :
    (heldEntries c).count p = c.count (p, .held) := by
  induction c with
  | nil => rfl
  | cons x c ih =>
    obtain ⟨q, e⟩ := x
    rw [List.count_cons, ← ih]
    cases e with
    | held =>
      change (q :: heldEntries c).count p = _
      rw [List.count_cons]
      simp
    | seen o =>
      rw [if_neg (by simp)]
      rfl

/-- **A reset is not undone**: in every run, after a reset that no flush was under way at,
as long as no step brings old totals back, the disk counts only what was observed since
and what was pending then. -/
theorem countsSince_of_fresh {ord : GoMap.RangeOrder Buckets} {path : String} (hpath : path ≠ "")
    {disk : OnDisk} {l₁ l₂ : List (Action ι)} {ρ σ τ : System ι} {p : ι} {now : ℤ}
    (hbefore : Run (System.Step ord path) (System.start disk) l₁ ρ)
    (hreset : System.Step ord path ρ (.reset p now none) σ) (hlock : ρ.Fresh (.reset p now none))
    (hafter : Run (fun σ a τ => System.Step ord path σ a τ ∧ σ.Fresh a) σ l₂ τ) :
    CountsSince σ l₂ τ := by
  have href := Refines.run hafter hpath (fun _ _ => rfl)
    (refines_reset hpath (Sane.run hbefore) hreset hlock)
  have hcount : ∀ q e, ((openedAt σ).run (events l₂)).committed.count (q, e) ≤
      (openedAt σ).count q e + ((observed l₂).map fun x => (x.1, Entry.seen x.2)).count (q, e) :=
    fun q e => by
      have hle := Ledger.count_run_le (openedAt σ) (events l₂) q e
      rw [postings_events] at hle
      exact le_trans (Nat.le_add_right _ _) hle
  generalize (openedAt σ).run (events l₂) = L at href hcount
  have hopen : ∀ q e, (openedAt σ).count q e ≤ if e = .held then 1 else 0 := fun q e => by
    unfold Ledger.count openedAt
    rw [List.count_nil, zero_add]
    simp only
    split
    · rw [List.count_singleton]
      cases e <;> simp
    · exact Nat.zero_le _
  refine ⟨seenEntries L.committed, heldEntries L.committed, ?_, ?_, fun scope => ?_⟩
  · refine List.subperm_ext_iff.mpr fun ⟨q, o⟩ _ => ?_
    have hc := (hcount q (.seen o)).trans (Nat.add_le_add_right (hopen q (.seen o)) _)
    rw [if_neg (by simp), zero_add] at hc
    rw [count_seenEntries]
    refine hc.trans (le_of_eq ?_)
    exact List.count_map_of_injective _ (fun x : ι × Observation => (x.1, Entry.seen x.2))
      (fun x y hxy => by simpa [Prod.ext_iff] using hxy) (q, o)
  · refine List.nodup_iff_count_le_one.mpr fun q => ?_
    have hc := (hcount q .held).trans (Nat.add_le_add_right (hopen q .held) _)
    have hnone : ((observed l₂).map fun x => (x.1, Entry.seen x.2)).count (q, .held) = 0 := by
      refine List.count_eq_zero.mpr fun hm => ?_
      obtain ⟨x, -, hx⟩ := List.mem_map.mp hm
      exact nomatch (congrArg Prod.snd hx)
    rw [if_pos rfl, hnone, add_zero] at hc
    rw [count_heldEntries]
    exact hc
  · rw [href.disk scope, zero_add, Ledger.total, sum_entries]

/-- A file that counts 100 saved tokens. -/
def savedBefore : OnDisk := .file { firstSeen := 1, totals := ⟨100, 200, 9⟩ }

/-- A process observes a call after the reset of another one, and flushes. -/
def staleFlush : List (Action Bool) := [.observe false (callIn 5) 5, .read false 6 true, .write false]

theorem not_countsSince_staleBaseline : ∃ ρ σ τ : System Bool,
    Run (System.Step GoMap.RangeOrder.default "savings.json") (System.start savedBefore)
      [.open false 2 true none, .open true 3 true none] ρ ∧
    System.Step GoMap.RangeOrder.default "savings.json" ρ (.reset true 4 none) σ ∧
    Run (System.Step GoMap.RangeOrder.default "savings.json") σ staleFlush τ ∧
    ¬CountsSince σ staleFlush τ := by
  have hρ : ([.open false 2 true none, .open true 3 true none].foldlM
      (System.step GoMap.RangeOrder.default "savings.json") (System.start savedBefore)).bind
        (fun ρ : System Bool => (ρ.step GoMap.RangeOrder.default "savings.json" (.reset true 4 none)).bind
          fun σ => (staleFlush.foldlM (System.step GoMap.RangeOrder.default "savings.json") σ).map
            fun τ => (σ.deltaAt false .total, σ.deltaAt true .total, τ.disk.at .total)) =
        some (0, 0, ⟨105, 210, 10⟩) := by decide +kernel
  obtain ⟨ρ, hρ, h⟩ := Option.bind_eq_some_iff.mp hρ
  obtain ⟨σ, hσ, h⟩ := Option.bind_eq_some_iff.mp h
  obtain ⟨τ, hτ, h⟩ := Option.map_eq_some_iff.mp h
  simp only [Prod.mk.injEq] at h
  obtain ⟨hfalse, htrue, hdisk⟩ := h
  refine ⟨ρ, σ, τ, Run.of_foldlM hρ, hσ, Run.of_foldlM hτ, ?_⟩
  rintro ⟨counted, ps, hsub, -, hat⟩
  have hzero : (ps.map fun p => σ.deltaAt p .total).sum = 0 := by
    refine List.sum_eq_zero fun x hx => ?_
    obtain ⟨p, -, rfl⟩ := List.mem_map.mp hx
    cases p
    · exact hfalse
    · exact htrue
  have hcounted : counted = [] ∨ counted = [(false, callIn 5)] := by
    have hlen : counted.length ≤ 1 := hsub.length_le
    match counted, hlen with
    | [], _ => exact Or.inl rfl
    | [x], _ => 
      have := hsub.subset (List.mem_singleton_self x)
      simp [observed, staleFlush] at this
      exact Or.inr (by rw [this])
  have h := hat .total
  rw [hzero, hdisk, add_zero] at h
  rcases hcounted with rfl | rfl
  · exact absurd h (by decide)
  · exact absurd h (by decide)
/-- A reset of a process before the file is written. -/
theorem Unwritten.reset {ord : GoMap.RangeOrder Buckets} {path : String} {ρ σ : System ι}
    (h : Unwritten ρ) (hm : ρ.disk = .missing) {p : ι} {now : ℤ} {removeErr : Option String}
    (hstep : System.Step ord path ρ (.reset p now removeErr) σ) : Unwritten σ := by
  have hzero : ∀ path scope, SavingsFile.at { firstSeen := now } scope =
      Store.deltaAt { path := path, file := { firstSeen := now } } scope := fun path scope => by
    cases scope <;> rfl
  unfold System.Step System.step at hstep
  simp only at hstep
  split at hstep
  · rename_i s hp
    cases hstep
    have hdisk : (s.reset ρ.disk now removeErr).2.1 = .missing := by
      rw [hm]
      unfold Store.reset
      simp only
      split
      · rfl
      · split <;> rfl
    have hfile : ∀ scope, (s.reset ρ.disk now removeErr).1.file.at scope =
        (s.reset ρ.disk now removeErr).1.deltaAt scope := by
      unfold Store.reset
      simp only
      split
      · exact hzero _
      · split <;> exact hzero _
    exact h.setProc (by rw [hdisk]; exact fun hc => nomatch hc) (fun _ => hm) fun _ => hfile
  · cases hstep

theorem countsSince_of_fresh_two : ∃ σ τ : System Bool,
    CountsSince σ staleFlush τ ∧ τ.disk.at .total = ⟨5, 10, 1⟩ := by
  have hall : ([.open false 2 true none, .open true 3 true none].foldlM
      (System.step GoMap.RangeOrder.default "savings.json") (System.start .missing)).bind
        (fun ρ : System Bool =>
          (ρ.step GoMap.RangeOrder.default "savings.json" (.reset true 4 none)).bind fun σ =>
            (staleFlush.foldlM (System.step GoMap.RangeOrder.default "savings.json") σ).map fun τ =>
              (ρ.lock, ρ.disk.isMissing, τ.disk.at .total)) = some (none, true, ⟨5, 10, 1⟩) := by
    decide +kernel
  obtain ⟨ρ, hρ, h⟩ := Option.bind_eq_some_iff.mp hall
  obtain ⟨σ, hσ, h⟩ := Option.bind_eq_some_iff.mp h
  obtain ⟨τ, hτ, h⟩ := Option.map_eq_some_iff.mp h
  obtain ⟨hlock, hdisk, htotal⟩ := by simpa only [Prod.mk.injEq] using h
  have hstart : Unwritten (System.start .missing : System Bool) :=
    ⟨fun hc => (nomatch hc), fun _ p x hx => (nomatch hx)⟩
  have hbefore := Run.of_foldlM hρ
  have hρ' := (hstart.run hbefore (by simp [Action.isReset])).2
  have hσ' : Unwritten σ := hρ'.reset (OnDisk.isMissing_iff.mp hdisk) hσ
  have hafter := (hσ'.run (Run.of_foldlM hτ) (by simp [staleFlush, Action.isReset])).1
  exact ⟨σ, τ, countsSince_of_fresh (by decide) hbefore hσ hlock hafter, htotal⟩

end Gortex.Savings
