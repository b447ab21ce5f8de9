import Gortex.Lib.LockProgress
import Gortex.Graph.Invariant
import Gortex.Graph.Locks

/-!
# The graph under threads

The calls of `internal/graph/graph.go` as threads make them: between any two locks that a call
takes, and any two tables that it reads or writes, the calls of the other threads go on. As every
call stays within its locks, and all locks are taken in ascending order,

* every run of the threads is one in which a call is one step, or one step a shard
  (`SharedGraph.serial`), and the indexes of the graph agree after it
  (`SharedGraph.indexes_agree`),
* two accesses that can both come next do not depend on each other (`SharedGraph.race_free`),
* and all calls return, if no others are made (`SharedGraph.completes`).
-/

namespace Gortex

open Locking

namespace SharedGraph

variable {base : Graph} {ord : MapOrder}

/-! ### The threads -/

/-- The critical section of a call. -/
def Op.critical (ord : MapOrder) (base : Graph) (op : Op) :
    Section (Fin numShards) Shard Local where
  mode := op.mode
  locks := op.locks base
  body := (op.body ord base).bind fun r => .done (.returned r)
  sorted := op.locks_sorted base
  within := (op.within ord base).bind fun _ => trivial

/-- The critical section of a loop over the shards at one of them. -/
def Query.critical (q : Query) (acc : Result) (i : Fin numShards) (rest : List (Fin numShards)) :
    Section (Fin numShards) Shard Local where
  mode := .read
  locks := [i]
  body := .read fun m => q.resume (q.visit (m i) acc) rest
  sorted := List.pairwise_singleton _ _
  within := Body.within_read fun m m' hm => by rw [hm i List.mem_cons_self]

/-- **What a thread does next**: the section of its call, or of the next shard of its loop. -/
def program (ord : MapOrder) (base : Graph) : Program (Fin numShards) Shard Local where
  next
    | .returned _ => none
    | .calling op => some (op.critical ord base)
    | .scanning _ _ [] => none
    | .scanning q acc (i :: rest) => some (q.critical acc i rest)
  calls l := (∃ op : Op, l = op.call base) ∨ ∃ q : Query, l = q.call

/-- The threads and the graph. -/
abbrev Threads (τ : Type*) := State τ (Fin numShards) Shard Local

variable {τ : Type*} [DecidableEq τ] {c : Threads τ} {l : List (Action τ Local)}

/-- No thread has called yet. -/
def begin (base : Graph) : Threads τ := State.idle base.shards fun _ => .returned .unit

/-- A run of the threads. -/
abbrev Runs (ord : MapOrder) (base : Graph) (l : List (Action τ Local)) (c : Threads τ) : Prop :=
  Run (Step (program ord base)) (begin base) l c

namespace TwoThreads

/-- Two nodes that are allocated, of different shards. -/
def twoNodes : Graph :=
  let node (id : String) : Node := { id := id, kind := .kindFunction, name := id, filePath := id }
  ((Graph.new.newNode (node "a")).2.newNode (node "b")).2

/-- Each thread adds one of them. -/
def op (t : Bool) : Op := .addNode ⟨if t then 1 else 0⟩

/-- What a thread writes. -/
def add (t : Bool) (m : Shards) : Shards :=
  ((graphOf twoNodes m).addNode ⟨if t then 1 else 0⟩).shards

/-- A thread comes to its access. -/
def locked (t : Bool) : List (Action Bool Local) :=
  [.call t (.calling (op t)), .enter t, .announce t, .lock t, .start t]

/-- Both threads come to their accesses. -/
def both : List (Action Bool Local) := locked false ++ locked true

/-- The two calls return, the one that came last first. -/
def returns : List (Action Bool Local) :=
  [.access false, .access true, .commit true, .commit false, .unlock true, .leave true,
    .unlock false, .leave false]

theorem run_both : ∃ c : Threads Bool, Runs .default twoNodes both c ∧
    ∀ t, c.thread t = .inside (.calling (op t)) ((op t).critical .default twoNodes)
      ((op t).critical .default twoNodes).body := by
  have hcall : Step (program .default twoNodes) (begin twoNodes)
      (.call false (.calling (op false))) _ :=
    Step.call rfl rfl (Or.inl ⟨op false, rfl⟩)
  refine ⟨_, .cons hcall <| .cons (.enter rfl rfl) <| .cons (.announce rfl rfl rfl) <|
    .cons (.lock rfl ?_) <| .cons (.start rfl) <|
    .cons (.call rfl rfl (Or.inl ⟨op true, rfl⟩)) <| .cons (.enter rfl rfl) <|
    .cons (.announce rfl rfl ?_) <| .cons (.lock rfl ?_) <| .cons (.start rfl) <| .nil _, ?_⟩
  · decide +kernel
  · decide +kernel
  · decide +kernel
  · intro t
    cases t with
    | false => rfl
    | true => rfl

theorem run_returns : ∃ c : Threads Bool, Runs .default twoNodes (both ++ returns) c ∧
    ∀ t, c.thread t = .outside (.returned .unit) := by
  obtain ⟨c, hrun, hboth⟩ := run_both
  have hrest : ∃ d : Threads Bool, Run (Step (program .default twoNodes)) c returns d ∧
      ∀ t, d.thread t = .outside (.returned .unit) := by
    refine ⟨_, .cons (.access (hboth false)) <| .cons (.access (hboth true)) <|
      .cons (.commit rfl) <| .cons (.commit rfl) <| .cons (.unlock rfl) <| .cons (.leave rfl) <|
      .cons (.unlock rfl) <| .cons (.leave rfl) <| .nil _, fun t => ?_⟩
    cases t with
    | false => rfl
    | true => rfl
  obtain ⟨d, hd, hout⟩ := hrest
  exact ⟨d, hrun.append hd, hout⟩

theorem isOutside {c : Threads Bool} (h : ∀ t, c.thread t = .outside (.returned .unit)) (t : Bool) :
    (c.thread t).IsOutside := by
  rw [h t]
  trivial

theorem mem_calls {t : Bool} {o : Op} (h : Action.call t (.calling o) ∈ both ++ returns) :
    o = op t := by
  simp only [both, locked, returns, List.cons_append, List.nil_append, List.mem_cons,
    Action.call.injEq, Local.calling.injEq, reduceCtorEq, List.not_mem_nil, or_false,
    false_or] at h
  rcases h with ⟨rfl, rfl⟩ | ⟨rfl, rfl⟩
  · rfl
  · rfl

end TwoThreads

/-- The graph, and where each thread is, when nothing comes between what a call does under its
locks. -/
structure Serial (τ : Type*) where
  graph : Graph
  loc : τ → Local

/-- One step when nothing comes between: a call, what a call does, or a loop at one shard. -/
inductive Serial.Step (ord : MapOrder) : Serial τ → Atomic.Action τ Local → Serial τ → Prop
  | callOp {s : Serial τ} {t : τ} {r : Result} (op : Op) : s.loc t = .returned r →
    Step ord s (.call t (op.call s.graph))
      { s with loc := Function.update s.loc t (op.call s.graph) }
  | callQuery {s : Serial τ} {t : τ} {r : Result} (q : Query) : s.loc t = .returned r →
    Step ord s (.call t q.call) { s with loc := Function.update s.loc t q.call }
  | op {s : Serial τ} {t : τ} {op : Op} : s.loc t = .calling op →
    Step ord s (.perform t)
      { graph := (op.apply ord s.graph).1
        loc := Function.update s.loc t (.returned (op.apply ord s.graph).2) }
  | shard {s : Serial τ} {t : τ} {q : Query} {acc : Result} {i : Fin numShards}
    {rest : List (Fin numShards)} : s.loc t = .scanning q acc (i :: rest) →
    Step ord s (.perform t)
      { s with loc := Function.update s.loc t (q.resume (q.visit (s.graph.shards i) acc) rest) }

/-! ### Every run is a serial one -/

/-- Where a thread can be between its sections. -/
def Local.Legal (base : Graph) : Local → Prop
  | returned _ => True
  | calling op => op.Locks base
  | scanning _ _ shards => shards ≠ []

theorem Op.call_legal (base : Graph) (op : Op) : (op.call base).Legal base := by
  cases op with
  | reindexEdge r oldTo =>
    change (if oldTo = (base.edge r).toID then _ else _ : Local).Legal base
    split
    · trivial
    · assumption
  | _ => trivial

theorem Query.call_legal (base : Graph) (q : Query) : q.call.Legal base :=
  List.ne_nil_of_mem (mem_lockAll 0)

theorem Query.resume_legal (base : Graph) (q : Query) (acc : Result)
    (rest : List (Fin numShards)) : (q.resume acc rest).Legal base := by
  unfold Query.resume
  split
  · trivial
  · trivial
  · rename_i hrest _
    exact fun hc => hrest hc

/-- The graph and the threads, of a state in which sections are single steps. -/
def ofAtomic (base : Graph) (a : Atomic τ (Fin numShards) Shard Local) : Serial τ where
  graph := graphOf base a.mem
  loc := a.loc

variable {a a' : Atomic τ (Fin numShards) Shard Local} {x : Atomic.Action τ Local}

/-- **A section as one step is a step of the graph.** -/
theorem ofAtomic_step (hlegal : ∀ t, (a.loc t).Legal base)
    (h : Atomic.Step (program ord base) a x a') :
    Serial.Step ord (ofAtomic base a) x (ofAtomic base a') ∧ ∀ t, (a'.loc t).Legal base := by
  have hupdate : ∀ (t : τ) (l : Local), l.Legal base →
      ∀ t', (Function.update a.loc t l t').Legal base := fun t l hl t' => by
    rcases eq_or_ne t' t with rfl | hne
    · rw [Function.update_self]
      exact hl
    · rw [Function.update_of_ne hne]
      exact hlegal t'
  -- a call begins, or the body of a section is performed at once: that of a write, or that of one
  -- shard of a query
  cases h with
  | @call t l hn hl =>
    obtain ⟨r, hr⟩ : ∃ r, a.loc t = .returned r := by
      have ht := hlegal t
      cases hloc : a.loc t with
      | returned r => exact ⟨r, rfl⟩
      | calling op =>
        rw [hloc] at hn
        cases hn
      | scanning q acc shards =>
        rw [hloc] at ht hn
        cases shards with
        | nil => exact absurd rfl ht
        | cons i rest => cases hn
    rcases hl with ⟨op, rfl⟩ | ⟨q, rfl⟩
    · exact ⟨Serial.Step.callOp op hr, hupdate t _ (op.call_legal base)⟩
    · exact ⟨Serial.Step.callQuery q hr, hupdate t _ (q.call_legal base)⟩
  | @perform t s hn =>
    cases hloc : a.loc t with
    | returned r =>
      rw [hloc] at hn
      cases hn
    | calling op =>
      have hop := hlegal t
      rw [hloc] at hn hop
      cases hn
      have hdoes := op.does ord hop a.mem
      have hrun : ((op.critical ord base).body.run a.mem) =
          (.returned ((op.body ord base).run a.mem).1, ((op.body ord base).run a.mem).2) :=
        Body.run_bind ..
      refine ⟨?_, hupdate t _ (by rw [hrun]; trivial)⟩
      have hstep : Serial.Step ord (ofAtomic base a) (.perform t) _ := Serial.Step.op hloc
      rw [show op.apply ord (ofAtomic base a).graph = _ from hdoes] at hstep
      rw [hrun]
      exact hstep
    | scanning q acc shards =>
      rw [hloc] at hn
      cases shards with
      | nil => cases hn
      | cons i rest =>
        cases hn
        exact ⟨Serial.Step.shard (s := ofAtomic base a) hloc,
          hupdate t _ (q.resume_legal base _ rest)⟩

/-- **A run of the sections is a run of the graph**, and leaves the threads where they can be. -/
theorem ofAtomic_run {y : List (Atomic.Action τ Local)} (hlegal : ∀ t, (a.loc t).Legal base)
    (h : Run (Atomic.Step (program ord base)) a y a') :
    Run (Serial.Step ord) (ofAtomic base a) y (ofAtomic base a') ∧
      ∀ t, (a'.loc t).Legal base := by
  induction h with
  | nil => exact ⟨Run.nil _, hlegal⟩
  | cons h1 _ ih =>
    obtain ⟨hstep, hlegal'⟩ := ofAtomic_step hlegal h1
    obtain ⟨hrun, hlast⟩ := ih hlegal'
    exact ⟨Run.cons hstep hrun, hlast⟩

/-- The serial run of a run, and what the two have in common. -/
theorem Runs.atomic (h : Runs ord base l c) :
    ∃ a : Atomic τ (Fin numShards) Shard Local,
      Run (Serial.Step ord) ⟨base, fun _ => .returned .unit⟩ (l.filterMap Action.atomic)
        (ofAtomic base a) ∧ Refines (program ord base) c a ∧ ∀ t, (a.loc t).Legal base := by
  obtain ⟨a, hrun, href⟩ := (Refines.idle base.shards fun _ : τ => Local.returned .unit).run
    (State.Inv.idle ..) h
  have hlegal : ∀ t : τ, ((fun _ : τ => Local.returned .unit) t).Legal base := fun _ => trivial
  obtain ⟨hserial, hlast⟩ := ofAtomic_run hlegal hrun
  exact ⟨a, hserial, href, hlast⟩

omit [DecidableEq τ] in
/-- When no thread is in a section the graph is the same. -/
theorem graphOf_mem_eq (h : Refines (program ord base) c a) (hout : ∀ t, (c.thread t).IsOutside) :
    graphOf base c.mem = (ofAtomic base a).graph := by
  rw [h.mem_eq fun t k s b hc => ?_]
  · rfl
  · have ht := hout t
    rw [hc] at ht
    exact ht

/-- **Every run of the threads is a serial one**: there is a run in which nothing comes between
what a call does under its locks, with the same calls, and with what each call does where its body
is through; every thread returns the same there, and whenever no thread is in a section, the graph
is the same. -/
theorem serial (h : Runs ord base l c) :
    ∃ s : Serial τ, Run (Serial.Step ord) ⟨base, fun _ => .returned .unit⟩
        (l.filterMap Action.atomic) s ∧
      (∀ t, (c.thread t).loc = s.loc t) ∧
      ((∀ t, (c.thread t).IsOutside) → graphOf base c.mem = s.graph) := by
  obtain ⟨a, hrun, href, -⟩ := h.atomic
  exact ⟨ofAtomic base a, hrun, href.loc, graphOf_mem_eq href⟩

theorem serial_threads : ∃ c : Threads Bool, (∀ t, (c.thread t).IsOutside) ∧ ∃ s : Serial Bool,
    Run (Serial.Step .default) ⟨TwoThreads.twoNodes, fun _ => .returned .unit⟩
        ((TwoThreads.both ++ TwoThreads.returns).filterMap Action.atomic) s ∧
      (∀ t, (c.thread t).loc = s.loc t) ∧
      ((∀ t, (c.thread t).IsOutside) → graphOf TwoThreads.twoNodes c.mem = s.graph) := by
  obtain ⟨c, hrun, hout⟩ := TwoThreads.run_returns
  exact ⟨c, TwoThreads.isOutside hout, serial hrun⟩

/-- The call adds what is allocated, and no edge has been written through its pointer. -/
def Op.Allocated (base : Graph) : Op → Prop
  | addNode r => r.addr < base.nextNode
  | addEdge r => r.addr < base.nextEdge
  | reindexEdge _ _ => False
  | _ => True

/-- What a call does keeps the invariant of the graph, and what is behind the pointers. -/
theorem Op.apply_inv (ord : MapOrder) {m : Shards} (hinv : Graph.Inv (graphOf base m)) {op : Op}
    (h : op.Allocated base) :
    Graph.Inv (op.apply ord (graphOf base m)).1 ∧
      ∃ m', (op.apply ord (graphOf base m)).1 = graphOf base m' := by
  have hlocks : op.Locks base := by
    cases op with
    | reindexEdge r oldTo => exact h.elim
    | _ => trivial
  refine ⟨?_, ((op.body ord base).run m).2, congrArg Prod.fst (op.does ord hlocks m)⟩
  cases op with
  | addNode r => exact hinv.addNode h
  | addEdge r => exact hinv.addEdge h
  | reindexEdge r oldTo => exact h.elim
  | removeEdge fromID toID kind => exact hinv.removeEdge fromID toID kind
  | evictFile filePath => exact (hinv.evictFile ord filePath).inv
  | evictRepo repoPrefix => exact (hinv.evictRepo ord repoPrefix).inv
  | _ => exact hinv

/-- **The indexes agree after every run**: if the calls add only what is allocated, and no edge is
retargeted, then whenever no thread is in a section every sidecar is the position map of its
slice, no key is there twice, an edge is among the out-edges of its source exactly if it is among
the in-edges of its target, and the secondary indexes hold exactly the stored nodes. -/
theorem indexes_agree (hbase : Graph.Inv base) (h : Runs ord base l c)
    (hl : ∀ t op, Action.call t (.calling op) ∈ l → op.Allocated base)
    (hout : ∀ t, (c.thread t).IsOutside) : Graph.RepInv (graphOf base c.mem) := by
  obtain ⟨a, hrun, href, -⟩ := h.atomic
  have hinv := hrun.invariant_of_mem (I := fun s => (∃ m, s.graph = graphOf base m) ∧
    Graph.Inv s.graph ∧ ∀ t op, s.loc t = .calling op → op.Allocated base)
    (fun {s x s'} hx hi hs => ?_) ⟨⟨base.shards, rfl⟩, hbase, fun t op hc => by cases hc⟩
  · rw [graphOf_mem_eq href hout]
    exact hinv.2.1.repInv
  · obtain ⟨⟨m, hm⟩, hi, hloc⟩ := hi
    have hcall : ∀ t k, Atomic.Action.call t k ∈ l.filterMap Action.atomic →
        Action.call t k ∈ l := fun t k hk => by
      obtain ⟨y, hy, hyx⟩ := List.mem_filterMap.mp hk
      cases y with
      | call t' k' =>
        cases hyx
        exact hy
      | commit t' => cases hyx
      | _ => cases hyx
    have hupdate : ∀ (t : τ) (k : Local), (∀ op, k = .calling op → op.Allocated base) →
        ∀ t' op, Function.update s.loc t k t' = .calling op → op.Allocated base :=
      fun t k hk t' op hc => by
        rcases eq_or_ne t' t with rfl | hne
        · rw [Function.update_self] at hc
          exact hk op hc
        · rw [Function.update_of_ne hne] at hc
          exact hloc t' op hc
    cases hs with
    | @callOp t r op hr =>
      exact ⟨⟨m, hm⟩, hi, hupdate t _ fun op' hop => hl t op' (hop ▸ hcall t _ hx)⟩
    | @callQuery t r q hr => exact ⟨⟨m, hm⟩, hi, hupdate t _ fun op' hop => by cases hop⟩
    | @op t op hop =>
      rw [hm] at hi
      obtain ⟨hinv, hover⟩ := Op.apply_inv ord hi (hloc t op hop)
      rw [← hm] at hinv hover
      exact ⟨hover, hinv, hupdate t _ fun op' hc => by cases hc⟩
    | @shard t q acc i rest hq =>
      refine ⟨⟨m, hm⟩, hi, hupdate t _ fun op' hc => ?_⟩
      unfold Query.resume at hc
      split at hc <;> cases hc

theorem indexes_agree_threads : ∃ c : Threads Bool,
    Graph.RepInv (graphOf TwoThreads.twoNodes c.mem) := by
  obtain ⟨c, hrun, hout⟩ := TwoThreads.run_returns
  refine ⟨c, indexes_agree ((Graph.Inv.new.newNode _).newNode _) hrun (fun t o ho => ?_)
    (TwoThreads.isOutside hout)⟩
  rw [TwoThreads.mem_calls ho]
  cases t with
  | false => exact (by decide : 0 < 2)
  | true => exact (by decide : 1 < 2)

/-- **No two accesses race**: two accesses of two threads that can both come next can come in
either order, and neither reads what the other writes. -/
theorem race_free (h : Runs ord base l c) {t t' : τ} (hne : t ≠ t') {k k' : Local}
    {s s' : Section (Fin numShards) Shard Local} {write write' : Shards → Shards}
    {next next' : Shards → Body Shards Local}
    (ht : c.thread t = .inside k s (.access write next))
    (ht' : c.thread t' = .inside k' s' (.access write' next')) :
    write (write' c.mem) = write' (write c.mem) ∧ next (write' c.mem) = next c.mem ∧
      next' (write c.mem) = next' c.mem :=
  ((State.Inv.idle ..).run h).commute hne ht ht'

theorem race_free_threads : ∃ c : Threads Bool, TwoThreads.add false (TwoThreads.add true c.mem) =
    TwoThreads.add true (TwoThreads.add false c.mem) := by
  obtain ⟨c, hrun, hboth⟩ := TwoThreads.run_both
  exact ⟨c, (race_free hrun Bool.false_ne_true (hboth false) (hboth true)).1⟩

/-! ### All calls return -/

/-- How many sections a thread has before it returns, at most. -/
def Local.ahead : Local → ℕ
  | returned _ => 0
  | calling _ => 1
  | scanning _ _ shards => shards.length + 1

/-- A loop goes on with the shards that are left, or returns. -/
theorem Query.ahead_resume (q : Query) (acc : Result) (rest : List (Fin numShards)) :
    (q.resume acc rest).ahead ≤ rest.length + 1 := by
  unfold Query.resume
  split
  · exact Nat.zero_le _
  · exact Nat.zero_le _
  · exact le_rfl

/-- **The loops over the shards end**: no call goes through sections without end. -/
theorem program_finite (ord : MapOrder) (base : Graph) : (program ord base).Finite := by
  refine Subrelation.wf (r := InvImage (· < ·) Local.ahead) ?_ (InvImage.wf _ wellFounded_lt)
  rintro k l ⟨s, hs, hk⟩
  change k.ahead < l.ahead
  cases l with
  | returned r => cases hs
  | calling op =>
    cases hs
    obtain ⟨r, hr⟩ := Body.ends_bind hk
    cases hr
    exact Nat.one_pos
  | scanning q acc shards =>
    cases shards with
    | nil => cases hs
    | cons i rest =>
      cases hs
      cases hk with
      | @access _ _ m _ hk =>
        cases hk
        calc (q.resume (q.visit (m i) acc) rest).ahead ≤ rest.length + 1 := q.ahead_resume ..
          _ < (i :: rest).length + 1 := Nat.lt_succ_self _

/-- **All calls return**, if no others are made: the steps that are left to the threads come to an
end in whatever order they go on, from a call to its section, through its locks and accesses, out
of it and, in a loop over the shards, to the next one. And whenever none of these steps can be
taken, the last call of every thread has returned, and all locks are free. -/
theorem completes [Fintype τ] (ord : MapOrder) (base : Graph) :
    (WellFounded fun c' c : Threads τ =>
        ∃ x, Action.inCall x = true ∧ Step (program ord base) c x c') ∧
      ∀ {l : List (Action τ Local)} {c : Threads τ}, Runs ord base l c →
        ¬c.CanStep (program ord base) →
        (∀ t, ∃ r, c.thread t = .outside (.returned r)) ∧ ∀ i, c.mutex i = RWMutex.free := by
  refine ⟨(program_finite ord base).wellFounded_step, fun {l c} h hstuck => ?_⟩
  have hinv : c.Inv (program ord base) := (State.Inv.idle ..).run h
  obtain ⟨a, -, href, hlegal⟩ := h.atomic
  have hreturned : ∀ t, ∃ r, c.thread t = .outside (.returned r) := fun t => by
    obtain ⟨k, hk, hnext⟩ := hinv.progress hstuck t
    have hloc : k = a.loc t := by rw [← href.loc t, hk]; rfl
    have ht := hlegal t
    rw [← hloc] at ht
    -- a thread that is calling, or has shards to come, has a section ahead of it
    cases k with
    | returned r => exact ⟨r, hk⟩
    | calling op => cases hnext
    | scanning q acc shards =>
      cases shards with
      | nil => exact absurd rfl ht
      | cons i rest => cases hnext
  refine ⟨hreturned, hinv.mutex_free fun t => ?_⟩
  obtain ⟨r, hr⟩ := hreturned t
  rw [hr]
  trivial

theorem completes_threads : ∃ c : Threads Bool,
    Runs .default TwoThreads.twoNodes (TwoThreads.both ++ TwoThreads.returns) c ∧
      (∀ t, ∃ r, c.thread t = .outside (.returned r)) ∧ ∀ i, c.mutex i = RWMutex.free := by
  obtain ⟨c, hrun, hout⟩ := TwoThreads.run_returns
  refine ⟨c, hrun, (completes .default TwoThreads.twoNodes).2 hrun ?_⟩
  -- a thread outside can only enter a section, and there is none ahead of it
  rintro ⟨x, c', hx, hs⟩
  cases hs with
  | call => cases hx
  | @enter t l s ht hnext =>
    rw [hout t] at ht
    cases ht
    cases hnext
  | @rLock t l s held todo i ht | @announce t l s held todo i ht | @lock t l s held todo i ht
  | @start t l s held ht | @access t l s w next ht | @commit t l l' s ht
  | @unlock t l s held i ht | @leave t l s ht =>
    rw [hout t] at ht
    cases ht

end SharedGraph

end Gortex
