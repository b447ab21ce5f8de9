import Gortex.Analysis.Communities
import Gortex.Lib.DepthLimited

/-!
# Processes

`internal/analysis/processes.go`: an execution flow is what a depth-limited depth-first walk
over the calls lists from an entry point. The scores are rationals here; the name of a process
and the files it touches are left out.

The steps of a process are a call tree in preorder (`Gortex.Analysis.callTree_traceForward`).
They are not all the functions within the limit: one that the walk comes to at the limit, on a
longer way than need be, is not followed again from a shorter one.
`Gortex.Analysis.traceForward_complete_iff` says exactly when nothing is lost.
-/

namespace Gortex

namespace Analysis

open GoString

/-! ### The model -/

/-- A step of a process. -/
structure Step where
  id : String
  depth : ℕ
deriving DecidableEq

/-- A process. -/
structure Process where
  id : String
  entryPoint : String
  steps : List Step
  stepCount : ℕ
  score : ℚ

/-- The processes, and those of each node. -/
structure ProcessResult where
  processes : List Process
  nodeToProcs : GoMap String (List String)

/-- The state of `traceForward`. -/
structure Trace where
  visited : GoMap String Bool
  result : List Step

/-- The recursion of `traceForward`. The first argument is how many depths are left: at zero the
depth exceeds the limit. -/
def dfs (callees : GoMap String (List String)) : ℕ → String → ℕ → Trace → Trace
  | 0, _, _, t => t
  | left + 1, id, depth, t =>
    if has t.visited id = true then t
    else (Grouped.slice callees id).foldl (fun t callee =>
      if has t.visited callee = false then dfs callees left callee (depth + 1) t else t)
        { visited := t.visited.insert id true
          result := t.result ++ [{ id := id, depth := depth }] }

/-- **traceForward.** -/
def traceForward (startID : String) (callees : GoMap String (List String)) (maxDepth : ℤ) :
    List Step :=
  (dfs callees (maxDepth + 1).toNat startID 0 ⟨∅, []⟩).result

/-- The calls, by the caller and by the callee. -/
structure CallGraph where
  callees : GoMap String (List String)
  callers : GoMap String (List String)

/-- The calls among some edges. -/
def callGraph (edges : List Edge) : CallGraph :=
  edges.foldl (fun c e =>
    if e.kind = .edgeCalls then
      { callees := Grouped.push c.callees e.fromID e.toID
        callers := Grouped.push c.callers e.toID e.fromID }
    else c) ⟨∅, ∅⟩

/-- What a name says about an entry point. -/
def namePatternMultiplier (toLower : String → String) (name lang : String) : ℚ :=
  let lower := toLower name
  if (["main", "init", "run", "start", "serve", "listen", "handle", "handler", "controller",
      "middleware", "route", "endpoint", "dispatch"].any fun p =>
        hasPrefix lower p || hasSuffix lower p) = true then 3 / 2
  else if lang = "go" ∧ (hasPrefix name "New" || hasPrefix name "Serve") = true then 13 / 10
  else if lang = "go" ∧ (hasPrefix name "Test" || hasPrefix name "Benchmark") = true then 3 / 10
  else if (["get", "set", "is", "has", "to", "from", "parse", "format", "validate", "helper",
      "util", "string"].any fun p => hasPrefix lower p) = true then 1 / 2
  else 1

/-- Whether a name is exported. -/
def isExported (name lang : String) : Bool :=
  if lang = "go" then name.toList.head?.any fun c => 'A' ≤ c ∧ c ≤ 'Z'
  else !hasPrefix name "_"

/-- The score of a node as an entry point. -/
def scoreEntryPoint (toLower : String → String) (n : Node) (calleeCount callerCount : ℕ) : ℚ :=
  if calleeCount = 0 then 0
  else
    let base : ℚ := calleeCount / (callerCount + 1)
    let nameMult := namePatternMultiplier toLower n.name n.language
    let exportMult := if isExported n.name n.language = true then 3 / 2 else 1
    let callerMult := if callerCount = 0 then 2 else if callerCount ≤ 2 then 13 / 10 else 1
    base * nameMult * exportMult * callerMult

/-- The nodes that may be entry points, with their scores. -/
def candidates (toLower : String → String) (c : CallGraph) (nodes : List Node) :
    List (Node × ℚ) :=
  nodes.filterMap fun n =>
    if n.kind ≠ .kindFunction ∧ n.kind ≠ .kindMethod then none
    else
      let score := scoreEntryPoint toLower n (Grouped.slice c.callees n.id).length
        (Grouped.slice c.callers n.id).length
      if 1 / 2 < score then some (n, score) else none

/-- Trace one candidate, unless it is an entry point already. -/
def addProcess (callees : GoMap String (List String)) (s : GoMap String Bool × ProcessResult)
    (c : Node × ℚ) : GoMap String Bool × ProcessResult :=
  if has s.1 c.1.id = true then s
  else
    let steps := traceForward c.1.id callees 15
    if steps.length < 2 then s
    else
      let procID := "process-" ++ s.2.processes.length.repr
      (s.1.insert c.1.id true,
        { processes := s.2.processes ++ [{
            id := procID
            entryPoint := c.1.id
            steps := steps
            stepCount := steps.length
            score := c.2 }]
          nodeToProcs := steps.foldl (fun m st => Grouped.push m st.id procID) s.2.nodeToProcs })

/-- **DiscoverProcesses.** -/
def discoverProcesses (toLower : String → String) (mapOrd : MapOrder)
    (sortSlice : SortSlice (Node × ℚ)) (g : Graph) : ProcessResult :=
  let c := callGraph ((g.allEdges mapOrd).map g.edge)
  (((sortSlice.sort (fun a b => b.2 < a.2)
    (candidates toLower c ((g.allNodes mapOrd).map g.node))).take 50).foldl (addProcess c.callees)
      (∅, ⟨[], ∅⟩)).2

/-! ### The walk -/

variable {callees : GoMap String (List String)}

/-- The step that a chain of calls is listed as. -/
def stepOf (p : Walk.Chain String) : Step := ⟨p.1, p.2.length⟩

/-- The state of the recursion is that of the walk. -/
structure Trace.Of (t : Trace) (T : List (Walk.Chain String)) : Prop where
  result : t.result = T.map stepOf
  visited : ∀ id, has t.visited id = true ↔ id ∈ Walk.ends T

theorem dfs_walk (left : ℕ) (s : List String) (id : String) {t : Trace}
    {T : List (Walk.Chain String)} (h : t.Of T) :
    (dfs callees left id s.length t).Of (Walk.walk (Grouped.slice callees) left s id T) := by
  induction left generalizing s id t T with
  | zero => exact h
  | succ left ih =>
    unfold dfs Walk.walk
    by_cases hid : has t.visited id = true
    · rw [if_pos hid, if_pos ((h.visited id).mp hid)]
      exact h
    · rw [if_neg hid, if_neg fun hc => hid ((h.visited id).mpr hc)]
      -- the loop over the callees adds to the trace what the walk adds to its chains
      have hloop : ∀ (cs : List String) (t : Trace) (T : List (Walk.Chain String)), t.Of T →
          (cs.foldl (fun t callee => if has t.visited callee = false then
            dfs callees left callee (s.length + 1) t else t) t).Of
            (cs.foldl (fun T c => Walk.walk (Grouped.slice callees) left (id :: s) c T) T) := by
        intro cs
        induction cs with
        | nil => exact fun _ _ h => h
        | cons c cs ihcs =>
          intro t T h
          rw [List.foldl_cons, List.foldl_cons]
          refine ihcs _ _ ?_
          by_cases hc : has t.visited c = false
          · rw [if_pos hc]
            exact ih (id :: s) c h
          · -- the callee is marked, and the walk does nothing
            rw [if_neg hc]
            have hin : c ∈ Walk.ends T := (h.visited c).mp (by simpa using hc)
            cases left with
            | zero => exact h
            | succ left =>
              rw [Walk.walk, if_pos hin]
              exact h
      refine hloop _ _ _ ⟨?_, fun x => ?_⟩
      · rw [h.result, List.map_append, List.map_singleton]
        rfl
      · have hvisited : has (t.visited.insert id true) x = true ↔
            x = id ∨ has t.visited x = true := by
          rw [has, GoMap.lookup_insert]
          by_cases hx : x = id
          · rw [if_pos hx]
            exact iff_of_true rfl (Or.inl hx)
          · rw [if_neg hx]
            exact (or_iff_right hx).symm
        rw [hvisited, h.visited, Walk.ends_append, List.mem_append, or_comm]
        exact or_congr_right List.mem_singleton.symm

theorem traceForward_eq (startID : String) (maxDepth : ℤ) :
    traceForward startID callees maxDepth =
      (Walk.walk (Grouped.slice callees) (maxDepth + 1).toNat [] startID []).map stepOf := by
  have hempty : (⟨∅, []⟩ : Trace).Of [] :=
    ⟨rfl, fun id => iff_of_false (fun h => by simp [has] at h) List.not_mem_nil⟩
  exact (dfs_walk (maxDepth + 1).toNat [] startID hempty).result

theorem map_id_traceForward (startID : String) (maxDepth : ℤ) :
    (traceForward startID callees maxDepth).map Step.id =
      Walk.ends (Walk.kept (Grouped.slice callees) (maxDepth + 1).toNat startID) := by
  rw [traceForward_eq, Walk.walk_eq_kept, List.map_map]
  rfl

/-! ### The call tree -/

/-- **Steps that encode a call tree**: no ID occurs twice, the first step is the entry, and the
nearest step before a later one with a smaller depth is a caller of it, one level up. -/
structure CallTree (callees : GoMap String (List String)) (startID : String) (steps : List Step) :
    Prop where
  nodup : (steps.map Step.id).Nodup
  first : ∀ st ∈ steps.head?, st = ⟨startID, 0⟩
  caller : ∀ pre st post, steps = pre ++ st :: post → pre ≠ [] →
    ∃ a p b, pre = a ++ p :: b ∧ (∀ st' ∈ b, st.depth ≤ st'.depth) ∧ p.depth + 1 = st.depth ∧
      st.id ∈ Grouped.slice callees p.id

/-- **The steps of a process encode a call tree**, and there is one exactly if the limit is not
negative. -/
theorem callTree_traceForward (callees : GoMap String (List String)) (startID : String)
    (maxDepth : ℤ) : CallTree callees startID (traceForward startID callees maxDepth) ∧
      (traceForward startID callees maxDepth = [] ↔ maxDepth < 0) := by
  obtain ⟨hforest, hnodup, -, -, hstart⟩ :=
    Walk.walk_start (Grouped.slice callees) (maxDepth + 1).toNat startID
  rw [traceForward_eq]
  generalize hT : Walk.walk (Grouped.slice callees) (maxDepth + 1).toNat [] startID [] = T
    at hforest hnodup hstart
  have hneg : T = [] ↔ maxDepth < 0 := by
    constructor
    · intro hnil
      by_contra hpos
      obtain ⟨rest, hrest, -⟩ := hstart (by omega)
      exact absurd (hnil.symm.trans hrest) (by simp)
    · intro hlt
      have hzero : (maxDepth + 1).toNat = 0 := by omega
      rw [← hT, hzero]
      rfl
  -- unless the depth is negative, the entry comes first
  have hfirst : T = [] ∨ ∃ rest, T = (startID, []) :: rest ∧
      Walk.Forest (Grouped.slice callees) [startID] rest := by
    by_cases hlt : maxDepth < 0
    · exact Or.inl (hneg.mpr hlt)
    · exact Or.inr (hstart (by omega))
  refine ⟨⟨?_, fun st hst => ?_, fun pre st post hsteps hpre => ?_⟩, by rw [List.map_eq_nil_iff, hneg]⟩
  · rw [List.map_map]
    exact hnodup
  · rcases hfirst with rfl | ⟨rest, rfl, -⟩
    · exact absurd hst (by simp)
    · exact (Option.some.inj hst).symm
  · obtain ⟨pre', rest, hT', rfl, hrest⟩ := List.map_eq_append_iff.mp hsteps
    obtain ⟨p, post', rfl, rfl, rfl⟩ := List.map_eq_cons_iff.mp hrest
    rcases hforest.caller hT' with ⟨hroot, -, -⟩ | ⟨a, u, r, b, rfl, hcallers, hcall, hdeeper⟩
    · -- the only chain without a caller is the entry, which comes first
      rcases hfirst with rfl | ⟨rest, rfl, hrest⟩
      · exact absurd hT' (by simp)
      · cases pre' with
        | nil => exact absurd rfl hpre
        | cons q pre' =>
          have hp : p ∈ rest := by
            rw [(List.cons.inj hT').2]
            exact List.mem_append_right _ List.mem_cons_self
          have := hrest.length_le hp
          rw [hroot] at this
          exact absurd this (by simp)
    · refine ⟨a.map stepOf, stepOf (u, r), b.map stepOf, ?_, fun st' hst' => ?_, ?_, hcall⟩
      · rw [List.map_append, List.map_cons]
      · obtain ⟨q, hq, rfl⟩ := List.mem_map.mp hst'
        exact hdeeper q hq
      · change r.length + 1 = p.2.length
        rw [hcallers, List.length_cons]

/-! ### What the steps leave out -/

/-- A call. -/
abbrev Calls (callees : GoMap String (List String)) : String → String → Prop :=
  Dfs.Step (Grouped.slice callees)

/-- **The first chains of calls**: of all chains of calls from the entry within the limit, in the
order of the calls, those whose chain to the caller is one and that lead to a function none of
the chains before leads to. -/
def firstChains (callees : GoMap String (List String)) (startID : String) (maxDepth : ℤ) :
    List (Walk.Chain String) :=
  Walk.kept (Grouped.slice callees) (maxDepth + 1).toNat startID

/-- **Nothing is lost at the limit**: from each function whose first chain has the length of the
limit, though there is a shorter chain to it, what is wanted within the rest of the limit has a
first chain as well. -/
def NothingLost (callees : GoMap String (List String)) (startID : String) (maxDepth : ℤ)
    (wanted : String → Prop) : Prop :=
  ∀ u callers, (u, callers) ∈ firstChains callees startID maxDepth →
    (callers.length : ℤ) = maxDepth → ∀ i j x, i < callers.length → ((i + j : ℕ) : ℤ) ≤ maxDepth →
      Bfs.Hops (Calls callees) startID i u → Bfs.Hops (Calls callees) u j x → wanted x →
        x ∈ Walk.ends (firstChains callees startID maxDepth)

/-- **When the steps are complete**: they include every function that is wanted and reachable in
at most `maxDepth` calls exactly if nothing is lost at the limit. -/
theorem traceForward_complete_iff (callees : GoMap String (List String)) (startID : String)
    (maxDepth : ℤ) (wanted : String → Prop) :
    (∀ (m : ℕ) x, (m : ℤ) ≤ maxDepth → Bfs.Hops (Calls callees) startID m x → wanted x →
        x ∈ (traceForward startID callees maxDepth).map Step.id) ↔
      NothingLost callees startID maxDepth wanted := by
  have hiff := Walk.complete_iff (Grouped.slice callees) (maxDepth + 1).toNat startID wanted
  rw [map_id_traceForward]
  refine Iff.trans ?_ (hiff.trans ?_)
  · refine forall_congr' fun m => forall_congr' fun x => ?_
    rw [show (m : ℤ) ≤ maxDepth ↔ m < (maxDepth + 1).toNat by omega]
  · refine forall_congr' fun u => forall_congr' fun s => forall_congr' fun hu => ?_
    rw [show s.length + 1 = (maxDepth + 1).toNat ↔ (s.length : ℤ) = maxDepth by omega]
    refine forall_congr' fun _ => forall_congr' fun i => forall_congr' fun j =>
      forall_congr' fun x => forall_congr' fun _ => ?_
    rw [show i + j < (maxDepth + 1).toNat ↔ ((i + j : ℕ) : ℤ) ≤ maxDepth by omega]
    rfl

namespace LongWay

/-- A chain of fifteen calls, after which its first function calls the last one directly, and
the last one calls another function. -/
def calls : GoMap String (List String) :=
  let fn (i : ℕ) : String := "f" ++ i.repr
  let call (i j : ℕ) : Edge := { fromID := fn i, toID := fn j, kind := .edgeCalls }
  (callGraph ((List.range 15).map (fun i => call i (i + 1)) ++ [call 0 15, call 15 16])).callees

/-- **A function two calls from the entry that is no step.** -/
theorem traceForward_not_complete :
    Bfs.Hops (Calls calls) "f0" 2 "f16" ∧
      "f16" ∉ (traceForward "f0" calls 15).map Step.id := by
  refine ⟨⟨"f15", ⟨"f0", rfl, ?_⟩, ?_⟩, by decide +kernel⟩ <;> unfold Calls Dfs.Step <;>
    decide +kernel

end LongWay

end Analysis

end Gortex
