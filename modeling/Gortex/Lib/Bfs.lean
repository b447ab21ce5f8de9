import Mathlib.Data.List.Nodup
import Mathlib.Order.Basic
import Mathlib.Order.Nat
import Mathlib.Tactic.Common

/-!
# Bounded breadth-first search

A search from a start that lists what it finds, to a number of hops and up to a limit.
The neighbours of a vertex are a list, and a vertex can be named by a list of neighbours
without being live: such a one is marked as visited and goes no further. Once the limit
is reached, live vertices that come up are marked as visited as well, and are left out.

`Bfs.Inv` is the invariant of the loop. The entries that have been in the queue, the
popped ones followed by the queue, come in order of depth, and the depths in the queue
differ by one at most; each carries the least number of hops to its vertex. A popped entry
is closed once its neighbours have been visited: while nothing has been left out, they are
then all found. `Bfs.Inv.correct` reads the outcome off an empty queue.
-/

namespace Bfs

variable {α : Type*}

/-! ### Hops -/

/-- The vertex is reached from `a` in exactly so many hops. -/
def Hops (R : α → α → Prop) (a : α) : ℕ → α → Prop
  | 0, b => b = a
  | n + 1, c => ∃ b, Hops R a n b ∧ R b c

theorem Hops.trans {R : α → α → Prop} {a b c : α} {m n : ℕ} (h : Hops R a m b)
    (h' : Hops R b n c) : Hops R a (m + n) c := by
  induction n generalizing c with
  | zero =>
    obtain rfl : c = b := h'
    exact h
  | succ n ih =>
    obtain ⟨d, hd, hstep⟩ := h'
    exact ⟨d, ih hd, hstep⟩

/-- The vertex is reached from `a` in at most so many hops. -/
def Within (R : α → α → Prop) (a : α) (n : ℕ) (b : α) : Prop := ∃ m ≤ n, Hops R a m b

/-- **`b` is no farther from `a` than `c`.** -/
def Nearer (R : α → α → Prop) (a b c : α) : Prop :=
  ∀ n, Hops R a n c → ∃ m ≤ n, Hops R a m b

/-! ### The search -/

/-- The state of a search. -/
structure State (α : Type*) where
  queue : List (α × ℕ)
  visited : List α
  listed : List α
  truncated : Bool

/-- The entries that have been in the queue, after those popped so far. -/
def State.found (s : State α) (popped : List (α × ℕ)) : List (α × ℕ) := popped ++ s.queue

variable [DecidableEq α] (next : α → List α) (live : α → Bool) (hops limit : ℕ)

/-- One neighbour of a vertex at a depth. -/
def visit (depth : ℕ) (s : State α) (b : α) : State α :=
  if b ∈ s.visited then s
  else if live b = false then { s with visited := b :: s.visited }
  else if limit ≤ s.listed.length then { s with visited := b :: s.visited, truncated := true }
  else
    { s with
      visited := b :: s.visited
      listed := s.listed ++ [b]
      queue := s.queue ++ [(b, depth + 1)] }

/-- One entry of the queue. -/
def expand (cur : α × ℕ) (s : State α) : State α :=
  if hops ≤ cur.2 then s else (next cur.1).foldl (visit live limit cur.2) s

/-- The loop of the search. -/
def loop : ℕ → State α → State α
  | 0, s => s
  | fuel + 1, s =>
    match s.queue with
    | [] => s
    | cur :: rest => loop fuel (expand next live hops limit cur { s with queue := rest })

/-- The entries the loop pops, in the order it pops them. -/
def trace : ℕ → State α → List (α × ℕ)
  | 0, _ => []
  | fuel + 1, s =>
    match s.queue with
    | [] => []
    | cur :: rest => cur :: trace fuel (expand next live hops limit cur { s with queue := rest })

/-- The state before the loop. The start is listed if it is live, and searched from in
any case. -/
def init (start : α) : State α where
  queue := [(start, 0)]
  visited := [start]
  listed := [start].filter live
  truncated := false

/-- One hop: to a live neighbour. -/
def Hop (a b : α) : Prop := b ∈ next a ∧ live b = true

/-! ### The invariant -/

/-- **The invariant of the search.** Some entries are popped, and some of these are closed;
the last one popped has depth `h`. -/
structure Inv (start : α) (popped closed : List (α × ℕ)) (h : ℕ) (s : State α) : Prop where
  nodup : ((s.found popped).map Prod.fst).Nodup
  sorted : (s.found popped).Pairwise fun x y => x.2 ≤ y.2
  popped_le : ∀ x ∈ popped, x.2 ≤ h
  span : ∀ x ∈ s.queue, h ≤ x.2 ∧ x.2 ≤ h + 1
  start_mem : (start, 0) ∈ s.found popped
  visited : ∀ x ∈ s.found popped, x.1 ∈ s.visited
  depth_le : ∀ x ∈ s.found popped, x.2 ≤ hops
  sound : ∀ x ∈ s.found popped, Hops (Hop next live) start x.2 x.1
  least : ∀ x ∈ s.found popped, ∀ m, Hops (Hop next live) start m x.1 → x.2 ≤ m
  listed : s.listed = ((s.found popped).map Prod.fst).filter live
  room : s.listed.length ≤ limit
  /-- While nothing is left out, what is visited and live is found. -/
  seen : s.truncated = false → ∀ b ∈ s.visited, live b = true →
    b ∈ (s.found popped).map Prod.fst
  /-- While nothing is left out, the neighbours of a closed entry are found. -/
  closed : s.truncated = false → ∀ x ∈ closed, x.2 < hops → ∀ c, Hop next live x.1 c →
    ∃ e ≤ x.2 + 1, (c, e) ∈ s.found popped
  full : s.truncated = true → s.listed.length = limit
  /-- Something has been left out for a reason. -/
  left_out : s.truncated = true → ∃ b, live b = true ∧ b ∉ (s.found popped).map Prod.fst ∧
    Within (Hop next live) start hops b

variable {next live hops limit} {start : α} {popped closed : List (α × ℕ)} {h : ℕ} {s : State α}

omit [DecidableEq α] in
theorem Inv.init (hlimit : 0 < limit) (start : α) :
    Inv next live hops limit start [] [] 0 (init live start) := by
  have hfound : (Bfs.init live start).found [] = [(start, 0)] := rfl
  have hone : ∀ {p : α × ℕ → Prop}, p (start, 0) → ∀ x ∈ (Bfs.init live start).found [], p x :=
    fun hp x hx => by
      rw [hfound, List.mem_singleton] at hx
      rwa [hx]
  refine ⟨by simp [hfound], by simp [hfound], nofun, ?_, by simp [hfound],
    hone (List.mem_singleton_self start), hone (Nat.zero_le _), hone rfl,
    hone fun m _ => Nat.zero_le m, rfl, ?_, ?_, nofun, nofun, nofun⟩
  · intro x hx
    rw [List.mem_singleton.mp hx]
    exact ⟨le_rfl, Nat.zero_le _⟩
  · exact (List.length_filter_le _ _).trans hlimit
  · intro _ b hb _
    rw [hfound]
    exact hb

omit [DecidableEq α] in
/-- An entry found has at most one more hop than the one popped last. -/
theorem Inv.found_le (hs : Inv next live hops limit start popped closed h s) {x : α × ℕ}
    (hx : x ∈ s.found popped) : x.2 ≤ h + 1 := by
  rcases List.mem_append.mp hx with hx | hx
  · exact (hs.popped_le x hx).trans (Nat.le_succ h)
  · exact (hs.span x hx).2

/-- **What is no farther than the entries being popped is found**, while nothing is left
out: by induction on the hops, the last but one vertex of the path has less depth than
the queue, so its entry is popped, and closed. -/
theorem Inv.found_of_hops (hs : Inv next live hops limit start popped popped h s)
    (ht : s.truncated = false) {d : ℕ} (hd : ∀ x ∈ s.queue, d ≤ x.2) (hdh : d ≤ hops) {m : ℕ}
    (hm : m ≤ d) {b : α} (hb : Hops (Hop next live) start m b) :
    ∃ e ≤ m, (b, e) ∈ s.found popped := by
  induction m generalizing b with
  | zero =>
    obtain rfl : b = start := hb
    exact ⟨0, le_rfl, hs.start_mem⟩
  | succ m ih =>
    obtain ⟨p, hp, hhop⟩ := hb
    obtain ⟨e, he, hmem⟩ := ih (by omega) hp
    have hpop : (p, e) ∈ popped := by
      rcases List.mem_append.mp hmem with hpop | hq
      · exact hpop
      · have := hd _ hq
        simp only at this
        omega
    obtain ⟨e', he', hmem'⟩ := hs.closed ht (p, e) hpop (by simp only; omega) b hhop
    exact ⟨e', by simp only at he'; omega, hmem'⟩

/-! ### One neighbour -/

/-- What the visits to the neighbours of the entry being expanded, of depth `h`, keep
besides the invariant: that whatever is within `h` hops is visited, as long as nothing is
left out. -/
def Covered (next : α → List α) (live : α → Bool) (start : α) (h : ℕ) (s : State α) : Prop :=
  s.truncated = false → ∀ m ≤ h, ∀ b, Hops (Hop next live) start m b → b ∈ s.visited

/-- What a visit has brought about for one neighbour. -/
def Reached (live : α → Bool) (popped : List (α × ℕ)) (h : ℕ) (s : State α) (b : α) : Prop :=
  s.truncated = false → live b = true → ∃ e ≤ h + 1, (b, e) ∈ s.found popped

omit [DecidableEq α] in
/-- **A new vertex is found.** -/
theorem Inv.add (hs : Inv next live hops limit start popped closed h s)
    (hcov : Covered next live start h s) {a b : α} (ha : (a, h) ∈ popped) (hh : h < hops)
    (hhop : Hop next live a b) (hnew : b ∉ s.visited) (hroom : s.listed.length < limit) :
    Inv next live hops limit start popped closed h
      { s with
        visited := b :: s.visited
        listed := s.listed ++ [b]
        queue := s.queue ++ [(b, h + 1)] } := by
  have ht : s.truncated = false := by
    cases htr : s.truncated with
    | false => rfl
    | true => exact absurd (hs.full htr) (Nat.ne_of_lt hroom)
  have hnot : b ∉ (s.found popped).map Prod.fst := fun hc => by
    obtain ⟨x, hx, rfl⟩ := List.mem_map.mp hc
    exact hnew (hs.visited x hx)
  have hpath : Hops (Hop next live) start (h + 1) b :=
    ⟨a, hs.sound _ (List.mem_append_left _ ha), hhop⟩
  -- a shorter way to `b` would have had it visited by now
  have hleast : ∀ m, Hops (Hop next live) start m b → h + 1 ≤ m := fun m hm => by
    by_contra hlt
    exact hnew (hcov ht m (by omega) b hm)
  have hfound : ∀ (s' : State α), s'.queue = s.queue ++ [(b, h + 1)] →
      s'.found popped = s.found popped ++ [(b, h + 1)] := fun s' hq => by
    rw [State.found, hq, ← List.append_assoc, State.found]
  have hall : ∀ {p : α × ℕ → Prop}, (∀ x ∈ s.found popped, p x) → p (b, h + 1) →
      ∀ x ∈ s.found popped ++ [(b, h + 1)], p x := fun hp hb x hx => by
    rcases List.mem_append.mp hx with hx | hx
    · exact hp x hx
    · rwa [List.mem_singleton.mp hx]
  constructor
  case nodup =>
    rw [hfound _ rfl, List.map_append, List.nodup_append']
    refine ⟨hs.nodup, List.nodup_singleton _, fun x hx hx' => ?_⟩
    rw [List.mem_singleton.mp hx'] at hx
    exact hnot hx
  case sorted =>
    rw [hfound _ rfl, List.pairwise_append]
    refine ⟨hs.sorted, List.pairwise_singleton _ _, fun x hx y hy => ?_⟩
    rw [List.mem_singleton.mp hy]
    exact hs.found_le hx
  case popped_le => exact hs.popped_le
  case span =>
    intro x hx
    rcases List.mem_append.mp hx with hx | hx
    · exact hs.span x hx
    · rw [List.mem_singleton.mp hx]
      exact ⟨Nat.le_succ h, le_rfl⟩
  case start_mem =>
    rw [hfound _ rfl]
    exact List.mem_append_left _ hs.start_mem
  case visited =>
    rw [hfound _ rfl]
    exact hall (fun x hx => List.mem_cons_of_mem _ (hs.visited x hx)) List.mem_cons_self
  case depth_le =>
    rw [hfound _ rfl]
    exact hall hs.depth_le hh
  case sound =>
    rw [hfound _ rfl]
    exact hall hs.sound hpath
  case least =>
    rw [hfound _ rfl]
    exact hall hs.least hleast
  case listed =>
    rw [hfound _ rfl, List.map_append, List.filter_append, ← hs.listed]
    simp [hhop.2]
  case room =>
    rw [List.length_append, List.length_singleton]
    exact hroom
  case seen =>
    intro _ c hc hlive
    rw [hfound _ rfl, List.map_append, List.mem_append]
    rcases List.mem_cons.mp hc with rfl | hc
    · exact Or.inr (List.mem_singleton_self _)
    · exact Or.inl (hs.seen ht c hc hlive)
  case closed =>
    intro _ x hx hlt c hc
    obtain ⟨e, he, hmem⟩ := hs.closed ht x hx hlt c hc
    rw [hfound _ rfl]
    exact ⟨e, he, List.mem_append_left _ hmem⟩
  case full => exact fun htr => nomatch ht.symm.trans htr
  case left_out => exact fun htr => nomatch ht.symm.trans htr

/-- **One neighbour of the entry being expanded.** -/
theorem Inv.visit (hs : Inv next live hops limit start popped closed h s)
    (hcov : Covered next live start h s) {a b : α} (ha : (a, h) ∈ popped) (hh : h < hops)
    (hb : b ∈ next a) :
    let s' := visit live limit h s b
    Inv next live hops limit start popped closed h s' ∧ Covered next live start h s' ∧
      Reached live popped h s' b ∧ (s'.truncated = false → s.truncated = false) ∧
      ∀ x ∈ s.found popped, x ∈ s'.found popped := by
  have hreached : b ∈ s.visited → Reached live popped h s b := fun hseen ht hlive => by
    obtain ⟨⟨c, e⟩, hmem, rfl⟩ := List.mem_map.mp (hs.seen ht b hseen hlive)
    exact ⟨e, hs.found_le hmem, hmem⟩
  unfold Bfs.visit
  by_cases hseen : b ∈ s.visited
  · rw [if_pos hseen]
    exact ⟨hs, hcov, hreached hseen, id, fun _ hx => hx⟩
  · rw [if_neg hseen]
    by_cases hlive : live b = false
    · rw [if_pos hlive]
      refine ⟨{ hs with visited := ?_, seen := ?_ }, ?_, ?_, id, fun _ hx => hx⟩
      · exact fun x hx => List.mem_cons_of_mem _ (hs.visited x hx)
      · intro ht c hc hc'
        rcases List.mem_cons.mp hc with rfl | hc
        · rw [hlive] at hc'
          exact nomatch hc'
        · exact hs.seen ht c hc hc'
      · exact fun ht m hm c hc => List.mem_cons_of_mem _ (hcov ht m hm c hc)
      · intro _ hc
        rw [hlive] at hc
        exact nomatch hc
    · rw [if_neg hlive]
      have hhop : Hop next live a b := ⟨hb, by simpa using hlive⟩
      by_cases hfull : limit ≤ s.listed.length
      · rw [if_pos hfull]
        have hnot : b ∉ (s.found popped).map Prod.fst := fun hc => by
          obtain ⟨x, hx, rfl⟩ := List.mem_map.mp hc
          exact hseen (hs.visited x hx)
        refine ⟨?_, nofun, nofun, nofun, fun _ hx => hx⟩
        -- `b` itself is what is left out
        exact
          { hs with
            visited := fun x hx => List.mem_cons_of_mem _ (hs.visited x hx)
            seen := nofun
            closed := nofun
            full := fun _ => le_antisymm hs.room hfull
            left_out := fun _ => ⟨b, hhop.2, hnot, h + 1, hh, a,
              hs.sound _ (List.mem_append_left _ ha), hhop⟩ }
      · rw [if_neg hfull]
        have hmono : ∀ x ∈ s.found popped, x ∈ popped ++ (s.queue ++ [(b, h + 1)]) := fun x hx => by
          rw [← List.append_assoc]
          exact List.mem_append_left _ hx
        refine ⟨hs.add hcov ha hh hhop hseen (Nat.lt_of_not_le hfull), ?_, ?_, id, hmono⟩
        · exact fun ht m hm c hc => List.mem_cons_of_mem _ (hcov ht m hm c hc)
        · exact fun _ _ => ⟨h + 1, le_rfl, by simp [State.found]⟩

/-- **Some neighbours of the entry being expanded.** -/
theorem Inv.foldl_visit (hs : Inv next live hops limit start popped closed h s)
    (hcov : Covered next live start h s) {a : α} (ha : (a, h) ∈ popped) (hh : h < hops)
    {l : List α} (hl : ∀ b ∈ l, b ∈ next a) :
    let s' := l.foldl (Bfs.visit live limit h) s
    Inv next live hops limit start popped closed h s' ∧
      (∀ b ∈ l, Reached live popped h s' b) ∧ (s'.truncated = false → s.truncated = false) ∧
      ∀ x ∈ s.found popped, x ∈ s'.found popped := by
  induction l generalizing s with
  | nil => exact ⟨hs, nofun, id, fun _ hx => hx⟩
  | cons b l ih =>
    obtain ⟨h1, h2, h3, h4, h5⟩ := hs.visit hcov ha hh (hl b List.mem_cons_self)
    obtain ⟨k1, k2, k3, k4⟩ := ih h1 h2 fun c hc => hl c (List.mem_cons_of_mem _ hc)
    refine ⟨k1, fun c hc => ?_, fun ht => h4 (k3 ht), fun x hx => k4 x (h5 x hx)⟩
    rcases List.mem_cons.mp hc with rfl | hc
    · intro ht hlive
      obtain ⟨e, he, hmem⟩ := h3 (k3 ht) hlive
      exact ⟨e, he, k4 _ hmem⟩
    · exact k2 c hc

/-! ### The loop -/

omit [DecidableEq α] in
/-- Popping the head of the queue. -/
theorem Inv.pop (hs : Inv next live hops limit start popped popped h s) {cur : α × ℕ}
    {rest : List (α × ℕ)} (hq : s.queue = cur :: rest) :
    Inv next live hops limit start (popped ++ [cur]) popped cur.2 { s with queue := rest } := by
  have hfound : State.found { s with queue := rest } (popped ++ [cur]) = s.found popped := by
    rw [State.found, State.found, hq, List.append_assoc, List.singleton_append]
  have hcur : h ≤ cur.2 ∧ cur.2 ≤ h + 1 := hs.span cur (hq ▸ List.mem_cons_self)
  have hrest : ∀ x ∈ rest, cur.2 ≤ x.2 := by
    have hsorted := (List.pairwise_append.mp hs.sorted).2.1
    rw [hq] at hsorted
    exact (List.pairwise_cons.mp hsorted).1
  constructor
  case nodup => exact hfound ▸ hs.nodup
  case sorted => exact hfound ▸ hs.sorted
  case popped_le =>
    intro x hx
    rcases List.mem_append.mp hx with hx | hx
    · exact (hs.popped_le x hx).trans hcur.1
    · rw [List.mem_singleton.mp hx]
  case span =>
    intro x hx
    have hspan := hs.span x (hq ▸ List.mem_cons_of_mem _ hx)
    exact ⟨hrest x hx, by omega⟩
  case start_mem => exact hfound ▸ hs.start_mem
  case visited => exact hfound ▸ hs.visited
  case depth_le => exact hfound ▸ hs.depth_le
  case sound => exact hfound ▸ hs.sound
  case least => exact hfound ▸ hs.least
  case listed => exact hfound ▸ hs.listed
  case room => exact hs.room
  case seen => exact hfound ▸ hs.seen
  case closed => exact hfound ▸ hs.closed
  case full => exact hs.full
  case left_out => exact hfound ▸ hs.left_out

omit [DecidableEq α] in
/-- Closing the entry popped last. -/
theorem Inv.close {cur : α × ℕ}
    (hs : Inv next live hops limit start (popped ++ [cur]) popped h s)
    (hcur : s.truncated = false → cur.2 < hops → ∀ c, Hop next live cur.1 c →
      ∃ e ≤ cur.2 + 1, (c, e) ∈ s.found (popped ++ [cur])) :
    Inv next live hops limit start (popped ++ [cur]) (popped ++ [cur]) h s := by
  refine { hs with closed := fun ht x hx => ?_ }
  rcases List.mem_append.mp hx with hx | hx
  · exact hs.closed ht x hx
  · rw [List.mem_singleton.mp hx]
    exact hcur ht

/-- **One entry of the queue.** -/
theorem Inv.expand (hs : Inv next live hops limit start popped popped h s) {cur : α × ℕ}
    {rest : List (α × ℕ)} (hq : s.queue = cur :: rest) :
    Inv next live hops limit start (popped ++ [cur]) (popped ++ [cur]) cur.2
      (expand next live hops limit cur { s with queue := rest }) := by
  have hpop := hs.pop hq
  have hmem : cur ∈ popped ++ [cur] := List.mem_append_right _ (List.mem_singleton_self _)
  have hcovered : Covered next live start cur.2 { s with queue := rest } := fun ht m hm b hb => by
    have hd : ∀ x ∈ s.queue, cur.2 ≤ x.2 := fun x hx => by
      rcases List.mem_cons.mp (hq ▸ hx) with rfl | hx
      · exact le_rfl
      · exact (hpop.span x hx).1
    have hcur : cur ∈ s.found popped := List.mem_append_right _ (hq ▸ List.mem_cons_self)
    obtain ⟨e, -, he⟩ := hs.found_of_hops ht hd (hs.depth_le cur hcur) hm hb
    exact hs.visited _ he
  unfold Bfs.expand
  by_cases hdeep : hops ≤ cur.2
  · rw [if_pos hdeep]
    exact hpop.close fun _ hlt => absurd hlt (Nat.not_lt_of_le hdeep)
  · rw [if_neg hdeep]
    obtain ⟨k1, k2, -, -⟩ := hpop.foldl_visit hcovered hmem (Nat.lt_of_not_le hdeep) fun _ hb => hb
    exact k1.close fun ht _ c hc => k2 c hc.1 ht hc.2

/-- **The invariant goes with the trace**: the loop keeps it, for the entries popped so far
and those it pops. -/
theorem Inv.loop (hs : Inv next live hops limit start popped popped h s) (fuel : ℕ) :
    ∃ h', Inv next live hops limit start (popped ++ trace next live hops limit fuel s)
      (popped ++ trace next live hops limit fuel s) h' (loop next live hops limit fuel s) := by
  induction fuel generalizing popped h s with
  | zero =>
    rw [trace, List.append_nil]
    exact ⟨h, hs⟩
  | succ fuel ih =>
    unfold Bfs.loop trace
    cases hq : s.queue with
    | nil =>
      rw [List.append_nil]
      exact ⟨h, hs⟩
    | cons cur rest =>
      have := ih (hs.expand hq)
      rwa [List.append_assoc, List.singleton_append] at this

/-! ### The outcome -/

/-- The vertices whose neighbours are visited: those popped with hops to go. -/
def expanded (hops : ℕ) (popped : List (α × ℕ)) : List α :=
  (popped.filter fun x => x.2 < hops).map Prod.fst

omit [DecidableEq α] in
/-- **What is expanded**, when the queue is empty: the start and the listed vertices that
leave a hop to go, once each. -/
theorem Inv.mem_expanded (hs : Inv next live hops limit start popped popped h s)
    (hq : s.queue = []) :
    (expanded hops popped).Nodup ∧ ∀ b, b ∈ expanded hops popped ↔
      (b = start ∨ b ∈ s.listed) ∧ ∃ m < hops, Hops (Hop next live) start m b := by
  have hfound : s.found popped = popped := by rw [State.found, hq, List.append_nil]
  have hin : ∀ x ∈ popped, x ∈ s.found popped := fun x hx => List.mem_append_left _ hx
  refine ⟨?_, fun b => ?_⟩
  · have hnodup := hs.nodup
    rw [hfound] at hnodup
    exact hnodup.sublist ((List.filter_sublist).map _)
  · unfold expanded
    rw [List.mem_map]
    constructor
    · rintro ⟨x, hx, rfl⟩
      obtain ⟨hx, hlt⟩ := List.mem_filter.mp hx
      have hpath := hs.sound x (hin x hx)
      refine ⟨?_, x.2, of_decide_eq_true hlt, hpath⟩
      rw [hs.listed, List.mem_filter, hfound]
      -- a vertex that is reached by a hop is live
      cases hd : x.2 with
      | zero =>
        rw [hd] at hpath
        exact Or.inl hpath
      | succ m =>
        rw [hd] at hpath
        obtain ⟨_, _, hhop⟩ := hpath
        exact Or.inr ⟨List.mem_map_of_mem hx, hhop.2⟩
    · rintro ⟨hb, m, hm, hpath⟩
      have hmem : ∃ x ∈ popped, x.1 = b := by
        rcases hb with rfl | hb
        · exact ⟨_, hfound ▸ hs.start_mem, rfl⟩
        · rw [hs.listed, List.mem_filter, hfound] at hb
          exact List.mem_map.mp hb.1
      obtain ⟨x, hx, rfl⟩ := hmem
      have hle := hs.least x (hin x hx) m hpath
      exact ⟨x, List.mem_filter.mpr ⟨hx, decide_eq_true (by omega)⟩, rfl⟩

/-- **A search is correct**: it lists live vertices within the number of hops, once each,
the nearer ones first, and no more than the limit; it lists all of them unless it says it
has truncated the list, and it says so iff one of them is missing, the list being full. -/
structure Correct (next : α → List α) (live : α → Bool) (hops limit : ℕ) (start : α)
    (s : State α) : Prop where
  nodup : s.listed.Nodup
  length_le : s.listed.length ≤ limit
  nearer : s.listed.Pairwise (Nearer (Hop next live) start)
  within : ∀ b ∈ s.listed, live b = true ∧ Within (Hop next live) start hops b
  complete : s.truncated = false → ∀ b, live b = true → Within (Hop next live) start hops b →
    b ∈ s.listed
  missing : s.truncated = true → ∃ b, live b = true ∧ Within (Hop next live) start hops b ∧
    b ∉ s.listed
  full : s.truncated = true → s.listed.length = limit

/-- **When the queue is empty, the search is correct.** -/
theorem Inv.correct (hs : Inv next live hops limit start popped popped h s) (hq : s.queue = []) :
    Correct next live hops limit start s := by
  have hmem : ∀ b, b ∈ s.listed ↔ b ∈ (s.found popped).map Prod.fst ∧ live b = true := fun b => by
    rw [hs.listed, List.mem_filter]
  constructor
  case nodup =>
    rw [hs.listed]
    exact hs.nodup.filter _
  case length_le => exact hs.room
  case nearer =>
    rw [hs.listed]
    refine List.Pairwise.filter _ (List.pairwise_map.mpr ?_)
    refine hs.sorted.imp_of_mem fun {x y} hx hy hle n hn => ?_
    exact ⟨x.2, hle.trans (hs.least y hy n hn), hs.sound x hx⟩
  case within =>
    intro b hb
    obtain ⟨hfound, hlive⟩ := (hmem b).mp hb
    obtain ⟨x, hx, rfl⟩ := List.mem_map.mp hfound
    exact ⟨hlive, x.2, hs.depth_le x hx, hs.sound x hx⟩
  case complete =>
    rintro ht b hlive ⟨m, hm, hb⟩
    have hd : ∀ x ∈ s.queue, hops ≤ x.2 := by
      rw [hq]
      exact nofun
    obtain ⟨e, -, he⟩ := hs.found_of_hops ht hd le_rfl hm hb
    exact (hmem b).mpr ⟨List.mem_map.mpr ⟨_, he, rfl⟩, hlive⟩
  case missing =>
    intro ht
    obtain ⟨b, hlive, hnot, hwithin⟩ := hs.left_out ht
    exact ⟨b, hlive, hwithin, fun hc => hnot ((hmem b).mp hc).1⟩
  case full => exact hs.full

end Bfs
