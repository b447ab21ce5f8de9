import Gortex.Daemon.Server

/-!
# The registry of sessions

The two maps of the registry are kept in step, whatever the connections do at once: a session is
under its identifier exactly if it is under its connection, and under the connection exactly
while the connection's goroutine answers for it or is about to clean up (`Server.Registered`).
So the number of sessions in the daemon's status is the number of connections that have one, and
the registry is empty when all connections are done (`Server.registry`).
-/

namespace Gortex.Daemon

open GoBytes

namespace Server

variable {σ τ κ ρ η : Type} {cfg : ServerConfig} {wire : Wire ρ η} {ctl : Controller σ ρ η}
  {tools : Tools τ κ} {s s' : Server σ τ κ} {a : ServerAction} {l : List ServerAction}

/-- **The registry is in step** with itself and with the goroutines. -/
structure Registered (s : Server σ τ κ) : Prop where
  conn : ∀ {c sess}, s.byConn.lookup c = some sess →
    sess.conn = c ∧ s.sessions.lookup sess.id = some sess
  session : ∀ {id sess}, s.sessions.lookup id = some sess →
    sess.id = id ∧ s.byConn.lookup sess.conn = some sess
  pc : ∀ {c sess}, (s.conns c).pc.session? = some sess → s.byConn.lookup c = some sess
  free : ∀ {c}, (s.conns c).pc.isFree = true → s.byConn.lookup c = none
  inj : ∀ {c c' sess sess'}, s.Holds c sess → s.Holds c' sess' → sess.id = sess'.id → c = c'

theorem conns_setConn (s : Server σ τ κ) (c : ℕ) (x : Conn) (c' : ℕ) :
    (s.setConn c x).conns c' = if c' = c then x else s.conns c' :=
  Function.update_apply _ _ _ _

/-- A step within the sessions: the registry stays, and no goroutine begins or ends one. -/
theorem Registered.same (h : Registered s) (hconn : s'.byConn = s.byConn)
    (hsess : s'.sessions = s.sessions)
    (hpc : ∀ c sess, (s'.conns c).pc.session? = some sess → (s.conns c).pc.session? = some sess)
    (hfree : ∀ c, (s'.conns c).pc.isFree = true → s.byConn.lookup c = none)
    (hhook : ∀ c sess, (s'.conns c).pc.hook? = some sess → (s.conns c).pc.hook? = some sess) :
    Registered s' where
  conn hc := by
    rw [hsess]
    exact h.conn (hconn ▸ hc)
  session hs := by
    rw [hconn]
    exact h.session (hsess ▸ hs)
  pc hc := by
    rw [hconn]
    exact h.pc (hpc _ _ hc)
  free hc := by
    rw [hconn]
    exact hfree _ hc
  inj := by
    have hold : ∀ {c sess}, s'.Holds c sess → s.Holds c sess := fun hh => by
      rw [Holds, hconn] at hh
      exact hh.imp_right (hhook _ _)
    intro c c' sess sess' h₁ h₂ heq
    exact h.inj (hold h₁) (hold h₂) heq

/-- A goroutine goes on, and its connection changes. -/
theorem Registered.setConn (h : Registered s) {c : ℕ} {x : Conn}
    (hconns : s'.conns = (s.setConn c x).conns) (hconn : s'.byConn = s.byConn)
    (hsess : s'.sessions = s.sessions)
    (hpc : ∀ sess, x.pc.session? = some sess → (s.conns c).pc.session? = some sess)
    (hfree : x.pc.isFree = true → s.byConn.lookup c = none)
    (hhook : ∀ sess, x.pc.hook? = some sess → (s.conns c).pc.hook? = some sess) :
    Registered s' := by
  refine h.same hconn hsess (fun c' sess hc => ?_) (fun c' hc => ?_) fun c' sess hc => ?_
  · rw [hconns, conns_setConn] at hc
    split at hc
    · rename_i heq
      rw [heq]
      exact hpc sess hc
    · exact hc
  · rw [hconns, conns_setConn] at hc
    split at hc
    · rename_i heq
      rw [heq]
      exact hfree hc
    · exact h.free hc
  · rw [hconns, conns_setConn] at hc
    split at hc
    · rename_i heq
      rw [heq]
      exact hhook sess hc
    · exact hc

/-- A goroutine goes on calmly. -/
theorem Registered.calm (h : Registered s) {c : ℕ} {x : Conn}
    (hconns : s'.conns = (s.setConn c x).conns) (hconn : s'.byConn = s.byConn)
    (hsess : s'.sessions = s.sessions) (hpc : ConnPc.Calm (s.conns c).pc x.pc) :
    Registered s' := by
  refine h.setConn hconns hconn hsess (fun sess => hpc.session) (fun hf => h.free (hpc.free hf))
    fun sess hk => ?_
  rw [hpc.hook.1] at hk
  cases hk

/-- **Register** with a fresh identifier. -/
theorem Registered.register (h : Registered s) {c : ℕ} {x : Conn} {sess : Session}
    (hfree : (s.conns c).pc.isFree = true) (hnohook : (s.conns c).pc.hook? = none)
    (hid : s.FreshID sess.id) (hc : sess.conn = c) (hx : x.pc = .ack sess) :
    Registered ((s.register c sess).setConn c x) := by
  have hbyConn : ∀ c', ((s.register c sess).setConn c x).byConn.lookup c' =
      if c' = c then some sess else s.byConn.lookup c' := fun c' => GoMap.lookup_insert _ _ _ _
  have hsessions : ∀ id, ((s.register c sess).setConn c x).sessions.lookup id =
      if id = sess.id then some sess else s.sessions.lookup id := fun id =>
    GoMap.lookup_insert _ _ _ _
  have hpcs : ∀ c', (((s.register c sess).setConn c x).conns c').pc =
      if c' = c then .ack sess else (s.conns c').pc := by
    intro c'
    rw [conns_setConn]
    split
    · exact hx
    · rfl
  -- whoever is alive was alive before, or is the new session
  have hold : ∀ {c' sess'}, ((s.register c sess).setConn c x).Holds c' sess' →
      c' = c ∧ sess' = sess ∨ s.Holds c' sess' := by
    intro c' sess' hh
    rw [Holds, hbyConn, hpcs] at hh
    by_cases hcc : c' = c
    · rw [if_pos hcc, if_pos hcc] at hh
      rcases hh with hh | hh
      · exact Or.inl ⟨hcc, (Option.some.inj hh).symm⟩
      · cases hh
    · rw [if_neg hcc, if_neg hcc] at hh
      exact Or.inr hh
  constructor
  case conn =>
    intro c' sess' hc'
    rw [hbyConn] at hc'
    rw [hsessions]
    split at hc'
    · rename_i hcc
      cases hc'
      exact ⟨hc.trans hcc.symm, if_pos rfl⟩
    · rw [if_neg (hid (Or.inl hc'))]
      exact h.conn hc'
  case session =>
    intro id sess' hs
    rw [hsessions] at hs
    rw [hbyConn]
    split at hs
    · rename_i hidd
      cases hs
      exact ⟨hidd.symm, if_pos hc⟩
    · obtain ⟨hids, hcs⟩ := h.session hs
      refine ⟨hids, ?_⟩
      rw [if_neg, hcs]
      intro hcc
      rw [hcc, h.free hfree] at hcs
      cases hcs
  case pc =>
    intro c' sess' hp
    rw [hpcs] at hp
    rw [hbyConn]
    split at hp
    · rename_i hcc
      cases hp
      exact if_pos hcc
    · rename_i hcc
      rw [if_neg hcc]
      exact h.pc hp
  case free =>
    intro c' hp
    rw [hpcs] at hp
    rw [hbyConn]
    split at hp
    · cases hp
    · rename_i hcc
      rw [if_neg hcc]
      exact h.free hp
  case inj =>
    intro c₁ c₂ sess₁ sess₂ h₁ h₂ heq
    rcases hold h₁ with ⟨rfl, rfl⟩ | ho₁ <;> rcases hold h₂ with ⟨rfl, rfl⟩ | ho₂
    · rfl
    · exact absurd heq.symm (hid ho₂)
    · exact absurd heq (hid ho₁)
    · exact h.inj ho₁ ho₂ heq

theorem unregister_of_some {c : ℕ} {sess : Session} (h : s.byConn.lookup c = some sess) :
    s.unregister c = { s with
      sessions := s.sessions.erase sess.id
      byConn := s.byConn.erase c } := by
  rw [unregister, h]

/-- **Remove**, after which the goroutine may have the session to forget. -/
theorem Registered.unregister (h : Registered s) {c : ℕ} {sess : Session} {pc : ConnPc}
    (hsome : s.byConn.lookup c = some sess) (hpc : pc.session? = none)
    (hhook : ∀ sess', pc.hook? = some sess' → sess' = sess) :
    Registered ((s.unregister c).goto c pc) := by
  rw [unregister_of_some hsome]
  obtain ⟨hconn, hsess⟩ := h.conn hsome
  set t : Server σ τ κ := { s with
    sessions := s.sessions.erase sess.id
    byConn := s.byConn.erase c } with ht
  have hbyConn : ∀ c', (t.goto c pc).byConn.lookup c' =
      if c' = c then none else s.byConn.lookup c' := fun c' => GoMap.lookup_erase _ _ _
  have hsessions : ∀ id, (t.goto c pc).sessions.lookup id =
      if id = sess.id then none else s.sessions.lookup id := fun id => GoMap.lookup_erase _ _ _
  have hpcs : ∀ c', ((t.goto c pc).conns c').pc = if c' = c then pc else (s.conns c').pc := by
    intro c'
    rw [goto, conns_setConn]
    split <;> rfl
  -- of the session nothing is left but what the goroutine is about to forget
  have hold : ∀ {c' sess'}, (t.goto c pc).Holds c' sess' → s.Holds c' sess' := by
    intro c' sess' hh
    rw [Holds, hbyConn, hpcs] at hh
    by_cases hcc : c' = c
    · rw [if_pos hcc, if_pos hcc] at hh
      rcases hh with hh | hh
      · cases hh
      · rw [hcc, hhook sess' hh]
        exact Or.inl hsome
    · rw [if_neg hcc, if_neg hcc] at hh
      exact hh
  constructor
  case conn =>
    intro c' sess' hc'
    rw [hbyConn] at hc'
    split at hc'
    · cases hc'
    · rename_i hcc
      refine ⟨(h.conn hc').1, ?_⟩
      rw [hsessions, if_neg, (h.conn hc').2]
      exact fun heq => hcc (h.inj (Or.inl hc') (Or.inl hsome) heq)
  case session =>
    intro id sess' hs
    rw [hsessions] at hs
    split at hs
    · cases hs
    · rename_i hidd
      obtain ⟨hids, hcs⟩ := h.session hs
      refine ⟨hids, ?_⟩
      rw [hbyConn, if_neg, hcs]
      intro hcc
      rw [hcc, hsome] at hcs
      cases hcs
      exact hidd hids.symm
  case pc =>
    intro c' sess' hp
    rw [hpcs] at hp
    split at hp
    · rw [hpc] at hp
      cases hp
    · rename_i hcc
      rw [hbyConn, if_neg hcc]
      exact h.pc hp
  case free =>
    intro c' hp
    rw [hpcs] at hp
    rw [hbyConn]
    split at hp
    · rename_i hcc
      exact if_pos hcc
    · rename_i hcc
      rw [if_neg hcc]
      exact h.free hp
  case inj => exact fun h₁ h₂ heq => h.inj (hold h₁) (hold h₂) heq

theorem Registered.step (h : Registered s) (hs : Step cfg wire ctl tools s a s') :
    Registered s' := by
  have hfree : ∀ {c : ℕ} {p : ConnPc}, (s.conns c).pc = p → p.isFree = true →
      s.byConn.lookup c = none := fun hpc hp => h.free (hpc ▸ hp)
  cases moves hs with
  | @accept c hpc =>
    refine h.setConn (c := c) rfl rfl rfl (fun _ hp => ?_) (fun _ => hfree hpc rfl) fun _ hp => ?_
    · cases hp
    · cases hp
  | @track c hpc =>
    refine h.setConn (c := c) rfl rfl rfl (fun _ hp => ?_) (fun _ => hfree hpc rfl) fun _ hp => ?_
    · cases hp
    · cases hp
  | @handshake c id uptime line rest hpc _ =>
    rw [handshake]
    split
    · refine h.setConn (c := c) rfl rfl rfl (fun _ hp => ?_) (fun _ => hfree hpc rfl)
        fun _ hp => ?_
      · cases hp
      · cases hp
    · exact h.register (hpc ▸ rfl) (hpc ▸ rfl) (hs.2 c id uptime rfl hpc) rfl rfl
  | @written c _ _ text pc _ _ hcalm => exact h.calm (c := c) rfl rfl rfl hcalm
  | @moved _ c pc _ hcalm => exact h.calm (c := c) rfl rfl rfl hcalm
  | @ackFailed c _ _ sess hpc _ =>
    have hsome : s.byConn.lookup c = some sess := h.pc (by rw [hpc]; rfl)
    exact h.unregister hsome rfl fun _ hp => by cases hp
  | @line c _ _ sess line rest hpc _ | @notice c _ _ sess text hpc =>
    exact h.calm (c := c) rfl rfl rfl (hpc ▸ calm_answer)
  | @close c _ _ hpc | @untrack c _ _ hpc =>
    refine h.setConn (c := c) rfl rfl rfl (fun _ hp => ?_) (fun hp => ?_) fun _ hp => ?_
    · cases hp
    · cases hp
    · cases hp
  | @removeNone c _ _ hpc hnone =>
    refine h.setConn (c := c) rfl rfl rfl (fun _ hp => ?_) (fun _ => hnone) fun _ hp => ?_
    · cases hp
    · cases hp
  | @remove c _ _ sess hpc hsome =>
    refine h.unregister hsome ?_ fun sess' hp => ?_
    · split <;> rfl
    · split at hp
      · exact (Option.some.inj hp).symm
      · cases hp
  | @forget c _ _ sess hpc =>
    refine h.setConn (c := c) rfl rfl rfl (fun _ hp => ?_) (fun _ => hfree hpc rfl) fun _ hp => ?_
    · cases hp
    · cases hp
  | @part c n text _ _ _ | @write c bytes | @hangUp c =>
    exact h.setConn (c := c) rfl rfl rfl (fun _ hp => hp) (fun hp => h.free hp) fun _ hp => hp
  | shutdown =>
    have hpc : ∀ c, (s.closeAll.conns c).pc = (s.conns c).pc := by
      intro c
      simp only [closeAll]
      split <;> rfl
    exact h.same rfl rfl (fun c _ hp => hpc c ▸ hp) (fun c hp => h.free (hpc c ▸ hp))
      fun c _ hp => hpc c ▸ hp

theorem registered_init (b : Backend σ τ κ) : Registered ({ backend := b } : Server σ τ κ) where
  conn hc := by cases hc
  session hs := by cases hs
  pc hp := by cases hp
  free _ := rfl
  inj h _ := by
    rcases h with h | h
    · cases h
    · cases h

theorem registered_run {s₀ : Server σ τ κ} (h₀ : Registered s₀)
    (h : Run (Step cfg wire ctl tools) s₀ l s) : Registered s :=
  h.invariant (fun hi hs => hi.step hs) h₀

/-! ### The number of sessions -/

/-- The sessions under their identifiers are those under their connections. -/
theorem Registered.perm_keys (h : Registered s) :
    s.sessions.keys.Perm (s.byConn.pairs.map fun p => p.2.id) := by
  have hmem : ∀ {p : ℕ × Session}, p ∈ s.byConn.pairs → s.byConn.lookup p.1 = some p.2 :=
    fun hp => GoMap.mem_pairs.mp hp
  refine (List.perm_ext_iff_of_nodup s.sessions.keys_nodup ?_).mpr fun id => ?_
  · refine List.Nodup.map_on (fun p hp q hq heq => ?_) s.byConn.nodup_pairs
    have hc : p.1 = q.1 := h.inj (Or.inl (hmem hp)) (Or.inl (hmem hq)) heq
    have hs : some p.2 = some q.2 := (hmem hp).symm.trans (hc ▸ hmem hq)
    exact Prod.ext hc (Option.some.inj hs)
  · rw [← AList.mem_keys, ← AList.lookup_isSome, Option.isSome_iff_exists, List.mem_map]
    constructor
    · rintro ⟨sess, hs⟩
      obtain ⟨hid, hc⟩ := h.session hs
      exact ⟨(sess.conn, sess), GoMap.mem_pairs.mpr hc, hid⟩
    · rintro ⟨p, hp, rfl⟩
      exact ⟨p.2, (h.conn (hmem hp)).2⟩

theorem length_pairs (m : GoMap ℕ Session) : m.pairs.length = m.keys.length := by
  rw [GoMap.pairs, AList.keys, List.keys, List.length_map, List.length_map]

/-- **The registry**: a session is under its identifier exactly if it is under its connection; it
is there while the goroutine of the connection answers for it, and neither before the handshake
nor after the goroutine has cleaned up; and the daemon counts the connections that have a
session. -/
theorem registry {b : Backend σ τ κ} (h : Run (Step cfg wire ctl tools) { backend := b } l s) :
    (∀ id sess, s.sessions.lookup id = some sess ↔
      sess.id = id ∧ s.byConn.lookup sess.conn = some sess) ∧
    (∀ c sess, (s.conns c).pc.session? = some sess → s.byConn.lookup c = some sess) ∧
    (∀ c, (s.conns c).pc.isFree = true → s.byConn.lookup c = none) ∧
    s.sessions.keys.length = s.byConn.keys.length := by
  have hr := registered_run (registered_init b) h
  refine ⟨fun id sess => ⟨hr.session, fun ⟨hid, hc⟩ => hid ▸ (hr.conn hc).2⟩, fun c sess => hr.pc,
    fun c => hr.free, ?_⟩
  rw [hr.perm_keys.length_eq, List.length_map, length_pairs]

end Server

/-! ### Two visits -/

namespace Visit

/-- The handshake of a client of the tools. -/
def hello : Bytes := ofString "\x7b\"version\":1,\"mode\":\"mcp\"\x7d\n"

/-- The handshake of a command. -/
def command : Bytes := ofString "\x7b\"version\":1,\"mode\":\"control\"\x7d\n"

/-- The request to shut down. -/
def request : Bytes := ofString "\x7b\"kind\":\"shutdown\"\x7d\n"

def ping : Bytes := ofString "\x7b\"jsonrpc\":\"2.0\",\"id\":1,\"method\":\"ping\"\x7d"

/-- A notification. -/
def note : Bytes := ofString "\x7b\"jsonrpc\":\"2.0\",\"method\":\"note\"\x7d"

def pong : Bytes := ofString "\x7b\"jsonrpc\":\"2.0\",\"id\":1,\"result\":\x7b\x7d\x7d"

/-- A text on one line. -/
def oneLine (t : String) : Bytes := (ofString t).filter (· ≠ newline)

def wire : Wire Unit Unit where
  parseHandshake b :=
    if b = hello then .ok ⟨1, "mcp", "", "", 0⟩
    else if b = command then .ok ⟨1, "control", "", "", 0⟩
    else .error "invalid character"
  parseRequest b := if b = request then .ok ⟨"shutdown", []⟩ else .error "invalid character"
  parseTrack _ := .error "invalid character"
  parseUntrack _ := .error "invalid character"
  parseSearch _ := .error "invalid character"
  ackText a := oneLine (if a.ok then "\x7b\"ok\":true,\"session_id\":\"" ++ a.sessionID ++ "\"\x7d"
    else "\x7b\"ok\":false,\"error_code\":\"" ++ a.errorCode ++ "\"\x7d")
  responseText r := some (oneLine (if r.ok then "\x7b\"ok\":true\x7d"
    else "\x7b\"ok\":false,\"error_code\":\"" ++ r.errorCode ++ "\"\x7d"))
  statusText _ := []
  hitsText _ := .ok []
  noDispatcherText := oneLine "\x7b\"jsonrpc\":\"2.0\",\"id\":null\x7d"

def ctl : Controller Unit Unit Unit where
  track s _ := (s, .ok none)
  untrack s _ := (s, .ok none)
  reload s := (s, .ok none)
  status s := (s, .ok ⟨"", 0, 0, "", 0, ()⟩)
  searchSymbols s _ := (s, .ok ())
  shutdown s := (s, .ok ())

/-- The tools answer pings, and count all other frames of a session. -/
def tools : Tools Unit ℕ where
  roots _ := none
  notTrackedError _ _ := []
  newLocal _ := 0
  handle s k b := if b = ping then (s, none, .text pong) else (s, some (k + 1), .silent)

/-- The server at its start. -/
def start : Server Unit Unit ℕ where
  backend := ⟨(), (), ∅⟩

/-- Whether a step is none of a connection without a session. -/
def isLater (s : Server Unit Unit ℕ) : ServerAction → Bool
  | .run c _ _ => !(s.conns c).pc.isFree
  | _ => true

/-- A step that is none of a connection without a session. -/
def laterStep (s : Server Unit Unit ℕ) (a : ServerAction) : Option (Server Unit Unit ℕ) :=
  if isLater s a then s.step {} wire ctl tools a else none

theorem step_of_later {s s' : Server Unit Unit ℕ} {a : ServerAction}
    (h : laterStep s a = some s') : Server.Step {} wire ctl tools s a s' := by
  rw [laterStep] at h
  split at h
  · rename_i hlater
    refine ⟨h, ?_⟩
    rintro c id uptime rfl hpc
    rw [isLater, hpc] at hlater
    cases hlater
  · cases h

/-- Where some later steps lead. -/
def later (s : Server Unit Unit ℕ) (l : List ServerAction) : Server Unit Unit ℕ :=
  (l.foldlM laterStep s).getD s

theorem run_later {s : Server Unit Unit ℕ} {l : List ServerAction}
    (h : (l.foldlM laterStep s).isSome = true) :
    Run (Server.Step {} wire ctl tools) s l (later s l) := by
  obtain ⟨t, ht⟩ := Option.isSome_iff_exists.mp h
  rw [later, ht, Option.getD_some]
  exact (Run.of_foldlM ht).mono fun h => step_of_later h

/-- Where the handshake of a connection leads. -/
def greet (s : Server Unit Unit ℕ) (c : ℕ) (id : String) : Server Unit Unit ℕ :=
  (s.step {} wire ctl tools (.run c id 0)).getD s

theorem run_greet {s : Server Unit Unit ℕ} {c : ℕ} {id : String}
    (h : (s.step {} wire ctl tools (.run c id 0)).isSome = true)
    (hid : s.FreshID (Server.newSessionID id)) :
    Run (Server.Step {} wire ctl tools) s [.run c id 0] (greet s c id) := by
  obtain ⟨t, ht⟩ := Option.isSome_iff_exists.mp h
  rw [greet, ht, Option.getD_some]
  exact .cons ⟨ht, fun _ _ _ heq _ => by cases heq; exact hid⟩ (.nil t)

/-- A client of the tools connects. -/
def first : List ServerAction := [.accept 0, .track 0, .write 0 hello]

/-- Its handshake is acknowledged in two parts, and a command connects. -/
def second : List ServerAction :=
  [.part 0 5, .run 0 "" 0, .accept 1, .track 1, .write 1 command]

/-- The client sends a note and a ping, the command a request; the note is counted, the ping is
answered, and the response is written in part. -/
def third : List ServerAction :=
  [.write 0 (note ++ [newline]), .run 1 "" 0, .run 0 "" 0, .write 1 request, .run 0 "" 0,
    .write 0 (ping ++ [newline]), .run 1 "" 0, .run 0 "" 0, .part 1 4, .run 0 "" 0]

/-- The server when both have come. -/
def both : Server Unit Unit ℕ := later (greet (later start first) 0 "00") second

/-- The server at the end. -/
def final : Server Unit Unit ℕ := later (greet both 1 "01") third

/-- The session of a visit. -/
def session (c : ℕ) : Session :=
  if c = 0 then ⟨"sess_00", "mcp", "", "", 0, 0⟩ else ⟨"sess_01", "control", "", "", 0, 1⟩

/-- The first visit is a run. -/
theorem run_both : Run (Server.Step {} wire ctl tools) start (first ++ ([.run 0 "00" 0] ++ second))
    both := by
  refine (run_later (by decide +kernel)).append ((run_greet (by decide +kernel) ?_).append
    (run_later (by decide +kernel)))
  intro c sess h
  rcases h with h | h
  · cases h
  · match c with
    | 0 => cases h
    | c + 1 => cases h

/-- The identifier of the second session is another than that of the first. -/
theorem freshID_both : both.FreshID (Server.newSessionID "01") := by
  intro c sess h hid
  rcases h with h | h
  · have hnone : (both.sessions.lookup (Server.newSessionID "01")).isNone = true := by decide +kernel
    have hsome := ((Server.registered_run (Server.registered_init _) run_both).conn h).2
    rw [hid] at hsome
    rw [hsome] at hnone
    cases hnone
  · match c with
    | 0 => cases h
    | 1 => cases h
    | c + 2 => cases h

/-- Both visits are a run. -/
theorem run_final : Run (Server.Step {} wire ctl tools) start
    ((first ++ ([.run 0 "00" 0] ++ second)) ++ ([.run 1 "01" 0] ++ third)) final :=
  run_both.append ((run_greet (by decide +kernel) freshID_both).append
    (run_later (by decide +kernel)))

end Visit

/-- The two visits are registered. -/
theorem Server.registry_visits :
    (∀ id sess, Visit.final.sessions.lookup id = some sess ↔
      sess.id = id ∧ Visit.final.byConn.lookup sess.conn = some sess) ∧
    (∀ c sess, (Visit.final.conns c).pc.session? = some sess →
      Visit.final.byConn.lookup c = some sess) ∧
    (∀ c, (Visit.final.conns c).pc.isFree = true → Visit.final.byConn.lookup c = none) ∧
    Visit.final.sessions.keys.length = Visit.final.byConn.keys.length :=
  registry Visit.run_final

end Gortex.Daemon
