import Mathlib.Logic.Function.Basic
import Gortex.Lib.Run
import Gortex.Daemon.Protocol

/-!
# The daemon's server

The server of `internal/daemon/server.go` with its registry of sessions
(`internal/daemon/session.go`) and the local states of the sessions, which the dispatcher keeps
(`internal/mcp/session_ctx.go`). Every connection has a goroutine – it reads the handshake,
registers a session, answers line after line, and cleans up –, clients write what they like and
hang up when they like, and the server may be shut down; all this in any order.

A line is written in one go or in parts, and when the other side is gone, or the connection is
closed by the shutdown, what is left of it is not. After a connection is closed the reader may go on
with lines that have arrived, or fail at once.
-/

namespace Gortex.Daemon

open GoBytes

/-- What the server is started with. -/
structure ServerConfig where
  version : String := ""
  socketPath : String := ""
  pid : ℤ := 0
  hasDispatcher : Bool := true
  hasController : Bool := true

/-- Where the goroutine of a connection is. -/
inductive ConnPc
  | new
  | accepted
  | hello
  | reject (ack : HandshakeAck)
  | ack (sess : Session)
  | serve (sess : Session)
  | reply (sess : Session) (text : Option Bytes) (after : After)
  | close
  | untrack
  | remove
  | hook (sess : Session)
  | done

namespace ConnPc

/-- The session that a goroutine answers for. -/
def session? : ConnPc → Option Session
  | .ack sess => some sess
  | .serve sess => some sess
  | .reply sess _ _ => some sess
  | _ => none

/-- The session that a goroutine is about to forget. -/
def hook? : ConnPc → Option Session
  | .hook sess => some sess
  | _ => none

/-- A goroutine whose connection has no session in the registry: before there is one, and after
it is removed. -/
def isFree : ConnPc → Bool
  | .new => true
  | .accepted => true
  | .hello => true
  | .reject _ => true
  | .hook _ => true
  | .done => true
  | _ => false

/-- **A step that neither begins nor ends a session.** -/
structure Calm (p q : ConnPc) : Prop where
  session : ∀ {sess}, q.session? = some sess → p.session? = some sess
  hook : q.hook? = none ∧ p.hook? = none
  free : q.isFree = true → p.isFree = true

end ConnPc

/-- A connection. -/
structure Conn where
  pc : ConnPc := .new
  /-- What has arrived and is not read yet. -/
  unread : Bytes := []
  /-- All that has been written to the client. -/
  output : Bytes := []
  /-- How much is written of the line that the goroutine is about to write. -/
  sent : ℕ := 0
  /-- Whether the client has closed its side. -/
  hungUp : Bool := false
  /-- Whether the server has closed its side. -/
  closed : Bool := false

/-- Whether a write succeeds. -/
def Conn.writable (x : Conn) : Bool := !x.hungUp && !x.closed

/-- **The server**, its connections and what they share. -/
structure Server (σ τ κ : Type) where
  sessions : GoMap String Session := ∅
  byConn : GoMap ℕ Session := ∅
  /-- The connections that are closed by a shutdown. -/
  tracked : ℕ → Bool := fun _ => false
  stopped : Bool := false
  backend : Backend σ τ κ
  conns : ℕ → Conn := fun _ => {}

/-- A step: of a connection (the text is what the identifier of a new session would end with), of
a write that has come so far, of a client, or the shutdown. -/
inductive ServerAction
  | accept (c : ℕ)
  | track (c : ℕ)
  | run (c : ℕ) (id : String) (uptime : ℤ)
  | part (c : ℕ) (n : ℕ)
  | fail (c : ℕ)
  | write (c : ℕ) (bytes : Bytes)
  | hangUp (c : ℕ)
  | shutdown

namespace Server

variable {σ τ κ ρ η : Type} (cfg : ServerConfig) (wire : Wire ρ η) (ctl : Controller σ ρ η)
  (tools : Tools τ κ) (s : Server σ τ κ)

/-- A connection is replaced. -/
def setConn (c : ℕ) (x : Conn) : Server σ τ κ :=
  { s with conns := Function.update s.conns c x }

/-- The goroutine of a connection goes on somewhere. -/
def goto (c : ℕ) (pc : ConnPc) : Server σ τ κ := s.setConn c { s.conns c with pc := pc }

/-- **newSessionID**, with the random part. -/
def newSessionID (random : String) : String := "sess_" ++ random

/-- The session that **Register** makes. -/
def newSession (c : ℕ) (id : String) (h : Handshake) : Session where
  id := id
  mode := h.mode
  cwd := h.cwd
  clientName := h.clientName
  clientPID := h.pid
  conn := c

/-- **Register**. -/
def register (c : ℕ) (sess : Session) : Server σ τ κ :=
  { s with
    sessions := s.sessions.insert sess.id sess
    byConn := s.byConn.insert c sess }

/-- **Remove**: the registry without the session of a connection. -/
def unregister (c : ℕ) : Server σ τ κ :=
  match s.byConn.lookup c with
  | none => s
  | some sess => { s with
    sessions := s.sessions.erase sess.id
    byConn := s.byConn.erase c }

/-- The acknowledgement of a session. -/
def okAck (sess : Session) : HandshakeAck where
  ok := true
  sessionID := sess.id
  daemonVersion := cfg.version

/-- **handshake**, with the first line: the session is registered, or the error is to be
acknowledged. -/
def handshake (c : ℕ) (id : String) (line rest : Bytes) : Server σ τ κ :=
  match checkHandshake wire line with
  | .error ack => s.setConn c { s.conns c with
      pc := .reject ack
      unread := rest }
  | .ok h =>
    let sess := newSession c (newSessionID id) h
    (s.register c sess).setConn c { s.conns c with
      pc := .ack sess
      unread := rest }

/-- What the daemon adds to its status. -/
def info (uptime : ℤ) : DaemonInfo where
  version := cfg.version
  pid := cfg.pid
  uptimeSeconds := uptime
  socketPath := cfg.socketPath
  sessions := s.sessions.keys.length

/-- One line of a session. -/
def serveLine (c : ℕ) (sess : Session) (uptime : ℤ) (line rest : Bytes) : Server σ τ κ :=
  let r := s.backend.answer wire ctl tools sess (s.info cfg uptime) line
  { s with backend := r.1 }.setConn c { s.conns c with
    pc := .reply sess r.2.1 r.2.2
    unread := rest }

/-- **SessionEnded**. -/
def sessionEnded (sess : Session) : Server σ τ κ :=
  { s with backend := s.backend.sessionEnded sess }

/-- The notice that nothing answers, after which the connection is closed. -/
def notice (c : ℕ) (sess : Session) (text : Option Bytes) : Server σ τ κ :=
  s.goto c (.reply sess text .stop)

/-- A line is written as far as it is not yet, and the goroutine goes on somewhere. -/
def writeLine (c : ℕ) (text : Bytes) (pc : ConnPc) : Server σ τ κ :=
  s.setConn c { s.conns c with
    pc := pc
    output := (s.conns c).output ++ (text ++ [newline]).drop (s.conns c).sent
    sent := 0 }

/-- What a goroutine is about to write. -/
def owed : ConnPc → Option Bytes
  | .reject ack => some (wire.ackText ack)
  | .ack sess => some (wire.ackText (okAck cfg sess))
  | .reply _ text _ => text
  | _ => none

/-- The next bytes of the line are written, but not all. -/
def writePart (c : ℕ) (n : ℕ) : Option (Server σ τ κ) :=
  match owed cfg wire (s.conns c).pc with
  | none => none
  | some text =>
    if (s.conns c).writable ∧ (s.conns c).sent + n ≤ text.length then
      some (s.setConn c { s.conns c with
        output := (s.conns c).output ++ (text.drop (s.conns c).sent).take n
        sent := (s.conns c).sent + n })
    else none

/-- Where the goroutine goes on after a line that has been written. -/
def afterWrite (sess : Session) : After → ConnPc
  | .stop => .close
  | _ => .serve sess

/-- Where it goes on after one that could not be. -/
def afterFailure (sess : Session) : After → ConnPc
  | .goOn => .serve sess
  | _ => .close

/-- The next step of a connection. -/
def run (c : ℕ) (id : String) (uptime : ℤ) : Option (Server σ τ κ) :=
  match (s.conns c).pc with
  | .new => none
  | .accepted => none
  | .hello =>
    match (Stream.lines newline).next (s.conns c).unread with
    | none => none
    | some (line, rest) => some (s.handshake wire c id line rest)
  | .reject ack =>
    some (if (s.conns c).writable then s.writeLine c (wire.ackText ack) .close else s.goto c .close)
  | .ack sess =>
    some (if (s.conns c).writable then
        s.writeLine c (wire.ackText (okAck cfg sess)) (.serve sess)
      else (s.unregister c).goto c .close)
  | .serve sess =>
    if sess.mode = modeControl then
      if cfg.hasController then
        match (Stream.lines newline).next (s.conns c).unread with
        | none => none
        | some (line, rest) => some (s.serveLine cfg wire ctl tools c sess uptime line rest)
      else some (s.notice c sess
        (wire.responseText (controlErr errInternal "daemon started without controller")))
    else if cfg.hasDispatcher then
      match (Stream.lines newline).next (s.conns c).unread with
      | none => none
      | some (line, rest) => some (s.serveLine cfg wire ctl tools c sess uptime line rest)
    else some (s.notice c sess (some wire.noDispatcherText))
  | .reply sess text after =>
    match text with
    | none => some (s.goto c (afterFailure sess after))
    | some t =>
      some (if (s.conns c).writable then s.writeLine c t (afterWrite sess after)
        else s.goto c (afterFailure sess after))
  | .close => some (s.setConn c { s.conns c with
      pc := .untrack
      closed := true })
  | .untrack => some ({ s with tracked := Function.update s.tracked c false }.goto c .remove)
  | .remove =>
    match s.byConn.lookup c with
    | none => some (s.goto c .done)
    | some sess => some ((s.unregister c).goto c (if cfg.hasDispatcher then .hook sess else .done))
  | .hook sess => some ((s.sessionEnded sess).goto c .done)
  | .done => none

/-- A read fails: at the end of what the client has written, or because the connection is
closed. -/
def fail (c : ℕ) : Option (Server σ τ κ) :=
  if (s.conns c).closed || (s.conns c).hungUp &&
      ((Stream.lines newline).next (s.conns c).unread).isNone then
    match (s.conns c).pc with
    | .hello => some (s.goto c .close)
    | .serve _ => some (s.goto c .close)
    | _ => none
  else none

/-- **Shutdown** closes all connections that are tracked. -/
def closeAll : Server σ τ κ :=
  { s with
    stopped := true
    conns := fun c => if s.tracked c then { s.conns c with closed := true } else s.conns c }

/-- **One step.** -/
def step : ServerAction → Option (Server σ τ κ)
  | .accept c =>
    match (s.conns c).pc with
    | .new => if s.stopped then none else some (s.goto c .accepted)
    | _ => none
  | .track c =>
    match (s.conns c).pc with
    | .accepted => some ({ s with tracked := Function.update s.tracked c true }.goto c .hello)
    | _ => none
  | .run c id uptime => s.run cfg wire ctl tools c id uptime
  | .part c n => s.writePart cfg wire c n
  | .fail c => s.fail c
  | .write c bytes =>
    if (s.conns c).writable then
      some (s.setConn c { s.conns c with unread := (s.conns c).unread ++ bytes })
    else none
  | .hangUp c => some (s.setConn c { s.conns c with hungUp := true })
  | .shutdown => if s.stopped then none else some s.closeAll

/-- A session is alive: it is registered, or about to be forgotten. -/
def Holds (c : ℕ) (sess : Session) : Prop :=
  s.byConn.lookup c = some sess ∨ (s.conns c).pc.hook? = some sess

/-- No session that is alive has an identifier. -/
def FreshID (id : String) : Prop := ∀ {c sess}, s.Holds c sess → sess.id ≠ id

/-- The steps as a relation: the identifier of a new session is a fresh one. -/
def Step (s : Server σ τ κ) (a : ServerAction) (s' : Server σ τ κ) : Prop :=
  s.step cfg wire ctl tools a = some s' ∧
    ∀ c id uptime, a = .run c id uptime → (s.conns c).pc = .hello → s.FreshID (newSessionID id)

/-! ### What a step can do -/

/-- **What a step can do**, one case for each. -/
inductive Moves (s : Server σ τ κ) : ServerAction → Server σ τ κ → Prop
  | accept {c : ℕ} : (s.conns c).pc = .new → Moves s (.accept c) (s.goto c .accepted)
  | track {c : ℕ} : (s.conns c).pc = .accepted →
    Moves s (.track c) ({ s with tracked := Function.update s.tracked c true }.goto c .hello)
  | handshake {c : ℕ} {id : String} {uptime : ℤ} {line rest : Bytes} : (s.conns c).pc = .hello →
    (Stream.lines newline).next (s.conns c).unread = some (line, rest) →
    Moves s (.run c id uptime) (s.handshake wire c id line rest)
  | written {c : ℕ} {id : String} {uptime : ℤ} {text : Bytes} {pc : ConnPc} :
    owed cfg wire (s.conns c).pc = some text → (s.conns c).writable = true →
    ConnPc.Calm (s.conns c).pc pc → Moves s (.run c id uptime) (s.writeLine c text pc)
  | moved {a : ServerAction} {c : ℕ} {pc : ConnPc} :
    (owed cfg wire (s.conns c).pc = none ∨ (s.conns c).writable = false) →
    ConnPc.Calm (s.conns c).pc pc → Moves s a (s.goto c pc)
  | ackFailed {c : ℕ} {id : String} {uptime : ℤ} {sess : Session} : (s.conns c).pc = .ack sess →
    (s.conns c).writable = false → Moves s (.run c id uptime) ((s.unregister c).goto c .close)
  | line {c : ℕ} {id : String} {uptime : ℤ} {sess : Session} {line rest : Bytes} :
    (s.conns c).pc = .serve sess →
    (Stream.lines newline).next (s.conns c).unread = some (line, rest) →
    Moves s (.run c id uptime) (s.serveLine cfg wire ctl tools c sess uptime line rest)
  | notice {c : ℕ} {id : String} {uptime : ℤ} {sess : Session} {text : Option Bytes} :
    (s.conns c).pc = .serve sess → Moves s (.run c id uptime) (s.notice c sess text)
  | close {c : ℕ} {id : String} {uptime : ℤ} : (s.conns c).pc = .close →
    Moves s (.run c id uptime) (s.setConn c { s.conns c with
      pc := .untrack
      closed := true })
  | untrack {c : ℕ} {id : String} {uptime : ℤ} : (s.conns c).pc = .untrack →
    Moves s (.run c id uptime)
      ({ s with tracked := Function.update s.tracked c false }.goto c .remove)
  | removeNone {c : ℕ} {id : String} {uptime : ℤ} : (s.conns c).pc = .remove →
    s.byConn.lookup c = none → Moves s (.run c id uptime) (s.goto c .done)
  | remove {c : ℕ} {id : String} {uptime : ℤ} {sess : Session} : (s.conns c).pc = .remove →
    s.byConn.lookup c = some sess → Moves s (.run c id uptime)
      ((s.unregister c).goto c (if cfg.hasDispatcher then .hook sess else .done))
  | forget {c : ℕ} {id : String} {uptime : ℤ} {sess : Session} : (s.conns c).pc = .hook sess →
    Moves s (.run c id uptime) ((s.sessionEnded sess).goto c .done)
  | part {c n : ℕ} {text : Bytes} : owed cfg wire (s.conns c).pc = some text →
    (s.conns c).writable = true → (s.conns c).sent + n ≤ text.length →
    Moves s (.part c n) (s.setConn c { s.conns c with
      output := (s.conns c).output ++ (text.drop (s.conns c).sent).take n
      sent := (s.conns c).sent + n })
  | write {c : ℕ} {bytes : Bytes} : Moves s (.write c bytes)
    (s.setConn c { s.conns c with unread := (s.conns c).unread ++ bytes })
  | hangUp {c : ℕ} : Moves s (.hangUp c) (s.setConn c { s.conns c with hungUp := true })
  | shutdown : Moves s .shutdown s.closeAll

section

variable {cfg wire ctl tools s} {s' : Server σ τ κ} {c : ℕ} {id : String} {uptime : ℤ}

theorem calm_close (p : ConnPc) (h : p.hook? = none) : ConnPc.Calm p .close where
  session hc := by cases hc
  hook := ⟨rfl, h⟩
  free hc := by cases hc

theorem calm_serve {p : ConnPc} {sess : Session} (h : p.session? = some sess)
    (hh : p.hook? = none) : ConnPc.Calm p (.serve sess) where
  session hc := h.trans hc
  hook := ⟨rfl, hh⟩
  free hc := by cases hc

theorem calm_answer {sess : Session} {text : Option Bytes} {after : After} :
    ConnPc.Calm (.serve sess) (.reply sess text after) where
  session hc := hc
  hook := ⟨rfl, rfl⟩
  free hc := by cases hc

theorem calm_reply {sess : Session} {text : Option Bytes} {after : After} {pc : ConnPc}
    (h : pc = .serve sess ∨ pc = .close) : ConnPc.Calm (.reply sess text after) pc := by
  rcases h with rfl | rfl
  · exact calm_serve rfl rfl
  · exact calm_close _ rfl

theorem afterWrite_cases (sess : Session) (after : After) :
    afterWrite sess after = .serve sess ∨ afterWrite sess after = .close := by
  cases after <;> simp [afterWrite]

theorem afterFailure_cases (sess : Session) (after : After) :
    afterFailure sess after = .serve sess ∨ afterFailure sess after = .close := by
  cases after <;> simp [afterFailure]

/-- A reply is written, or cannot be. -/
theorem moves_reply {sess : Session} {text : Option Bytes} {after : After}
    (hpc : (s.conns c).pc = .reply sess text after)
    (h : s.run cfg wire ctl tools c id uptime = some s') :
    Moves cfg wire ctl tools s (.run c id uptime) s' := by
  have hfail := afterFailure_cases sess after
  rw [run, hpc] at h
  cases text with
  | none =>
    cases h
    exact .moved (Or.inl (hpc ▸ rfl)) (hpc ▸ calm_reply hfail)
  | some t =>
    simp only at h
    split at h
    · rename_i hw
      cases h
      have hok := afterWrite_cases sess after
      exact .written (hpc ▸ rfl) hw (hpc ▸ calm_reply hok)
    · rename_i hw
      cases h
      exact .moved (Or.inr (by simpa using hw)) (hpc ▸ calm_reply hfail)

/-- A session answers a line. -/
theorem moves_serve {sess : Session} (hpc : (s.conns c).pc = .serve sess)
    (h : s.run cfg wire ctl tools c id uptime = some s') :
    Moves cfg wire ctl tools s (.run c id uptime) s' := by
  rw [run, hpc] at h
  simp only at h
  split at h
  · split at h
    · split at h
      · cases h
      · rename_i line rest hnext
        cases h
        exact .line hpc hnext
    · cases h
      exact .notice hpc
  · split at h
    · split at h
      · cases h
      · rename_i line rest hnext
        cases h
        exact .line hpc hnext
    · cases h
      exact .notice hpc

theorem moves_run (h : s.run cfg wire ctl tools c id uptime = some s') :
    Moves cfg wire ctl tools s (.run c id uptime) s' := by
  cases hpc : (s.conns c).pc with
  | reply sess text after => exact moves_reply hpc h
  | serve sess => exact moves_serve hpc h
  | new | accepted | done =>
    rw [run, hpc] at h
    cases h
  | hello =>
    rw [run, hpc] at h
    simp only at h
    split at h
    · cases h
    · rename_i line rest hnext
      cases h
      exact .handshake hpc hnext
  | reject ack =>
    rw [run, hpc] at h
    simp only at h
    split at h
    · rename_i hw
      cases h
      exact .written (hpc ▸ rfl) hw (hpc ▸ calm_close _ rfl)
    · rename_i hw
      cases h
      exact .moved (Or.inr (by simpa using hw)) (hpc ▸ calm_close _ rfl)
  | ack sess =>
    rw [run, hpc] at h
    simp only at h
    split at h
    · rename_i hw
      cases h
      exact .written (hpc ▸ rfl) hw (hpc ▸ calm_serve rfl rfl)
    · rename_i hw
      cases h
      exact .ackFailed hpc (by simpa using hw)
  | close =>
    rw [run, hpc] at h
    cases h
    exact .close hpc
  | untrack =>
    rw [run, hpc] at h
    cases h
    exact .untrack hpc
  | remove =>
    rw [run, hpc] at h
    simp only at h
    split at h
    · rename_i hnone
      cases h
      exact .removeNone hpc hnone
    · rename_i sess hsess
      cases h
      exact .remove hpc hsess
  | hook sess =>
    rw [run, hpc] at h
    cases h
    exact .forget hpc

theorem moves_part {n : ℕ} (h : s.writePart cfg wire c n = some s') :
    Moves cfg wire ctl tools s (.part c n) s' := by
  rw [writePart] at h
  split at h
  · cases h
  · rename_i text howed
    split at h
    · rename_i hw
      cases h
      exact .part howed hw.1 hw.2
    · cases h

theorem moves_fail (h : s.fail c = some s') : Moves cfg wire ctl tools s (.fail c) s' := by
  rw [fail] at h
  split at h
  · split at h
    · rename_i hpc
      cases h
      exact .moved (Or.inl (hpc ▸ rfl)) (hpc ▸ calm_close _ rfl)
    · rename_i hpc
      cases h
      exact .moved (Or.inl (hpc ▸ rfl)) (hpc ▸ calm_close _ rfl)
    · cases h
  · cases h

/-- **A step does one of these things.** -/
theorem moves {a : ServerAction} (h : Step cfg wire ctl tools s a s') :
    Moves cfg wire ctl tools s a s' := by
  obtain ⟨h, -⟩ := h
  cases a with
  | accept c =>
    change (match (s.conns c).pc with
      | .new => if s.stopped then none else some (s.goto c .accepted)
      | _ => none) = some s' at h
    split at h
    · rename_i hpc
      split at h
      · cases h
      · cases h
        exact .accept hpc
    · cases h
  | track c =>
    change (match (s.conns c).pc with
      | .accepted => some ({ s with tracked := Function.update s.tracked c true }.goto c .hello)
      | _ => none) = some s' at h
    split at h
    · rename_i hpc
      cases h
      exact .track hpc
    · cases h
  | run c id uptime => exact moves_run h
  | part c n => exact moves_part h
  | fail c => exact moves_fail h
  | write c bytes =>
    rw [step] at h
    split at h
    · cases h
      exact .write
    · cases h
  | hangUp c =>
    cases h
    exact .hangUp
  | shutdown =>
    rw [step] at h
    split at h
    · cases h
    · cases h
      exact .shutdown

end

end Server

end Gortex.Daemon
