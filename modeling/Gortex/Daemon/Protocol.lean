import Gortex.Lib.GoBytes
import Gortex.Lib.GoMap
import Gortex.Lib.GoPath
import Gortex.Lib.GoString
import Gortex.Lib.Stream

/-!
# The daemon's protocol

What is said on a connection to the daemon (`internal/daemon/proto.go`), and how the daemon
answers a line of it: the handshake, the control requests (`internal/daemon/server.go`) and the
frames that are dispatched to the server of the tools (`cmd/gortex/daemon_mcp.go`). Behind it is one
state for all clients (`Daemon.Backend`), which takes one line after the other.

The texts of what is said are JSON on one line; what writes and reads them is a parameter
(`Daemon.Wire`), as are the operations of the controller (`Daemon.Controller`) and what the
handlers of the tools do with a frame (`Daemon.Tools`).
-/

namespace Gortex.Daemon

open GoBytes

/-! ### What is said -/

/-- `ProtocolVersion`. -/
def protocolVersion : ℤ := 1

def modeMCP : String := "mcp"

def modeControl : String := "control"

structure Handshake where
  version : ℤ
  mode : String
  cwd : String
  clientName : String
  pid : ℤ

structure HandshakeAck where
  ok : Bool := false
  errorCode : String := ""
  errorMsg : String := ""
  sessionID : String := ""
  daemonVersion : String := ""

def errProtocolMismatch : String := "protocol_mismatch"

def errUnsupportedMode : String := "unsupported_mode"

def errInternal : String := "internal"

structure ControlRequest where
  kind : String
  params : Bytes

structure ControlResponse where
  ok : Bool := false
  errorCode : String := ""
  errorMsg : String := ""
  result : Option Bytes := none

structure TrackParams where
  path : String := ""
  name : String := ""
  project : String := ""
  ref : String := ""

structure UntrackParams where
  pathOrPrefix : String := ""

structure SearchSymbolsParams where
  query : String := ""
  limit : ℤ := 0
  repo : String := ""

/-- `StatusResponse`: what the daemon fills in, and what the controller does. -/
structure StatusResponse (ρ : Type) where
  version : String
  pid : ℤ
  uptimeSeconds : ℤ
  socketPath : String
  sessions : ℕ
  details : ρ

/-- One connection of a proxy or a command, after its handshake. -/
structure Session where
  id : String
  mode : String
  cwd : String
  clientName : String
  clientPID : ℤ
  conn : ℕ

/-! ### The parameters -/

/-- **JSON**: what reads the lines of a client and writes those of the daemon. -/
structure Wire (ρ η : Type) where
  parseHandshake : Bytes → Except String Handshake
  parseRequest : Bytes → Except String ControlRequest
  parseTrack : Bytes → Except String TrackParams
  parseUntrack : Bytes → Except String UntrackParams
  parseSearch : Bytes → Except String SearchSymbolsParams
  ackText : HandshakeAck → Bytes
  responseText : ControlResponse → Option Bytes
  statusText : StatusResponse ρ → Bytes
  hitsText : η → Except String Bytes
  /-- What is written when there is nothing that dispatches frames. -/
  noDispatcherText : Bytes

/-- **The controller**: its operations, on a state of its own. -/
structure Controller (σ ρ η : Type) where
  track : σ → TrackParams → σ × Except String (Option Bytes)
  untrack : σ → UntrackParams → σ × Except String (Option Bytes)
  reload : σ → σ × Except String (Option Bytes)
  status : σ → σ × Except String (StatusResponse ρ)
  searchSymbols : σ → SearchSymbolsParams → σ × Except String η
  shutdown : σ → σ × Except String Unit

/-- What the handlers of the tools answer: nothing to a notification; a reply that cannot be
written is an error. -/
inductive ToolReply
  | silent
  | failed
  | text (t : Bytes)

/-- **The tools** behind the dispatcher: the roots of the tracked repositories, if there is an
indexer of many; the error for a directory outside them; a new session's local state; and what
the handlers do with a frame – to what all sessions share, and to the local state of the frame's
session if they ask for it. -/
structure Tools (τ κ : Type) where
  roots : τ → Option (List String)
  notTrackedError : Session → Bytes → Bytes
  newLocal : τ → κ
  handle : τ → κ → Bytes → τ × Option κ × ToolReply

/-! ### The handshake -/

/-- What **handshake** finds in the first line: the error it acknowledges with, or the
handshake. -/
def checkHandshake {ρ η : Type} (wire : Wire ρ η) (line : Bytes) :
    Except HandshakeAck Handshake :=
  match wire.parseHandshake line with
  | .error err => .error {
      errorCode := errInternal
      errorMsg := "invalid handshake json: " ++ err }
  | .ok h =>
    if h.version ≠ protocolVersion then .error {
      errorCode := errProtocolMismatch
      errorMsg := "daemon expects protocol " ++ toString protocolVersion ++ ", client sent " ++
        toString h.version }
    else if h.mode ≠ modeMCP ∧ h.mode ≠ modeControl then .error {
      errorCode := errUnsupportedMode
      errorMsg := "mode must be 'mcp' or 'control'" }
    else .ok h

/-! ### Control requests -/

section Control

variable {σ ρ η : Type}

/-- What the daemon adds to the status. -/
structure DaemonInfo where
  version : String
  pid : ℤ
  uptimeSeconds : ℤ
  socketPath : String
  sessions : ℕ

def controlErr (code msg : String) : ControlResponse where
  errorCode := code
  errorMsg := msg

/-- **unmarshalParams**: no parameters are those of the zero value. -/
def unmarshalParams {T : Type} (parse : Bytes → Except String T) (zero : T) (raw : Bytes) :
    Except String T :=
  if raw = [] ∨ raw = ofString "null" then .ok zero else parse raw

/-- The response for a result. -/
def controlResult : Except String (Option Bytes) → ControlResponse
  | .error err => controlErr errInternal err
  | .ok result => { ok := true, result := result }

/-- **handleControl**. -/
def handleControl (wire : Wire ρ η) (ctl : Controller σ ρ η) (info : DaemonInfo) (s : σ)
    (req : ControlRequest) : σ × ControlResponse :=
  if req.kind = "track" then
    match unmarshalParams wire.parseTrack {} req.params with
    | .error err => (s, controlErr errInternal err)
    | .ok p => ((ctl.track s p).1, controlResult (ctl.track s p).2)
  else if req.kind = "untrack" then
    match unmarshalParams wire.parseUntrack {} req.params with
    | .error err => (s, controlErr errInternal err)
    | .ok p => ((ctl.untrack s p).1, controlResult (ctl.untrack s p).2)
  else if req.kind = "reload" then ((ctl.reload s).1, controlResult (ctl.reload s).2)
  else if req.kind = "status" then
    ((ctl.status s).1, controlResult ((ctl.status s).2.map fun st =>
      some (wire.statusText { st with
        version := info.version
        pid := info.pid
        uptimeSeconds := info.uptimeSeconds
        socketPath := info.socketPath
        sessions := info.sessions })))
  else if req.kind = "search_symbols" then
    match unmarshalParams wire.parseSearch {} req.params with
    | .error err => (s, controlErr errInternal err)
    | .ok p => ((ctl.searchSymbols s p).1, match (ctl.searchSymbols s p).2 with
      | .error err => controlErr errInternal err
      | .ok hits => match wire.hitsText hits with
        | .error err => controlErr errInternal ("marshal search result: " ++ err)
        | .ok text => { ok := true, result := some text })
  else if req.kind = "shutdown" then
    ((ctl.shutdown s).1, match (ctl.shutdown s).2 with
      | .error err => controlErr errInternal err
      | .ok _ => { ok := true })
  else (s, controlErr errInternal ("unknown control kind: " ++ req.kind))

/-- What the daemon does after it has written a line: go on, go on if it could be written, or
close the connection. -/
inductive After
  | goOn
  | goOnIfWritten
  | stop

/-- One round of **serveControl**: the state of the controller, the line to be written, if the
response can be, and what comes then. -/
def serveControl (wire : Wire ρ η) (ctl : Controller σ ρ η) (info : DaemonInfo) (s : σ)
    (line : Bytes) : σ × Option Bytes × After :=
  match wire.parseRequest line with
  | .error err =>
    (s, wire.responseText (controlErr errInternal ("malformed request: " ++ err)), .goOn)
  | .ok req =>
    let r := handleControl wire ctl info s req
    (r.1, wire.responseText r.2, if req.kind = "shutdown" ∧ r.2.ok = true then .stop
      else .goOnIfWritten)

end Control

/-! ### Frames -/

section Dispatch

variable {τ κ : Type}

/-- **isCWDTracked**. -/
def isCWDTracked (roots : Option (List String)) (cwd : String) : Bool :=
  match roots with
  | none => true
  | some roots => roots.any fun root => GoPath.clean cwd = GoPath.clean root ||
      GoString.hasPrefix (GoPath.clean cwd) (GoPath.clean root ++ "/")

/-- The local state of a session: **sessionMap.get**, which creates it. -/
def getLocal (tools : Tools τ κ) (shared : τ) (locals : GoMap String κ) (id : String) : κ :=
  (locals.lookup id).getD (tools.newLocal shared)

/-- **Dispatch**: what is shared, the local states of the sessions, and the reply. -/
def dispatch (tools : Tools τ κ) (shared : τ) (locals : GoMap String κ) (sess : Session)
    (frame : Bytes) : τ × GoMap String κ × ToolReply :=
  if sess.cwd ≠ "" ∧ ¬isCWDTracked (tools.roots shared) sess.cwd then
    (shared, locals, .text (tools.notTrackedError sess frame))
  else
    let r := tools.handle shared (getLocal tools shared locals sess.id) frame
    (r.1, match r.2.1 with
      | none => locals
      | some l => locals.insert sess.id l, r.2.2)

/-- The line that **serveMCP** writes for a reply. -/
def replyLine : ToolReply → Option Bytes
  | .silent => none
  | .failed => none
  | .text [] => none
  | .text (b :: t) => some (b :: t)

end Dispatch

/-! ### One line after the other -/

/-- **What answers the lines of all clients**: the state of the controller, and what the tools share
and keep for each session. -/
structure Backend (σ τ κ : Type) where
  controller : σ
  shared : τ
  locals : GoMap String κ := ∅

namespace Backend

variable {σ τ κ ρ η : Type} (wire : Wire ρ η) (ctl : Controller σ ρ η) (tools : Tools τ κ)
  (b : Backend σ τ κ)

/-- One round of **serveControl** or **serveMCP**, by the mode of the session: the line to be
written, if there is one, and what comes then. -/
def answer (sess : Session) (info : DaemonInfo) (line : Bytes) :
    Backend σ τ κ × Option Bytes × After :=
  if sess.mode = modeControl then
    let r := serveControl wire ctl info b.controller line
    ({ b with controller := r.1 }, r.2)
  else if line.dropLast = [] then (b, none, .goOn)
  else
    let r := dispatch tools b.shared b.locals sess line.dropLast
    ({ b with
      shared := r.1
      locals := r.2.1 }, replyLine r.2.2, if replyLine r.2.2 = none then .goOn else .goOnIfWritten)

/-- **SessionEnded**. -/
def sessionEnded (sess : Session) : Backend σ τ κ := { b with locals := b.locals.erase sess.id }

end Backend

end Gortex.Daemon
