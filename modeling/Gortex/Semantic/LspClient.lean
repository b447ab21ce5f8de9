import Mathlib.Logic.Function.Basic
import Gortex.Lib.Run
import Gortex.Semantic.LspFrames

/-!
# The client of a language server

The client of `internal/semantic/lsp/client.go`, with all that goes on at once: goroutines that
call, notify and shut down, the goroutine of `readResponses`, and the server's process with the
two pipes to it. A goroutine is where it is in `Call`, `Notify` or `Shutdown` and what it does
then; a step is one access to what is shared – the counter of the requests, the table of the
pending ones, the mutex, a pipe, a channel.

The server is left open: it writes what it likes when it likes, and may go away, after which a
write fails. A write may fail after a part of it, and then all later ones fail at once: the pipe
is broken. What marshals a message and reads a response is a parameter (`Lsp.Codec`).
-/

namespace Gortex.Semantic.Lsp

open GoBytes

/-! ### Messages -/

/-- What is written to the server, `jsonRPCRequest` or `jsonRPCNotification`. -/
inductive Message (P : Type)
  | request (id : ℕ) (method : String) (params : Option P)
  | notification (method : String) (params : Option P)

namespace Message

variable {P : Type}

def method : Message P → String
  | request _ m _ => m
  | notification m _ => m

/-- The number of a request. -/
def id? : Message P → Option ℕ
  | request id _ _ => some id
  | notification _ _ => none

end Message

/-- `jsonRPCError`. -/
structure RpcError where
  code : ℤ
  message : String
deriving DecidableEq

/-- `jsonRPCResponse`; a message without a number has the number zero. -/
structure Response (R : Type) where
  id : ℤ
  result : Option R
  error : Option RpcError
deriving DecidableEq

/-- **What marshals messages and parses responses.** What is marshalled is not empty, and its
length is an integer. -/
structure Codec (P R : Type) where
  marshal : Message P → Option Bytes
  unmarshal : Bytes → Option (Response R)
  marshal_ne_nil : ∀ {m : Message P} {data : Bytes}, marshal m = some data → data ≠ []
  length_marshal_lt : ∀ {m : Message P} {data : Bytes}, marshal m = some data →
    data.length < 2 ^ 63

/-! ### Goroutines -/

/-- How a `Call` ends: its request is not written, it has a response, or the server is known to
have exited. -/
inductive Outcome (R : Type)
  | sendFailed
  | answered (resp : Response R)
  | exited

/-- A `Call`: its number, and what it asks. -/
structure Call (P : Type) where
  id : ℕ
  method : String
  params : Option P

/-- The request of a call. -/
def Call.request {P : Type} (k : Call P) : Message P := .request k.id k.method k.params

/-- What a goroutine does; the last three are what `Shutdown` does at its end. -/
inductive Op (P : Type)
  | call (method : String) (params : Option P)
  | notify (method : String) (params : Option P)
  | shutdown
  | closeStdin
  | waitExit
  | closeDone

/-- The operations that the client offers. -/
def Op.offered {P : Type} : Op P → Bool
  | .call _ _ => true
  | .notify _ _ => true
  | .shutdown => true
  | _ => false

/-- What is left of **Shutdown** after `closed` is set. -/
def shutdownOps {P : Type} : List (Op P) :=
  [.call "shutdown" none, .notify "exit" none, .closeStdin, .waitExit, .closeDone]

/-- Where a goroutine is: before `pending.Store`; in `send` before the lock, before the header
is written and before the message is; in the `select`; and before `pending.Delete`. -/
inductive Pc (P R : Type)
  | idle
  | store (k : Call P)
  | lock (msg : Message P)
  | header (msg : Message P) (data : Bytes)
  | body (msg : Message P) (data : Bytes)
  | wait (k : Call P)
  | delete (k : Call P) (out : Outcome R)

/-- A goroutine: where it is, and what it does then. -/
structure Goroutine (P R : Type) where
  pc : Pc P R := .idle
  ops : List (Op P) := []

/-- Where `send` goes on when it fails. -/
def sendFailed {P R : Type} : Message P → Pc P R
  | .request id m p => .delete ⟨id, m, p⟩ .sendFailed
  | .notification _ _ => .idle

/-- Where it goes on when the message is written. -/
def sendDone {P R : Type} : Message P → Pc P R
  | .request id m p => .wait ⟨id, m, p⟩
  | .notification _ _ => .idle

/-- Where **readResponses** is: it reads, it is about to put a response into the channel of a
request, or it has returned. -/
inductive ReaderPc (R : Type)
  | reading
  | deliver (id : ℕ) (resp : Response R)
  | stopped
deriving DecidableEq

/-! ### The client -/

/-- **The client**, the pipes and its goroutines. -/
structure Client (P R : Type) where
  reqID : ℕ := 0
  /-- Whether a request is in the table. -/
  pending : ℕ → Bool := fun _ => false
  /-- What is in the channel of a request, which holds one response. -/
  chans : ℕ → Option (Response R) := fun _ => none
  /-- The goroutine that holds the mutex. -/
  mutex : Option ℕ := none
  closed : Bool := false
  /-- Whether the channel `done` is closed. -/
  done : Bool := false
  /-- What has been written to the server. -/
  stdin : Bytes := []
  /-- Whether nothing more can be written. -/
  broken : Bool := false
  /-- What the server has written and is not read yet. -/
  stdout : Bytes := []
  /-- Whether the server is gone. -/
  eof : Bool := false
  /-- Whether its process has been waited for, which closes its output. -/
  waited : Bool := false
  reader : ReaderPc R := .reading
  goroutines : ℕ → Goroutine P R := fun _ => {}
  /-- The messages that `send` has written, in order. -/
  sent : List (Message P) := []
  /-- All that the server has written. -/
  output : Bytes := []
  /-- The responses that have been parsed, in order. -/
  parsed : List (Response R) := []
  /-- The calls that have returned. -/
  returned : List (Call P × Outcome R) := []

/-- A step: of a goroutine (the next one; a write that fails after some bytes; the branch of the
`select` for `done`), of the reader (the next one; it returns), or of the server. -/
inductive Action (P : Type)
  | spawn (g : ℕ) (ops : List (Op P))
  | run (g : ℕ)
  | fail (g n : ℕ)
  | exit (g : ℕ)
  | read
  | stop
  | serve (bytes : Bytes)
  | hangUp

namespace Client

variable {P R : Type} (codec : Codec P R) (c : Client P R)

/-- A goroutine goes on somewhere. -/
def goto (g : ℕ) (pc : Pc P R) : Client P R :=
  { c with goroutines := Function.update c.goroutines g { c.goroutines g with pc := pc } }

/-- What a goroutine does is replaced. -/
def setOps (g : ℕ) (ops : List (Op P)) : Client P R :=
  { c with goroutines := Function.update c.goroutines g { c.goroutines g with ops := ops } }

/-- A goroutine begins an operation. -/
def startOp (g : ℕ) (op : Op P) (ops : List (Op P)) : Option (Client P R) :=
  match op with
  | .call method params =>
    some (({ c with reqID := c.reqID + 1 }.setOps g ops).goto g
      (.store ⟨c.reqID + 1, method, params⟩))
  | .notify method params => some ((c.setOps g ops).goto g (.lock (.notification method params)))
  | .shutdown =>
    if c.mutex.isSome then none
    else if c.closed then some (c.setOps g ops)
    else some ({ c with closed := true }.setOps g (shutdownOps ++ ops))
  | .closeStdin => some ({ c with broken := true }.setOps g ops)
  | .waitExit => if c.eof then some ({ c with waited := true }.setOps g ops) else none
  | .closeDone => some ({ c with done := true }.setOps g ops)

/-- The next step of a goroutine. -/
def run (g : ℕ) : Option (Client P R) :=
  match (c.goroutines g).pc with
  | .idle =>
    match (c.goroutines g).ops with
    | [] => none
    | op :: ops => c.startOp g op ops
  | .store k =>
    some ({ c with pending := Function.update c.pending k.id true }.goto g (.lock k.request))
  | .lock msg =>
    match codec.marshal msg with
    | none => some (c.goto g (sendFailed msg))
    | some data =>
      if c.mutex.isSome then none
      else some ({ c with mutex := some g }.goto g (.header msg data))
  | .header msg data =>
    if c.closed then some ({ c with mutex := none }.goto g (sendFailed msg))
    else if c.broken then none
    else some ({ c with stdin := c.stdin ++ header data.length }.goto g (.body msg data))
  | .body msg data =>
    if c.broken then none
    else some ({ c with
      stdin := c.stdin ++ data
      mutex := none
      sent := c.sent ++ [msg] }.goto g (sendDone msg))
  | .wait k =>
    (c.chans k.id).map fun resp =>
      { c with chans := Function.update c.chans k.id none }.goto g (.delete k (.answered resp))
  | .delete k out =>
    some ({ c with
      pending := Function.update c.pending k.id false
      returned := c.returned ++ [(k, out)] }.goto g .idle)

/-- A write of a goroutine fails after some bytes. -/
def failWrite (g n : ℕ) (msg : Message P) (text : Bytes) : Option (Client P R) :=
  if c.broken || n < text.length then
    some ({ c with
      stdin := c.stdin ++ if c.broken then [] else text.take n
      broken := true
      mutex := none }.goto g (sendFailed msg))
  else none

/-- The write that a goroutine is about to make fails. -/
def fail (g n : ℕ) : Option (Client P R) :=
  match (c.goroutines g).pc with
  | .header msg data => if c.closed then none else c.failWrite g n msg (header data.length)
  | .body msg data => c.failWrite g n msg data
  | _ => none

/-- The branch of the `select` for the server's exit. -/
def exit (g : ℕ) : Option (Client P R) :=
  match (c.goroutines g).pc with
  | .wait k => if c.done then some (c.goto g (.delete k .exited)) else none
  | _ => none

/-- A response is looked up in the table. -/
def route (resp : Response R) : ReaderPc R :=
  match resp.id with
  | .ofNat id => if c.pending id then .deliver id resp else .reading
  | .negSucc _ => .reading

/-- The next step of **readResponses**: the next body, or the response that is to be put into a
channel that is free. -/
def read : Option (Client P R) :=
  match c.reader with
  | .reading =>
    match frames.next c.stdout with
    | none => none
    | some (b, stdout) =>
      match b.bind codec.unmarshal with
      | none => some { c with stdout := stdout }
      | some resp => some { c with
          stdout := stdout
          parsed := c.parsed ++ [resp]
          reader := c.route resp }
  | .deliver id resp =>
    match c.chans id with
    | none => some { c with
        chans := Function.update c.chans id (some resp)
        reader := .reading }
    | some _ => none
  | .stopped => none

/-- **readResponses** returns, at the end of the server's output or when it has been closed. -/
def stop : Option (Client P R) :=
  match c.reader with
  | .reading =>
    if c.eof && ((frames.next c.stdout).isNone || c.waited) then
      some { c with reader := .stopped }
    else none
  | _ => none

/-- **One step.** -/
def step : Action P → Option (Client P R)
  | .spawn g ops =>
    match c.goroutines g with
    | ⟨.idle, []⟩ => if ops.all Op.offered then some (c.setOps g ops) else none
    | _ => none
  | .run g => c.run codec g
  | .fail g n => c.fail g n
  | .exit g => c.exit g
  | .read => c.read codec
  | .stop => c.stop
  | .serve bytes =>
    if c.eof then none
    else some { c with
      stdout := c.stdout ++ bytes
      output := c.output ++ bytes }
  | .hangUp => some { c with
      eof := true
      broken := true }

/-- The steps as a relation. -/
def Step (c : Client P R) (a : Action P) (c' : Client P R) : Prop := c.step codec a = some c'

/-! ### What a step can do -/

/-- **What a step can do**, one case for each. -/
inductive Moves (c : Client P R) : Action P → Client P R → Prop
  | spawn {g : ℕ} {ops : List (Op P)} : c.goroutines g = ⟨.idle, []⟩ →
    ops.all Op.offered = true → Moves c (.spawn g ops) (c.setOps g ops)
  | call {g : ℕ} {method : String} {params : Option P} {ops : List (Op P)} :
    c.goroutines g = ⟨.idle, .call method params :: ops⟩ →
    Moves c (.run g) (({ c with reqID := c.reqID + 1 }.setOps g ops).goto g
      (.store ⟨c.reqID + 1, method, params⟩))
  | notify {g : ℕ} {method : String} {params : Option P} {ops : List (Op P)} :
    c.goroutines g = ⟨.idle, .notify method params :: ops⟩ →
    Moves c (.run g) ((c.setOps g ops).goto g (.lock (.notification method params)))
  | shutdownAgain {g : ℕ} {ops : List (Op P)} : c.goroutines g = ⟨.idle, .shutdown :: ops⟩ →
    Moves c (.run g) (c.setOps g ops)
  | shutdown {g : ℕ} {ops : List (Op P)} : c.goroutines g = ⟨.idle, .shutdown :: ops⟩ →
    c.mutex = none → c.closed = false →
    Moves c (.run g) ({ c with closed := true }.setOps g (shutdownOps ++ ops))
  | closeStdin {g : ℕ} {ops : List (Op P)} : c.goroutines g = ⟨.idle, .closeStdin :: ops⟩ →
    Moves c (.run g) ({ c with broken := true }.setOps g ops)
  | waitExit {g : ℕ} {ops : List (Op P)} : c.goroutines g = ⟨.idle, .waitExit :: ops⟩ →
    Moves c (.run g) ({ c with waited := true }.setOps g ops)
  | closeDone {g : ℕ} {ops : List (Op P)} : c.goroutines g = ⟨.idle, .closeDone :: ops⟩ →
    Moves c (.run g) ({ c with done := true }.setOps g ops)
  | store {g : ℕ} {k : Call P} : (c.goroutines g).pc = .store k →
    Moves c (.run g)
      ({ c with pending := Function.update c.pending k.id true }.goto g (.lock k.request))
  | marshalFailed {g : ℕ} {msg : Message P} : (c.goroutines g).pc = .lock msg →
    Moves c (.run g) (c.goto g (sendFailed msg))
  | lock {g : ℕ} {msg : Message P} {data : Bytes} : (c.goroutines g).pc = .lock msg →
    codec.marshal msg = some data → c.mutex = none →
    Moves c (.run g) ({ c with mutex := some g }.goto g (.header msg data))
  | headerClosed {g : ℕ} {msg : Message P} {data : Bytes} :
    (c.goroutines g).pc = .header msg data →
    Moves c (.run g) ({ c with mutex := none }.goto g (sendFailed msg))
  | header {g : ℕ} {msg : Message P} {data : Bytes} : (c.goroutines g).pc = .header msg data →
    c.closed = false → c.broken = false →
    Moves c (.run g)
      ({ c with stdin := c.stdin ++ Lsp.header data.length }.goto g (.body msg data))
  | body {g : ℕ} {msg : Message P} {data : Bytes} : (c.goroutines g).pc = .body msg data →
    c.broken = false →
    Moves c (.run g) ({ c with
      stdin := c.stdin ++ data
      mutex := none
      sent := c.sent ++ [msg] }.goto g (sendDone msg))
  | receive {g : ℕ} {k : Call P} {resp : Response R} : (c.goroutines g).pc = .wait k →
    c.chans k.id = some resp →
    Moves c (.run g) ({ c with chans := Function.update c.chans k.id none }.goto g
      (.delete k (.answered resp)))
  | delete {g : ℕ} {k : Call P} {out : Outcome R} : (c.goroutines g).pc = .delete k out →
    Moves c (.run g) ({ c with
      pending := Function.update c.pending k.id false
      returned := c.returned ++ [(k, out)] }.goto g .idle)
  | failHeader {g n : ℕ} {msg : Message P} {data text : Bytes} :
    (c.goroutines g).pc = .header msg data → c.closed = false →
    text = (if c.broken then [] else (Lsp.header data.length).take n) →
    (c.broken = false → n < (Lsp.header data.length).length) →
    Moves c (.fail g n) ({ c with
      stdin := c.stdin ++ text
      broken := true
      mutex := none }.goto g (sendFailed msg))
  | failBody {g n : ℕ} {msg : Message P} {data text : Bytes} :
    (c.goroutines g).pc = .body msg data →
    text = (if c.broken then [] else data.take n) →
    (c.broken = false → n < data.length) →
    Moves c (.fail g n) ({ c with
      stdin := c.stdin ++ text
      broken := true
      mutex := none }.goto g (sendFailed msg))
  | exit {g : ℕ} {k : Call P} : (c.goroutines g).pc = .wait k → c.done = true →
    Moves c (.exit g) (c.goto g (.delete k .exited))
  | skip {b : Option Bytes} {stdout : Bytes} : c.reader = .reading →
    frames.next c.stdout = some (b, stdout) → b.bind codec.unmarshal = none →
    Moves c .read { c with stdout := stdout }
  | parse {b : Option Bytes} {stdout : Bytes} {resp : Response R} : c.reader = .reading →
    frames.next c.stdout = some (b, stdout) → b.bind codec.unmarshal = some resp →
    Moves c .read { c with
      stdout := stdout
      parsed := c.parsed ++ [resp]
      reader := c.route resp }
  | deliver {id : ℕ} {resp : Response R} : c.reader = .deliver id resp → c.chans id = none →
    Moves c .read { c with
      chans := Function.update c.chans id (some resp)
      reader := .reading }
  | stop : c.reader = .reading → Moves c .stop { c with reader := .stopped }
  | serve {bytes : Bytes} : Moves c (.serve bytes) { c with
      stdout := c.stdout ++ bytes
      output := c.output ++ bytes }
  | hangUp : Moves c .hangUp { c with
      eof := true
      broken := true }

variable {codec c} {c' : Client P R} {a : Action P}

theorem moves_run {g : ℕ} (h : c.run codec g = some c') : Moves codec c (.run g) c' := by
  rw [run] at h
  split at h
  · rename_i hpc
    split at h
    · cases h
    · rename_i op ops hops
      have hg : c.goroutines g = ⟨.idle, op :: ops⟩ := by rw [← hpc, ← hops]
      cases op with
      | call method params => exact Option.some.inj h ▸ .call hg
      | notify method params => exact Option.some.inj h ▸ .notify hg
      | shutdown =>
        rw [startOp] at h
        split at h
        · cases h
        · rename_i hmutex
          split at h
          · exact Option.some.inj h ▸ .shutdownAgain hg
          · rename_i hclosed
            exact Option.some.inj h ▸ .shutdown hg (by simpa using hmutex) (by simpa using hclosed)
      | closeStdin => exact Option.some.inj h ▸ .closeStdin hg
      | waitExit =>
        rw [startOp] at h
        split at h
        · exact Option.some.inj h ▸ .waitExit hg
        · cases h
      | closeDone => exact Option.some.inj h ▸ .closeDone hg
  · rename_i hpc
    exact Option.some.inj h ▸ .store hpc
  · rename_i hpc
    split at h
    · exact Option.some.inj h ▸ .marshalFailed hpc
    · rename_i data hdata
      split at h
      · cases h
      · rename_i hmutex
        exact Option.some.inj h ▸ .lock hpc hdata (by simpa using hmutex)
  · rename_i hpc
    split at h
    · exact Option.some.inj h ▸ .headerClosed hpc
    · rename_i hclosed
      split at h
      · cases h
      · rename_i hbroken
        exact Option.some.inj h ▸ .header hpc (by simpa using hclosed) (by simpa using hbroken)
  · rename_i hpc
    split at h
    · cases h
    · rename_i hbroken
      exact Option.some.inj h ▸ .body hpc (by simpa using hbroken)
  · rename_i hpc
    obtain ⟨resp, hresp, rfl⟩ := Option.map_eq_some_iff.mp h
    exact .receive hpc hresp
  · rename_i hpc
    exact Option.some.inj h ▸ .delete hpc

theorem moves_fail {g n : ℕ} (h : c.fail g n = some c') : Moves codec c (.fail g n) c' := by
  rw [fail] at h
  split at h
  · rename_i hpc
    split at h
    · cases h
    · rename_i hclosed
      rw [failWrite] at h
      split at h
      · rename_i hn
        refine Option.some.inj h ▸ .failHeader hpc (by simpa using hclosed) rfl fun hb => ?_
        simpa [hb] using hn
      · cases h
  · rename_i hpc
    rw [failWrite] at h
    split at h
    · rename_i hn
      refine Option.some.inj h ▸ .failBody hpc rfl fun hb => ?_
      simpa [hb] using hn
    · cases h
  · cases h

theorem moves_read (h : c.read codec = some c') : Moves codec c .read c' := by
  rw [read] at h
  split at h
  · rename_i hreader
    split at h
    · cases h
    · rename_i hnext
      split at h
      · rename_i hparse
        exact Option.some.inj h ▸ .skip hreader hnext hparse
      · rename_i hparse
        exact Option.some.inj h ▸ .parse hreader hnext hparse
  · rename_i hreader
    split at h
    · rename_i hfree
      exact Option.some.inj h ▸ .deliver hreader hfree
    · cases h
  · cases h

/-- **A step does one of these things.** -/
theorem moves (h : c.Step codec a c') : Moves codec c a c' := by
  cases a with
  | spawn g ops =>
    change (match c.goroutines g with
      | ⟨.idle, []⟩ => if ops.all Op.offered then some (c.setOps g ops) else none
      | _ => none) = some c' at h
    split at h
    · rename_i hg
      split at h
      · rename_i hops
        exact Option.some.inj h ▸ .spawn hg hops
      · cases h
    · cases h
  | run g => exact moves_run h
  | fail g n => exact moves_fail h
  | exit g =>
    change c.exit g = some c' at h
    rw [exit] at h
    split at h
    · rename_i hpc
      split at h
      · rename_i hdone
        exact Option.some.inj h ▸ .exit hpc hdone
      · cases h
    · cases h
  | read => exact moves_read h
  | stop =>
    change c.stop = some c' at h
    rw [stop] at h
    split at h
    · rename_i hreader
      split at h
      · exact Option.some.inj h ▸ .stop hreader
      · cases h
    · cases h
  | serve bytes =>
    change (if c.eof then none else some _) = some c' at h
    split at h
    · cases h
    · exact Option.some.inj h ▸ .serve
  | hangUp => exact Option.some.inj h ▸ .hangUp

end Client

/-! ### A session -/

namespace Session

/-- The text of a message without parameters. -/
def text : Message Unit → List Char
  | .request id m _ => "\x7b\"jsonrpc\":\"2.0\",\"id\":".toList ++ Nat.toDigits 10 id ++
      ",\"method\":\"".toList ++ m.toList ++ "\"\x7d".toList
  | .notification m _ => "\x7b\"jsonrpc\":\"2.0\",\"method\":\"".toList ++ m.toList ++
      "\"\x7d".toList

/-- What a server answers to the first request. -/
def reply : Bytes := ascii "\x7b\"jsonrpc\":\"2.0\",\"id\":1,\"result\":null\x7d".toList

/-- A notification of the server, which has no number. -/
def log : Bytes := ascii "\x7b\"jsonrpc\":\"2.0\",\"method\":\"window/logMessage\"\x7d".toList

def codec : Codec Unit Unit where
  marshal m := if (text m).length < 2 ^ 63 then some (ascii (text m)) else none
  unmarshal b :=
    if b = reply then some ⟨1, some (), none⟩
    else if b = log then some ⟨0, none, none⟩
    else none
  marshal_ne_nil := by
    intro m data h
    split at h
    · cases h
      cases m <;> exact List.cons_ne_nil _ _
    · cases h
  length_marshal_lt := by
    intro m data h
    split at h
    · rename_i hlt
      cases h
      rwa [ascii, List.length_map]
    · cases h

/-- Where some steps of a new client lead. -/
def final (l : List (Action Unit)) : Client Unit Unit := (l.foldlM (Client.step codec) {}).getD {}

theorem run_final {l : List (Action Unit)} (h : (l.foldlM (Client.step codec) {}).isSome = true) :
    Run (Client.Step codec) {} l (final l) := by
  obtain ⟨c, hc⟩ := Option.isSome_iff_exists.mp h
  have heq : final l = c := by rw [final, hc, Option.getD_some]
  exact heq ▸ Run.of_foldlM hc

theorem run_final_append (l l' : List (Action Unit))
    (h : ((l ++ l').foldlM (Client.step codec) {}).isSome = true) :
    Run (Client.Step codec) (final l) l' (final (l ++ l')) := by
  obtain ⟨c, hc⟩ := Option.isSome_iff_exists.mp h
  have heq : final (l ++ l') = c := by rw [final, hc, Option.getD_some]
  rw [List.foldlM_append] at hc
  obtain ⟨d, hd, hc⟩ := Option.bind_eq_some_iff.mp hc
  have hmid : final l = d := by rw [final, hd, Option.getD_some]
  rw [heq, hmid]
  exact Run.of_foldlM hc

/-- A goroutine calls `initialize`; the request is sent. -/
def firstCall : List (Action Unit) :=
  [.spawn 0 [.call "initialize" none], .run 0, .run 0, .run 0, .run 0, .run 0]

/-- While it sends, another goroutine comes to the lock with a notification, of which then only the
header and five bytes are written. -/
def twoSends : List (Action Unit) :=
  [.spawn 0 [.call "initialize" none], .spawn 1 [.notify "initialized" none], .run 0, .run 1,
    .run 0, .run 0, .run 0, .run 0, .run 1, .run 1, .fail 1 5]

/-- Two notifications of the server are read. -/
def logs : List (Action Unit) := [.serve (frame log), .serve (frame log), .read, .read]

/-- Without the server the reader returns, and another goroutine notifies in vain. -/
def afterwards : List (Action Unit) :=
  [.stop, .spawn 1 [.notify "initialized" none], .run 1, .run 1, .fail 1 0]

/-- The answer arrives, and the call returns it. -/
def answer : List (Action Unit) := [.serve (frame reply), .read, .read, .run 0, .run 0]

/-- After a call `Shutdown`, up to where its request would be written. -/
def shutdown : List (Action Unit) :=
  firstCall ++ answer ++ [.spawn 0 [.shutdown], .run 0, .run 0, .run 0, .run 0, .run 0]

end Session

end Gortex.Semantic.Lsp
