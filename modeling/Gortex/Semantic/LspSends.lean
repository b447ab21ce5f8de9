import Gortex.Semantic.LspClient

/-!
# What the server is sent

Many goroutines write to the one pipe, each a header and then a message, and a write may fail in
the middle. The mutex makes this a sequence of frames: what has been written is the frames of the
messages that have been sent, in the order in which the mutex was held, and a part of one more
(`Client.Writing`). The server that reads the pipe the way the client reads its own gets these
messages (`Client.readAll_stdin`).

Once the client is closed nothing is written any more (`Client.silent`). `Shutdown` closes it
first, so that its own request and notification are never written
(`Client.shutdown_not_sent`).
-/

namespace Gortex.Semantic.Lsp

open GoBytes

variable {P R : Type}

/-- What is written for a message. -/
def Codec.frame (codec : Codec P R) (m : Message P) : Bytes :=
  Lsp.frame ((codec.marshal m).getD [])

/-- The message that a goroutine is writing, its text, and what has been written of its frame. -/
def Pc.writing : Pc P R → Option (Message P × Bytes × Bytes)
  | .header msg data => some (msg, data, [])
  | .body msg data => some (msg, data, Lsp.header data.length)
  | _ => none

/-- A frame that is cut short. -/
def Cut (p : Bytes) : Prop :=
  p = [] ∨ ∃ data t : Bytes, data.length < 2 ^ 63 ∧ t ≠ [] ∧ frame data = p ++ t

/-- Nothing is read from a frame that is cut short. -/
theorem Cut.next_eq_none {p : Bytes} (h : Cut p) : frames.next p = none := by
  rcases h with rfl | ⟨data, t, hlt, ht, heq⟩
  · exact frames.next_nil
  · exact frames.next_of_cut (heq ▸ next_frame hlt) ht

theorem cut_header {data : Bytes} (hlt : data.length < 2 ^ 63) (hne : data ≠ []) :
    Cut (header data.length) :=
  Or.inr ⟨data, data, hlt, hne, rfl⟩

theorem cut_take_header {data : Bytes} (hlt : data.length < 2 ^ 63) (n : ℕ)
    (hn : n < (header data.length).length) : Cut ((header data.length).take n) := by
  refine Or.inr ⟨data, (header data.length).drop n ++ data, hlt, ?_, ?_⟩
  · intro h
    have hlen := congrArg List.length (List.append_eq_nil_iff.mp h).1
    rw [List.length_drop, List.length_nil] at hlen
    omega
  · rw [← List.append_assoc, List.take_append_drop, frame]

theorem cut_take_body {data : Bytes} (hlt : data.length < 2 ^ 63) (n : ℕ) (hn : n < data.length) :
    Cut (header data.length ++ data.take n) := by
  refine Or.inr ⟨data, data.drop n, hlt, ?_, ?_⟩
  · intro h
    have hlen := congrArg List.length h
    rw [List.length_drop, List.length_nil] at hlen
    omega
  · rw [List.append_assoc, List.take_append_drop, frame]

/-- Neither of the methods that `Shutdown` uses. -/
def PlainMethod (method : String) : Prop := method ≠ "shutdown" ∧ method ≠ "exit"

/-- An operation does not use the methods of `Shutdown`. -/
def Op.Plain : Op P → Prop
  | .call method _ => PlainMethod method
  | .notify method _ => PlainMethod method
  | _ => True

/-- What a goroutine is about to send does not use the methods of `Shutdown`. -/
def Pc.Plain : Pc P R → Prop
  | .store k => PlainMethod k.method
  | .lock msg => PlainMethod msg.method
  | .header msg _ => PlainMethod msg.method
  | .body msg _ => PlainMethod msg.method
  | _ => True

namespace Client

variable {codec : Codec P R} {c c' : Client P R} {a : Action P} {l : List (Action P)}

/-- What has been written of the frame that is being written. -/
def begun (c : Client P R) : Bytes :=
  match c.mutex.bind fun g => (c.goroutines g).pc.writing with
  | some (_, _, p) => p
  | none => []

/-- **The pipe holds whole frames**, and a part of one: that of the goroutine that has the mutex,
as long as no write has failed. -/
structure Writing (codec : Codec P R) (c : Client P R) : Prop where
  holder : ∀ g, (c.goroutines g).pc.writing.isSome = true ↔ c.mutex = some g
  marshal : ∀ {g m data p}, (c.goroutines g).pc.writing = some (m, data, p) →
    codec.marshal m = some data
  sent : ∀ m ∈ c.sent, (codec.marshal m).isSome = true
  stdin : ∃ p, c.stdin = c.sent.flatMap codec.frame ++ p ∧ Cut p ∧ (c.broken = false → p = c.begun)

/-! ### Steps that do not write -/

@[simp] theorem goto_pc (c : Client P R) (g : ℕ) (pc : Pc P R) (g' : ℕ) :
    ((c.goto g pc).goroutines g').pc = if g' = g then pc else (c.goroutines g').pc := by
  simp only [goto, Function.update_apply]
  split <;> rfl

@[simp] theorem setOps_pc (c : Client P R) (g : ℕ) (ops : List (Op P)) (g' : ℕ) :
    ((c.setOps g ops).goroutines g').pc = (c.goroutines g').pc := by
  simp only [setOps, Function.update_apply]
  split
  · rename_i h
    rw [h]
  · rfl

/-- A goroutine that does not write goes on where it does not write. -/
theorem writing_goto (c : Client P R) {g : ℕ} {pc : Pc P R}
    (h : (c.goroutines g).pc.writing = none) (h' : pc.writing = none) (g' : ℕ) :
    ((c.goto g pc).goroutines g').pc.writing = (c.goroutines g').pc.writing := by
  rw [goto_pc]
  split
  · rename_i heq
    rw [heq, h, h']
  · rfl

theorem writing_setOps (c : Client P R) (g : ℕ) (ops : List (Op P)) (g' : ℕ) :
    ((c.setOps g ops).goroutines g').pc.writing = (c.goroutines g').pc.writing := by
  rw [setOps_pc]

theorem writing_sendFailed (m : Message P) : (sendFailed m : Pc P R).writing = none := by
  cases m <;> rfl

theorem writing_sendDone (m : Message P) : (sendDone m : Pc P R).writing = none := by
  cases m <;> rfl

/-- A step that does not write. -/
theorem Writing.frame (h : Writing codec c)
    (hpc : ∀ g, (c'.goroutines g).pc.writing = (c.goroutines g).pc.writing)
    (hmutex : c'.mutex = c.mutex) (hstdin : c'.stdin = c.stdin) (hsent : c'.sent = c.sent)
    (hbroken : c'.broken = false → c.broken = false) : Writing codec c' := by
  have hbegun : c'.begun = c.begun := by
    simp only [begun, hmutex, hpc]
  refine ⟨fun g => ?_, fun hw => h.marshal ((hpc _).symm.trans hw), hsent ▸ h.sent, ?_⟩
  · rw [hpc, hmutex]
    exact h.holder g
  · obtain ⟨p, hp, hcut, hb⟩ := h.stdin
    exact ⟨p, by rw [hstdin, hsent, hp], hcut, fun hf => hbegun ▸ hb (hbroken hf)⟩

/-- Nothing is begun while the mutex is free. -/
theorem begun_of_free (hfree : c.mutex = none) : c.begun = [] := by
  rw [begun, hfree]
  rfl

theorem begun_of_writing {g : ℕ} {m : Message P} {data p : Bytes} (hm : c.mutex = some g)
    (hw : (c.goroutines g).pc.writing = some (m, data, p)) : c.begun = p := by
  rw [begun, hm, Option.bind_some, hw]

theorem begun_goto {g : ℕ} {pc : Pc P R} {m : Message P} {data p : Bytes}
    (hm : c.mutex = some g) (hw : pc.writing = some (m, data, p)) : (c.goto g pc).begun = p :=
  begun_of_writing (g := g) hm (by rw [goto_pc, if_pos rfl, hw])

/-! ### Steps that write -/

/-- A goroutine lets the mutex go. -/
theorem Writing.release (h : Writing codec c) {g : ℕ} {pc : Pc P R} {m : Message P}
    {data q : Bytes} (hw : (c.goroutines g).pc.writing = some (m, data, q))
    (hpc : pc.writing = none) (hgor : ∀ g', (c'.goroutines g').pc =
      if g' = g then pc else (c.goroutines g').pc) (hmutex : c'.mutex = none)
    (hsent : ∀ m ∈ c'.sent, (codec.marshal m).isSome = true)
    (hstdin : ∃ p, c'.stdin = c'.sent.flatMap codec.frame ++ p ∧ Cut p ∧
      (c'.broken = false → p = [])) : Writing codec c' := by
  have hg : c.mutex = some g := (h.holder g).mp (hw ▸ rfl)
  have hnone : ∀ g', (c'.goroutines g').pc.writing = none := by
    intro g'
    rw [hgor]
    split
    · exact hpc
    · rename_i hne
      have := mt (h.holder g').mp (by rw [hg]; exact fun heq => hne (Option.some.inj heq).symm)
      simpa using this
  refine ⟨fun g' => ?_, fun hw' => ?_, hsent, ?_⟩
  · rw [hnone, hmutex]
    simp
  · rw [hnone] at hw'
    cases hw'
  · obtain ⟨p, hp, hcut, hb⟩ := hstdin
    refine ⟨p, hp, hcut, fun hf => ?_⟩
    rw [begun, hmutex]
    exact hb hf

/-- **A write that fails** cuts the frame off. -/
theorem Writing.fail (h : Writing codec c) {g : ℕ} {msg : Message P} {data q text part : Bytes}
    (hw : (c.goroutines g).pc.writing = some (msg, data, q)) (hgor : ∀ g', (c'.goroutines g').pc =
      if g' = g then sendFailed msg else (c.goroutines g').pc) (hmutex : c'.mutex = none)
    (hsent : c'.sent = c.sent) (hstdin : c'.stdin = c.stdin ++ text) (hbroken : c'.broken = true)
    (htext : text = if c.broken = true then [] else part)
    (hcut : c.broken = false → Cut (q ++ part)) : Writing codec c' := by
  obtain ⟨p, hp, hp', hb⟩ := h.stdin
  refine h.release hw (writing_sendFailed msg) hgor hmutex (hsent ▸ h.sent)
    ⟨p ++ text, by rw [hstdin, hsent, hp, List.append_assoc], ?_,
      fun hf => Bool.noConfusion (hbroken.symm.trans hf)⟩
  -- a pipe that is broken already takes nothing, else what is begun is of this very message
  rw [htext]
  cases hbr : c.broken with
  | true =>
    rw [if_pos rfl, List.append_nil]
    exact hp'
  | false =>
    have hpq : p = q := (hb hbr).trans (begun_of_writing ((h.holder g).mp (hw ▸ rfl)) hw)
    rw [if_neg Bool.false_ne_true, hpq]
    exact hcut hbr

/-- **A step keeps the pipe in frames.** -/
theorem Writing.step (h : Writing codec c) (hs : c.Step codec a c') : Writing codec c' := by
  have hidle : ∀ {g : ℕ} {ops : List (Op P)}, c.goroutines g = ⟨.idle, ops⟩ →
      (c.goroutines g).pc.writing = none := fun hg => by rw [hg]; rfl
  cases moves hs with
  | spawn hg _ => exact h.frame (writing_setOps c _ _) rfl rfl rfl id
  | call hg =>
    refine h.frame (fun g' => ?_) rfl rfl rfl id
    exact (writing_goto _ ((writing_setOps _ _ _ _).trans (hidle hg)) rfl g').trans
      (writing_setOps _ _ _ g')
  | notify hg =>
    refine h.frame (fun g' => ?_) rfl rfl rfl id
    exact (writing_goto _ ((writing_setOps _ _ _ _).trans (hidle hg)) rfl g').trans
      (writing_setOps _ _ _ g')
  | shutdownAgain hg => exact h.frame (writing_setOps c _ _) rfl rfl rfl id
  | shutdown hg _ _ => exact h.frame (writing_setOps _ _ _) rfl rfl rfl id
  | closeStdin hg =>
    exact h.frame (writing_setOps _ _ _) rfl rfl rfl (fun hf => absurd hf.symm Bool.false_ne_true)
  | waitExit hg => exact h.frame (writing_setOps _ _ _) rfl rfl rfl id
  | closeDone hg => exact h.frame (writing_setOps _ _ _) rfl rfl rfl id
  | store hpc => exact h.frame (writing_goto _ (hpc ▸ rfl) rfl) rfl rfl rfl id
  | marshalFailed hpc =>
    exact h.frame (writing_goto _ (hpc ▸ rfl) (writing_sendFailed _)) rfl rfl rfl id
  | @lock g msg data hpc hdata hmutex =>
    -- nobody writes while the lock is free
    have hnone : ∀ g', (c.goroutines g').pc.writing = none := fun g' => by
      have := mt (h.holder g').mp (by simp [hmutex])
      simpa using this
    obtain ⟨p, hp, hcut, hb⟩ := h.stdin
    refine ⟨fun g' => ?_, fun {g'} m data' p' hw => ?_, h.sent, p, hp, hcut, fun hf => ?_⟩
    · rw [goto_pc]
      change _ ↔ some g = some g'
      split
      · rename_i heq
        simp [Pc.writing, heq]
      · rename_i hne
        simp [hnone, Ne.symm hne]
    · rw [goto_pc] at hw
      split at hw
      · cases hw
        exact hdata
      · rw [hnone] at hw
        cases hw
    · rw [hb hf, begun_of_free hmutex]
      exact (begun_goto rfl rfl).symm
  | @headerClosed g msg data hpc =>
    have hw : (c.goroutines g).pc.writing = some (msg, data, []) := hpc ▸ rfl
    obtain ⟨p, hp, hcut, hb⟩ := h.stdin
    refine h.release hw (writing_sendFailed msg) (fun g' => goto_pc _ g _ g') rfl h.sent
      ⟨p, hp, hcut, fun hf => ?_⟩
    rw [hb hf, begun_of_writing ((h.holder g).mp (hw ▸ rfl)) hw]
  | @header g msg data hpc _ hbroken =>
    have hw : (c.goroutines g).pc.writing = some (msg, data, []) := hpc ▸ rfl
    have hg : c.mutex = some g := (h.holder g).mp (hw ▸ rfl)
    have hdata := h.marshal hw
    obtain ⟨p, hp, hcut, hb⟩ := h.stdin
    -- before its header a goroutine has written nothing of its message
    have hp0 : p = [] := (hb hbroken).trans (begun_of_writing hg hw)
    refine ⟨fun g' => ?_, fun {g'} m data' p' hw' => ?_, h.sent, Lsp.header data.length, ?_,
      cut_header (codec.length_marshal_lt hdata) (codec.marshal_ne_nil hdata), fun _ => ?_⟩
    · rw [goto_pc]
      split
      · rename_i heq
        rw [heq]
        exact ⟨fun _ => hg, fun _ => rfl⟩
      · exact h.holder g'
    · rw [goto_pc] at hw'
      split at hw'
      · cases hw'
        exact hdata
      · exact h.marshal hw'
    · change c.stdin ++ Lsp.header data.length = _
      rw [hp, hp0, List.append_nil]
      rfl
    · exact (begun_goto hg rfl).symm
  | @body g msg data hpc hbroken =>
    have hw : (c.goroutines g).pc.writing = some (msg, data, Lsp.header data.length) := hpc ▸ rfl
    have hdata := h.marshal hw
    obtain ⟨p, hp, hcut, hb⟩ := h.stdin
    -- what is begun is the header of this very message
    have hp1 : p = Lsp.header data.length :=
      (hb hbroken).trans (begun_of_writing ((h.holder g).mp (hw ▸ rfl)) hw)
    refine h.release hw (writing_sendDone msg) (fun g' => goto_pc _ g _ g') rfl ?_
      ⟨[], ?_, Or.inl rfl, fun _ => rfl⟩
    · intro m hm
      rcases List.mem_append.mp hm with hm | hm
      · exact h.sent m hm
      · rw [List.mem_singleton.mp hm, hdata]
        rfl
    · change c.stdin ++ data = (c.sent ++ [msg]).flatMap codec.frame ++ []
      rw [hp, hp1, List.flatMap_append, List.append_nil, List.append_assoc]
      simp [Codec.frame, hdata, Lsp.frame]
  | @failHeader g n msg data text hpc _ htext hn =>
    have hw : (c.goroutines g).pc.writing = some (msg, data, []) := hpc ▸ rfl
    have hlt := codec.length_marshal_lt (h.marshal hw)
    exact h.fail hw (fun g' => goto_pc _ g _ g') rfl rfl rfl rfl htext
      fun hbroken => cut_take_header hlt n (hn hbroken)
  | @failBody g n msg data text hpc htext hn =>
    have hw : (c.goroutines g).pc.writing = some (msg, data, Lsp.header data.length) := hpc ▸ rfl
    have hlt := codec.length_marshal_lt (h.marshal hw)
    exact h.fail hw (fun g' => goto_pc _ g _ g') rfl rfl rfl rfl htext
      fun hbroken => cut_take_body hlt n (hn hbroken)
  | receive hpc _ => exact h.frame (writing_goto _ (hpc ▸ rfl) rfl) rfl rfl rfl id
  | delete hpc => exact h.frame (writing_goto _ (hpc ▸ rfl) rfl) rfl rfl rfl id
  | exit hpc _ => exact h.frame (writing_goto _ (hpc ▸ rfl) rfl) rfl rfl rfl id
  | skip | parse | deliver | stop | serve => exact h.frame (fun _ => rfl) rfl rfl rfl id
  | hangUp =>
    exact h.frame (fun _ => rfl) rfl rfl rfl (fun hf => absurd hf.symm Bool.false_ne_true)

theorem writing_init : Writing codec ({} : Client P R) where
  holder g := by simp [Pc.writing]
  marshal hw := by cases hw
  sent m hm := nomatch hm
  stdin := ⟨[], rfl, Or.inl rfl, fun _ => rfl⟩

/-- **The server gets what is sent**: it reads the messages in the order in which they were
sent, whatever the goroutines do at once and wherever a write fails. -/
theorem readAll_stdin (h : Run (Step codec) {} l c) :
    (frames.readAll c.stdin).1 = c.sent.map codec.marshal := by
  obtain ⟨-, -, hsent, p, hp, hcut, -⟩ := h.invariant (fun hi hs => hi.step hs) writing_init
  have hread : ∀ m ∈ c.sent, frames.next (codec.frame m) = some (codec.marshal m, []) := by
    intro m hm
    obtain ⟨data, hdata⟩ := Option.isSome_iff_exists.mp (hsent m hm)
    rw [Codec.frame, hdata]
    exact next_frame (codec.length_marshal_lt hdata)
  rw [hp, frames.readAll_flatMap hread, frames.readAll_of_none hcut.next_eq_none, List.append_nil]

/-! ### After the client is closed -/

/-- A message is written after its header only if the client was open. -/
theorem body_of_moves (h : Moves codec c a c') {g : ℕ} {msg : Message P} {data : Bytes}
    (hb : (c'.goroutines g).pc = .body msg data) :
    (c.goroutines g).pc = .body msg data ∨ c'.closed = false := by
  cases h with
  | @header g' msg' data' hpc hclosed _ => exact Or.inr hclosed
  | @marshalFailed g' msg' _ | @headerClosed g' msg' _ _ | @body g' msg' _ _ _
  | @failHeader g' _ msg' _ _ _ _ _ _ | @failBody g' _ msg' _ _ _ _ _ =>
    left
    rw [goto_pc] at hb
    split at hb
    · cases msg' <;> cases hb
    · exact hb
  | call | notify | store | lock | receive | delete | exit =>
    left
    rw [goto_pc] at hb
    split at hb
    · cases hb
    · simpa only [setOps_pc] using hb
  | spawn | shutdownAgain | shutdown | closeStdin | waitExit | closeDone =>
    left
    simpa only [setOps_pc] using hb
  | skip | parse | deliver | stop | serve | hangUp => exact Or.inl hb

/-- The client is closed while no goroutine has the mutex, and stays closed. -/
theorem closed_of_moves (h : Moves codec c a c') (hclosed : c'.closed = true) :
    c.closed = true ∨ c.mutex = none ∧ c.sent = c'.sent := by
  cases h with
  | shutdown _ hmutex _ => exact Or.inr ⟨hmutex, rfl⟩
  | _ => exact Or.inl hclosed

theorem closed_mono (h : Moves codec c a c') (hclosed : c.closed = true) : c'.closed = true := by
  cases h with
  | shutdown => rfl
  | _ => exact hclosed

/-- **Once it is closed, nobody is about to write a message.** -/
def Quiet (c : Client P R) : Prop :=
  c.closed = true → ∀ {g msg data}, (c.goroutines g).pc ≠ .body msg data

theorem Quiet.step (hw : Writing codec c) (h : Quiet c) (hs : c.Step codec a c') : Quiet c' := by
  intro hclosed g msg data hb
  rcases body_of_moves (moves hs) hb with hb | hopen
  · rcases closed_of_moves (moves hs) hclosed with hc | ⟨hfree, -⟩
    · exact h hc hb
    · have hmutex := (hw.holder g).mp (by rw [hb]; rfl)
      rw [hfree] at hmutex
      cases hmutex
  · rw [hclosed] at hopen
    cases hopen

/-- A step of a closed client writes nothing. -/
theorem Quiet.silent (h : Quiet c) (hclosed : c.closed = true) (hs : c.Step codec a c') :
    c'.stdin = c.stdin ∧ c'.sent = c.sent := by
  cases moves hs with
  | header _ hopen _ =>
    rw [hclosed] at hopen
    cases hopen
  | body hpc _ => exact absurd hpc (h hclosed)
  | failHeader _ hopen _ _ =>
    rw [hclosed] at hopen
    cases hopen
  | failBody hpc _ _ => exact absurd hpc (h hclosed)
  | _ => exact ⟨rfl, rfl⟩

theorem quiet_run (h : Run (Step codec) {} l c) : Writing codec c ∧ Quiet c :=
  h.invariant (I := fun c => Writing codec c ∧ Quiet c)
    (fun hi hs => ⟨hi.1.step hs, hi.2.step hi.1 hs⟩)
    ⟨writing_init, fun hc => absurd hc Bool.false_ne_true⟩

/-! ### What Shutdown sends -/

/-- Before the client is closed nobody is about to use the methods of `Shutdown`, and they are
never sent. -/
structure Unclosing (c : Client P R) : Prop where
  sent : ∀ m ∈ c.sent, PlainMethod m.method
  pc : c.closed = false → ∀ g, (c.goroutines g).pc.Plain
  ops : c.closed = false → ∀ g, ∀ op ∈ (c.goroutines g).ops, op.Plain

@[simp] theorem goto_ops (c : Client P R) (g : ℕ) (pc : Pc P R) (g' : ℕ) :
    ((c.goto g pc).goroutines g').ops = (c.goroutines g').ops := by
  simp only [goto, Function.update_apply]
  split
  · rename_i h
    rw [h]
  · rfl

@[simp] theorem setOps_ops (c : Client P R) (g : ℕ) (ops : List (Op P)) (g' : ℕ) :
    ((c.setOps g ops).goroutines g').ops = if g' = g then ops else (c.goroutines g').ops := by
  simp only [setOps, Function.update_apply]
  split <;> rfl

theorem plain_sendFailed (m : Message P) : (sendFailed m : Pc P R).Plain := by
  cases m <;> trivial

theorem plain_sendDone (m : Message P) : (sendDone m : Pc P R).Plain := by
  cases m <;> trivial

/-- A goroutine goes on at a plain place. -/
theorem Unclosing.goto (h : Unclosing c) {g : ℕ} {pc : Pc P R} (hclosed : c'.closed = c.closed)
    (hsent : ∀ m ∈ c'.sent, PlainMethod m.method) (hgor : c'.goroutines = (c.goto g pc).goroutines)
    (hpc : c.closed = false → pc.Plain) : Unclosing c' := by
  refine ⟨hsent, fun ho g' => ?_, fun ho g' => ?_⟩
  · rw [hclosed] at ho
    rw [hgor, goto_pc]
    split
    · exact hpc ho
    · exact h.pc ho g'
  · rw [hclosed] at ho
    rw [hgor, goto_ops]
    exact h.ops ho g'

/-- The operations of a goroutine are replaced. -/
theorem Unclosing.setOps (h : Unclosing c) {g : ℕ} {ops : List (Op P)}
    (hclosed : c'.closed = c.closed) (hsent : c'.sent = c.sent)
    (hgor : c'.goroutines = (c.setOps g ops).goroutines)
    (hops : c.closed = false → ∀ op ∈ ops, op.Plain) : Unclosing c' := by
  refine ⟨hsent ▸ h.sent, fun ho g' => ?_, fun ho g' => ?_⟩
  · rw [hclosed] at ho
    rw [hgor, setOps_pc]
    exact h.pc ho g'
  · rw [hclosed] at ho
    rw [hgor, setOps_ops]
    split
    · exact hops ho
    · exact h.ops ho g'

/-- What comes after the operation that a goroutine begins. -/
theorem Unclosing.tail (h : Unclosing c) {g : ℕ} {op : Op P} {ops : List (Op P)}
    (hg : c.goroutines g = ⟨.idle, op :: ops⟩) (ho : c.closed = false) :
    op.Plain ∧ ∀ o ∈ ops, o.Plain := by
  have hall := h.ops ho g
  rw [hg] at hall
  exact ⟨hall op List.mem_cons_self, fun o hm => hall o (List.mem_cons_of_mem op hm)⟩

theorem Unclosing.step (hq : Quiet c) (h : Unclosing c)
    (ha : ∀ g ops, a = .spawn g ops → ∀ op ∈ ops, op.Plain) (hs : c.Step codec a c') :
    Unclosing c' := by
  have hpcof : ∀ {g : ℕ} {pc : Pc P R}, (c.goroutines g).pc = pc → c.closed = false → pc.Plain :=
    fun hpc ho => hpc ▸ h.pc ho _
  cases moves hs with
  | @spawn g ops _ _ => exact h.setOps rfl rfl rfl fun _ => ha g ops rfl
  | @call g method params ops hg =>
    have hop : Unclosing (c.setOps g ops) := h.setOps rfl rfl rfl fun ho => (h.tail hg ho).2
    exact hop.goto rfl h.sent rfl fun ho => (h.tail hg ho).1
  | @notify g method params ops hg =>
    have hop : Unclosing (c.setOps g ops) := h.setOps rfl rfl rfl fun ho => (h.tail hg ho).2
    exact hop.goto rfl h.sent rfl fun ho => (h.tail hg ho).1
  | shutdownAgain hg | closeStdin hg | waitExit hg | closeDone hg =>
    exact h.setOps rfl rfl rfl fun ho => (h.tail hg ho).2
  | shutdown hg _ _ => exact ⟨h.sent, fun ho => Bool.noConfusion ho, fun ho => Bool.noConfusion ho⟩
  | store hpc => exact h.goto rfl h.sent rfl fun ho => (hpcof hpc ho :)
  | marshalFailed hpc => exact h.goto rfl h.sent rfl fun _ => plain_sendFailed _
  | lock hpc _ _ => exact h.goto rfl h.sent rfl fun ho => (hpcof hpc ho :)
  | headerClosed hpc => exact h.goto rfl h.sent rfl fun _ => plain_sendFailed _
  | header hpc _ _ => exact h.goto rfl h.sent rfl fun ho => (hpcof hpc ho :)
  | @body g msg data hpc _ =>
    have hopen : c.closed = false := by
      cases hc : c.closed with
      | false => rfl
      | true => exact absurd hpc (hq hc)
    refine h.goto rfl (fun m hm => ?_) rfl fun _ => plain_sendDone _
    rcases List.mem_append.mp hm with hm | hm
    · exact h.sent m hm
    · rw [List.mem_singleton.mp hm]
      exact hpcof hpc hopen
  | failHeader _ _ _ _ => exact h.goto rfl h.sent rfl fun _ => plain_sendFailed _
  | failBody _ _ _ => exact h.goto rfl h.sent rfl fun _ => plain_sendFailed _
  | receive _ _ | delete _ | exit _ _ => exact h.goto rfl h.sent rfl fun _ => trivial
  | skip | parse | deliver | stop | serve | hangUp => exact ⟨h.sent, h.pc, h.ops⟩

/-- **Shutdown says nothing**: where nothing but `Shutdown` uses its methods, they are never sent
to the server; and from when the client is closed on, nothing is. -/
theorem shutdown_silent (h : Run (Step codec) {} l c) :
    ((∀ g ops, Action.spawn g ops ∈ l → ∀ op ∈ ops, op.Plain) →
        ∀ m ∈ c.sent, m.method ≠ "shutdown" ∧ m.method ≠ "exit") ∧
      (c.closed = true → ∀ {l' c'}, Run (Step codec) c l' c' → c'.stdin = c.stdin) := by
  constructor
  · intro hl
    have hrun := h.invariant_of_mem
      (I := fun c => (Writing codec c ∧ Quiet c) ∧ Unclosing c)
      (fun {_ a _} ha hi hs => ⟨⟨hi.1.1.step hs, hi.1.2.step hi.1.1 hs⟩,
        hi.2.step hi.1.2 (fun g ops heq => hl g ops (heq ▸ ha)) hs⟩)
      ⟨⟨writing_init, fun hc => absurd hc Bool.false_ne_true⟩, ⟨fun m hm => (nomatch hm),
        fun _ _ => trivial, fun _ _ op hop => (nomatch hop)⟩⟩
    exact hrun.2.sent
  · intro hclosed l' c' h'
    have hrun := h'.invariant
      (I := fun t => (Writing codec t ∧ Quiet t) ∧ t.closed = true ∧ t.stdin = c.stdin)
      (fun hi hs => ⟨⟨hi.1.1.step hs, hi.1.2.step hi.1.1 hs⟩, closed_mono (moves hs) hi.2.1,
        (hi.1.2.silent hi.2.1 hs).1.trans hi.2.2⟩)
      ⟨quiet_run h, hclosed, rfl⟩
    exact hrun.2.2

theorem shutdown_silent_session :
    (∀ m ∈ (Session.final Session.shutdown).sent, m.method ≠ "shutdown" ∧ m.method ≠ "exit") ∧
      ((Session.final Session.shutdown).closed = true → ∀ {l' c'},
        Run (Step Session.codec) (Session.final Session.shutdown) l' c' →
          c'.stdin = (Session.final Session.shutdown).stdin) := by
  obtain ⟨hsent, hclosed⟩ := shutdown_silent (Session.run_final (l := Session.shutdown)
    (by decide +kernel))
  refine ⟨hsent fun g ops hmem op hop => ?_, hclosed⟩
  simp only [Session.firstCall, Session.answer, Session.shutdown, List.mem_append, List.mem_cons,
    List.not_mem_nil, or_false, reduceCtorEq, Action.spawn.injEq] at hmem
  rcases hmem with ⟨rfl, rfl⟩ | ⟨rfl, rfl⟩
  · obtain rfl := List.mem_singleton.mp hop
    exact ⟨by decide, by decide⟩
  · obtain rfl := List.mem_singleton.mp hop
    trivial

end Client

end Gortex.Semantic.Lsp
