import Mathlib.Data.List.Nodup
import Gortex.Semantic.LspSends

/-!
# What a call is answered

Calls are told apart by their numbers, which the counter gives out once (`Client.Numbered`), and
a response finds the call by the number it carries. Whatever the goroutines, the reader and the
server do at once, a call that is answered has a response with its own number, which the server
has written, and no other request that was sent has this number (`Client.answered`).

The channel of a call holds one response, and the reader waits while there is one: it is never
held up by a server that uses no number twice (`Client.reader_goes_on`); messages without a number
are parsed with the number zero, which no call has (`Client.Nonzero`). The reader returns when the
server is gone, but this wakes no call: one whose response has not come waits until somebody has
shut the client down (`Client.waits_forever`).
-/

namespace Gortex.Semantic.Lsp

open GoBytes

variable {P R : Type}

/-- The call that a message is the request of. -/
def Message.call? : Message P → Option (Call P)
  | .request id m p => some ⟨id, m, p⟩
  | .notification _ _ => none

/-- The call that a goroutine is in. -/
def Pc.call? : Pc P R → Option (Call P)
  | .idle => none
  | .store k => some k
  | .lock msg => msg.call?
  | .header msg _ => msg.call?
  | .body msg _ => msg.call?
  | .wait k => some k
  | .delete k _ => some k

/-- The call that a goroutine is in, if its request is sent. -/
def Pc.sentCall? : Pc P R → Option (Call P)
  | .wait k => some k
  | .delete _ .sendFailed => none
  | .delete k _ => some k
  | _ => none

theorem call?_sendFailed (m : Message P) : (sendFailed m : Pc P R).call? = m.call? := by
  cases m <;> rfl

theorem call?_sendDone (m : Message P) : (sendDone m : Pc P R).call? = m.call? := by
  cases m <;> rfl

theorem sentCall?_sendFailed (m : Message P) : (sendFailed m : Pc P R).sentCall? = none := by
  cases m <;> rfl

theorem sentCall?_sendDone (m : Message P) : (sendDone m : Pc P R).sentCall? = m.call? := by
  cases m <;> rfl

theorem call?_of_sentCall? {pc : Pc P R} {k : Call P} (h : pc.sentCall? = some k) :
    pc.call? = some k := by
  cases pc with
  | delete k' out => cases out <;> first | exact h | cases h
  | wait k' => exact h
  | _ => cases h

theorem Message.eq_request {m : Message P} {k : Call P} (h : m.call? = some k) :
    m = k.request := by
  cases m <;> cases h
  rfl

namespace Client

variable {codec : Codec P R} {c c' : Client P R} {a : Action P} {l l' : List (Action P)}

/-! ### Numbers -/

/-- **Every call has a number of its own**, from one on: those that goroutines are in, and those
that have returned. -/
structure Numbered (c : Client P R) : Prop where
  pos : ∀ {g k}, (c.goroutines g).pc.call? = some k → 0 < k.id
  le : ∀ {g k}, (c.goroutines g).pc.call? = some k → k.id ≤ c.reqID
  inj : ∀ {g g' k k'}, (c.goroutines g).pc.call? = some k →
    (c.goroutines g').pc.call? = some k' → k.id = k'.id → g = g'
  returned_le : ∀ r ∈ c.returned, r.1.id ≤ c.reqID
  fresh : ∀ {g k}, (c.goroutines g).pc.call? = some k → ∀ r ∈ c.returned, k.id ≠ r.1.id
  nodup : (c.returned.map fun r => r.1.id).Nodup

/-- Steps between which every goroutine is in the same call. -/
theorem Numbered.frame (h : Numbered c)
    (hpc : ∀ g, (c'.goroutines g).pc.call? = (c.goroutines g).pc.call?)
    (hid : c'.reqID = c.reqID) (hret : c'.returned = c.returned) : Numbered c' where
  pos hk := h.pos ((hpc _).symm.trans hk)
  le hk := hid ▸ h.le ((hpc _).symm.trans hk)
  inj hk hk' := h.inj ((hpc _).symm.trans hk) ((hpc _).symm.trans hk')
  returned_le := hid ▸ hret ▸ h.returned_le
  fresh hk := hret ▸ h.fresh ((hpc _).symm.trans hk)
  nodup := hret ▸ h.nodup

theorem call?_goto (c : Client P R) {g : ℕ} {pc : Pc P R}
    (h : pc.call? = (c.goroutines g).pc.call?) (g' : ℕ) :
    ((c.goto g pc).goroutines g').pc.call? = (c.goroutines g').pc.call? := by
  rw [goto_pc]
  split
  · rename_i heq
    rw [heq, h]
  · rfl

theorem call?_setOps (c : Client P R) (g : ℕ) (ops : List (Op P)) (g' : ℕ) :
    ((c.setOps g ops).goroutines g').pc.call? = (c.goroutines g').pc.call? := by
  rw [setOps_pc]

/-- A goroutine begins a call, with the next number. -/
theorem Numbered.call (h : Numbered c) {g : ℕ} {k : Call P} {pc : Pc P R}
    (hk : pc.call? = some k) (hid : k.id = c.reqID + 1) (hreq : c'.reqID = c.reqID + 1)
    (hret : c'.returned = c.returned)
    (hpc : ∀ g', (c'.goroutines g').pc = if g' = g then pc else (c.goroutines g').pc) :
    Numbered c' := by
  have hnew : ∀ {g' k'}, (c'.goroutines g').pc.call? = some k' →
      g' = g ∧ k' = k ∨ g' ≠ g ∧ (c.goroutines g').pc.call? = some k' := by
    intro g' k' hk'
    rw [hpc] at hk'
    split at hk'
    · rename_i heq
      exact Or.inl ⟨heq, Option.some.inj (hk'.symm.trans hk)⟩
    · rename_i hne
      exact Or.inr ⟨hne, hk'⟩
  refine ⟨fun hk' => ?_, fun hk' => ?_, fun {g₁ g₂ k₁ k₂} h₁ h₂ heq => ?_, fun r hr => ?_,
    fun hk' r hr => ?_, hret ▸ h.nodup⟩
  · rcases hnew hk' with ⟨-, rfl⟩ | ⟨-, hk'⟩
    · omega
    · exact h.pos hk'
  · rcases hnew hk' with ⟨-, rfl⟩ | ⟨-, hk'⟩
    · omega
    · have := h.le hk'
      omega
  · rcases hnew h₁ with ⟨rfl, rfl⟩ | ⟨hne₁, hk₁⟩ <;> rcases hnew h₂ with ⟨rfl, rfl⟩ | ⟨hne₂, hk₂⟩
    · rfl
    · have := h.le hk₂
      omega
    · have := h.le hk₁
      omega
    · exact h.inj hk₁ hk₂ heq
  · have := h.returned_le r (hret ▸ hr)
    omega
  · have hle := h.returned_le r (hret ▸ hr)
    rcases hnew hk' with ⟨-, rfl⟩ | ⟨-, hk'⟩
    · omega
    · exact h.fresh hk' r (hret ▸ hr)

/-- A call returns. -/
theorem Numbered.delete (h : Numbered c) {g : ℕ} {k : Call P} {out : Outcome R}
    (hk : (c.goroutines g).pc.call? = some k) (hreq : c'.reqID = c.reqID)
    (hret : c'.returned = c.returned ++ [(k, out)])
    (hpc : ∀ g', (c'.goroutines g').pc = if g' = g then .idle else (c.goroutines g').pc) :
    Numbered c' := by
  have hold : ∀ {g' k'}, (c'.goroutines g').pc.call? = some k' →
      g' ≠ g ∧ (c.goroutines g').pc.call? = some k' := by
    intro g' k' hk'
    rw [hpc] at hk'
    split at hk'
    · cases hk'
    · rename_i hne
      exact ⟨hne, hk'⟩
  refine ⟨fun hk' => h.pos (hold hk').2, fun hk' => hreq ▸ h.le (hold hk').2,
    fun h₁ h₂ heq => h.inj (hold h₁).2 (hold h₂).2 heq, fun r hr => ?_, fun hk' r hr => ?_, ?_⟩
  · rw [hret] at hr
    rw [hreq]
    rcases List.mem_append.mp hr with hr | hr
    · exact h.returned_le r hr
    · rw [List.mem_singleton.mp hr]
      exact h.le hk
  · rw [hret] at hr
    obtain ⟨hne, hk'⟩ := hold hk'
    rcases List.mem_append.mp hr with hr | hr
    · exact h.fresh hk' r hr
    · rw [List.mem_singleton.mp hr]
      exact fun heq => hne (h.inj hk' hk heq)
  · rw [hret, List.map_append, List.nodup_append]
    refine ⟨h.nodup, List.nodup_singleton _, fun id hid id' hid' heq => ?_⟩
    obtain ⟨r, hr, rfl⟩ := List.mem_map.mp hid
    rw [List.map_singleton, List.mem_singleton] at hid'
    exact h.fresh hk r hr (hid'.symm.trans heq.symm)

theorem Numbered.step (h : Numbered c) (hs : c.Step codec a c') : Numbered c' := by
  cases moves hs with
  | spawn | shutdownAgain | shutdown | closeStdin | waitExit | closeDone =>
    exact h.frame (call?_setOps _ _ _) rfl rfl
  | @call g method params ops hg =>
    have hops : Numbered (c.setOps g ops) := h.frame (call?_setOps _ _ _) rfl rfl
    exact hops.call (k := ⟨c.reqID + 1, method, params⟩) rfl rfl rfl rfl fun g' => goto_pc _ g _ g'
  | @notify g method params ops hg =>
    have hops : Numbered (c.setOps g ops) := h.frame (call?_setOps _ _ _) rfl rfl
    refine hops.frame (call?_goto _ ?_) rfl rfl
    rw [setOps_pc, hg]
    rfl
  | store hpc => exact h.frame (call?_goto _ (by rw [hpc]; rfl)) rfl rfl
  | lock hpc _ _ | header hpc _ _ => exact h.frame (call?_goto _ (by rw [hpc]; rfl)) rfl rfl
  | marshalFailed hpc | headerClosed hpc | failHeader hpc _ _ _ | failBody hpc _ _ =>
    exact h.frame (call?_goto _ (by rw [hpc, call?_sendFailed]; rfl)) rfl rfl
  | body hpc _ => exact h.frame (call?_goto _ (by rw [hpc, call?_sendDone]; rfl)) rfl rfl
  | receive hpc _ | exit hpc _ => exact h.frame (call?_goto _ (by rw [hpc]; rfl)) rfl rfl
  | @delete g k out hpc =>
    have hk : (c.goroutines g).pc = .delete k out := hpc
    exact h.delete (g := g) (by rw [hpc]; rfl) rfl rfl fun g' => goto_pc _ g _ g'
  | skip | parse | deliver | stop | serve | hangUp => exact h.frame (fun _ => rfl) rfl rfl

/-! ### Requests -/

/-- **Where the calls are whose requests are sent**: a goroutine waits, or is about to return, or
the call has returned. -/
structure Requested (c : Client P R) : Prop where
  owner : ∀ {k : Call P}, k.request ∈ c.sent →
    (∃ g, (c.goroutines g).pc.sentCall? = some k) ∨ ∃ out, (k, out) ∈ c.returned
  sent : ∀ {g k}, (c.goroutines g).pc.sentCall? = some k → k.request ∈ c.sent
  returned : ∀ {k out}, (k, out) ∈ c.returned → out = .sendFailed ∨ k.request ∈ c.sent
  nodup : (c.sent.filterMap Message.id?).Nodup

theorem Requested.frame (h : Requested c)
    (hpc : ∀ g, (c'.goroutines g).pc.sentCall? = (c.goroutines g).pc.sentCall?)
    (hsent : c'.sent = c.sent) (hret : c'.returned = c.returned) : Requested c' where
  owner hk := by
    rw [hret]
    simp only [hpc]
    exact h.owner (hsent ▸ hk)
  sent hk := hsent ▸ h.sent ((hpc _).symm.trans hk)
  returned hr := hsent ▸ h.returned (hret ▸ hr)
  nodup := hsent ▸ h.nodup

theorem sentCall?_goto (c : Client P R) {g : ℕ} {pc : Pc P R}
    (h : pc.sentCall? = (c.goroutines g).pc.sentCall?) (g' : ℕ) :
    ((c.goto g pc).goroutines g').pc.sentCall? = (c.goroutines g').pc.sentCall? := by
  rw [goto_pc]
  split
  · rename_i heq
    rw [heq, h]
  · rfl

theorem sentCall?_setOps (c : Client P R) (g : ℕ) (ops : List (Op P)) (g' : ℕ) :
    ((c.setOps g ops).goroutines g').pc.sentCall? = (c.goroutines g').pc.sentCall? := by
  rw [setOps_pc]

/-- The number of a call whose request is sent is that of no goroutine whose is not. -/
theorem Requested.notMem (hn : Numbered c) (h : Requested c) {g : ℕ} {k : Call P}
    (hk : (c.goroutines g).pc.call? = some k) (hns : (c.goroutines g).pc.sentCall? = none)
    {k' : Call P} (hk' : k'.request ∈ c.sent) : k'.id ≠ k.id := by
  intro heq
  rcases h.owner hk' with ⟨g', hg'⟩ | ⟨out, hout⟩
  · obtain rfl := hn.inj hk (call?_of_sentCall? hg') heq.symm
    rw [hns] at hg'
    cases hg'
  · exact hn.fresh hk _ hout heq.symm

/-- A message is sent. -/
theorem Requested.body (hn : Numbered c) (h : Requested c) {g : ℕ} {msg : Message P}
    (hcall : (c.goroutines g).pc.call? = msg.call?) (hns : (c.goroutines g).pc.sentCall? = none)
    (hsent : c'.sent = c.sent ++ [msg]) (hret : c'.returned = c.returned)
    (hpc : ∀ g', (c'.goroutines g').pc = if g' = g then sendDone msg else (c.goroutines g').pc) :
    Requested c' := by
  -- the other goroutines stay where they are
  have hkeep : ∀ {g' k}, (c.goroutines g').pc.sentCall? = some k →
      (c'.goroutines g').pc.sentCall? = some k := by
    intro g' k hk
    rw [hpc, if_neg]
    · exact hk
    · rintro rfl
      rw [hns] at hk
      cases hk
  refine ⟨fun {k} hk => ?_, fun {g' k} hk => ?_, fun hr => ?_, ?_⟩
  · rw [hsent] at hk
    rw [hret]
    rcases List.mem_append.mp hk with hk | hk
    · exact (h.owner hk).imp_left fun ⟨g', hg'⟩ => ⟨g', hkeep hg'⟩
    · refine Or.inl ⟨g, ?_⟩
      rw [hpc, if_pos rfl, sentCall?_sendDone, ← List.mem_singleton.mp hk]
      rfl
  · rw [hsent]
    rw [hpc] at hk
    split at hk
    · rw [sentCall?_sendDone] at hk
      exact List.mem_append_right _ (List.mem_singleton.mpr (Message.eq_request hk).symm)
    · exact List.mem_append_left _ (h.sent hk)
  · rw [hsent]
    exact (h.returned (hret ▸ hr)).imp_right fun hm => List.mem_append_left _ hm
  · rw [hsent, List.filterMap_append, List.nodup_append]
    refine ⟨h.nodup, ?_, fun id hid id' hid' => ?_⟩
    · cases msg with
      | request id m p => exact List.nodup_singleton id
      | notification m p => exact List.nodup_nil
    · cases msg with
      | notification m p => cases hid'
      | request i m p =>
        obtain rfl : id' = i := by simpa [Message.id?] using hid'
        obtain ⟨m', hm', hid⟩ := List.mem_filterMap.mp hid
        cases m' with
        | notification _ _ => cases hid
        | request i' m'' p'' =>
          cases hid
          have hsent : Message.request (Call.mk id m'' p'').id m'' p'' ∈ c.sent := hm'
          exact h.notMem hn (k := ⟨id', m, p⟩) hcall hns hsent

/-- A call returns. -/
theorem Requested.delete (h : Requested c) {g : ℕ} {k : Call P} {out : Outcome R}
    (hk : (c.goroutines g).pc = .delete k out) (hsent : c'.sent = c.sent)
    (hret : c'.returned = c.returned ++ [(k, out)])
    (hpc : ∀ g', (c'.goroutines g').pc = if g' = g then .idle else (c.goroutines g').pc) :
    Requested c' := by
  refine ⟨fun {k'} hk' => ?_, fun {g' k'} hk' => ?_, fun {k' out'} hr => ?_, hsent ▸ h.nodup⟩
  · rw [hret]
    rcases h.owner (hsent ▸ hk') with ⟨g', hg'⟩ | ⟨out', hout'⟩
    · by_cases hgg : g' = g
      · rw [hgg, hk] at hg'
        obtain rfl : k = k' := by
          cases out <;> cases hg' <;> rfl
        exact Or.inr ⟨out, List.mem_append_right _ (List.mem_singleton.mpr rfl)⟩
      · exact Or.inl ⟨g', by rw [hpc, if_neg hgg, hg']⟩
    · exact Or.inr ⟨out', List.mem_append_left _ hout'⟩
  · rw [hsent]
    rw [hpc] at hk'
    split at hk'
    · cases hk'
    · exact h.sent hk'
  · rw [hsent]
    rw [hret] at hr
    rcases List.mem_append.mp hr with hr | hr
    · exact h.returned hr
    · cases List.mem_singleton.mp hr
      cases out with
      | sendFailed => exact Or.inl rfl
      | answered resp => exact Or.inr (h.sent (g := g) (by rw [hk]; rfl))
      | exited => exact Or.inr (h.sent (g := g) (by rw [hk]; rfl))

theorem Requested.step (hn : Numbered c) (h : Requested c) (hs : c.Step codec a c') :
    Requested c' := by
  cases moves hs with
  | spawn | shutdownAgain | shutdown | closeStdin | waitExit | closeDone =>
    exact h.frame (sentCall?_setOps _ _ _) rfl rfl
  | @call g _ _ ops hg | @notify g _ _ ops hg =>
    have hops : Requested (c.setOps g ops) := h.frame (sentCall?_setOps _ _ _) rfl rfl
    refine hops.frame (sentCall?_goto _ ?_) rfl rfl
    rw [setOps_pc, hg]
    rfl
  | store hpc => exact h.frame (sentCall?_goto _ (by rw [hpc]; rfl)) rfl rfl
  | lock hpc _ _ | header hpc _ _ => exact h.frame (sentCall?_goto _ (by rw [hpc]; rfl)) rfl rfl
  | marshalFailed hpc | headerClosed hpc | failHeader hpc _ _ _ | failBody hpc _ _ =>
    exact h.frame (sentCall?_goto _ (by rw [hpc, sentCall?_sendFailed]; rfl)) rfl rfl
  | @body g msg data hpc _ =>
    have hcall : (c.goroutines g).pc.call? = msg.call? := by rw [hpc]; rfl
    exact h.body hn (g := g) hcall (by rw [hpc]; rfl) rfl rfl fun g' => goto_pc _ g _ g'
  | receive hpc _ | exit hpc _ => exact h.frame (sentCall?_goto _ (by rw [hpc]; rfl)) rfl rfl
  | @delete g k out hpc => exact h.delete hpc rfl rfl fun g' => goto_pc _ g _ g'
  | skip | parse | deliver | stop | serve | hangUp => exact h.frame (fun _ => rfl) rfl rfl

/-! ### Responses -/

/-- The responses that the server has written. -/
def responses (codec : Codec P R) (c : Client P R) : List (Response R) :=
  (frames.readAll c.output).1.filterMap fun b => b.bind codec.unmarshal

/-- The responses that have been put into a channel, or dropped. -/
def handled (c : Client P R) : List (Response R) :=
  match c.reader with
  | .deliver _ _ => c.parsed.dropLast
  | _ => c.parsed

/-- A response that has been parsed has the number of a call. -/
def Answers (c : Client P R) (k : Call P) (resp : Response R) : Prop :=
  resp.id = k.id ∧ resp ∈ c.parsed

/-- **Where the responses are**: what has been parsed is the beginning of what the server has
written, and a response is in the channel of the call that it names, or has been received. -/
structure Delivered (codec : Codec P R) (c : Client P R) : Prop where
  output : ∃ bs, frames.readAll c.output =
      (bs ++ (frames.readAll c.stdout).1, (frames.readAll c.stdout).2) ∧
    c.parsed = bs.filterMap fun b => b.bind codec.unmarshal
  chans : ∀ {id : ℕ} {resp}, c.chans id = some resp → resp.id = id ∧ resp ∈ c.handled
  deliver : ∀ {id : ℕ} {resp}, c.reader = .deliver id resp →
    resp.id = id ∧ c.parsed = c.parsed.dropLast ++ [resp]
  answered : ∀ {g k resp}, (c.goroutines g).pc = .delete k (.answered resp) → c.Answers k resp
  returned : ∀ {k resp}, (k, .answered resp) ∈ c.returned → c.Answers k resp

theorem handled_subset {resp : Response R} (h : resp ∈ c.handled) : resp ∈ c.parsed := by
  rw [handled] at h
  split at h
  · exact List.mem_of_mem_dropLast h
  · exact h

/-- A goroutine goes on, and the responses stay where they are, except for one that it may have
received. -/
theorem Delivered.goto (h : Delivered codec c) {g : ℕ} {pc : Pc P R}
    (hpc : ∀ {k resp}, pc = .delete k (.answered resp) → c.Answers k resp)
    (hgor : ∀ g', (c'.goroutines g').pc = if g' = g then pc else (c.goroutines g').pc)
    (hout : c'.output = c.output ∧ c'.stdout = c.stdout)
    (hin : c'.parsed = c.parsed ∧ c'.reader = c.reader)
    (hchans : ∀ {id : ℕ} {resp}, c'.chans id = some resp → c.chans id = some resp)
    (hret : ∀ {k resp}, (k, .answered resp) ∈ c'.returned → c.Answers k resp) :
    Delivered codec c' := by
  obtain ⟨hout, hstdout⟩ := hout
  obtain ⟨hparsed, hreader⟩ := hin
  refine ⟨?_, fun hc => ?_, fun hd => ?_, fun {g' k resp} hd => ?_, fun hr => ?_⟩
  · rw [hout, hstdout, hparsed]
    exact h.output
  · rw [handled, hreader, hparsed]
    exact h.chans (hchans hc)
  · rw [hparsed]
    exact h.deliver (hreader ▸ hd)
  · rw [Answers, hparsed]
    rw [hgor] at hd
    split at hd
    · exact hpc hd
    · exact h.answered hd
  · rw [Answers, hparsed]
    exact hret hr

/-- The operations of a goroutine are replaced. -/
theorem Delivered.setOps (h : Delivered codec c)
    (hgor : ∀ g', (c'.goroutines g').pc = (c.goroutines g').pc)
    (hout : c'.output = c.output ∧ c'.stdout = c.stdout)
    (hin : c'.parsed = c.parsed ∧ c'.reader = c.reader)
    (hrest : c'.chans = c.chans ∧ c'.returned = c.returned) : Delivered codec c' := by
  have hdelete : ∀ {k resp}, (c.goroutines 0).pc = .delete k (.answered resp) →
      c.Answers k resp := fun hd => h.answered hd
  refine h.goto (g := 0) hdelete (fun g' => ?_) hout hin (fun hc => hrest.1 ▸ hc)
    fun hr => h.returned (hrest.2 ▸ hr)
  rw [hgor]
  split
  · rename_i heq
    rw [heq]
  · rfl

theorem sendFailed_ne {m : Message P} {k : Call P} {resp : Response R} :
    sendFailed m ≠ Pc.delete k (.answered resp) := by
  cases m <;> exact fun h => by cases h

theorem sendDone_ne {m : Message P} {k : Call P} {resp : Response R} :
    sendDone m ≠ Pc.delete k (.answered resp) := by
  cases m <;> exact fun h => by cases h

/-- What the reader takes from the pipe. -/
theorem Delivered.consume (h : Delivered codec c) {b : Option Bytes} {stdout : Bytes}
    (hnext : frames.next c.stdout = some (b, stdout)) :
    ∃ bs, frames.readAll c.output =
        (bs ++ (frames.readAll stdout).1, (frames.readAll stdout).2) ∧
      c.parsed ++ (b.bind codec.unmarshal).toList =
        bs.filterMap fun b => b.bind codec.unmarshal := by
  obtain ⟨bs, hbs, hparsed⟩ := h.output
  refine ⟨bs ++ [b], ?_, ?_⟩
  · rw [hbs, frames.readAll_of_some hnext, List.append_assoc]
    rfl
  · rw [hparsed, List.filterMap_append]
    cases hb : b.bind codec.unmarshal <;> simp [hb]

theorem route_cases (c : Client P R) (resp : Response R) :
    c.route resp = .reading ∨ ∃ id : ℕ, resp.id = id ∧ c.route resp = .deliver id resp := by
  rw [route]
  split
  · rename_i id hid
    split
    · exact Or.inr ⟨id, hid, rfl⟩
    · exact Or.inl rfl
  · exact Or.inl rfl

/-- **Nothing waits for the number zero**, which a message without a number is parsed with. -/
structure Nonzero (c : Client P R) : Prop where
  pending : c.pending 0 = false
  deliver : ∀ {id resp}, c.reader = .deliver id resp → id ≠ 0

theorem Nonzero.step (hn : Numbered c) (h : Nonzero c) (hs : c.Step codec a c') : Nonzero c' := by
  cases moves hs with
  | @store g k hpc =>
    have hpos : 0 < k.id := hn.pos (g := g) (by rw [hpc]; rfl)
    exact ⟨(Function.update_of_ne hpos.ne _ _).trans h.pending, h.deliver⟩
  | @delete g k out hpc =>
    refine ⟨?_, h.deliver⟩
    change Function.update c.pending k.id false 0 = false
    rw [Function.update_apply, h.pending, ite_self]
  | @parse b stdout resp _ _ _ =>
    refine ⟨h.pending, fun {id r} hd => ?_⟩
    -- a response is handed on only to a call that is in the table
    rintro rfl
    change c.route resp = .deliver 0 r at hd
    rw [route] at hd
    split at hd
    · split at hd
      · rename_i hpending
        cases hd
        rw [h.pending] at hpending
        cases hpending
      · cases hd
    · cases hd
  | deliver _ _ => exact ⟨h.pending, fun hd => (nomatch hd)⟩
  | stop _ => exact ⟨h.pending, fun hd => (nomatch hd)⟩
  | _ => exact ⟨h.pending, h.deliver⟩

theorem handled_of_reading (h : c.reader = .reading) : c.handled = c.parsed := by
  rw [handled, h]

/-- The reader parses a response. -/
theorem Delivered.parse (h : Delivered codec c) {b : Option Bytes} {stdout : Bytes}
    {resp : Response R} (hreader : c.reader = .reading)
    (hnext : frames.next c.stdout = some (b, stdout)) (hb : b.bind codec.unmarshal = some resp) :
    Delivered codec { c with
      stdout := stdout
      parsed := c.parsed ++ [resp]
      reader := c.route resp } := by
  obtain ⟨bs, hbs, hparsed⟩ := h.consume hnext
  rw [hb, Option.toList_some] at hparsed
  have hmem : ∀ {r : Response R}, r ∈ c.parsed → r ∈ c.parsed ++ [resp] :=
    fun hr => List.mem_append_left _ hr
  refine ⟨⟨bs, hbs, hparsed⟩, fun hc => ?_, fun {id r} hd => ?_,
    fun hd => (h.answered hd).imp_right hmem, fun hr => (h.returned hr).imp_right hmem⟩
  · have hold := h.chans hc
    rw [handled_of_reading hreader] at hold
    refine ⟨hold.1, ?_⟩
    rcases route_cases c resp with hroute | ⟨id, -, hroute⟩
    · simp only [handled, hroute]
      exact hmem hold.2
    · simpa only [handled, hroute, List.dropLast_concat] using hold.2
  · rcases route_cases c resp with hroute | ⟨id', hid', hroute⟩
    · exact absurd (hroute.symm.trans hd) (by simp)
    · cases hroute.symm.trans hd
      exact ⟨hid', by simp⟩

/-- The reader puts a response into its channel. -/
theorem Delivered.put (h : Delivered codec c) {id : ℕ} {resp : Response R}
    (hreader : c.reader = .deliver id resp) :
    Delivered codec { c with
      chans := Function.update c.chans id (some resp)
      reader := .reading } := by
  obtain ⟨hid, hlast⟩ := h.deliver hreader
  refine ⟨h.output, fun {id' r} hc => ?_, fun hd => (nomatch hd), h.answered, h.returned⟩
  change Function.update c.chans id (some resp) id' = some r at hc
  change r.id = id' ∧ r ∈ c.parsed
  rw [Function.update_apply] at hc
  split at hc
  · rename_i heq
    cases hc
    rw [heq, hlast]
    exact ⟨hid, by simp⟩
  · exact (h.chans hc).imp_right handled_subset

theorem Delivered.step (h : Delivered codec c) (hs : c.Step codec a c') : Delivered codec c' := by
  -- only the reader, and a call that receives, touch the responses
  cases moves hs with
  | spawn | shutdownAgain | shutdown | closeStdin | waitExit | closeDone =>
    exact h.setOps (setOps_pc _ _ _) ⟨rfl, rfl⟩ ⟨rfl, rfl⟩ ⟨rfl, rfl⟩
  | @call g _ _ ops _ | @notify g _ _ ops _ =>
    have hops : Delivered codec (c.setOps g ops) :=
      h.setOps (setOps_pc _ _ _) ⟨rfl, rfl⟩ ⟨rfl, rfl⟩ ⟨rfl, rfl⟩
    exact hops.goto (fun hd => by cases hd) (fun g' => goto_pc _ g _ g') ⟨rfl, rfl⟩ ⟨rfl, rfl⟩ id
      h.returned
  | @store g _ _ | @lock g _ _ _ _ _ | @header g _ _ _ _ _ | @exit g _ _ _ =>
    exact h.goto (fun hd => by cases hd) (fun g' => goto_pc _ g _ g') ⟨rfl, rfl⟩ ⟨rfl, rfl⟩ id
      h.returned
  | @marshalFailed g _ _ | @headerClosed g _ _ _ | @failHeader g _ _ _ _ _ _ _ _
  | @failBody g _ _ _ _ _ _ _ =>
    exact h.goto (fun hd => absurd hd sendFailed_ne) (fun g' => goto_pc _ g _ g') ⟨rfl, rfl⟩
      ⟨rfl, rfl⟩ id h.returned
  | @body g _ _ _ _ =>
    exact h.goto (fun hd => absurd hd sendDone_ne) (fun g' => goto_pc _ g _ g') ⟨rfl, rfl⟩
      ⟨rfl, rfl⟩ id h.returned
  | @receive g k resp _ hchan =>
    refine h.goto (fun hd => ?_) (fun g' => goto_pc _ g _ g') ⟨rfl, rfl⟩ ⟨rfl, rfl⟩
      (fun {id r} hc => ?_) h.returned
    · cases hd
      exact (h.chans hchan).imp_right handled_subset
    · change Function.update c.chans k.id none id = some r at hc
      rw [Function.update_apply] at hc
      split at hc
      · cases hc
      · exact hc
  | @delete g k out hpc =>
    refine h.goto (fun hd => by cases hd) (fun g' => goto_pc _ g _ g') ⟨rfl, rfl⟩ ⟨rfl, rfl⟩ id
      fun {k' resp} hr => ?_
    rcases List.mem_append.mp hr with hr | hr
    · exact h.returned hr
    · cases List.mem_singleton.mp hr
      exact h.answered hpc
  | skip hreader hnext hb =>
    obtain ⟨bs, hbs, hparsed⟩ := h.consume hnext
    rw [hb, Option.toList_none, List.append_nil] at hparsed
    exact ⟨⟨bs, hbs, hparsed⟩, h.chans, h.deliver, h.answered, h.returned⟩
  | parse hreader hnext hb => exact h.parse hreader hnext hb
  | deliver hreader _ => exact h.put hreader
  | stop hreader =>
    refine ⟨h.output, fun hc => ?_, fun hd => (nomatch hd), h.answered, h.returned⟩
    have hold := h.chans hc
    rw [handled_of_reading hreader] at hold
    exact hold
  | @serve bytes =>
    obtain ⟨bs, hbs, hparsed⟩ := h.output
    refine ⟨⟨bs, ?_, hparsed⟩, h.chans, h.deliver, h.answered, h.returned⟩
    change frames.readAll (c.output ++ bytes) = (bs ++ (frames.readAll (c.stdout ++ bytes)).1,
      (frames.readAll (c.stdout ++ bytes)).2)
    rw [frames.readAll_append c.output, hbs, frames.readAll_append c.stdout, List.append_assoc]
  | hangUp => exact ⟨h.output, h.chans, h.deliver, h.answered, h.returned⟩

/-! ### Runs -/

/-- **What holds in every state**: of the pipe, the numbers, the requests and the responses. -/
structure Sound (codec : Codec P R) (c : Client P R) : Prop where
  numbered : Numbered c
  requested : Requested c
  delivered : Delivered codec c
  nonzero : Nonzero c

theorem Sound.step (h : Sound codec c) (hs : c.Step codec a c') : Sound codec c' :=
  ⟨h.numbered.step hs, h.requested.step h.numbered hs, h.delivered.step hs,
    h.nonzero.step h.numbered hs⟩

theorem sound_init : Sound codec ({} : Client P R) where
  numbered :=
    { pos := fun hk => by cases hk
      le := fun hk => by cases hk
      inj := fun hk => by cases hk
      returned_le := fun _ hr => by cases hr
      fresh := fun hk => by cases hk
      nodup := List.nodup_nil }
  requested :=
    { owner := fun hk => by cases hk
      sent := fun hk => by cases hk
      returned := fun hr => by cases hr
      nodup := List.nodup_nil }
  delivered :=
    { output := ⟨[], rfl, rfl⟩
      chans := fun hc => by cases hc
      deliver := fun hd => by cases hd
      answered := fun hd => by cases hd
      returned := fun hr => by cases hr }
  nonzero := ⟨rfl, fun hd => by cases hd⟩

theorem sound_run (h : Run (Step codec) {} l c) : Sound codec c :=
  h.invariant (fun hi hs => hi.step hs) sound_init

/-- What has been parsed is the beginning of what the server has written. -/
theorem Delivered.prefix_responses (h : Delivered codec c) : c.parsed <+: c.responses codec := by
  obtain ⟨bs, hbs, hparsed⟩ := h.output
  rw [responses, hbs, List.filterMap_append, hparsed]
  exact List.prefix_append _ _

/-- **The server gets what is sent**, message by message in the order in which the messages were
sent, whatever the goroutines do at once and wherever a write fails; and no two requests have the
same number. -/
theorem server_reads (h : Run (Step codec) {} l c) :
    (frames.readAll c.stdin).1 = c.sent.map codec.marshal ∧
      (c.sent.filterMap Message.id?).Nodup :=
  ⟨readAll_stdin h, (sound_run h).requested.nodup⟩

/-- Two goroutines send, and the second write of the second one fails after five bytes. -/
theorem server_reads_session :
    (frames.readAll (Session.final Session.twoSends).stdin).1 =
        (Session.final Session.twoSends).sent.map Session.codec.marshal ∧
      ((Session.final Session.twoSends).sent.filterMap Message.id?).Nodup :=
  server_reads (Session.run_final (by decide +kernel))

example : (Session.final Session.twoSends).sent.map Message.id? = [some 1] ∧
    (frames.readAll (Session.final Session.twoSends).stdin).2 ≠ [] := by decide +kernel

/-- **A call gets its own answer**: the response that it returns has its number and was written by
the server; its request was sent, and no other request that was sent and no other call that has
returned has this number. -/
theorem answered (h : Run (Step codec) {} l c) {k : Call P} {resp : Response R}
    (hr : (k, .answered resp) ∈ c.returned) :
    resp.id = k.id ∧ resp ∈ c.responses codec ∧ k.request ∈ c.sent ∧
      (∀ k' : Call P, k'.request ∈ c.sent → k'.id = k.id → k' = k) ∧
      ∀ r ∈ c.returned, r.1.id = k.id → r = (k, .answered resp) := by
  obtain ⟨hn, hq, hd, -⟩ := sound_run h
  have hown : ∀ r ∈ c.returned, r.1.id = k.id → r = (k, .answered resp) := fun r hmem heq =>
    List.inj_on_of_nodup_map hn.nodup hmem hr heq
  refine ⟨(hd.returned hr).1, hd.prefix_responses.subset (hd.returned hr).2, ?_,
    fun k' hk' heq => ?_, hown⟩
  · exact (hq.returned hr).resolve_left fun hf => by cases hf
  · rcases hq.owner hk' with ⟨g, hg⟩ | ⟨out, hout⟩
    · exact absurd heq (hn.fresh (call?_of_sentCall? hg) _ hr)
    · exact congrArg Prod.fst (hown _ hout heq)

theorem answered_session :
    (⟨1, some (), none⟩ : Response Unit) ∈
        (Session.final (Session.firstCall ++ Session.answer)).responses Session.codec ∧
      Message.request 1 "initialize" none ∈
        (Session.final (Session.firstCall ++ Session.answer)).sent := by
  have hret : ((⟨1, "initialize", none⟩ : Call Unit), Outcome.answered ⟨1, some (), none⟩) ∈
      (Session.final (Session.firstCall ++ Session.answer)).returned := List.mem_singleton.mpr rfl
  have hall := answered (Session.run_final (l := Session.firstCall ++ Session.answer)
    (by decide +kernel)) hret
  exact ⟨hall.2.1, hall.2.2.1⟩

/-- **The reader goes on**: where the server has used no number twice, the channel is free
whenever a response is to be put into it. Messages without a number, such as notifications, are
parsed with the number zero and do not count. -/
theorem reader_goes_on (h : Run (Step codec) {} l c)
    (hids : (((c.responses codec).map Response.id).filter fun id => id ≠ 0).Nodup) {id : ℕ}
    {resp : Response R} (hd : c.reader = .deliver id resp) : ∃ c', c.Step codec .read c' := by
  obtain ⟨-, -, hdel, hzero⟩ := sound_run h
  obtain ⟨hid, hlast⟩ := hdel.deliver hd
  have hfree : c.chans id = none := by
    rcases hc : c.chans id with - | r
    · rfl
    · -- a second response with the number of the call would have been parsed
      obtain ⟨hr, hmem⟩ := hdel.chans hc
      rw [handled, hd] at hmem
      have hne : (id : ℤ) ≠ 0 := Int.natCast_ne_zero.mpr (hzero.deliver hd)
      have hnodup : ((c.parsed.map Response.id).filter fun id => id ≠ 0).Nodup :=
        hids.sublist ((hdel.prefix_responses.sublist.map _).filter _)
      rw [hlast, List.map_append, List.filter_append, List.nodup_append] at hnodup
      refine absurd rfl (hnodup.2.2 (id : ℤ) ?_ id ?_)
      · exact List.mem_filter.mpr ⟨hr ▸ List.mem_map_of_mem hmem, decide_eq_true hne⟩
      · exact List.mem_filter.mpr ⟨List.mem_singleton.mpr hid.symm, decide_eq_true hne⟩
  have hread : c.read codec = some { c with
      chans := Function.update c.chans id (some resp)
      reader := .reading } := by
    rw [read, hd]
    simp only [hfree]
  exact ⟨_, hread⟩

/-- Two notifications come before the response. -/
theorem reader_goes_on_session :
    ∃ c', (Session.final (Session.firstCall ++ Session.logs ++
      [.serve (frame Session.reply), .read])).Step Session.codec .read c' := by
  have hreader : (Session.final (Session.firstCall ++ Session.logs ++
      [.serve (frame Session.reply), .read])).reader = .deliver 1 ⟨1, some (), none⟩ := by
    decide +kernel
  exact reader_goes_on (Session.run_final (by decide +kernel)) (by decide +kernel) hreader

/-! ### After the server is gone -/

/-- A call waits, and nothing that is still to be read is its response. -/
structure Forsaken (codec : Codec P R) (g : ℕ) (k : Call P) (c : Client P R) : Prop where
  eof : c.eof = true
  wait : (c.goroutines g).pc = .wait k
  no_response : ∀ resp ∈ c.responses codec, resp.id ≠ k.id

theorem eof_mono (hs : c.Step codec a c') (h : c.eof = true) : c'.eof = true := by
  cases moves hs <;> first | exact h | rfl

theorem output_of_eof (hs : c.Step codec a c') (h : c.eof = true) : c'.output = c.output := by
  cases a with
  | serve bytes =>
    rw [Step, step, if_pos h] at hs
    cases hs
  | _ => cases moves hs <;> rfl

theorem done_mono (hs : c.Step codec a c') (h : c'.done = false) : c.done = false := by
  cases moves hs with
  | closeDone => cases h
  | _ => exact h

theorem Forsaken.step {g : ℕ} {k : Call P} (hdel : Delivered codec c) (h : Forsaken codec g k c)
    (hs : c.Step codec a c') (hdone : c'.done = false) : Forsaken codec g k c' := by
  have hchan : c.chans k.id = none := by
    rcases hc : c.chans k.id with - | r
    · rfl
    · obtain ⟨hr, hmem⟩ := hdel.chans hc
      exact absurd hr (h.no_response r (hdel.prefix_responses.subset (handled_subset hmem)))
  have hresp : ∀ resp ∈ c'.responses codec, resp.id ≠ k.id := by
    rw [responses, output_of_eof hs h.eof]
    exact h.no_response
  refine ⟨eof_mono hs h.eof, ?_, hresp⟩
  -- only a response or the closed channel leads out of the `select`
  have hother : ∀ {g' : ℕ} {pc : Pc P R}, (∀ k', (c.goroutines g').pc ≠ .wait k') →
      ((c.goto g' pc).goroutines g).pc = .wait k := by
    intro g' pc hne
    rw [goto_pc, if_neg]
    · exact h.wait
    · rintro rfl
      exact hne k h.wait
  cases moves hs with
  | spawn | shutdownAgain | shutdown | closeStdin | waitExit | closeDone =>
    exact (setOps_pc _ _ _ _).trans h.wait
  | @call g' _ _ _ hg | @notify g' _ _ _ hg =>
    rw [goto_pc, setOps_pc, if_neg]
    · exact h.wait
    · rintro rfl
      have hwait := h.wait
      rw [hg] at hwait
      cases hwait
  | store hpc | marshalFailed hpc | lock hpc _ _ | headerClosed hpc | header hpc _ _
  | body hpc _ | delete hpc | failHeader hpc _ _ _ | failBody hpc _ _ =>
    exact hother fun k' heq => by cases hpc.symm.trans heq
  | @receive g' k' resp hpc hc =>
    rw [goto_pc, if_neg]
    · exact h.wait
    · rintro rfl
      cases hpc.symm.trans h.wait
      rw [hchan] at hc
      cases hc
  | exit _ hd =>
    rw [show c.done = false from hdone] at hd
    cases hd
  | skip | parse | deliver | stop | serve | hangUp => exact h.wait

/-- **A call waits for ever** when the server is gone without having answered it, until
`Shutdown` has come to its end. -/
theorem waits_forever (h : Run (Step codec) {} l c) {g : ℕ} {k : Call P} (heof : c.eof = true)
    (hwait : (c.goroutines g).pc = .wait k)
    (hno : ∀ resp ∈ c.responses codec, resp.id ≠ k.id) (h' : Run (Step codec) c l' c')
    (hdone : c'.done = false) : (c'.goroutines g).pc = .wait k := by
  have hrun : Delivered codec c' ∧ (c'.done = false → Forsaken codec g k c') :=
    h'.invariant (I := fun c => Delivered codec c ∧ (c.done = false → Forsaken codec g k c))
      (fun hi hs => ⟨hi.1.step hs, fun hd => (hi.2 (done_mono hs hd)).step hi.1 hs hd⟩)
      ⟨(sound_run h).delivered, fun _ => ⟨heof, hwait, hno⟩⟩
  exact (hrun.2 hdone).wait

/-- Meanwhile the reader returns, and another goroutine's notification is not written. -/
theorem waits_forever_session :
    ((Session.final (Session.firstCall ++ [.hangUp] ++ Session.afterwards)).goroutines 0).pc =
      .wait ⟨1, "initialize", none⟩ := by
  have hrun := Session.run_final (l := Session.firstCall ++ [.hangUp]) (by decide +kernel)
  have hno : ∀ resp ∈ (Session.final (Session.firstCall ++ [.hangUp])).responses Session.codec,
      resp.id ≠ 1 := by decide +kernel
  have hrest := Session.run_final_append (Session.firstCall ++ [.hangUp]) Session.afterwards
    (by decide +kernel)
  have heof : (Session.final (Session.firstCall ++ [.hangUp])).eof = true := by decide +kernel
  have hwait : ((Session.final (Session.firstCall ++ [.hangUp])).goroutines 0).pc =
      .wait ⟨1, "initialize", none⟩ := rfl
  have hdone : (Session.final (Session.firstCall ++ [.hangUp] ++ Session.afterwards)).done =
      false := by decide +kernel
  exact waits_forever hrun heof hwait hno hrest hdone

end Client

end Gortex.Semantic.Lsp
