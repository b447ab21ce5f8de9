import Mathlib.Algebra.BigOperators.Group.List.Basic
import Gortex.Contracts.Grpc

/-!
# The services of a `.proto` text

A text of service blocks (`Gortex.Grpc.ProtoFile`) declares its rpcs, each in the block of its
service and with its messages. The extraction reads the rpcs of a service from its header to the
end of the text, and so gives a service the rpcs of all the blocks behind it as well: what is
extracted is what is declared just if no block but the first declares an rpc, and no option of an
rpc holds a text that looks like a header (`Gortex.Grpc.extractsDeclared_iff`).
-/

namespace Gortex

namespace Grpc

open ContractRegistry (isWordChar isBlank)
open Search (Pattern Header Found Skips StopsAt lit many many1 findAll bind_apply pure_apply
  orElse_apply)

/-! ### Texts of services -/

/-- Blanks, or none. -/
structure Blanks where
  chars : List Char
  blank : ∀ c ∈ chars, isBlank c = true

/-- Blanks between two words. -/
structure Gap extends Blanks where
  ne_nil : chars ≠ []

/-- The name of a service or of a method. -/
structure Ident where
  chars : List Char
  ne_nil : chars ≠ []
  word : ∀ c ∈ chars, isWordChar c = true

/-- The name of a message, with its package or without. -/
structure TypeName where
  chars : List Char
  ne_nil : chars ≠ []
  typed : ∀ c ∈ chars, isTypeChar c = true

/-- A message of an rpc, behind the bracket that opens it: a stream, with the gap behind the
modifier, or not. -/
structure Message where
  before : Blanks
  stream : Option Gap
  type : TypeName
  after : Blanks

/-- An rpc. The text of its options stands in braces; without options there is a semicolon. -/
structure Rpc where
  afterKeyword : Gap
  method : Ident
  afterMethod : Blanks
  request : Message
  beforeReturns : Blanks
  afterReturns : Blanks
  response : Message
  beforeEnd : Blanks
  options : Option (List Char)
  after : Blanks

/-- A service block. The names of its methods are distinct. -/
structure Service where
  afterKeyword : Gap
  name : Ident
  afterName : Blanks
  inside : Blanks
  rpcs : List Rpc
  nodup : (rpcs.map fun r => r.method.chars).Nodup
  after : Blanks

/-- A text of service blocks. -/
structure ProtoFile where
  before : Blanks
  services : List Service

/-- The modifier of a message, as a group of the expression. -/
def Message.modifier (m : Message) : List Char :=
  m.stream.elim [] fun gap => "stream".toList ++ gap.chars

def Message.render (m : Message) : List Char :=
  m.before.chars ++ m.modifier ++ m.type.chars ++ m.after.chars ++ [')']

/-- What stands between the brackets of an rpc, from the first one on. -/
def Rpc.signature (r : Rpc) : List Char :=
  r.request.render ++ r.beforeReturns.chars ++ "returns".toList ++ r.afterReturns.chars ++ ['('] ++
    r.response.render

/-- The text of the options. -/
def Rpc.optionText (r : Rpc) : List Char := r.options.getD []

/-- What stands behind the messages of an rpc. -/
def Rpc.ending (r : Rpc) : List Char :=
  r.beforeEnd.chars ++ r.options.elim [';'] (fun text => '{' :: text ++ ['}']) ++ r.after.chars

def Rpc.render (r : Rpc) : List Char :=
  ['r', 'p', 'c'] ++ r.afterKeyword.chars ++ r.method.chars ++ r.afterMethod.chars ++ ['('] ++
    r.signature ++ r.ending

def Service.header (s : Service) : List Char :=
  ['s', 'e', 'r', 'v', 'i', 'c', 'e'] ++ s.afterKeyword.chars ++ s.name.chars ++
    s.afterName.chars ++ ['{']

def Service.body (s : Service) : List Char :=
  s.inside.chars ++ s.rpcs.flatMap Rpc.render ++ ['}'] ++ s.after.chars

def Service.render (s : Service) : List Char := s.header ++ s.body

def ProtoFile.render (f : ProtoFile) : List Char :=
  f.before.chars ++ f.services.flatMap Service.render

/-! ### What is declared -/

/-- A method of a service, with its messages. -/
structure Endpoint where
  service : String
  method : String
  requestType : String
  responseType : String
  requestStream : Bool
  responseStream : Bool
deriving DecidableEq, Repr

def Endpoint.id (e : Endpoint) : String := providerID e.service e.method

/-- The endpoint that an rpc declares in a service. -/
def Service.endpoint (s : Service) (r : Rpc) : Endpoint where
  service := String.ofList s.name.chars
  method := String.ofList r.method.chars
  requestType := String.ofList r.request.type.chars
  responseType := String.ofList r.response.type.chars
  requestStream := r.request.stream.isSome
  responseStream := r.response.stream.isSome

/-- **The declared endpoints**: the rpcs of each service in its own block. -/
def ProtoFile.declared (f : ProtoFile) : List Endpoint :=
  f.services.flatMap fun s => s.rpcs.map s.endpoint

/-- The endpoint that the metadata of a contract describe. -/
def endpointOf (metadata : Metadata) : Endpoint where
  service := metadata.getStr "service"
  method := metadata.getStr "method"
  requestType := metadata.getStr "request_type"
  responseType := metadata.getStr "response_type"
  requestStream := metadata.lookup "request_stream" = some (.bool true)
  responseStream := metadata.lookup "response_stream" = some (.bool true)

/-- **What is extracted is what is declared**: one contract for each endpoint, of its ID. -/
def ExtractsDeclared (filePath : String) (f : ProtoFile) : Prop :=
  ((extractProtoProviders filePath f.render).map fun c => (c.id, endpointOf c.metadata)).Perm
    (f.declared.map fun e => (e.id, e))

/-- **One block with rpcs**: no service but the first declares an rpc, no option holds a text
that looks like an rpc, and none before another rpc one that looks like a service. -/
structure OneBlock (f : ProtoFile) : Prop where
  first : ∀ s ∈ f.services.tail, s.rpcs = []
  rpc : ∀ s ∈ f.services, ∀ r ∈ s.rpcs, findAll protoRPCRe r.optionText = []
  service : ∀ s ∈ f.services, ∀ r ∈ s.rpcs.dropLast, findAll protoServiceRe r.optionText = []

/-! ### Headers in the text -/

/-- What the two headers have in common. -/
structure InProto (h : Header Char) : Prop where
  blank : h.blank = isBlank
  word : h.word = isWordChar
  stream : ¬h.keyword <:+: "stream".toList
  close : h.close ≠ '}'

theorem inProto_service : InProto protoServiceHeader := by
  refine ⟨rfl, rfl, ?_, ?_⟩ <;> decide

theorem inProto_rpc : InProto protoRPCHeader := by
  refine ⟨rfl, rfl, ?_, ?_⟩ <;> decide

theorem not_isBlank_of_isTypeChar {c : Char} (h : isTypeChar c = true) : isBlank c = false := by
  by_contra hblank
  have hblank : isBlank c = true := Bool.not_eq_false _ ▸ hblank
  have hc : c ∈ [' ', '\t', '\n', '\x0c', '\r'] := of_decide_eq_true hblank
  have hall : [' ', '\t', '\n', '\x0c', '\r'].all (fun d => !isTypeChar d) = true := by decide
  have hnot : isTypeChar c = false := Bool.not_eq_true' _ ▸ List.all_eq_true.mp hall c hc
  exact Bool.false_ne_true (hnot.symm.trans h)

theorem not_isBlank_of_isWordChar {c : Char} (h : isWordChar c = true) : isBlank c = false :=
  not_isBlank_of_isTypeChar (by rw [isTypeChar, h, Bool.true_or])

namespace InProto

variable {h : Header Char} (hp : InProto h) (l : List Char)

include hp

theorem skips_blanks (b : Blanks) : Skips h.pattern l (b.chars ++ l) :=
  Header.skips_of_not_word (fun c hc => h.word_of_blank c (hp.blank ▸ b.blank c hc)) l

theorem skips_mark {c : Char} (hc : isWordChar c = false) : Skips h.pattern l (c :: l) :=
  .cons (Header.pattern_of_not_word (hp.word ▸ hc)) .refl

theorem skips_word {w : List Char} (hw : ∀ c ∈ w, isBlank c = false) (b : Blanks) {c : Char}
    (hc : isWordChar c = false) (hc' : isBlank c = false) :
    Skips h.pattern l (w ++ (b.chars ++ c :: l)) :=
  Header.skips_word (by rwa [hp.blank]) (by rw [hp.blank]; exact b.blank) (by rwa [hp.word])
    (by rwa [hp.blank]) l

theorem skips_message (m : Message) : Skips h.pattern l (m.render ++ l) := by
  have htype : Skips h.pattern l (m.type.chars ++ (m.after.chars ++ ')' :: l)) :=
    hp.skips_word l (fun c hc => not_isBlank_of_isTypeChar (m.type.typed c hc)) m.after
      (by decide) (by decide)
  have hmodifier : Skips h.pattern l
      (m.modifier ++ (m.type.chars ++ (m.after.chars ++ ')' :: l))) := by
    rcases hstream : m.stream with _ | gap
    · rw [Message.modifier, hstream]
      exact htype
    · rw [Message.modifier, hstream, Option.elim_some, List.append_assoc]
      refine .trans ?_ htype
      exact Header.skips_keyword hp.stream gap.ne_nil (by rw [hp.blank]; exact gap.blank) _
  have hrender : m.render ++ l =
      m.before.chars ++ (m.modifier ++ (m.type.chars ++ (m.after.chars ++ ')' :: l))) := by
    simp [Message.render]
  rw [hrender]
  exact .trans (hp.skips_blanks _ m.before) hmodifier

theorem skips_signature (r : Rpc) : Skips h.pattern l (r.signature ++ l) := by
  have hrender : r.signature ++ l = r.request.render ++ (r.beforeReturns.chars ++
      ("returns".toList ++ (r.afterReturns.chars ++ '(' :: (r.response.render ++ l)))) := by
    simp [Rpc.signature]
  have hword : "returns".toList.all (fun c => !isBlank c) = true := by decide
  have hreturns : Skips h.pattern (r.response.render ++ l)
      ("returns".toList ++ (r.afterReturns.chars ++ '(' :: (r.response.render ++ l))) :=
    hp.skips_word _ (fun c hc => Bool.not_eq_true' _ ▸ List.all_eq_true.mp hword c hc)
      r.afterReturns (by decide) (by decide)
  rw [hrender]
  refine .trans (hp.skips_message _ r.request) (.trans (hp.skips_blanks _ r.beforeReturns) ?_)
  exact .trans hreturns (hp.skips_message l r.response)

theorem stopsAt : StopsAt '}' h.pattern :=
  Header.stopsAt (by rw [hp.word]; decide) (by rw [hp.blank]; decide) hp.close.symm

/-- What is found behind the messages of an rpc is found in its options or after it. -/
theorem findAll_ending (r : Rpc) : findAll h.pattern (r.ending ++ l) =
    (findAll h.pattern r.optionText).map (Found.extend ('}' :: (r.after.chars ++ l))) ++
      findAll h.pattern l := by
  have hafter : findAll h.pattern (r.after.chars ++ l) = findAll h.pattern l :=
    (hp.skips_blanks l r.after).findAll
  rcases hoptions : r.options with _ | text
  · have hrender : r.ending ++ l = r.beforeEnd.chars ++ ';' :: (r.after.chars ++ l) := by
      simp [Rpc.ending, hoptions]
    rw [hrender, (hp.skips_blanks _ r.beforeEnd).findAll,
      (hp.skips_mark _ (by decide)).findAll, hafter, Rpc.optionText, hoptions]
    rfl
  · have hrender : r.ending ++ l =
        r.beforeEnd.chars ++ '{' :: (text ++ '}' :: (r.after.chars ++ l)) := by
      simp [Rpc.ending, hoptions]
    rw [hrender, (hp.skips_blanks _ r.beforeEnd).findAll,
      (hp.skips_mark _ (by decide)).findAll,
      Search.findAll_barrier hp.stopsAt Header.pattern_nil, hafter, Rpc.optionText, hoptions,
      Option.getD_some]

/-- Options in which nothing is found are skipped. -/
theorem skips_ending {r : Rpc} (hr : findAll h.pattern r.optionText = []) :
    Skips h.pattern l (r.ending ++ l) := by
  rcases hoptions : r.options with _ | text
  · have hrender : r.ending ++ l = r.beforeEnd.chars ++ ';' :: (r.after.chars ++ l) := by
      simp [Rpc.ending, hoptions]
    rw [hrender]
    exact .trans (hp.skips_blanks _ r.beforeEnd)
      (.trans (hp.skips_mark _ (by decide)) (hp.skips_blanks l r.after))
  · have hrender : r.ending ++ l =
        r.beforeEnd.chars ++ '{' :: (text ++ '}' :: (r.after.chars ++ l)) := by
      simp [Rpc.ending, hoptions]
    rw [Rpc.optionText, hoptions, Option.getD_some] at hr
    rw [hrender]
    exact .trans (hp.skips_blanks _ r.beforeEnd) (.trans (hp.skips_mark _ (by decide))
      (.trans (Search.skips_barrier hp.stopsAt Header.pattern_nil hr _)
        (hp.skips_blanks l r.after)))

end InProto

/-! ### The headers of rpcs and services -/

section Headers

variable (r : Rpc) (s : Service) (l : List Char)

theorem render_rpc : r.render ++ l = protoRPCHeader.keyword ++ (r.afterKeyword.chars ++
    (r.method.chars ++ (r.afterMethod.chars ++ '(' :: (r.signature ++ (r.ending ++ l))))) := by
  simp [Rpc.render, protoRPCHeader]

theorem render_service : s.header ++ l = protoServiceHeader.keyword ++ (s.afterKeyword.chars ++
    (s.name.chars ++ (s.afterName.chars ++ '{' :: l))) := by
  simp [Service.header, protoServiceHeader]

theorem protoRPCRe_render : protoRPCRe (r.render ++ l) =
    some (r.method.chars, r.signature ++ (r.ending ++ l)) := by
  rw [render_rpc, protoRPCRe]
  exact Header.pattern_match (h := protoRPCHeader) r.afterKeyword.ne_nil r.afterKeyword.blank r.method.ne_nil
    r.method.word r.afterMethod.blank _

theorem protoServiceRe_header : protoServiceRe (s.header ++ l) = some (s.name.chars, l) := by
  rw [render_service, protoServiceRe]
  exact Header.pattern_match (h := protoServiceHeader) s.afterKeyword.ne_nil s.afterKeyword.blank s.name.ne_nil s.name.word
    s.afterName.blank l

/-- **An rpc is found**, and then what its options hold and what follows. -/
theorem findAll_rpc : findAll protoRPCRe (r.render ++ l) =
    ⟨r.render ++ l, r.method.chars⟩ :: findAll protoRPCRe (r.ending ++ l) := by
  have hsuffix : r.signature ++ (r.ending ++ l) <:+ r.render ++ l := by
    refine ⟨['r', 'p', 'c'] ++ r.afterKeyword.chars ++ r.method.chars ++ r.afterMethod.chars ++ ['('],
      ?_⟩
    simp [Rpc.render]
  have hlt : (r.signature ++ (r.ending ++ l)).length < (r.render ++ l).length := by
    simp only [Rpc.render, List.length_append, List.length_cons]
    omega
  rw [Search.findAll_of_match hsuffix hlt (protoRPCRe_render r l)]
  exact congrArg _ (inProto_rpc.skips_signature _ r).findAll

/-- The search for services passes over an rpc to its options. -/
theorem findAll_service_rpc :
    findAll protoServiceRe (r.render ++ l) = findAll protoServiceRe (r.ending ++ l) := by
  have hkeyword := Header.skips_keyword (h := protoServiceHeader) (k := protoRPCHeader.keyword)
    (by decide) r.afterKeyword.ne_nil r.afterKeyword.blank
    (r.method.chars ++ (r.afterMethod.chars ++ '(' :: (r.signature ++ (r.ending ++ l))))
  have hmethod := inProto_service.skips_word (r.signature ++ (r.ending ++ l)) (c := '(')
    (fun c hc => not_isBlank_of_isWordChar (r.method.word c hc)) r.afterMethod (by decide)
    (by decide)
  rw [render_rpc]
  exact (hkeyword.trans (hmethod.trans (inProto_service.skips_signature _ r))).findAll

/-- **A service is found**, and then what its block holds and what follows. -/
theorem findAll_service : findAll protoServiceRe (s.header ++ l) =
    ⟨s.header ++ l, s.name.chars⟩ :: findAll protoServiceRe l := by
  have hpos : 0 < s.header.length := List.length_pos_of_mem (List.mem_append_right _ List.mem_cons_self)
  refine Search.findAll_of_match (List.suffix_append _ _) ?_ (protoServiceRe_header s l)
  rw [List.length_append]
  exact Nat.lt_add_of_pos_left hpos

/-- The search for rpcs passes over the header of a service. -/
theorem skips_header : Skips protoRPCRe l (s.header ++ l) := by
  have hkeyword := Header.skips_keyword (h := protoRPCHeader) (k := protoServiceHeader.keyword)
    (by decide) s.afterKeyword.ne_nil s.afterKeyword.blank
    (s.name.chars ++ (s.afterName.chars ++ '{' :: l))
  have hname := inProto_rpc.skips_word l (c := '{')
    (fun c hc => not_isBlank_of_isWordChar (s.name.word c hc)) s.afterName (by decide) (by decide)
  rw [render_service]
  exact hkeyword.trans hname

end Headers

/-! ### Names found -/

/-- The names of the rpcs in a text. -/
def rpcNames (text : List Char) : List (List Char) := (findAll protoRPCRe text).map Found.groups

/-- The pairs of a service and a method that the extraction finds in a text. -/
def found (text : List Char) : List (List Char × List Char) :=
  (findAll protoServiceRe text).flatMap fun m => (rpcNames m.rest).map (Prod.mk m.groups)

/-- The name of an rpc, and the names in its options. -/
def Rpc.names (r : Rpc) : List (List Char) := r.method.chars :: rpcNames r.optionText

section Names

variable (r : Rpc) (rs : List Rpc) (s : Service) (l : List Char)

theorem rpcNames_barrier (text : List Char) :
    rpcNames (text ++ '}' :: (r.after.chars ++ l)) = rpcNames text ++ rpcNames l := by
  have hbarrier := Search.findAll_barrier inProto_rpc.stopsAt Header.pattern_nil text
    (r.after.chars ++ l)
  rw [(inProto_rpc.skips_blanks l r.after).findAll] at hbarrier
  rw [rpcNames, protoRPCRe, hbarrier, List.map_append, List.map_map]
  rfl

theorem rpcNames_rpc : rpcNames (r.render ++ l) = r.names ++ rpcNames l := by
  rw [rpcNames, findAll_rpc, protoRPCRe, inProto_rpc.findAll_ending, List.map_cons,
    List.map_append, List.map_map]
  rfl

theorem rpcNames_rpcs :
    rpcNames (rs.flatMap Rpc.render ++ l) = rs.flatMap Rpc.names ++ rpcNames l := by
  induction rs with
  | nil => rfl
  | cons r rs ih =>
    rw [List.flatMap_cons, List.append_assoc, rpcNames_rpc, ih, List.flatMap_cons,
      List.append_assoc]

/-- What stands behind the rpcs of a block. -/
theorem skips_end {h : Header Char} (hp : InProto h) :
    Skips h.pattern l ('}' :: (s.after.chars ++ l)) :=
  .trans (hp.skips_mark _ (by decide)) (hp.skips_blanks l s.after)

theorem body_append : s.body ++ l =
    s.inside.chars ++ (s.rpcs.flatMap Rpc.render ++ '}' :: (s.after.chars ++ l)) := by
  simp [Service.body]

theorem rpcNames_body : rpcNames (s.body ++ l) = s.rpcs.flatMap Rpc.names ++ rpcNames l := by
  have hinside := (inProto_rpc.skips_blanks
    (s.rpcs.flatMap Rpc.render ++ '}' :: (s.after.chars ++ l)) s.inside).findAll
  have hend : rpcNames ('}' :: (s.after.chars ++ l)) = rpcNames l :=
    congrArg (List.map _) (skips_end s l inProto_rpc).findAll
  rw [body_append, rpcNames, protoRPCRe, hinside, ← protoRPCRe, ← rpcNames, rpcNames_rpcs, hend]

theorem rpcNames_service :
    rpcNames (s.render ++ l) = s.rpcs.flatMap Rpc.names ++ rpcNames l := by
  rw [Service.render, List.append_assoc, rpcNames, (skips_header s _).findAll, ← rpcNames,
    rpcNames_body]

theorem found_rpc : found (r.render ++ l) =
    ((findAll protoServiceRe r.optionText).flatMap fun m =>
      (rpcNames m.rest ++ rpcNames l).map (Prod.mk m.groups)) ++ found l := by
  rw [found, findAll_service_rpc, protoServiceRe, inProto_service.findAll_ending,
    List.flatMap_append, List.flatMap_map]
  refine congrArg₂ _ (List.flatMap_congr fun m _ => ?_) rfl
  rw [Found.extend, rpcNames_barrier]

theorem found_service : found (s.render ++ l) =
    (s.rpcs.flatMap Rpc.names ++ rpcNames l).map (Prod.mk s.name.chars) ++
      found (s.rpcs.flatMap Rpc.render ++ '}' :: (s.after.chars ++ l)) := by
  have hinside := (inProto_service.skips_blanks
    (s.rpcs.flatMap Rpc.render ++ '}' :: (s.after.chars ++ l)) s.inside).findAll
  rw [Service.render, List.append_assoc, found, findAll_service, List.flatMap_cons,
    ← List.append_assoc, ← Service.render, rpcNames_service, body_append, protoServiceRe, hinside,
    ← protoServiceRe, ← found]

theorem found_end : found ('}' :: (s.after.chars ++ l)) = found l :=
  congrArg (List.flatMap _) (skips_end s l inProto_service).findAll

end Names

/-! ### How many are found -/

section Counting

variable (rs : List Rpc) (l : List Char)

/-- **Each header in the options of an rpc finds the rpcs behind it.** -/
theorem le_length_found_rpcs :
    (found l).length + (rs.dropLast.map fun r => (findAll protoServiceRe r.optionText).length).sum ≤
      (found (rs.flatMap Rpc.render ++ l)).length := by
  induction rs with
  | nil => exact Nat.le_refl _
  | cons r rs ih =>
    rw [List.flatMap_cons, List.append_assoc, found_rpc, List.length_append]
    cases rs with
    | nil => exact (Nat.le_add_left _ _).trans (Nat.add_le_add_left ih _)
    | cons r' rs =>
      have hone : ∀ m ∈ findAll protoServiceRe r.optionText, 1 ≤ ((rpcNames m.rest ++
          rpcNames ((r' :: rs).flatMap Rpc.render ++ l)).map (Prod.mk m.groups)).length := by
        intro m _
        rw [rpcNames_rpcs, List.flatMap_cons, Rpc.names]
        simp only [List.length_map, List.length_append, List.length_cons]
        omega
      have hsum : (findAll protoServiceRe r.optionText).length ≤
          ((findAll protoServiceRe r.optionText).flatMap fun m => (rpcNames m.rest ++
            rpcNames ((r' :: rs).flatMap Rpc.render ++ l)).map (Prod.mk m.groups)).length := by
        rw [List.length_flatMap]
        have hle := List.length_le_sum_of_one_le _ (List.forall_mem_map.mpr hone)
        rwa [List.length_map] at hle
      rw [List.dropLast_cons_cons, List.map_cons, List.sum_cons]
      omega

theorem length_flatMap_names : (rs.flatMap Rpc.names).length =
    rs.length + (rs.map fun r => (rpcNames r.optionText).length).sum := by
  induction rs with
  | nil => rfl
  | cons r rs ih =>
    rw [List.flatMap_cons, List.length_append, ih, Rpc.names]
    simp only [List.length_cons, List.map_cons, List.sum_cons]
    omega

/-- How many rpcs services declare. -/
def declaredCount (ss : List Service) : ℕ := (ss.map fun s => s.rpcs.length).sum

theorem declaredCount_le_rpcNames (ss : List Service) :
    declaredCount ss ≤ (rpcNames (ss.flatMap Service.render)).length := by
  induction ss with
  | nil => exact Nat.zero_le _
  | cons s ss ih =>
    have hnames := length_flatMap_names s.rpcs
    rw [List.flatMap_cons, rpcNames_service, List.length_append, declaredCount, List.map_cons,
      List.sum_cons, ← declaredCount]
    omega

/-- What a block and the blocks behind it are given. -/
theorem le_length_found_service (s : Service) (ss : List Service) :
    (s.rpcs.flatMap Rpc.names).length + (rpcNames (ss.flatMap Service.render)).length +
        (found (ss.flatMap Service.render)).length +
          (s.rpcs.dropLast.map fun r => (findAll protoServiceRe r.optionText).length).sum ≤
      (found ((s :: ss).flatMap Service.render)).length := by
  have hle := le_length_found_rpcs s.rpcs
    ('}' :: (s.after.chars ++ ss.flatMap Service.render))
  rw [found_end] at hle
  rw [List.flatMap_cons, found_service, List.length_append, List.length_map, List.length_append]
  omega

theorem declaredCount_le_found (ss : List Service) :
    declaredCount ss ≤ (found (ss.flatMap Service.render)).length := by
  induction ss with
  | nil => exact Nat.zero_le _
  | cons s ss ih =>
    have hle := le_length_found_service s ss
    have hnames := length_flatMap_names s.rpcs
    rw [declaredCount, List.map_cons, List.sum_cons, ← declaredCount]
    omega

end Counting

/-! ### Messages -/

section Messages

variable (l : List Char)

/-- The header of a type behind the modifier. -/
def streamHeader : Header Char where
  keyword := "stream".toList
  blank := isBlank
  word := isTypeChar
  close := ')'
  keyword_ne_nil := by decide
  word_keyword := List.all_eq_true.mp (by decide)
  word_of_blank c h := by
    by_contra hc
    exact Bool.false_ne_true ((not_isBlank_of_isTypeChar (Bool.not_eq_false _ ▸ hc)).symm.trans h)
  word_close := by decide
  blank_close := by decide

/-- What the optional group needs to match. -/
theorem streamedRe_eq_none {l : List Char} (h : streamHeader.pattern l = none) :
    streamedRe l = none := by
  rw [Header.pattern, bind_apply] at h
  rw [streamedRe, bind_apply, streamModifier, bind_apply]
  rcases hlit : lit streamHeader.keyword l with _ | m
  · rw [show lit "stream".toList l = none from hlit]
    rfl
  · rw [show lit "stream".toList l = some m from hlit, Option.bind_some, bind_apply]
    rw [hlit, Option.bind_some, bind_apply] at h
    rcases hblank : many1 isBlank m.2 with _ | n
    · rfl
    · rw [show many1 streamHeader.blank m.2 = some n from hblank, Option.bind_some] at h
      rw [Option.bind_some, pure_apply, Option.bind_some, bind_apply]
      have hname : typeName n.2 = none := h
      rw [hname, Option.bind_none]

theorem typeName_append (t : TypeName) (b : Blanks) :
    typeName (t.chars ++ (b.chars ++ ')' :: l)) = some (t.chars, l) := by
  have hafter : ∀ c ∈ (b.chars ++ ')' :: l).head?, isTypeChar c = false :=
    Header.head?_blanks (fun c hc => streamHeader.word_of_blank c (b.blank c hc)) (by decide)
  have hmark : ∀ c ∈ (')' :: l).head?, isBlank c = false := by
    rintro c ⟨⟩
    decide
  rw [typeName, bind_apply, Search.many1_append t.ne_nil t.typed hafter, Option.bind_some,
    bind_apply, Search.many_append b.blank hmark, Option.bind_some, bind_apply,
    Search.lit_singleton, Option.bind_some, pure_apply]

theorem head?_type (t : TypeName) : ∀ c ∈ (t.chars ++ l).head?, isBlank c = false := by
  obtain ⟨c, w, hw⟩ := List.exists_cons_of_ne_nil t.ne_nil
  rw [hw]
  rintro d ⟨⟩
  exact not_isBlank_of_isTypeChar (t.typed c (hw ▸ List.mem_cons_self))

/-- **A message is read**, with its modifier. -/
theorem messageRe_append (m : Message) :
    messageRe (m.modifier ++ (m.type.chars ++ (m.after.chars ++ ')' :: l))) =
      some ((m.modifier, m.type.chars), l) := by
  rcases hstream : m.stream with _ | gap
  · have hno : streamHeader.pattern (m.type.chars ++ (m.after.chars ++ ')' :: l)) = none :=
      Header.pattern_word (fun c hc => not_isBlank_of_isTypeChar (m.type.typed c hc)) m.after.blank
        (by decide) (by decide) l
    rw [Message.modifier, hstream, Option.elim_none, List.nil_append, messageRe, orElse_apply,
      streamedRe_eq_none hno, bind_apply, typeName_append]
    rfl
  · rw [Message.modifier, hstream, Option.elim_some, List.append_assoc, messageRe, orElse_apply,
      streamedRe, bind_apply, streamModifier, bind_apply, Search.lit_append, Option.bind_some,
      bind_apply, Search.many1_append gap.ne_nil gap.blank (head?_type _ _), Option.bind_some,
      pure_apply,
      Option.bind_some, bind_apply, typeName_append]
    rfl

/-- The groups of an rpc. -/
def Rpc.groups (r : Rpc) : ShapeMatch :=
  ⟨r.method.chars, r.request.modifier, r.request.type.chars, r.response.modifier,
    r.response.type.chars⟩

theorem many_blanks (b : Blanks) {l : List Char} (hl : ∀ c ∈ l.head?, isBlank c = false) :
    many isBlank (b.chars ++ l) = some (b.chars, l) := Search.many_append b.blank hl

theorem head?_message (m : Message) : ∀ c ∈
    (m.modifier ++ (m.type.chars ++ (m.after.chars ++ ')' :: l))).head?, isBlank c = false := by
  rcases hstream : m.stream with _ | gap
  · rw [Message.modifier, hstream]
    exact head?_type _ m.type
  · rw [Message.modifier, hstream]
    rintro d ⟨⟩
    decide

theorem protoRPCShapeRe_render (r : Rpc) :
    protoRPCShapeRe (r.render ++ l) = some (r.groups, r.ending ++ l) := by
  have hsignature : r.signature ++ (r.ending ++ l) = r.request.before.chars ++
      (r.request.modifier ++ (r.request.type.chars ++ (r.request.after.chars ++ ')' ::
        (r.beforeReturns.chars ++ ("returns".toList ++ (r.afterReturns.chars ++ '(' ::
          (r.response.before.chars ++ (r.response.modifier ++ (r.response.type.chars ++
            (r.response.after.chars ++ ')' :: (r.ending ++ l))))))))))) := by
    simp [Rpc.signature, Message.render]
  have hreturns : ∀ t, ∀ c ∈ ("returns".toList ++ t).head?, isBlank c = false := by
    rintro t c ⟨⟩
    decide
  have hmark : ∀ t, ∀ c ∈ ('(' :: t).head?, isBlank c = false := by
    rintro t c ⟨⟩
    decide
  rw [protoRPCShapeRe, bind_apply, protoRPCRe_render, Option.bind_some, hsignature, bind_apply,
    many_blanks _ (head?_message _ _), Option.bind_some, bind_apply, messageRe_append,
    Option.bind_some, bind_apply, many_blanks _ (hreturns _), Option.bind_some, bind_apply,
    Search.lit_append, Option.bind_some, bind_apply, many_blanks _ (hmark _), Option.bind_some,
    bind_apply, Search.lit_singleton, Option.bind_some, bind_apply,
    many_blanks _ (head?_message _ _), Option.bind_some, bind_apply, messageRe_append,
    Option.bind_some, pure_apply]
  rfl

/-- Where no rpc begins, none begins with its messages. -/
theorem protoRPCShapeRe_eq_none {l : List Char} (h : protoRPCRe l = none) :
    protoRPCShapeRe l = none := by
  rw [protoRPCShapeRe, bind_apply, h, Option.bind_none]

end Messages

/-! ### What is extracted -/

theorem isStream_modifier (m : Message) : isStream m.modifier = m.stream.isSome := by
  rcases hstream : m.stream with _ | gap
  · rw [Message.modifier, hstream]
    decide
  · have hspace : ∀ c ∈ gap.chars, GoString.isSpace c = true := by
      intro c hc
      have hmem : c ∈ [' ', '\t', '\n', '\x0c', '\r'] := of_decide_eq_true (gap.blank c hc)
      have hall : [' ', '\t', '\n', '\x0c', '\r'].all GoString.isSpace = true := by decide
      exact List.all_eq_true.mp hall c hmem
    have htrim : GoText.trimSpace "stream".toList = "stream".toList := by decide
    rw [Message.modifier, hstream, Option.elim_some, isStream,
      GoText.trimSpace_append_blanks hspace, htrim, decide_eq_true rfl]
    rfl

theorem endpointOf_providerMeta (service method : List Char) (shape : RPCShape) :
    endpointOf (providerMeta service method (some shape)) =
      { service := String.ofList service
        method := String.ofList method
        requestType := String.ofList shape.requestType
        responseType := String.ofList shape.responseType
        requestStream := shape.requestStream
        responseStream := shape.responseStream } := by
  obtain ⟨requestType, responseType, requestStream, responseStream⟩ := shape
  cases requestStream <;> cases responseStream <;>
    simp [endpointOf, providerMeta, withShape, Metadata.getStr, -AList.insert_empty]

theorem endpointOf_rpc (s : Service) (r : Rpc) :
    endpointOf (providerMeta s.name.chars r.method.chars (some r.groups.shape)) = s.endpoint r := by
  rw [endpointOf_providerMeta, Rpc.groups, ShapeMatch.shape, isStream_modifier, isStream_modifier,
    Service.endpoint]

/-- The contracts are the pairs that are found, with the messages of their methods. -/
theorem map_extractProtoProviders (filePath : String) (text : List Char) :
    ((extractProtoProviders filePath text).map fun c => (c.id, endpointOf c.metadata)) =
      (found text).map fun p => (providerID (String.ofList p.1) (String.ofList p.2),
        endpointOf (providerMeta p.1 p.2 ((shapesOf text).lookup p.2))) := by
  rw [extractProtoProviders, found, List.map_flatMap, List.map_flatMap]
  refine List.flatMap_congr fun m hm => ?_
  dsimp only
  rw [Search.drop_start hm, List.map_map, rpcNames, List.map_map, List.map_map]
  rfl

theorem found_render (f : ProtoFile) :
    found f.render = found (f.services.flatMap Service.render) :=
  congrArg (List.flatMap _) (inProto_service.skips_blanks _ f.before).findAll

/-! ### One block -/

section OneBlock

variable {rs : List Rpc} {l : List Char}

/-- Rpcs whose options hold no header find nothing by themselves. -/
theorem found_rpcs (hrpc : ∀ r ∈ rs, findAll protoRPCRe r.optionText = [])
    (hservice : ∀ r ∈ rs.dropLast, findAll protoServiceRe r.optionText = [])
    (hl : rpcNames l = []) : found (rs.flatMap Rpc.render ++ l) = found l := by
  induction rs with
  | nil => rfl
  | cons r rs ih =>
    rw [List.forall_mem_cons] at hrpc
    rw [List.flatMap_cons, List.append_assoc, found_rpc]
    cases rs with
    | nil =>
      rw [List.flatMap_nil, List.nil_append, hl]
      have hnone : ∀ m ∈ findAll protoServiceRe r.optionText,
          (rpcNames m.rest ++ []).map (Prod.mk m.groups) = [] := by
        intro m hm
        have hrest : rpcNames m.rest = [] := by
          have hsuffix := Search.findAll_eq_nil_of_suffix (Search.rest_suffix hm) hrpc.1
          rw [rpcNames, hsuffix, List.map_nil]
        rw [hrest]
        rfl
      rw [List.flatMap_eq_nil_iff.mpr hnone, List.nil_append]
    | cons r' rs =>
      rw [List.dropLast_cons_cons, List.forall_mem_cons] at hservice
      rw [hservice.1, List.flatMap_nil, List.nil_append, ih hrpc.2 hservice.2]

/-- Blocks without rpcs are skipped by the search for rpcs. -/
theorem skips_services {ss : List Service} (h : ∀ s ∈ ss, s.rpcs = []) :
    Skips protoRPCRe [] (ss.flatMap Service.render) := by
  induction ss with
  | nil => exact .refl
  | cons s ss ih =>
    rw [List.forall_mem_cons] at h
    have hbody : Skips protoRPCRe (ss.flatMap Service.render)
        (s.body ++ ss.flatMap Service.render) := by
      rw [body_append, h.1, List.flatMap_nil, List.nil_append]
      exact .trans (inProto_rpc.skips_blanks _ s.inside) (skips_end s _ inProto_rpc)
    rw [List.flatMap_cons, Service.render, List.append_assoc]
    exact .trans (skips_header s _) (.trans hbody (ih h.2))

theorem found_services {ss : List Service} (h : ∀ s ∈ ss, s.rpcs = []) :
    found (ss.flatMap Service.render) = [] := by
  induction ss with
  | nil => rfl
  | cons s ss ih =>
    rw [List.forall_mem_cons] at h
    have hnames : rpcNames (ss.flatMap Service.render) = [] :=
      congrArg (List.map _) (skips_services h.2).findAll
    rw [List.flatMap_cons, found_service, hnames, h.1, List.flatMap_nil, List.flatMap_nil,
      List.nil_append, List.nil_append, found_end, ih h.2]
    rfl

/-- The rpcs of the first block are found with their messages. -/
theorem groups_rpcs (hrpc : ∀ r ∈ rs, findAll protoRPCRe r.optionText = [])
    (hl : findAll protoRPCShapeRe l = []) :
    (findAll protoRPCShapeRe (rs.flatMap Rpc.render ++ l)).map Found.groups =
      rs.map Rpc.groups := by
  induction rs with
  | nil => rw [List.flatMap_nil, List.nil_append, hl]; rfl
  | cons r rs ih =>
    rw [List.forall_mem_cons] at hrpc
    have hsuffix : r.ending ++ (rs.flatMap Rpc.render ++ l) <:+
        r.render ++ (rs.flatMap Rpc.render ++ l) := by
      rw [Rpc.render, List.append_assoc]
      exact List.suffix_append _ _
    have hlt : (r.ending ++ (rs.flatMap Rpc.render ++ l)).length <
        (r.render ++ (rs.flatMap Rpc.render ++ l)).length := by
      simp only [Rpc.render, List.length_append, List.length_cons]
      omega
    have hending := (inProto_rpc.skips_ending (rs.flatMap Rpc.render ++ l) hrpc.1).of_refines
      fun _ => protoRPCShapeRe_eq_none
    rw [List.flatMap_cons, List.append_assoc,
      Search.findAll_of_match hsuffix hlt (protoRPCShapeRe_render _ r), hending.findAll,
      List.map_cons, ih hrpc.2, List.map_cons]

theorem groups_render {f : ProtoFile} (h : OneBlock f) {s : Service} {ss : List Service}
    (hs : f.services = s :: ss) :
    (findAll protoRPCShapeRe f.render).map Found.groups = s.rpcs.map Rpc.groups := by
  have hrefines : ∀ {t u : List Char}, Skips protoRPCRe u t → Skips protoRPCShapeRe u t :=
    fun hskips => hskips.of_refines fun _ => protoRPCShapeRe_eq_none
  have hss : ∀ s ∈ ss, s.rpcs = [] := by
    have hfirst := h.first
    rwa [hs] at hfirst
  have hl : findAll protoRPCShapeRe ('}' :: (s.after.chars ++ ss.flatMap Service.render)) = [] :=
    (hrefines (.trans (skips_end s _ inProto_rpc) (skips_services hss))).findAll
  rw [ProtoFile.render, (hrefines (inProto_rpc.skips_blanks _ f.before)).findAll, hs,
    List.flatMap_cons, Service.render, List.append_assoc, (hrefines (skips_header s _)).findAll,
    body_append, (hrefines (inProto_rpc.skips_blanks _ s.inside)).findAll]
  exact groups_rpcs (h.rpc s (hs ▸ List.mem_cons_self)) hl

theorem lookup_shapesOf {f : ProtoFile} (h : OneBlock f) {s : Service} {ss : List Service}
    (hs : f.services = s :: ss) {r : Rpc} (hr : r ∈ s.rpcs) :
    (shapesOf f.render).lookup r.method.chars = some r.groups.shape := by
  have hfold : shapesOf f.render = s.rpcs.foldl
      (fun shapes r => shapes.insert r.method.chars r.groups.shape) ∅ := by
    rw [shapesOf, groups_render h hs, List.foldl_map]
    rfl
  rw [hfold]
  exact GoMap.lookup_foldl_insert_of_nodup (fun r => r.groups.shape) s.nodup ∅ hr

end OneBlock

/-! ### The extraction -/

/-- Lists without an element in all of them. -/
theorem eq_nil_of_sum_length {α β : Type} {l : List α} {g : α → List β}
    (h : (l.map fun a => (g a).length).sum = 0) : ∀ a ∈ l, g a = [] := by
  intro a ha
  have hzero := List.sum_eq_zero_iff_forall_eq_nat.mp h
  exact List.length_eq_zero_iff.mp (hzero _ (List.mem_map_of_mem ha))

section Extraction

variable {f : ProtoFile} {s : Service} {ss : List Service}

theorem declared_eq (hs : f.services = s :: ss) (hss : ∀ t ∈ ss, t.rpcs = []) :
    f.declared = s.rpcs.map s.endpoint := by
  have hnone : (ss.flatMap fun t => t.rpcs.map t.endpoint) = [] :=
    List.flatMap_eq_nil_iff.mpr fun t ht => by rw [hss t ht, List.map_nil]
  rw [ProtoFile.declared, hs, List.flatMap_cons, hnone, List.append_nil]

theorem length_declared (hs : f.services = s :: ss) :
    f.declared.length = s.rpcs.length + declaredCount ss := by
  rw [ProtoFile.declared, hs, List.flatMap_cons, List.length_append, List.length_map,
    List.length_flatMap]
  simp only [List.length_map, declaredCount]

/-- With one block, the pairs that are found are the declared ones. -/
theorem found_eq (h : OneBlock f) (hs : f.services = s :: ss) (hss : ∀ t ∈ ss, t.rpcs = []) :
    found f.render = s.rpcs.map fun r => (s.name.chars, r.method.chars) := by
  have hnames : rpcNames (ss.flatMap Service.render) = [] :=
    congrArg (List.map _) (skips_services hss).findAll
  have hend : rpcNames ('}' :: (s.after.chars ++ ss.flatMap Service.render)) = [] :=
    congrArg (List.map _) ((skips_end s _ inProto_rpc).trans (skips_services hss)).findAll
  have hrpc := h.rpc s (hs ▸ List.mem_cons_self)
  have hown : s.rpcs.flatMap Rpc.names = s.rpcs.map fun r => r.method.chars := by
    rw [← List.flatMap_singleton' (s.rpcs.map _), List.flatMap_map]
    refine List.flatMap_congr fun r hr => ?_
    rw [Rpc.names, rpcNames, hrpc r hr, List.map_nil]
  rw [found_render, hs, List.flatMap_cons, found_service, hnames, List.append_nil, hown,
    found_rpcs hrpc (h.service s (hs ▸ List.mem_cons_self)) hend, found_end,
    found_services hss, List.append_nil, List.map_map]
  rfl

/-- **One block is enough.** -/
theorem OneBlock.extractsDeclared (h : OneBlock f) (filePath : String) :
    ExtractsDeclared filePath f := by
  rw [ExtractsDeclared, map_extractProtoProviders]
  rcases hs : f.services with _ | ⟨s, ss⟩
  · rw [found_render, ProtoFile.declared, hs]
    exact List.Perm.refl _
  · have hss : ∀ t ∈ ss, t.rpcs = [] := by
      have hfirst := h.first
      rwa [hs] at hfirst
    rw [found_eq h hs hss, declared_eq hs hss, List.map_map, List.map_map]
    refine List.Perm.of_eq (List.map_congr_left fun r hr => ?_)
    rw [Function.comp_apply, Function.comp_apply, lookup_shapesOf h hs hr, endpointOf_rpc]
    rfl

/-- **More than one block is too much**: what is found outnumbers what is declared, if a block
behind the first one declares an rpc or an option holds a header. -/
theorem ExtractsDeclared.oneBlock {filePath : String} (h : ExtractsDeclared filePath f) :
    OneBlock f := by
  rcases hs : f.services with _ | ⟨s, ss⟩
  · refine ⟨?_, ?_, ?_⟩ <;> rw [hs]
    · exact fun _ h => absurd h List.not_mem_nil
    · exact fun _ h => absurd h List.not_mem_nil
    · exact fun _ h => absurd h List.not_mem_nil
  · have hlen := h.length_eq
    rw [map_extractProtoProviders, List.length_map, List.length_map, found_render, hs,
      length_declared hs] at hlen
    have hle := le_length_found_service s ss
    have hnames := length_flatMap_names s.rpcs
    have hrest := declaredCount_le_rpcNames ss
    have hothers := declaredCount_le_found ss
    have hzero : declaredCount ss = 0 := by omega
    have hoptions : (s.rpcs.map fun r => (rpcNames r.optionText).length).sum = 0 := by omega
    have hheaders : (s.rpcs.dropLast.map fun r =>
        (findAll protoServiceRe r.optionText).length).sum = 0 := by omega
    have hss : ∀ t ∈ ss, t.rpcs = [] := eq_nil_of_sum_length hzero
    refine ⟨?_, ?_, ?_⟩ <;> rw [hs]
    · exact hss
    · refine List.forall_mem_cons.mpr ⟨fun r hr => ?_, fun t ht => ?_⟩
      · exact List.map_eq_nil_iff.mp (eq_nil_of_sum_length hoptions r hr)
      · rw [hss t ht]
        exact fun _ h => absurd h List.not_mem_nil
    · refine List.forall_mem_cons.mpr ⟨eq_nil_of_sum_length hheaders, fun t ht => ?_⟩
      rw [hss t ht]
      exact fun _ h => absurd h List.not_mem_nil

end Extraction

/-- **The extraction gives what is declared just if one block has rpcs.** -/
theorem extractsDeclared_iff (filePath : String) (f : ProtoFile) :
    ExtractsDeclared filePath f ↔ OneBlock f :=
  ⟨fun h => h.oneBlock, fun h => h.extractsDeclared filePath⟩

/-! ### Two services -/

namespace TwoServices

def none : Blanks := ⟨[], List.all_eq_true.mp (by decide)⟩
def newline : Blanks := ⟨['\n'], List.all_eq_true.mp (by decide)⟩
def space : Gap := ⟨⟨[' '], List.all_eq_true.mp (by decide)⟩, by decide⟩

/-- An rpc on a line of its own. -/
def rpc (method : Ident) (request response : TypeName) : Rpc where
  afterKeyword := space
  method := method
  afterMethod := none
  request := ⟨none, .none, request, none⟩
  beforeReturns := space.toBlanks
  afterReturns := space.toBlanks
  response := ⟨none, .none, response, none⟩
  beforeEnd := none
  options := .none
  after := newline

/-- A service with one rpc. -/
def service (name : Ident) (r : Rpc) : Service where
  afterKeyword := space
  name := name
  afterName := space.toBlanks
  inside := newline
  rpcs := [r]
  nodup := List.nodup_singleton _
  after := newline

def users : Ident := ⟨"Users".toList, by decide, List.all_eq_true.mp (by decide)⟩
def orders : Ident := ⟨"Orders".toList, by decide, List.all_eq_true.mp (by decide)⟩
def get : Ident := ⟨"Get".toList, by decide, List.all_eq_true.mp (by decide)⟩
def userID : TypeName := ⟨"UserID".toList, by decide, List.all_eq_true.mp (by decide)⟩
def user : TypeName := ⟨"User".toList, by decide, List.all_eq_true.mp (by decide)⟩
def orderID : TypeName := ⟨"OrderID".toList, by decide, List.all_eq_true.mp (by decide)⟩
def order : TypeName := ⟨"Order".toList, by decide, List.all_eq_true.mp (by decide)⟩

/-- Two services, each with a method of the same name and messages of its own. -/
def file : ProtoFile where
  before := none
  services := [service users (rpc get userID user), service orders (rpc get orderID order)]

/-- **The first service is given the method of the second one**, and the messages of the second
one for its own. -/
theorem not_extractsDeclared : ¬ExtractsDeclared "api.proto" file := by
  intro h
  have hlen := h.length_eq
  revert hlen
  decide +kernel

end TwoServices

end Grpc

end Gortex
