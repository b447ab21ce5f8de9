import Gortex.Contracts.Registry
import Gortex.Graph.View
import Gortex.Lib.Fold
import Gortex.Lib.GoString

/-!
# Binding providers to symbols

`internal/contracts/bind.go`: a provider that was read from a specification has no symbol; it is
bound to the method of its repository that implements it, if there is one that stands out. The
comments say that adding the bound contract overwrites the one of its ID, but the registry
appends: a call leaves the unbound contracts where they are, adds a bound copy of each that it
binds (`Gortex.ContractRegistry.bindProviderSymbols_eq`), and binds them again the next time.
-/

namespace Gortex

namespace ContractType

def grpc : ContractType := ⟨"grpc"⟩
def openapi : ContractType := ⟨"openapi"⟩

end ContractType

open GoString

namespace ContractRegistry

/-! ### The receiver of a method -/

/-- A character of a word: `\\w`. -/
def isWordChar (c : Char) : Bool := c.isAlphanum || c = '_'

/-- A blank: `\\s`. -/
def isBlank (c : Char) : Bool := c ∈ [' ', '\t', '\n', '\x0c', '\r']

/-- What follows `func` in a signature with a receiver: opening brackets, the name of the
receiver and its type, which is returned, and a closing bracket. -/
def receiverAt (l : List Char) : Option String :=
  let opening := l.dropWhile isBlank
  let named := (opening.dropWhile (· = '(')).dropWhile isBlank
  let blank := named.dropWhile isWordChar
  let starred := blank.dropWhile isBlank
  let typed := if starred.head? = some '*' then starred.tail else starred
  if opening.head? ≠ some '(' ∨ (named.takeWhile isWordChar) = [] ∨ (blank.takeWhile isBlank) = [] ∨
      (typed.takeWhile isWordChar) = [] ∨
      ((typed.dropWhile isWordChar).dropWhile isBlank).head? ≠ some ')' then none
  else some (String.ofList (typed.takeWhile isWordChar))

/-- The first match of the expression for a receiver, from the left. -/
def goRecvFallback : List Char → Option String
  | [] => none
  | c :: cs =>
    if ['f', 'u', 'n', 'c'].isPrefixOf (c :: cs) then
      (receiverAt ((c :: cs).drop 4)).or (goRecvFallback cs)
    else goRecvFallback cs

/-- The type of the receiver of a method: as it was extracted, or else as the signature has it. -/
def nodeReceiverType (n : Node) : String :=
  if n.metadata.getStr "receiver" ≠ "" then n.metadata.getStr "receiver"
  else (goRecvFallback (n.metadata.getStr "signature").toList).getD ""

/-! ### The candidates -/

/-- The functions and methods of a repository, or of any if none is given. -/
def filterSameRepoMethods (nodes : List Node) (repoPrefix : String) : List Node :=
  nodes.filter fun n => (n.kind = .kindFunction ∨ n.kind = .kindMethod) ∧
    ¬(repoPrefix ≠ "" ∧ n.repoPrefix ≠ repoPrefix)

/-- The only one of some nodes, or the empty ID. -/
def soleID (nodes : List Node) : String :=
  match nodes with
  | [n] => n.id
  | _ => ""

/-- The only candidate with a receiver. -/
def soleWithReceiver (candidates : List Node) (recv : String) : String :=
  soleID (candidates.filter fun n => nodeReceiverType n = recv)

/-- The only candidate of which the receiver contains a text. -/
def soleWithReceiverContaining (candidates : List Node) (sub : String) : String :=
  soleID (candidates.filter fun n => contains (nodeReceiverType n) sub)

/-- The registration call is not looked for: a candidate is taken if it is the only one. -/
def soleInFileMatching (candidates : List Node) : String := soleID candidates

/-- The nodes of a name. -/
def named (g : Graph) (name : String) : List Node := (g.findNodesByName name).map g.node

/-- The first text that is not empty. -/
def firstNonempty (ids : List String) : String := (ids.find? fun id => id ≠ "").getD ""

/-- The symbol of a gRPC provider: the candidates are tried by their receivers, and then by
being the only one. -/
def bindGRPCProvider (c : Contract) (g : Graph) : String :=
  let method := c.metadata.getStr "method"
  let service := c.metadata.getStr "service"
  if method = "" ∨ service = "" then ""
  else
    let candidates := filterSameRepoMethods (named g method) c.repoPrefix
    if candidates = [] then ""
    else
      firstNonempty
        [soleWithReceiver candidates (service ++ "Server"),
          soleWithReceiverContaining candidates "Server", soleInFileMatching candidates,
          soleID candidates]

/-- `strings.Trim`, of some characters. -/
def trimChars (chars : List Char) (l : List Char) : List Char :=
  ((l.dropWhile (· ∈ chars)).reverse.dropWhile (· ∈ chars)).reverse

/-- The last segment of a path, without braces. -/
def lastPathSegment (p : String) : String :=
  let p := trimSuffix p "/"
  let p := (cutLast p "/").elim p Prod.snd
  String.ofList (trimChars ['{', '}'] p.toList)

/-- The symbol of an OpenAPI provider: the only function or method with the name of the
operation, or that of the last segment of its path. -/
def bindOpenAPIProvider (c : Contract) (g : Graph) : String :=
  let operation := c.metadata.getStr "operationId"
  let op := if operation = "" then lastPathSegment (c.metadata.getStr "path") else operation
  if op = "" then "" else soleID (filterSameRepoMethods (named g op) c.repoPrefix)

/-! ### Binding -/

/-- Whether a contract is a provider without a symbol. -/
def unbound (c : Contract) : Bool := c.role = Role.provider ∧ c.symbolID = ""

/-- The symbol of a provider, or the empty ID. -/
def bindTarget (g : Graph) (c : Contract) : String :=
  if c.contractType = .grpc then bindGRPCProvider c g
  else if c.contractType = .openapi then bindOpenAPIProvider c g
  else ""

/-- The state of the loop. -/
structure Binding where
  registry : ContractRegistry
  graph : Graph
  bound : ℕ

/-- The edge from a symbol to the contract it provides. -/
def providesEdge (newID : String) (c : Contract) : Edge where
  fromID := newID
  toID := c.id
  kind := .edgeProvides
  filePath := c.filePath
  line := c.line

/-- One contract. -/
def bindOne (s : Binding) (c : Contract) : Binding :=
  if unbound c = false then s
  else
    let newID := bindTarget s.graph c
    if newID = "" then s
    else
      { registry := s.registry.add { c with symbolID := newID }
        graph :=
          if (s.graph.getNode c.id).isSome = true then s.graph.putEdge (providesEdge newID c)
          else s.graph
        bound := s.bound + 1 }

/-- **BindProviderSymbols.** -/
def bindProviderSymbols (ord : GoMap.RangeOrder ContractRegistry) (r : ContractRegistry)
    (g : Graph) : Binding :=
  (r.all ord).foldl bindOne ⟨r, g, 0⟩

/-! ### What a call does -/

/-- The graph of a binding has the nodes of the one before. -/
theorem named_putEdge (g : Graph) (e : Edge) (name : String) :
    named (g.putEdge e) name = named g name := by
  have h := Graph.EdgeTablesOnly.addEdge (g.newEdge e).2 (g.newEdge e).1
  have htables : ∀ i, ((g.putEdge e).shards i).toNodeTables = (g.shards i).toNodeTables := h.tables
  have hnode : (g.putEdge e).node = g.node := h.node
  rw [named, named, Graph.findNodesByName, Graph.findNodesByName, hnode]
  simp only [htables]

theorem bindTarget_putEdge (g : Graph) (e : Edge) (c : Contract) :
    bindTarget (g.putEdge e) c = bindTarget g c := by
  simp only [bindTarget, bindGRPCProvider, bindOpenAPIProvider, named_putEdge]

/-- Whether a call binds a contract. -/
def binds (g : Graph) (c : Contract) : Bool := unbound c && !decide (bindTarget g c = "")

/-- The bound copy of a contract. -/
def boundCopy (g : Graph) (c : Contract) : Contract := { c with symbolID := bindTarget g c }

theorem bindOne_of_not_binds {g : Graph} {s : Binding} {c : Contract}
    (hs : bindTarget s.graph c = bindTarget g c) (h : binds g c = false) : bindOne s c = s := by
  rcases hun : unbound c with _ | _
  · rw [bindOne, if_pos hun]
  · rw [binds, hun, Bool.true_and, Bool.not_eq_false'] at h
    simp only [bindOne, hun, Bool.true_eq_false, if_false, hs, of_decide_eq_true h, if_true]

theorem bindOne_of_binds {g : Graph} {s : Binding} {c : Contract}
    (hs : ∀ c, bindTarget s.graph c = bindTarget g c) (h : binds g c = true) :
    (bindOne s c).registry = s.registry.add (boundCopy g c) ∧
      (bindOne s c).bound = s.bound + 1 ∧
      ∀ c', bindTarget (bindOne s c).graph c' = bindTarget g c' := by
  obtain ⟨hun, hne⟩ := Bool.and_eq_true_iff.mp h
  rw [Bool.not_eq_true'] at hne
  simp only [bindOne, hun, Bool.true_eq_false, if_false, hs, of_decide_eq_false hne]
  refine ⟨rfl, trivial, fun c' => ?_⟩
  split_ifs
  · rw [bindTarget_putEdge, hs]
  · exact hs c'

/-- The loop adds a bound copy of each contract that it binds. -/
theorem foldl_bindOne {g : Graph} (l : List Contract) (s : Binding)
    (hs : ∀ c, bindTarget s.graph c = bindTarget g c) :
    (l.foldl bindOne s).registry = ((l.filter (binds g)).map (boundCopy g)).foldl add s.registry ∧
      (l.foldl bindOne s).bound = s.bound + (l.filter (binds g)).length := by
  induction l generalizing s with
  | nil => exact ⟨rfl, rfl⟩
  | cons c l ih =>
    cases h : binds g c with
    | false =>
      rw [List.foldl_cons, bindOne_of_not_binds (hs c) h, List.filter_cons_of_neg (by simp [h])]
      exact ih s hs
    | true =>
      obtain ⟨hreg, hbound, hs'⟩ := bindOne_of_binds hs h
      obtain ⟨hregs, hbounds⟩ := ih (bindOne s c) hs'
      rw [List.foldl_cons, List.filter_cons_of_pos h, List.map_cons, List.foldl_cons,
        List.length_cons, hregs, hbounds, hreg, hbound]
      exact ⟨rfl, by omega⟩

/-- **A call adds a bound copy of each contract that it binds**, and nothing else. -/
theorem bindProviderSymbols_eq (ord : GoMap.RangeOrder ContractRegistry) (r : ContractRegistry)
    (g : Graph) :
    (bindProviderSymbols ord r g).registry =
        (((r.all ord).filter (binds g)).map (boundCopy g)).foldl add r ∧
      (bindProviderSymbols ord r g).bound = ((r.all ord).filter (binds g)).length := by
  obtain ⟨hreg, hbound⟩ := foldl_bindOne (r.all ord) ⟨r, g, 0⟩ fun _ => rfl
  exact ⟨hreg, hbound.trans (Nat.zero_add _)⟩

/-! ### The contracts of a registry -/

variable {r : ContractRegistry} {g : Graph}

/-- A registry stores a contract. -/
def Stores (r : ContractRegistry) (c : Contract) : Prop := ∃ id, c ∈ r.ofID id

/-- The number of contracts in a registry. -/
def size (r : ContractRegistry) : ℕ := (r.byID.pairs.map fun p => p.2.length).sum

theorem ofID_add (r : ContractRegistry) (c : Contract) (id : String) :
    (r.add c).ofID id = if id = c.id then r.ofID c.id ++ [c] else r.ofID id := by
  rw [ofID, add, append, GoMap.lookup_insert]
  split_ifs with hid
  · rfl
  · rfl

theorem Stores.add {c : Contract} (h : r.Stores c) (c' : Contract) : (r.add c').Stores c := by
  obtain ⟨id, hc⟩ := h
  refine ⟨id, ?_⟩
  rw [ofID_add]
  split_ifs with hid
  · exact List.mem_append_left _ (hid ▸ hc)
  · exact hc

/-- What is stored stays so. -/
theorem Stores.foldl_add {c : Contract} (h : r.Stores c) (l : List Contract) :
    (l.foldl ContractRegistry.add r).Stores c :=
  List.foldl_invariant (P := fun r : ContractRegistry => r.Stores c) (fun _ c' _ hs => hs.add c') h

/-- What is listed is stored. -/
theorem stores_of_mem_all {ord : GoMap.RangeOrder ContractRegistry} {c : Contract}
    (h : c ∈ r.all ord) : r.Stores c := by
  have hsub : ∀ (l out : List Contract), ∀ c ∈ l.foldl keepFirst out, c ∈ out ∨ c ∈ l := by
    intro l
    induction l with
    | nil => exact fun out c hc => .inl hc
    | cons a l ih =>
      intro out c hc
      rcases ih _ c hc with hc | hc
      · rw [keepFirst] at hc
        split_ifs at hc
        · exact .inl hc
        · refine (List.mem_append.mp hc).imp id fun hc => ?_
          exact List.mem_cons.mpr (.inl (List.mem_singleton.mp hc))
      · exact .inr (List.mem_cons_of_mem a hc)
  obtain ⟨⟨id, l⟩, hp, hc⟩ := List.mem_flatMap.mp ((hsub _ _ c h).resolve_left List.not_mem_nil)
  refine ⟨id, ?_⟩
  rw [ofID, GoMap.mem_pairs.mp (ord.mem.mp hp), Option.getD_some]
  exact hc

/-! ### In place -/

/-- **The providers are bound in place**: there are as many contracts as before, each is one that
was there but for its symbol, no contract is left unbound that was bound, and a second call binds
nothing; whatever the order in which a map is visited. -/
structure BindsInPlace (r : ContractRegistry) (g : Graph) : Prop where
  size_eq : ∀ ord, (bindProviderSymbols ord r g).registry.size = r.size
  fields : ∀ ord c', (bindProviderSymbols ord r g).registry.Stores c' →
    ∃ c, r.Stores c ∧ c' = { c with symbolID := c'.symbolID }
  replaced : ∀ ord, ∀ c ∈ r.all ord, binds g c = true →
    ¬(bindProviderSymbols ord r g).registry.Stores c
  again : ∀ ord ord', (bindProviderSymbols ord' (bindProviderSymbols ord r g).registry
    (bindProviderSymbols ord r g).graph).bound = 0

/-- **That is so exactly if there is nothing to bind.** -/
theorem bindsInPlace_iff (r : ContractRegistry) (g : Graph) :
    BindsInPlace r g ↔ ∀ ord, ∀ c ∈ r.all ord, unbound c = true → bindTarget g c = "" := by
  constructor
  · intro h ord c hc hun
    by_contra hne
    have hbinds : binds g c = true := by
      rw [binds, hun, decide_eq_false hne]
      rfl
    refine h.replaced ord c hc hbinds ?_
    rw [(bindProviderSymbols_eq ord r g).1]
    exact (stores_of_mem_all hc).foldl_add _
  · intro h
    have hnone : ∀ ord, ∀ c ∈ r.all ord, binds g c = false := by
      intro ord c hc
      rw [binds]
      cases hun : unbound c with
      | false => rfl
      | true => rw [decide_eq_true (h ord c hc hun), Bool.true_and, Bool.not_true]
    have hself : ∀ ord, bindProviderSymbols ord r g = ⟨r, g, 0⟩ := by
      intro ord
      refine List.foldl_invariant (P := fun s : Binding => s = ⟨r, g, 0⟩) ?_ rfl
      rintro s c hc rfl
      exact bindOne_of_not_binds rfl (hnone ord c hc)
    refine ⟨fun ord => ?_, fun ord c' hc' => ?_, fun ord c hc hbinds => ?_, fun ord ord' => ?_⟩
    · rw [hself]
    · rw [hself] at hc'
      exact ⟨c', hc', rfl⟩
    · rw [hnone ord c hc] at hbinds
      exact absurd hbinds Bool.false_ne_true
    · rw [hself, hself]

/-! ### A provider that is added again -/

/-- A provider read from the specification of a service. -/
def usersProvider : Contract where
  id := "grpc::Users::GetUser"
  contractType := .grpc
  role := .provider
  symbolID := ""
  filePath := "users.proto"
  line := 3
  repoPrefix := "auth"
  metadata := ((∅ : Metadata).insert "service" (.str "Users")).insert "method" (.str "GetUser")
  confidence := 1

/-- The method that implements it. -/
def usersServer : Graph :=
  Graph.new.putNode
    { id := "auth/server.go::UsersServer.GetUser"
      kind := .kindMethod
      name := "GetUser"
      filePath := "server.go"
      metadata := (∅ : Metadata).insert "receiver" (.str "UsersServer")
      repoPrefix := "auth" }

/-- **A bound provider is there twice**, and is bound again by the next call. -/
theorem not_bindsInPlace_usersProvider :
    ¬BindsInPlace (({} : ContractRegistry).add usersProvider) usersServer := by
  intro h
  have hsize := h.size_eq GoMap.RangeOrder.default
  revert hsize
  decide +kernel

end ContractRegistry

end Gortex
