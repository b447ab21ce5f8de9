import Gortex.Contracts.Contract

/-!
# The contract registry

`internal/contracts/registry.go`: the contracts of a repository, with four indexes.
-/

namespace Gortex

namespace ContractType

def http : ContractType := ⟨"http"⟩
def di : ContractType := ⟨"di"⟩

end ContractType

namespace Role

def provider : Role := ⟨"provider"⟩
def consumer : Role := ⟨"consumer"⟩

end Role

/-- The contracts by ID, by repository, by symbol and by file. -/
structure ContractRegistry where
  byID : GoMap String (List Contract) := ∅
  byRepo : GoMap String (List Contract) := ∅
  bySymbol : GoMap String (List Contract) := ∅
  byFilePath : GoMap String (List Contract) := ∅

namespace ContractRegistry

/-- Append to the list under a key. -/
def append (m : GoMap String (List Contract)) (key : String) (c : Contract) :
    GoMap String (List Contract) :=
  m.insert key ((m.lookup key).getD [] ++ [c])

/-- Insert a contract. -/
def add (r : ContractRegistry) (c : Contract) : ContractRegistry where
  byID := append r.byID c.id c
  byRepo := append r.byRepo c.repoPrefix c
  bySymbol := if c.symbolID ≠ "" then append r.bySymbol c.symbolID c else r.bySymbol
  byFilePath := append r.byFilePath c.filePath c

/-- Insert contracts as contracts of a repository. -/
def addAll (r : ContractRegistry) (contracts : List Contract) (repoPrefix : String) :
    ContractRegistry :=
  contracts.foldl (fun r c => r.add { c with repoPrefix := repoPrefix }) r

/-- The key by which `all` tells contracts apart. -/
def dedupKey (c : Contract) : String :=
  c.id ++ "|" ++ c.filePath ++ "|" ++ c.symbolID ++ "|" ++ c.role.str

/-- Append a contract unless one of its key is there. -/
def keepFirst (out : List Contract) (c : Contract) : List Contract :=
  if dedupKey c ∈ out.map dedupKey then out else out ++ [c]

/-- Every contract, the first of each key; `ord` is the order in which the loop visits
the IDs. -/
def all (r : ContractRegistry) (ord : GoMap.RangeOrder ContractRegistry) : List Contract :=
  ((ord.order r r.byID.pairs).flatMap Prod.snd).foldl keepFirst []

/-- The contracts of an ID. -/
def ofID (r : ContractRegistry) (id : String) : List Contract := (r.byID.lookup id).getD []

end ContractRegistry

end Gortex
