import Gortex.Graph.Types

/-!
# API contracts

A contract is one end of an API a repository provides or consumes
(`internal/contracts/contract.go`). Its field `Meta` is `metadata` here and its
field `Type` is `contractType`, the source's own names being reserved words.
-/

namespace Gortex

/-- The kind of an API, such as `http`. The extractors choose the string. -/
structure ContractType where
  str : String
deriving DecidableEq, Repr

/-- Which end of the API the repository is. -/
structure Role where
  str : String
deriving DecidableEq, Repr

/-- A detected API contract. -/
structure Contract where
  id : String
  contractType : ContractType
  role : Role
  symbolID : String
  filePath : String
  line : ℤ
  repoPrefix : String := ""
  metadata : Metadata := ∅
  confidence : ℚ
deriving DecidableEq

end Gortex
