/-
# `dsa::soc::Alert`

The envelope every alert of the pipeline is sent in.
-/
import Mathlib.Tactic.Common

namespace Soc

inductive Severity where
  | low
  | medium
  | high
  | critical
  deriving DecidableEq, Repr

inductive Status where
  | new
  | acknowledged
  | resolved
  | suppressed
  deriving DecidableEq, Repr

/-- `incidentId` is empty at the origin; `details` is JSON text. -/
structure Alert where
  type : String
  source : String
  details : String
  timestampNs : UInt64 := 0
  incidentId : String := ""
  severity : Severity := .medium
  status : Status := .new
  tags : List String
  nodeName : String
  namespace_ : String
  deriving DecidableEq, Repr

end Soc
