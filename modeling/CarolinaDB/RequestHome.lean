import CarolinaDB.Requests
import CarolinaDB.StoreCalls

/-!
# The kernel and the request home of an engine
-/
namespace CarolinaDB.Runtime

open CanonValue Storage

/-- A store with what its buffer pool does at each commit to come. -/
structure Kernel where
  store : Store
  pressures : ℕ → Pressure

structure LocalRequestHome where
  homeId : RequestHomeId
  epoch : RequestHomeEpoch
  nextSeq : UInt64
  /-- Revision of the home's own record, on which allocations are conditioned. -/
  stateRev : RecordRevision

end CarolinaDB.Runtime
