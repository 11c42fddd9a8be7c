import CarolinaDB.EngineRows

/-!
# Admission to the local engine

What is checked of a request before anything is executed: the operation, schema, plan
and contract it names are the active ones, and its arguments have the declared types.
-/
namespace CarolinaDB

namespace Runtime

open CanonValue Storage Lang

section Catalog

/-- What the engine reads of a compiled plan. -/
structure OperationPlan where
  operation : OperationRef
  planRef : PlanRef
  operationHash : OperationHash
  schemaHash : SchemaHash
  contractHash : ContractHash
  family : ConsistencyClass
  /-- The routed template instances, each with the argument that selects it. -/
  instanceKeys : List (String × Option UInt32)

/-- A compiled module with its plans and the closure of each operation. -/
structure LocalCatalog where
  module : ModuleIR
  schemaHash : SchemaHash
  plans : List OperationPlan
  opRecords : FiniteMap OperationRef (List Lang.RecordId)
  opInvariants : FiniteMap OperationRef (List Lang.InvariantId)
  generation : CatalogGeneration

namespace LocalCatalog

/-- The last plan of an operation is the one in use. -/
def planFor (c : LocalCatalog) (op : OperationRef) : Option OperationPlan :=
  (c.plans.filter (·.operation = op)).getLast?

end LocalCatalog

end Catalog

structure LocalEngine where
  catalog : LocalCatalog
  kernel : Kernel
  home : LocalRequestHome
  clusterId : ClusterId
  grantRef : ProtocolRecordRef

namespace LocalEngine

variable {α : Type}

section Invoke

/-- A request that passed admission: the operation it names, its plan and its arguments. -/
structure Admission where
  op : OperationIR
  plan : OperationPlan
  args : List Value

def checkArguments : List Value → List ParameterIR → CoreResult Unit
  | a :: args, p :: ps => do
    a.checkType p.ty
    checkArguments args ps
  | _, _ => .ok ()

/-- The operation, schema, plan and contract a request names are the active ones, and its arguments
are of the declared types. -/
def admitContent (e : LocalEngine) (content : RequestContentV1) : CoreResult Admission := do
  if e.kernel.store.currentReadiness ≠ .ready then
    .error (.new .notReady e.kernel.store.currentReadiness.label)
  else
    let op ← e.catalog.module.operation content.operation
    match e.catalog.planFor op.identity with
    | none => .error (.new .noSafePlan "no active plan")
    | some plan =>
      if content.schemaHash ≠ e.catalog.schemaHash then
        .error (.new .staleSchema "request schema hash is not the active schema")
      else if content.operationHash ≠ plan.operationHash ∨
          content.contractHash ≠ plan.contractHash then
        .error (.new .stalePlan "request operation/contract hash is not the active version")
      else
        match ← Value.fromCanon content.arguments.val with
        | .tuple args =>
          if args.length ≠ op.parameters.length then
            .error (.new .typeMismatch "argument count mismatch")
          else do
            checkArguments args op.parameters
            .ok ⟨op, plan, args⟩
        | _ => .error (.new .typeMismatch "arguments must be a tuple")

end Invoke

end LocalEngine

end Runtime

end CarolinaDB
