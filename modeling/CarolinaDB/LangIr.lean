import CarolinaDB.ValueOrder

/-! Typed intermediate form of the contract language: what the checker produces and
the interpreter runs. -/
namespace CarolinaDB.Lang

namespace Ast

inductive AggregateOp
  | sum | count
  deriving DecidableEq

inductive CmpOp
  | eq | ne | lt | le | gt | ge
  deriving DecidableEq

inductive BinOp
  | add | sub | mul | and | or
  | cmp (c : CmpOp)
  /-- Set membership. -/
  | in_
  deriving DecidableEq

end Ast

open Ast (AggregateOp BinOp CmpOp)

abbrev IndexId := UInt64
abbrev ResourceDeclId := UInt64
abbrev InvariantId := UInt64
abbrev BindingId := ℕ

/-- Which state a row lookup reads. -/
inductive StateRef
  | pre | candidate
  deriving DecidableEq

/-- Expressions; the first argument is the type. -/
inductive ExprIR
  | lit (ty : Ty) (v : Value)
  | param (ty : Ty) (index : ℕ)
  | binding (ty : Ty) (b : BindingId)
  /-- Group key of an aggregate invariant. -/
  | groupKey (ty : Ty)
  /-- Field of a row value. -/
  | field (ty : Ty) (base : ExprIR) (field : FieldId) (name : String)
  /-- Field of an anonymous struct value. -/
  | structField (ty : Ty) (base : ExprIR) (name : String)
  | rowLookup (ty : Ty) (record : RecordId) (key : ExprIR) (state : StateRef)
  | exists_ (ty : Ty) (record : RecordId) (key : ExprIR) (state : StateRef)
  | tuple (ty : Ty) (items : List ExprIR)
  | struct (ty : Ty) (fields : List (String × ExprIR))
  | setLit (ty : Ty) (items : List ExprIR)
  | someOf (ty : Ty) (inner : ExprIR)
  | neg (ty : Ty) (inner : ExprIR)
  | not (ty : Ty) (inner : ExprIR)
  | bin (ty : Ty) (op : BinOp) (lhs rhs : ExprIR)
  | isNone (ty : Ty) (inner : ExprIR)
  | isSome (ty : Ty) (inner : ExprIR)
  | unwrapOr (ty : Ty) (value default : ExprIR)
  | size (ty : Ty) (inner : ExprIR)
  | sumOver (ty : Ty) (var : BindingId) (set value : ExprIR)

structure FieldIR where
  id : FieldId
  name : String
  ty : Ty

structure RecordIR where
  id : RecordId
  name : String
  immutable : Bool
  fields : List FieldIR
  primaryKey : FieldId

structure EnumIR where
  id : EnumId
  name : String
  variants : List String

structure IndexIR where
  id : IndexId
  name : String
  record : RecordId
  fields : List FieldId

structure ResourceIR where
  id : ResourceDeclId
  name : String
  record : RecordId
  available : FieldId
  reserved : FieldId
  reservationRecord : RecordId

inductive InvariantKind
  | lowerBound | upperBound | unique | referential | aggregateLowerBound | aggregateUpperBound
  | conservation | monotonic | stateTransition | causalPrerequisite | arbitrary
  deriving DecidableEq

inductive Purpose
  | valueRead | write | membership | absence | resultRead | authority
  deriving DecidableEq

inductive KeySet
  /-- One key given by an expression; `staticKey` if it depends on parameters only. -/
  | point (key : ExprIR) (staticKey : Bool)
  /-- The entire record. -/
  | all

/-- Rows an operation or invariant touches; no fields means all of them. -/
structure DomainSelector where
  record : RecordId
  keySet : KeySet
  fields : List FieldId
  purpose : Purpose

structure FactSelector where
  record : RecordId
  key : ExprIR

structure OperationFootprint where
  reads : List DomainSelector
  writes : List DomainSelector
  predicates : List DomainSelector
  facts : List FactSelector
  atomicGroups : List (List ℕ)

/-- Scope of an invariant. -/
inductive ScopeExpr
  | perKey (record : RecordId)
  | perGroup (record : RecordId) (groupBy : ExprIR)
  | global (records : List RecordId)

inductive PredicateIR
  | forAll (record : RecordId) (var : BindingId) (filter : Option ExprIR) (predicate : ExprIR)
  | unique (record : RecordId) (var : BindingId) (filter : Option ExprIR) (key : ExprIR)
  | existsReference (child : RecordId) (var : BindingId) (parentKey : ExprIR) (parent : RecordId)
  /-- The bound may mention the group key when there is a grouping. -/
  | aggregate (op : AggregateOp) (record : RecordId) (var : BindingId)
      (filter groupBy : Option ExprIR) (value : ExprIR) (comparison : CmpOp) (bound : ExprIR)
  | transitionPredicate (record : RecordId) (field : FieldId) (enumId : EnumId)
      (edges : List (UInt32 × UInt32))
  /-- Invocations of the operation need a committed row of the fact record whose key is built from
  the arguments at `keyParams`. -/
  | requiresFact (operation : OperationId) (keyParams : List ℕ) (fact : RecordId)

structure InvariantIR where
  id : InvariantId
  name : String
  version : UInt32
  scope : ScopeExpr
  kind : InvariantKind
  predicate : PredicateIR
  dependencies : List DomainSelector
  evaluatorVersion : UInt32

structure ParameterIR where
  name : String
  ty : Ty

inductive ReadKind
  | row (record : RecordId) (key : ExprIR)
  | optionalRow (record : RecordId) (key : ExprIR)
  | exists_ (record : RecordId) (key : ExprIR)
  | scan (record : RecordId) (var : BindingId) (filter : ExprIR)

structure ReadBindingIR where
  binding : BindingId
  name : String
  kind : ReadKind
  ty : Ty

structure PathIR where
  record : RecordId
  key : ExprIR
  field : FieldId

inductive EffectKind
  | assign (path : PathIR) (value : ExprIR)
  | increment (path : PathIR) (amount : ExprIR)
  | decrement (path : PathIR) (amount : ExprIR)
  | insert (record : RecordId) (key : ExprIR) (fields : List (FieldId × ExprIR))
  | delete (record : RecordId) (key : ExprIR)
  | addToSet (path : PathIR) (value : ExprIR)
  | removeFromSet (path : PathIR) (value : ExprIR)
  | compareAndSwap (path : PathIR) (expected value : ExprIR)
  | reserve (resource : ResourceDeclId) (key reservationId amount : ExprIR)
  | release (resource : ResourceDeclId) (key reservationId amount : ExprIR)
  | transferQuantity (source destination : PathIR) (amount : ExprIR)
  | advanceState (path : PathIR) (enumId : EnumId) (expected next : UInt32)
  | emitFact (fact : RecordId) (key : ExprIR) (fields : List (FieldId × ExprIR))

structure EffectIR where
  effectId : ℕ
  guard : Option ExprIR
  kind : EffectKind
  readDependencies : List BindingId

inductive InputVisibility
  | localSnapshot | causalContext | certifiedScope | serialScope

inductive ResultSemantics
  | receipt | snapshotValue | exactOrderedValue

inductive SessionGuarantee
  | readYourWrites | monotonicReads | causalDependencies
  deriving DecidableEq

inductive SessionScope
  | none
  | replicationGroup (name : String)
  | compositeScope (records : List RecordId)

inductive Durability
  | localStable
  | replicatedStable (policy : String)

inductive PartitionOutcome
  | wait | unavailable | authorityUnavailable
  deriving DecidableEq

inductive RefusalSemantics
  | businessPredicate | missingAuthority | missingDependency

inductive ResultScope
  | perKey (record : RecordId) (param : ℕ)
  | perGroup (record : RecordId) (param : ℕ)
  | global (records : List RecordId)

structure ContractIR where
  inputVisibility : InputVisibility
  resultSemantics : ResultSemantics
  resultScope : ResultScope
  session : List SessionGuarantee
  sessionScope : SessionScope
  durability : Durability
  partitionOutcomes : List PartitionOutcome
  authorityRequirements : List String
  refusalSemantics : RefusalSemantics
  requestNamespace : String

structure OperationIR where
  identity : OperationRef
  name : String
  parameters : List ParameterIR
  pre : ExprIR
  reads : List ReadBindingIR
  effects : List EffectIR
  post : ExprIR
  result : ExprIR
  contract : ContractIR
  footprint : OperationFootprint

structure ModuleIR where
  irVersion : UInt32
  languageVersion : UInt32
  keyCodecVersion : UInt32
  records : List RecordIR
  enums : List EnumIR
  indexes : List IndexIR
  resources : List ResourceIR
  invariants : List InvariantIR
  operations : List OperationIR

/-- The first declaration that satisfies a test, or the error that it is unknown. -/
def findDecl {α : Type} (l : List α) (test : α → Bool) (what : String) : CoreResult α :=
  match l.find? test with
  | some a => .ok a
  | none => .error (.new .invalidIr ("unknown " ++ what))

namespace ModuleIR

def operation (m : ModuleIR) (r : OperationRef) : CoreResult OperationIR :=
  findDecl m.operations (·.identity = r) ("operation OperationRef \x7b operation_id: OperationId#" ++
    toString r.operationId ++ ", version: " ++ toString r.version ++ " \x7d")

end ModuleIR

end CarolinaDB.Lang
