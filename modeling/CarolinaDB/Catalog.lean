import CarolinaDB.CatalogRecords

/-!
# The catalog state machine

The control plane applies committed log entries in order. A command is one atomic
compare-and-set: every expectation, predicate and mutation is checked against the
state before the command, and only then are the mutations applied in turn.
-/
namespace CarolinaDB

open CanonValue

instance transCmpAdminRequestId : Std.TransCmp (@compare AdminRequestId LinearOrder.toOrd) :=
  transCmp_compare

structure Catalog where
  entries : FiniteMap CatalogKey CatalogEntry
  generation : UInt64
  appliedIndex : UInt64
  genesis : Option BootstrapManifest
  results : FiniteMap AdminRequestId CatalogCommit

namespace Catalog

def new : Catalog := ⟨∅, 0, 0, none, ∅⟩

/-- The live entry of a key. -/
def get (s : Catalog) (key : CatalogKey) : Option CatalogEntry :=
  s.entries[key]?.filter fun e => e.state = .live

def grant (s : Catalog) (id : GrantId) : Option AuthorityGrant :=
  (s.get (.authority id)).bind fun e => (AuthorityGrant.fromCanon e.value.val).toOption

/-- Bootstrap administration is the only administrative authority. -/
def adminAllowed (s : Catalog) (principal : PrincipalId) : Bool :=
  s.genesis.any fun m => m.bootstrapAdmin = principal

def liveEntries (s : Catalog) : List CatalogEntry :=
  s.entries.values.filter fun e => e.state = .live

/-- A live permission grant that is stored under its own id, is active, is under the policy of the
genesis and satisfies `allows`. -/
def grantAllows (s : Catalog) (allows : PermissionGrant → Bool) : Bool :=
  s.liveEntries.any fun e =>
    match e.key with
    | .permissionGrant keyId =>
      match PermissionGrant.fromCanon e.value.val with
      | .ok g => g.grantId = keyId && g.active && allows g &&
          s.genesis.any fun m => m.securityPolicy = g.securityPolicy
      | .error _ => false
    | _ => false

def invokeAllowed (s : Catalog) (principal : PrincipalId) (tenant : TenantId)
    (ns : RequestNamespace) (operation : OperationRef) : Bool :=
  s.grantAllows fun g => g.allowInvoke && g.principal = principal && g.tenant = tenant &&
    g.requestNamespace = ns && g.operations.contains operation

/-- A node may execute under a grant while the grant is active and admits it. -/
def admissionAllowed (s : Catalog) (grant : GrantId) (node : NodeId) : Bool :=
  match s.grant grant with
  | some g => g.state = .active && g.admittedNodes.contains node
  | none => false

/-- The records a scope lock holds; a value that has none locks nothing. -/
def lockRecords (value : CanonTree) : List RecordId :=
  match (do decodeSet (← value.val.field "records") : CoreResult (List RecordId)) with
  | .ok records => records
  | .error _ => []

section Validate

def checkExpected (s : Catalog) (x : Expectation) : Except String Unit :=
  match s.entries[x.key]?, x.expected with
  | none, .absent => .ok ()
  | some e, .absent =>
    if e.state = .tombstoned then .error "CatalogCasConflict:tombstoned"
    else .error "CatalogCasConflict:present"
  | some e, .revision r d =>
    if e.state ≠ .live ∨ e.revision ≠ r ∨ e.digest ≠ d then .error "CatalogCasConflict:revision"
    else .ok ()
  | none, .revision _ _ => .error "CatalogCasConflict:absent"

/-- The entry is a scope lock of the tenant on one of the records. -/
def locks (tenant : TenantId) (records : List RecordId) (e : CatalogEntry) : Bool :=
  match e.key with
  | .scopeLock t _ => t = tenant && (lockRecords e.value).any records.contains
  | _ => false

def checkPredicate (s : Catalog) : Predicate → Except String Unit
  | .noScopeOverlap tenant records =>
    if s.liveEntries.any (locks tenant records) then .error "ScopeLocked" else .ok ()
  | .grantInState id state =>
    match s.grant id with
    | some g => if g.state = state then .ok () else .error "StaleAuthorityBinding"
    | none => .error "StaleAuthorityBinding:missing"
  | .namespaceLive tenant ns =>
    match s.entries[CatalogKey.namespace tenant ns]? with
    | some e =>
      if e.state = .tombstoned ∨
          (do (← e.value.val.field "retired").asBool : CoreResult Bool) = .ok true then
        .error "NamespaceRetired"
      else .ok ()
    | none => .ok ()

/-- The checks on the content of a new permission grant. -/
def checkPermission (s : Catalog) (id : GrantId) (value : CanonTree) : Except String Unit :=
  match PermissionGrant.fromCanon value.val with
  | .error _ => .error "InvalidPermissionGrant:encoding"
  | .ok g =>
    if g.grantId ≠ id then .error "InvalidPermissionGrant:identity"
    else if ¬ s.genesis.any fun m => g.securityPolicy = m.securityPolicy then
      .error "InvalidPermissionGrant:security-policy"
    else if g.operations = [] then .error "InvalidPermissionGrant:empty-operations"
    else .ok ()

def checkMutation (s : Catalog) : Mutation → Except String Unit
  | .putImmutable key value =>
    match s.entries[key]? with
    | some e =>
      if e.state = .tombstoned then .error "ArtifactIdentityConflict:tombstoned"
      else .error "ArtifactIdentityConflict:present"
    | none =>
      match key with
      | .permissionGrant id => s.checkPermission id value
      | _ => .ok ()
  | .advancePointer key _ =>
    match s.entries[key]? with
    | some e => if e.state = .tombstoned then .error "CatalogCasConflict:tombstoned" else .ok ()
    | none => .ok ()
  | .advanceGrantState id old new =>
    match s.grant id with
    | some g =>
      if g.state = old ∧ old.canAdvanceTo new then .ok ()
      else .error ("StaleAuthorityBinding:" ++ g.state.label ++ "->" ++ new.label)
    | none => .error "StaleAuthorityBinding:missing"
  | .tombstone key =>
    if s.entries[key]?.map CatalogEntry.state ≠ some .live then .error "CatalogCasConflict:absent"
    else .ok ()

/-- Everything a command requires, against the committed state. -/
def validate (s : Catalog) (c : CatalogCommand) : Except String Unit := do
  if ¬ s.adminAllowed c.principal then .error "AuthorizationDenied"
  else do
    c.expected.forM s.checkExpected
    c.predicates.forM s.checkPredicate
    c.mutations.forM s.checkMutation

end Validate

section Apply

/-- The key a mutation reports as changed. -/
def changedKey : Mutation → CatalogKey
  | .putImmutable key _ => key
  | .advancePointer key _ => key
  | .advanceGrantState id _ _ => .authority id
  | .tombstone key => key

def applyMutation (rev : CatalogGeneration) (entries : FiniteMap CatalogKey CatalogEntry) :
    Mutation → FiniteMap CatalogKey CatalogEntry
  | .putImmutable key value => entries.insert key ⟨key, rev, .live, value⟩
  | .advancePointer key value => entries.insert key ⟨key, rev, .live, value⟩
  | .advanceGrantState id _ new =>
    match entries[CatalogKey.authority id]? with
    | some e =>
      match AuthorityGrant.fromCanon e.value.val with
      | .ok g => entries.insert (.authority id)
          { e with value := { g with state := new }.tree, revision := rev }
      | .error _ => entries
    | none => entries
  | .tombstone key =>
    entries.insert key ⟨key, rev, .tombstoned,
      (entries[key]?.map CatalogEntry.value).getD ⟨.null, rfl⟩⟩

/-- The entry a successful command leaves of itself. -/
def adminEntry (c : CatalogCommand) (rev : CatalogGeneration) (logIndex : UInt64) : CatalogEntry :=
  { key := .adminCommand c.adminRequestId
    revision := rev
    state := .live
    value := ⟨build [("command_hash", toCanon c.commandHash), ("log_ref", toCanon logIndex)],
      sorted_build (by simp)⟩ }

/-- The entries after the mutations of a command, one after the other, and its own entry. -/
def mutate (s : Catalog) (logIndex : UInt64) (c : CatalogCommand) :
    FiniteMap CatalogKey CatalogEntry :=
  let rev := s.generation + 1
  (c.mutations.foldl (applyMutation rev) s.entries).insert (.adminCommand c.adminRequestId)
    (adminEntry c rev logIndex)

/-- A result that changed nothing. -/
def refusal (s : Catalog) (logIndex : UInt64) (c : CatalogCommand) (code : String) :
    CatalogCommit :=
  { adminRequestId := c.adminRequestId
    commandHash := c.commandHash
    catalogGeneration := s.generation
    changedKeys := []
    committedLogRef := logIndex
    failure := some code }

def success (s : Catalog) (logIndex : UInt64) (c : CatalogCommand) : CatalogCommit :=
  { adminRequestId := c.adminRequestId
    commandHash := c.commandHash
    catalogGeneration := s.generation + 1
    changedKeys := c.mutations.map changedKey
    committedLogRef := logIndex
    failure := none }

def applyCommand (s : Catalog) (logIndex : UInt64) (c : CatalogCommand) :
    CatalogCommit × Catalog :=
  match s.results[c.adminRequestId]? with
  | some prev =>
    if prev.commandHash = c.commandHash then (prev, s)
    -- not retained: the original result stays
    else (s.refusal logIndex c "IdentityConflict", s)
  | none =>
    match s.validate c with
    | .error code =>
      let commit := s.refusal logIndex c code
      (commit, { s with results := s.results.insert c.adminRequestId commit })
    | .ok () =>
      let commit := s.success logIndex c
      (commit,
        { s with
          entries := s.mutate logIndex c
          generation := s.generation + 1
          results := s.results.insert c.adminRequestId commit })

/-- The entry of a voter at genesis. -/
def voterEntry (rev : CatalogGeneration) (n : NodeId) : CatalogEntry :=
  ⟨.node n, rev, .live, ⟨build [("node_id", toCanon n), ("role", .str "voter")],
    sorted_build (by simp [sorted])⟩⟩

/-- The first committed command of a cluster. -/
def install (s : Catalog) (m : BootstrapManifest) : Catalog :=
  let rev := s.generation + 1
  { s with
    generation := rev
    entries := m.voters.foldl (fun es n => es.insert (.node n) (voterEntry rev n))
      (s.entries.insert .clusterConfig ⟨.clusterConfig, rev, .live, m.tree⟩)
    genesis := some m }

/-- Apply one committed log entry. The hash is the one of the voter's own pinned manifest. -/
def apply (s : Catalog) (logIndex : UInt64) (command : LogCommand)
    (expectedManifestHash : Hash256) : CoreResult (Option CatalogCommit × Catalog) :=
  if logIndex ≤ s.appliedIndex then .ok (none, s) -- replayed after a restart
  else
    match command with
    | .genesis m =>
      if s.genesis.isSome then
        .error (.new .identityConflict "second genesis under an initialized cluster")
      else if ¬ distinctSets m then .error .panicked
      else if m.manifestHash ≠ expectedManifestHash then
        .error (.new .invalidManifest
          "bootstrap manifest hash does not match this voter's pinned manifest")
      else if m.voters.length ≠ 3 then
        .error (.new .invalidManifest "the initial profile requires exactly three voters")
      else .ok (none, { s.install m with appliedIndex := logIndex })
    | .catalog c =>
      if s.genesis.isNone then .error (.new .notReady "catalog command before genesis")
      else if ¬ distinctSets c then .error .panicked
      else
        let (commit, s') := s.applyCommand logIndex c
        .ok (some commit, { s' with appliedIndex := logIndex })

end Apply

/-- The whole state machine in one image. -/
def snapshot (s : Catalog) : CatalogSnapshot :=
  { snapshotVersion := CatalogSnapshot.version
    appliedIndex := s.appliedIndex
    generation := s.generation
    genesis := s.genesis
    entries := s.entries.values
    results := s.results.values }

def restore (s : CatalogSnapshot) : Catalog :=
  { entries := s.entries.foldl (fun es e => es.insert e.key e) ∅
    generation := s.generation
    appliedIndex := s.appliedIndex
    genesis := s.genesis
    results := s.results.foldl (fun rs r => rs.insert r.adminRequestId r) ∅ }

def decodeCommand (bytes : Bytes) : CoreResult LogCommand := Canonical.decode bytes Limits.v1

end Catalog

end CarolinaDB
