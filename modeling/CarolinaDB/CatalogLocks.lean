import CarolinaDB.CatalogGrants

/-!
# Tombstones and scope locks over a run of the catalog

Every check of a command is made against the state before it. Two mutations of
one command are therefore not checked against each other: a key may be tombstoned
and advanced, and two locks may overlap.
-/
namespace CarolinaDB.Catalog

variable {s t u : Catalog} {x : Call} {c : CatalogCommand} {k : CatalogKey}

section Tombstones

/-- The command advances no key after it has tombstoned it, and its own record is not tombstoned,
neither before nor by the command. -/
def KeepsTombstones (s : Catalog) (x : Call) : Prop :=
  ∀ c, TakesEffect s x c →
    (c.mutations.Pairwise fun m m' => ∀ k value, m = .tombstone k → m' ≠ .advancePointer k value) ∧
      ¬ s.Tombstoned (.adminCommand c.adminRequestId) ∧
      .tombstone (.adminCommand c.adminRequestId) ∉ c.mutations

/-- No mutation but an insertion or an update makes a tombstoned key live. -/
lemma tombstoned_applyMutation {es : FiniteMap CatalogKey CatalogEntry} {m : Mutation}
    {rev : CatalogGeneration} (hput : ∀ value, m ≠ .putImmutable k value)
    (hadv : ∀ value, m ≠ .advancePointer k value)
    (h : ∃ e, es[k]? = some e ∧ e.state = .tombstoned) :
    ∃ e, (applyMutation rev es m)[k]? = some e ∧ e.state = .tombstoned := by
  by_cases hk : k = changedKey m
  swap
  · rw [get_applyMutation_of_ne hk]
    exact h
  cases m with
  | putImmutable key value => exact absurd (by rw [hk]; rfl) (hput value)
  | advancePointer key value => exact absurd (by rw [hk]; rfl) (hadv value)
  | tombstone key =>
    subst hk
    exact ⟨_, FiniteMap.get_insert_self, rfl⟩
  | advanceGrantState id old new =>
    subst hk
    obtain ⟨e, he, hstate⟩ := h
    have he' : es[CatalogKey.authority id]? = some e := he
    simp only [applyMutation, he']
    cases AuthorityGrant.fromCanon e.value.val with
    | error err => exact ⟨e, he, hstate⟩
    | ok g => exact ⟨_, FiniteMap.get_insert_self, hstate⟩

/-- A key that a command tombstones is tombstoned after it. -/
lemma tombstoned_foldl {es : FiniteMap CatalogKey CatalogEntry} {ms : List Mutation}
    {rev : CatalogGeneration} (hms : ∀ m ∈ ms, ∀ value, m ≠ .putImmutable k value)
    (hpair : ms.Pairwise fun m m' => ∀ k value, m = .tombstone k → m' ≠ .advancePointer k value)
    (hmem : .tombstone k ∈ ms) :
    ∃ e, (ms.foldl (applyMutation rev) es)[k]? = some e ∧ e.state = .tombstoned := by
  induction ms generalizing es with
  | nil => simp at hmem
  | cons m ms ih =>
    rw [List.pairwise_cons] at hpair
    by_cases hrest : .tombstone k ∈ ms
    · exact ih (fun m' hm' => hms m' (by simp [hm'])) hpair.2 hrest
    have hm : m = .tombstone k := by
      rcases List.mem_cons.mp hmem with h | h
      · exact h.symm
      · exact absurd h hrest
    -- the last tombstone of the key: what follows leaves it
    rw [List.foldl_cons]
    apply foldl_applyMutation (Q := fun es => ∃ e, es[k]? = some e ∧ e.state = .tombstoned)
    · rw [hm]
      exact ⟨_, FiniteMap.get_insert_self, rfl⟩
    intro es' m' hm' hes
    exact tombstoned_applyMutation (hms m' (by simp [hm']))
      (fun value => hpair.1 m' hm' k value hm) hes

lemma tombstoned_of_tombstone (hx : KeepsTombstones s x) (hc : TakesEffect s x c)
    (hmem : .tombstone k ∈ c.mutations) : (s.after x).Tombstoned k := by
  obtain ⟨hpair, -, hown⟩ := hx c hc
  have hne : k ≠ .adminCommand c.adminRequestId := by
    rintro rfl
    exact hown hmem
  obtain ⟨e₀, he₀⟩ := live_of_tombstone (hc.mutation _ hmem)
  have hput : ∀ m ∈ c.mutations, ∀ value, m ≠ .putImmutable k value := by
    -- an insertion needs the key to be absent
    rintro m hm value rfl
    have := entries_eq_none_of_putImmutable (hc.mutation _ hm)
    rw [(get_eq_some_iff.mp he₀).1] at this
    cases this
  obtain ⟨e, he, hstate⟩ := tombstoned_foldl hput hpair hmem
  refine ⟨e, ?_, hstate⟩
  rw [after_of_takesEffect hc]
  exact (get_mutate_of_ne hne).trans he

lemma Run.tombstoned (hs : s.Pristine) (h : Run KeepsTombstones s t) (hk : s.Tombstoned k) :
    t.Tombstoned k := by
  have hboth := h.keeps (fun t => t.Pristine ∧ t.Tombstoned k) ⟨hs, hk⟩ ?_
  · exact hboth.2
  rintro u x hx ⟨hu, hk⟩
  refine ⟨pristine_after hu, tombstoned_after hk ?_ ?_⟩
  · intro hnone
    obtain ⟨e, he, -⟩ := hk
    rw [hu hnone] at he
    simp at he
  · rintro c hc rfl
    exact (hx c hc).2.1 hk

/-- Tombstones are permanent over every run in which no command advances a key it has tombstoned or
rewrites its own tombstoned record: a key tombstoned by a command is tombstoned in the state after
that command and in every later one. -/
theorem tombstones_permanent (hs : Run KeepsTombstones new s) (hx : KeepsTombstones s x)
    (hc : TakesEffect s x c) (hk : .tombstone k ∈ c.mutations)
    (hu : Run KeepsTombstones (s.after x) u) : u.Tombstoned k ∧ u.get k = none := by
  have h : u.Tombstoned k :=
    Run.tombstoned (pristine_after hs.pristine) hu (tombstoned_of_tombstone hx hc hk)
  exact ⟨h, h.get_eq_none⟩

/-- Log entry three tombstones the permission grant of entry two. -/
def revokePermission : Call := sampleCall 3 [] [.tombstone (.permissionGrant (sampleId _ 1))]

set_option maxRecDepth 100000 in
theorem tombstones_permanent_revoked :
    ((started.after putPermission).after revokePermission).get (.permissionGrant (sampleId _ 1)) =
      none := by
  have hstart : Run KeepsTombstones new started := by
    apply run_started
    intro c hc
    exact absurd hc not_takesEffect_sampleGenesis
  have hput : KeepsTombstones started putPermission := by
    intro c hc
    rw [takesEffect_sampleCall hc]
    refine ⟨by simp [sampleCommand], ?_, by simp [sampleCommand]⟩
    rintro ⟨e, he, -⟩
    revert he
    rw [show started.entries[CatalogKey.adminCommand (sampleCommand 2 []
      [.putImmutable (.permissionGrant (sampleId _ 1))
        (permissionTree (samplePermission [⟨7, 1⟩]))]).adminRequestId]? = none by decide]
    simp
  have hrevoke : KeepsTombstones (started.after putPermission) revokePermission := by
    intro c hc
    rw [takesEffect_sampleCall hc]
    refine ⟨by simp [sampleCommand], ?_, by simp [sampleCommand]⟩
    rintro ⟨e, he, -⟩
    revert he
    rw [show (started.after putPermission).entries[CatalogKey.adminCommand (sampleCommand 3 []
      [.tombstone (.permissionGrant (sampleId _ 1))]).adminRequestId]? = none by decide]
    simp
  have heffect : TakesEffect (started.after putPermission) revokePermission
      (sampleCommand 3 [] [.tombstone (.permissionGrant (sampleId _ 1))]) :=
    ⟨rfl, by decide, rfl, by decide, by decide, by decide⟩
  exact (tombstones_permanent (hstart.after hput) hrevoke heffect (by simp [sampleCommand]) .refl).2

set_option maxRecDepth 100000 in
/-- One command tombstones a key and makes it live again; and the record of a request that was
inserted by hand and tombstoned is live again once that request is made. -/
theorem tombstoned_key_live_again :
    (∃ s x c k, Run (fun _ _ => True) new s ∧ TakesEffect s x c ∧ .tombstone k ∈ c.mutations ∧
      (s.after x).get k ≠ none) ∧
    ∃ s x y c id, Run (fun _ _ => True) new s ∧ TakesEffect s x c ∧
      .tombstone (.adminCommand id) ∈ c.mutations ∧
      (s.after x).Tombstoned (.adminCommand id) ∧
      ((s.after x).after y).get (.adminCommand id) ≠ none := by
  constructor
  · refine ⟨started.after putPermission, sampleCall 3 [] [.tombstone (.permissionGrant (sampleId _ 1)),
      .advancePointer (.permissionGrant (sampleId _ 1))
        (permissionTree (samplePermission [⟨7, 1⟩]))], _, .permissionGrant (sampleId _ 1),
      (run_started trivial).after trivial,
      ⟨rfl, by decide, rfl, by decide, by decide, by decide⟩,
      by simp [sampleCommand], by decide⟩
  · refine ⟨started.after (sampleCall 2 [] [.putImmutable (.adminCommand (sampleId _ 9)) ⟨.null, rfl⟩]),
      sampleCall 3 [] [.tombstone (.adminCommand (sampleId _ 9))], sampleCall 9 [] [], _, sampleId _ 9,
      (run_started trivial).after trivial,
      ⟨rfl, by decide, rfl, by decide, by decide, by decide⟩,
      by simp [sampleCommand],
      ⟨⟨.adminCommand (sampleId _ 9), 3, .tombstoned, ⟨.null, rfl⟩⟩, by decide, rfl⟩,
      by decide⟩

end Tombstones

section Locks
variable {tenant : TenantId} {scope : SemanticScopeId} {value : CanonTree}

/-- The command writes `value` under `k`. -/
def Writes (c : CatalogCommand) (k : CatalogKey) (value : CanonTree) : Prop :=
  .putImmutable k value ∈ c.mutations ∨ .advancePointer k value ∈ c.mutations

/-- Each scope lock the command writes is covered by one of its overlap predicates. -/
def CoversLocks (c : CatalogCommand) : Prop :=
  ∀ tenant scope value, Writes c (.scopeLock tenant scope) value →
    ∃ records, .noScopeOverlap tenant records ∈ c.predicates ∧
      ∀ r ∈ lockRecords value, r ∈ records

/-- Two scopes the command locks for one tenant have no record in common. -/
def SeparateLocks (c : CatalogCommand) : Prop :=
  ∀ tenant scope scope' value value', Writes c (.scopeLock tenant scope) value →
    Writes c (.scopeLock tenant scope') value' → scope ≠ scope' →
      List.Disjoint (lockRecords value) (lockRecords value')

/-- The commands of a run that takes locks one scope at a time. -/
def LocksCarefully (_ : Catalog) (x : Call) : Prop :=
  ∀ c, x.command = .catalog c → CoversLocks c ∧ SeparateLocks c

/-- The live scope locks of one tenant are on disjoint records. -/
def LocksDisjoint (s : Catalog) : Prop :=
  ∀ tenant scope scope' e e', scope ≠ scope' → s.get (.scopeLock tenant scope) = some e →
    s.get (.scopeLock tenant scope') = some e' →
      List.Disjoint (lockRecords e.value) (lockRecords e'.value)

/-- A live lock after a command was live before it, or the command wrote it. -/
lemma lock_origin {e : CatalogEntry} {i : UInt64}
    (he : (s.mutate i c)[CatalogKey.scopeLock tenant scope]? = some e) (hlive : e.state = .live) :
    s.get (.scopeLock tenant scope) = some e ∨ Writes c (.scopeLock tenant scope) e.value := by
  rw [get_mutate_of_ne (by simp)] at he
  revert e
  apply foldl_applyMutation (Q := fun es => ∀ e, es[CatalogKey.scopeLock tenant scope]? = some e →
    e.state = .live → s.get (.scopeLock tenant scope) = some e ∨
      Writes c (.scopeLock tenant scope) e.value)
  · intro e he hlive
    exact .inl (get_eq_some_iff.mpr ⟨he, hlive⟩)
  intro es m hm hes e he hlive
  by_cases hk : CatalogKey.scopeLock tenant scope = changedKey m
  swap
  · rw [get_applyMutation_of_ne hk] at he
    exact hes e he hlive
  cases m with
  | putImmutable key value =>
    cases hk
    rw [applyMutation, FiniteMap.get_insert_self] at he
    cases he
    exact .inr (.inl hm)
  | advancePointer key value =>
    cases hk
    rw [applyMutation, FiniteMap.get_insert_self] at he
    cases he
    exact .inr (.inr hm)
  | advanceGrantState id old new => cases hk
  | tombstone key =>
    cases hk
    rw [applyMutation, FiniteMap.get_insert_self] at he
    cases he
    cases hlive

/-- Every entry is stored under its own key. -/
def Keyed (es : FiniteMap CatalogKey CatalogEntry) : Prop :=
  ∀ (k : CatalogKey) (e : CatalogEntry), es[k]? = some e → e.key = k

/-- A predicate that holds rules out that a live lock holds one of its records. -/
lemma not_locked {records : List RecordId} {e : CatalogEntry} (hkeyed : Keyed s.entries)
    (h : s.checkPredicate (.noScopeOverlap tenant records) = .ok ())
    (he : s.get (.scopeLock tenant scope) = some e) :
    List.Disjoint (lockRecords e.value) records := by
  rw [checkPredicate] at h
  split_ifs at h with hany
  intro r hheld hwant
  rw [get_eq_some_iff] at he
  apply hany
  rw [List.any_eq_true]
  refine ⟨e, ?_, ?_⟩
  · rw [liveEntries, List.mem_filter, FiniteMap.mem_values]
    exact ⟨⟨_, he.1⟩, by simpa using he.2⟩
  · rw [locks, hkeyed _ _ he.1]
    simp only [decide_true, Bool.true_and, List.any_eq_true, List.contains_iff_mem]
    exact ⟨r, hheld, hwant⟩

lemma keyed_applyMutation {es : FiniteMap CatalogKey CatalogEntry} {m : Mutation}
    {rev : CatalogGeneration} (h : Keyed es) : Keyed (applyMutation rev es m) := by
  intro k e he
  by_cases hk : k = changedKey m
  swap
  · rw [get_applyMutation_of_ne hk] at he
    exact h k e he
  subst hk
  rcases get_applyMutation_self he with ⟨k, value, rfl | rfl, rfl⟩ | ⟨k, rfl, rfl⟩ |
    ⟨id, old, new, rfl, e₀, he₀, ⟨g, -, rfl⟩ | ⟨-, rfl⟩⟩
  · rfl
  · rfl
  · rfl
  · exact h _ e₀ he₀
  · exact h _ e he₀

lemma keyed_insert {es : FiniteMap CatalogKey CatalogEntry} {e : CatalogEntry} (h : Keyed es)
    (hk : e.key = k) : Keyed (es.insert k e) := by
  intro k' e' he'
  rw [FiniteMap.get_insert] at he'
  split_ifs at he' with heq
  · cases he'
    exact hk.trans heq
  · exact h k' e' he'

lemma keyed_install {manifest : BootstrapManifest} (h : Keyed s.entries) :
    Keyed (s.install manifest).entries := by
  apply List.foldlRecOn manifest.voters _ (motive := Keyed)
  · exact keyed_insert h rfl
  · intro es hes n _
    exact keyed_insert hes rfl

lemma keyed_after (h : Keyed s.entries) : Keyed (s.after x).entries := by
  rcases after_cases s x with ⟨hes, -⟩ | ⟨manifest, -, hafter⟩ | ⟨c, hc, hafter⟩
  · rw [hes]
    exact h
  · rw [hafter]
    exact keyed_install h
  · rw [hafter]
    refine keyed_insert ?_ rfl
    exact foldl_applyMutation h fun es m _ hes => keyed_applyMutation hes

/-- A lock the command wrote is disjoint from the other live locks of its tenant. -/
lemma disjoint_of_writes {e : CatalogEntry} {scope' : SemanticScopeId} (hkeyed : Keyed s.entries)
    (hc : TakesEffect s x c) (hcovers : CoversLocks c)
    (hw : Writes c (.scopeLock tenant scope) value)
    (he : s.get (.scopeLock tenant scope') = some e) :
    List.Disjoint (lockRecords value) (lockRecords e.value) := by
  obtain ⟨records, hp, hrecords⟩ := hcovers tenant scope value hw
  have hdisjoint := not_locked hkeyed (hc.predicate _ hp) he
  intro r hr hr'
  exact hdisjoint hr' (hrecords r hr)

lemma locksDisjoint_after (hkeyed : Keyed s.entries) (hx : LocksCarefully s x) (h : s.LocksDisjoint) :
    (s.after x).LocksDisjoint := by
  intro tenant scope scope' e e' hne he he'
  rcases after_cases s x with ⟨hes, -⟩ | ⟨manifest, -, hafter⟩ | ⟨c, hc, hafter⟩
  · simp only [get, hes] at he he'
    exact h tenant scope scope' e e' hne he he'
  · rw [hafter] at he he'
    rw [get_eq_some_iff] at he he'
    refine h tenant scope scope' e e' hne (get_eq_some_iff.mpr ⟨?_, he.2⟩)
      (get_eq_some_iff.mpr ⟨?_, he'.2⟩)
    · exact (get_install_of_ne (by simp) (by simp)).symm.trans he.1
    · exact (get_install_of_ne (by simp) (by simp)).symm.trans he'.1
  · rw [hafter] at he he'
    rw [get_eq_some_iff] at he he'
    obtain ⟨hcovers, hseparate⟩ := hx c hc.command
    rcases lock_origin he.1 he.2 with hold | hw <;> rcases lock_origin he'.1 he'.2 with hold' | hw'
    · exact h tenant scope scope' e e' hne hold hold'
    · exact (disjoint_of_writes hkeyed hc hcovers hw' hold).symm
    · exact disjoint_of_writes hkeyed hc hcovers hw hold'
    · exact hseparate tenant scope scope' e.value e'.value hw hw' hne

/-- Scope locks are exclusive over every run whose commands cover the locks they write and do not
write two that overlap. -/
theorem scope_locks_exclusive (h : Run LocksCarefully new s) :
    ∀ tenant scope scope' e e', scope ≠ scope' → s.get (.scopeLock tenant scope) = some e →
      s.get (.scopeLock tenant scope') = some e' →
        List.Disjoint (lockRecords e.value) (lockRecords e'.value) := by
  have hboth := h.keeps (fun s => Keyed s.entries ∧ s.LocksDisjoint) ⟨?_, ?_⟩
    fun u x hx hu => ⟨keyed_after hu.1, locksDisjoint_after hu.1 hx hu.2⟩
  · exact hboth.2
  · intro k e he
    simp [new] at he
  · intro tenant scope scope' e e' _ he
    simp [get, new] at he

/-- A scope lock on the records. -/
def lockTree (records : List RecordId) : CanonTree :=
  ⟨CanonValue.build [("records", canonSet records)], CanonValue.sorted_build (by simp)⟩

/-- A command that locks the records for each of the scopes. -/
def sampleLocks (n : UInt8) (scopes : List UInt8) (records : List RecordId) : Call :=
  sampleCall n [.noScopeOverlap (sampleId _ 1) records]
    (scopes.map fun scope => .putImmutable (.scopeLock (sampleId _ 1) (sampleId _ scope))
      (lockTree records))

lemma covers_sampleLocks {n : UInt8} {scopes : List UInt8} {records : List RecordId}
    (hrecords : lockRecords (lockTree records) = records)
    (h : (sampleLocks n scopes records).command = .catalog c) : CoversLocks c := by
  simp only [sampleLocks, sampleCall, LogCommand.catalog.injEq] at h
  subst h
  intro tenant scope value hw
  simp only [Writes, sampleCommand, List.mem_map, reduceCtorEq, and_false, exists_false, or_false,
    Mutation.putImmutable.injEq, CatalogKey.scopeLock.injEq] at hw
  obtain ⟨scope', -, ⟨rfl, -⟩, rfl⟩ := hw
  refine ⟨records, by simp [sampleCommand], ?_⟩
  rw [hrecords]
  exact fun r hr => hr

set_option maxRecDepth 100000 in
theorem scope_locks_exclusive_two :
    ∃ e e', ((started.after (sampleLocks 2 [1] [1, 2])).after (sampleLocks 3 [2] [3])).get
        (.scopeLock (sampleId _ 1) (sampleId _ 1)) = some e ∧
      ((started.after (sampleLocks 2 [1] [1, 2])).after (sampleLocks 3 [2] [3])).get
        (.scopeLock (sampleId _ 1) (sampleId _ 2)) = some e' ∧
      List.Disjoint (lockRecords e.value) (lockRecords e'.value) := by
  have hone : ∀ n scope records, lockRecords (lockTree records) = records →
      ∀ s, LocksCarefully s (sampleLocks n [scope] records) := by
    intro n scope records hrecords s c hc
    refine ⟨covers_sampleLocks hrecords hc, ?_⟩
    simp only [sampleLocks, sampleCall, LogCommand.catalog.injEq] at hc
    subst hc
    intro tenant a b value value' ha hb hne
    simp only [Writes, sampleCommand, List.map_cons, List.map_nil, List.mem_singleton, reduceCtorEq,
      or_false, Mutation.putImmutable.injEq, CatalogKey.scopeLock.injEq] at ha hb
    exact absurd (ha.1.2.trans hb.1.2.symm) hne
  have hrun : Run LocksCarefully new
      ((started.after (sampleLocks 2 [1] [1, 2])).after (sampleLocks 3 [2] [3])) := by
    refine Run.after (Run.after (run_started ?_) ?_) ?_
    · intro c hc
      cases hc
    · exact hone _ _ _ (by decide) _
    · exact hone _ _ _ (by decide) _
  have hlive : ∀ scope ∈ [1, 2],
      (((started.after (sampleLocks 2 [1] [1, 2])).after (sampleLocks 3 [2] [3])).get
        (.scopeLock (sampleId _ 1) (sampleId _ scope))).isSome := by
    decide
  obtain ⟨e, he⟩ := Option.isSome_iff_exists.mp (hlive 1 (by decide))
  obtain ⟨e', he'⟩ := Option.isSome_iff_exists.mp (hlive 2 (by decide))
  exact ⟨e, e', he, he', scope_locks_exclusive hrun _ _ _ e e' (by decide) he he'⟩

set_option maxRecDepth 100000 in
/-- One command, whose locks its predicate covers, locks the same records for two scopes. -/
theorem two_locks_overlap :
    ∃ s : Catalog, Run (fun _ x => ∀ c, x.command = .catalog c → CoversLocks c) new s ∧
      (s.get (.scopeLock (sampleId _ 1) (sampleId _ 1))).map (lockRecords ·.value) = some [1, 2] ∧
      (s.get (.scopeLock (sampleId _ 1) (sampleId _ 2))).map (lockRecords ·.value) = some [1, 2] := by
  refine ⟨started.after (sampleLocks 2 [1, 2] [1, 2]), ?_, by decide, by decide⟩
  refine (run_started ?_).after ?_
  · intro c hc
    cases hc
  · intro c hc
    exact covers_sampleLocks (by decide) hc

end Locks

end CarolinaDB.Catalog
