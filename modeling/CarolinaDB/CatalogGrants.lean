import CarolinaDB.CatalogSteps

/-!
# Grants over a run of the catalog

Authority grants move along their lifecycle and permission grants stay as they
were installed, as long as no pointer update writes over them: the checks on the
content of a grant are made by the mutations meant for it and by no other.
-/
namespace CarolinaDB.Catalog

variable {s t u : Catalog} {x : Call} {c : CatalogCommand} {k : CatalogKey} {id : GrantId}

/-- A call keeps a tombstoned key, unless the call may write the key at genesis or as its own
record. -/
lemma tombstoned_after (h : s.Tombstoned k)
    (hgen : s.genesis = none → k ≠ .clusterConfig ∧ ∀ n, k ≠ .node n)
    (hown : ∀ c, TakesEffect s x c → k ≠ .adminCommand c.adminRequestId) :
    (s.after x).Tombstoned k := by
  obtain ⟨e, he, hstate⟩ := h
  rcases after_cases s x with ⟨hes, -⟩ | ⟨manifest, hnone, hafter⟩ | ⟨c, hc, hafter⟩
  · exact ⟨e, by rw [hes, he], hstate⟩
  · obtain ⟨hconfig, hnode⟩ := hgen hnone
    refine ⟨e, ?_, hstate⟩
    rw [hafter]
    exact (get_install_of_ne hconfig hnode).trans he
  · refine ⟨e, ?_, hstate⟩
    rw [hafter]
    exact (get_mutate_of_tombstoned ⟨e, he, hstate⟩ hc.mutation (hown c hc)).trans he

section Samples

def sampleId (name : String) (n : UInt8) : Id128 name := ⟨⟨List.replicate 15 0 ++ [n], by simp⟩⟩

def sampleManifest : BootstrapManifest :=
  { clusterId := sampleId _ 1
    voters := [sampleId _ 1, sampleId _ 2, sampleId _ 3]
    trustRootHash := Hash256.zero
    securityPolicy := sampleId _ 1
    bootstrapAdmin := sampleId _ 1
    securityProfile := "DEV_LOCAL" }

def sampleGenesis : Call := ⟨1, .genesis sampleManifest, sampleManifest.manifestHash⟩

/-- The catalog right after the genesis. -/
def started : Catalog := { new.install sampleManifest with appliedIndex := 1 }

lemma after_sampleGenesis : new.after sampleGenesis = started := by
  have hd : distinctSets sampleManifest := by decide
  simp [after, apply, sampleGenesis, new, hd, started]
  rfl

lemma run_started {P : Catalog → Call → Prop} (h : P new sampleGenesis) : Run P new started := by
  rw [← after_sampleGenesis]
  exact Run.after .refl h

def sampleCommand (n : UInt8) (ps : List Predicate) (ms : List Mutation) : CatalogCommand :=
  ⟨sampleId _ n, sampleManifest.bootstrapAdmin, [], ps, ms⟩

/-- Log entry `n`: the administrator's command of that number. -/
def sampleCall (n : UInt8) (ps : List Predicate) (ms : List Mutation) : Call :=
  ⟨n.toUInt64, .catalog (sampleCommand n ps ms), sampleManifest.manifestHash⟩

lemma takesEffect_sampleCall {s : Catalog} {c : CatalogCommand} {n : UInt8} {ps : List Predicate}
    {ms : List Mutation} (h : TakesEffect s (sampleCall n ps ms) c) : c = sampleCommand n ps ms := by
  have := h.command
  simp only [sampleCall, LogCommand.catalog.injEq] at this
  exact this.symm

/-- The genesis is no command. -/
lemma not_takesEffect_sampleGenesis {s : Catalog} {c : CatalogCommand} :
    ¬ TakesEffect s sampleGenesis c := by
  intro h
  have := h.command
  cases this

def sampleGrant (state : GrantState) : AuthorityGrant :=
  { grantId := sampleId _ 1
    binding := .requestHome (sampleId _ 1) 1
    tenant := sampleId _ 1
    scope := sampleId _ 1
    scopeRecords := [9]
    plans := []
    placementEpoch := 1
    membership := (sampleId _ 1, 1)
    admittedNodes := sampleManifest.voters
    authorityDurabilityPolicy := "quorum"
    securityPolicy := sampleManifest.securityPolicy
    admissionMode := "ONLINE_BARRIER"
    state := state }

end Samples

section Lifecycle

/-- The state stays or takes one step of the lifecycle. -/
def Advances (a b : GrantState) : Prop := b = a ∨ a.canAdvanceTo b

instance (a b : GrantState) : Decidable (Advances a b) :=
  inferInstanceAs (Decidable (_ ∨ _))

/-- A pointer update of a grant writes a grant, in the same state or the next. -/
def KeepsLifecycles (s : Catalog) (x : Call) : Prop :=
  ∀ c, TakesEffect s x c → ∀ id value, .advancePointer (.authority id) value ∈ c.mutations →
    ∀ g, s.grant id = some g →
      ∃ g', AuthorityGrant.fromCanon value.val = .ok g' ∧ Advances g.state g'.state

/-- The grant's key is tombstoned or holds a grant that has advanced from `state`. -/
def Advanced (id : GrantId) (state : GrantState) (es : FiniteMap CatalogKey CatalogEntry) : Prop :=
  ∃ e, es[CatalogKey.authority id]? = some e ∧ (e.state = .tombstoned ∨
    e.state = .live ∧ ∃ g, AuthorityGrant.fromCanon e.value.val = .ok g ∧ Advances state g.state)

/-- Reading back a grant whose state was replaced. -/
lemma fromCanon_tree_state {e : CatalogEntry} {g : AuthorityGrant} {new : GrantState}
    (h : AuthorityGrant.fromCanon e.value.val = .ok g) :
    AuthorityGrant.fromCanon { g with state := new }.tree.val = .ok { g with state := new } := by
  obtain ⟨hd, hn⟩ := AuthorityGrant.distinctSets_of_fromCanon e.value.2 h
  have hd' : AuthorityGrant.distinctSets { g with state := new } := hd
  have hn' : AuthorityGrant.normal { g with state := new } = { g with state := new } :=
    congrArg (fun g : AuthorityGrant => { g with state := new }) hn
  exact (AuthorityGrant.fromCanon_toCanon hd').trans (congrArg _ hn')

lemma advanced_applyMutation {g : AuthorityGrant} {es : FiniteMap CatalogKey CatalogEntry}
    {m : Mutation} {rev : CatalogGeneration} (hg : s.grant id = some g)
    (hcheck : s.checkMutation m = .ok ())
    (hadv : ∀ value, m = .advancePointer (.authority id) value →
      ∃ g', AuthorityGrant.fromCanon value.val = .ok g' ∧ Advances g.state g'.state)
    (h : Advanced id g.state es) : Advanced id g.state (applyMutation rev es m) := by
  obtain ⟨e, he, hcases⟩ := h
  by_cases hk : CatalogKey.authority id = changedKey m
  swap
  · exact ⟨e, (get_applyMutation_of_ne hk).trans he, hcases⟩
  cases m with
  | putImmutable key value =>
    -- the key is in use
    cases hk
    obtain ⟨e₀, he₀, -⟩ := grant_eq_some_iff.mp hg
    have := entries_eq_none_of_putImmutable hcheck
    rw [(get_eq_some_iff.mp he₀).1] at this
    cases this
  | advancePointer key value =>
    cases hk
    exact ⟨_, FiniteMap.get_insert_self, .inr ⟨rfl, hadv value rfl⟩⟩
  | tombstone key =>
    cases hk
    exact ⟨_, FiniteMap.get_insert_self, .inl rfl⟩
  | advanceGrantState id' old new =>
    cases hk
    simp only [applyMutation, he]
    cases hread : AuthorityGrant.fromCanon e.value.val with
    | error err => exact ⟨e, he, hcases⟩
    | ok g' =>
      refine ⟨_, FiniteMap.get_insert_self, ?_⟩
      rcases hcases with htomb | ⟨hlive, -⟩
      · exact .inl htomb
      · exact .inr ⟨hlive, _, fromCanon_tree_state hread, .inr (advances_of_check hg hcheck)⟩

/-- What a call leaves of a grant. -/
lemma grant_after {g : AuthorityGrant} (hx : KeepsLifecycles s x) (hg : s.grant id = some g) :
    (s.after x).Tombstoned (.authority id) ∨
      ∃ g', (s.after x).grant id = some g' ∧ Advances g.state g'.state := by
  have hstart : Advanced id g.state s.entries := by
    obtain ⟨e, he, hread⟩ := grant_eq_some_iff.mp hg
    rw [get_eq_some_iff] at he
    exact ⟨e, he.1, .inr ⟨he.2, g, hread, .inl rfl⟩⟩
  have hend : Advanced id g.state (s.after x).entries := by
    rcases after_cases s x with ⟨hes, -⟩ | ⟨manifest, -, hafter⟩ | ⟨c, hc, hafter⟩
    · rw [hes]
      exact hstart
    · obtain ⟨e, he, hcases⟩ := hstart
      rw [hafter]
      exact ⟨e, (get_install_of_ne (by simp) (by simp)).trans he, hcases⟩
    · have hfold : Advanced id g.state
          (c.mutations.foldl (applyMutation (s.generation + 1)) s.entries) := by
        apply foldl_applyMutation hstart
        intro es m hm hes
        apply advanced_applyMutation hg (hc.mutation m hm) ?_ hes
        intro value hvalue
        exact hx c hc id value (hvalue ▸ hm) g hg
      obtain ⟨e, he, hcases⟩ := hfold
      rw [hafter]
      exact ⟨e, (get_mutate_of_ne (by simp)).trans he, hcases⟩
  obtain ⟨e, he, htomb | ⟨hlive, g', hread, hadv⟩⟩ := hend
  · exact .inl ⟨e, he, htomb⟩
  · exact .inr ⟨g', grant_eq_some_iff.mpr ⟨e, get_eq_some_iff.mpr ⟨he, hlive⟩, hread⟩, hadv⟩

lemma tombstoned_authority_after (h : s.Tombstoned (.authority id)) :
    (s.after x).Tombstoned (.authority id) :=
  tombstoned_after h (by simp) (by simp)

lemma grant_eq_none_of_tombstoned (h : s.Tombstoned (.authority id)) : s.grant id = none := by
  simp [grant, h.get_eq_none]

lemma grant_run {g : AuthorityGrant} (h : Run KeepsLifecycles s t) (hg : s.grant id = some g) :
    t.Tombstoned (.authority id) ∨
      ∃ g', t.grant id = some g' ∧ Relation.ReflTransGen Advances g.state g'.state := by
  apply h.keeps fun t => t.Tombstoned (.authority id) ∨
    ∃ g', t.grant id = some g' ∧ Relation.ReflTransGen Advances g.state g'.state
  · exact .inr ⟨g, hg, .refl⟩
  intro u x hx hu
  rcases hu with htomb | ⟨g', hg', hadv⟩
  · exact .inl (tombstoned_authority_after htomb)
  · rcases grant_after hx hg' with htomb | ⟨g'', hg'', hstep⟩
    · exact .inl htomb
    · exact .inr ⟨g'', hg'', hadv.tail hstep⟩

/-- Closed and retired are never left for active. -/
lemma ended_of_advances {a b : GrantState} (h : Relation.ReflTransGen Advances a b)
    (ha : a = .closed ∨ a = .retired) : b = .closed ∨ b = .retired := by
  induction h with
  | refl => exact ha
  | tail _ hstep ih =>
    rename_i y z _
    revert hstep ih
    cases y <;> cases z <;> decide

/-- Grants follow their lifecycle over every run in which pointer updates of a grant do: each call
keeps the state of a grant or takes one step, a grant that is gone is gone for good, and one that was
closed or retired admits no node again. -/
theorem grants_follow_lifecycle {g : AuthorityGrant} (hx : KeepsLifecycles s x)
    (hu : Run KeepsLifecycles (s.after x) u) (hg : s.grant id = some g) :
    (∀ g', (s.after x).grant id = some g' → g'.state = g.state ∨ g.state.canAdvanceTo g'.state) ∧
      ((s.after x).grant id = none → u.grant id = none) ∧
      (g.state = .closed ∨ g.state = .retired →
        (∀ g', u.grant id = some g' → g'.state ≠ .active) ∧
          ∀ node, u.admissionAllowed id node = false) := by
  have hstep := grant_after hx hg
  refine ⟨?_, ?_, ?_⟩
  · intro g' hg'
    rcases hstep with htomb | ⟨g'', hg'', hadv⟩
    · rw [grant_eq_none_of_tombstoned htomb] at hg'
      cases hg'
    · rw [hg''] at hg'
      cases hg'
      exact hadv
  · intro hnone
    rcases hstep with htomb | ⟨g'', hg'', -⟩
    · apply grant_eq_none_of_tombstoned
      exact hu.keeps (Tombstoned · _) htomb fun _ _ _ => tombstoned_authority_after
    · rw [hg''] at hnone
      cases hnone
  · intro hended
    have hrun : Run KeepsLifecycles s u := hu.head ⟨x, hx, rfl⟩
    have hne : ∀ g', u.grant id = some g' → g'.state ≠ .active := by
      intro g' hg'
      rcases grant_run hrun hg with htomb | ⟨g'', hg'', hadv⟩
      · rw [grant_eq_none_of_tombstoned htomb] at hg'
        cases hg'
      · rw [hg''] at hg'
        cases hg'
        rcases ended_of_advances hadv hended with h | h <;> simp [h]
    refine ⟨hne, ?_⟩
    intro node
    rw [admissionAllowed]
    split
    · rename_i g' hg'
      simp [hne g' hg']
    · rfl

/-- Log entry two installs the sample grant, closed. -/
def putClosed : Call :=
  sampleCall 2 [] [.putImmutable (.authority (sampleId _ 1)) (sampleGrant .closed).tree]

/-- Log entry three retires the sample grant. -/
def retireClosed : Call := sampleCall 3 [] [.advanceGrantState (sampleId _ 1) .closed .retired]

set_option maxRecDepth 100000 in
theorem grants_follow_lifecycle_retired :
    ((started.after putClosed).after retireClosed).admissionAllowed (sampleId _ 1) (sampleId _ 1) =
      false := by
  have hgrant : (started.after putClosed).grant (sampleId _ 1) = some (sampleGrant .closed) := by
    decide
  have hkeeps : KeepsLifecycles (started.after putClosed) retireClosed := by
    intro c hc id value hmem
    rw [takesEffect_sampleCall hc] at hmem
    simp [sampleCommand] at hmem
  exact ((grants_follow_lifecycle hkeeps .refl hgrant).2.2 (.inl rfl)).2 _

set_option maxRecDepth 100000 in
/-- A pointer update makes a closed grant active again. -/
theorem closed_grant_active_again :
    ∃ s x, Run (fun _ _ => True) new s ∧
      s.grant (sampleId _ 1) = some (sampleGrant .closed) ∧
      (s.after x).grant (sampleId _ 1) = some (sampleGrant .active) ∧
      (s.after x).admissionAllowed (sampleId _ 1) (sampleId _ 1) = true := by
  refine ⟨started.after putClosed, sampleCall 3 []
    [.advancePointer (.authority (sampleId _ 1)) (sampleGrant .active).tree], ?_, ?_, ?_, ?_⟩
  · exact (run_started trivial).after trivial
  · decide
  · decide
  · decide

end Lifecycle

section Permissions

/-- A permission grant as it has to be under the key of `id`. -/
def GoodPermission (s : Catalog) (id : GrantId) (value : CanonTree) : Prop :=
  ∃ g manifest, PermissionGrant.fromCanon value.val = .ok g ∧ g.grantId = id ∧
    s.genesis = some manifest ∧ g.securityPolicy = manifest.securityPolicy ∧ g.operations ≠ []

lemma goodPermission_of_check {value : CanonTree} (h : s.checkPermission id value = .ok ()) :
    s.GoodPermission id value := by
  rw [checkPermission] at h
  split at h
  · cases h
  · rename_i g hg
    split_ifs at h with hid hpolicy hops
    cases hgen : s.genesis with
    | none => simp [hgen] at hpolicy
    | some manifest =>
      exact ⟨g, manifest, hg, not_not.mp hid, hgen, by simpa [hgen] using hpolicy, hops⟩

/-- A pointer update of a permission grant writes the value that is there, or the first one, and
then one that passes the checks on a new grant. -/
def KeepsPermissions (s : Catalog) (x : Call) : Prop :=
  ∀ c, TakesEffect s x c → ∀ id value, .advancePointer (.permissionGrant id) value ∈ c.mutations →
    (∃ e, s.get (.permissionGrant id) = some e ∧ value = e.value) ∨
      (s.entries[CatalogKey.permissionGrant id]? = none ∧ s.checkPermission id value = .ok ())

lemma value_applyMutation {e : CatalogEntry} {es : FiniteMap CatalogKey CatalogEntry} {m : Mutation}
    {rev : CatalogGeneration} (he : s.get (.permissionGrant id) = some e)
    (hcheck : s.checkMutation m = .ok ())
    (hadv : ∀ value, m = .advancePointer (.permissionGrant id) value → value = e.value)
    (h : ∃ e', es[CatalogKey.permissionGrant id]? = some e' ∧ e'.value = e.value) :
    ∃ e', (applyMutation rev es m)[CatalogKey.permissionGrant id]? = some e' ∧
      e'.value = e.value := by
  by_cases hk : CatalogKey.permissionGrant id = changedKey m
  swap
  · rw [get_applyMutation_of_ne hk]
    exact h
  cases m with
  | putImmutable key value =>
    cases hk
    have := entries_eq_none_of_putImmutable hcheck
    rw [(get_eq_some_iff.mp he).1] at this
    cases this
  | advancePointer key value =>
    cases hk
    exact ⟨_, FiniteMap.get_insert_self, hadv value rfl⟩
  | advanceGrantState id' old new => cases hk
  | tombstone key =>
    cases hk
    obtain ⟨e', he', hvalue⟩ := h
    refine ⟨_, FiniteMap.get_insert_self, ?_⟩
    simpa [he'] using hvalue

/-- A call keeps the value of a live permission grant. -/
lemma value_after_of_live {e : CatalogEntry} (hx : KeepsPermissions s x)
    (he : s.get (.permissionGrant id) = some e) :
    ∃ e', (s.after x).entries[CatalogKey.permissionGrant id]? = some e' ∧ e'.value = e.value := by
  have he' := (get_eq_some_iff.mp he).1
  rcases after_cases s x with ⟨hes, -⟩ | ⟨manifest, -, hafter⟩ | ⟨c, hc, hafter⟩
  · exact ⟨e, by rw [hes, he'], rfl⟩
  · rw [hafter]
    exact ⟨e, (get_install_of_ne (by simp) (by simp)).trans he', rfl⟩
  · rw [hafter]
    change ∃ e', (s.mutate x.logIndex c)[CatalogKey.permissionGrant id]? = some e' ∧ _
    rw [get_mutate_of_ne (by simp)]
    apply foldl_applyMutation (Q := fun es =>
      ∃ e', es[CatalogKey.permissionGrant id]? = some e' ∧ e'.value = e.value) ⟨e, he', rfl⟩
    intro es m hm hes
    apply value_applyMutation he (hc.mutation m hm) ?_ hes
    rintro value rfl
    rcases hx c hc id value hm with ⟨e₀, he₀, rfl⟩ | ⟨hnone, -⟩
    · rw [he] at he₀
      cases he₀
      rfl
    · rw [he'] at hnone
      cases hnone

/-- A call keeps the value of a permission grant, live or not. -/
lemma value_after {e : CatalogEntry} (hx : KeepsPermissions s x)
    (he : s.entries[CatalogKey.permissionGrant id]? = some e) :
    ∃ e', (s.after x).entries[CatalogKey.permissionGrant id]? = some e' ∧ e'.value = e.value := by
  cases hstate : e.state with
  | live => exact value_after_of_live hx (get_eq_some_iff.mpr ⟨he, hstate⟩)
  | tombstoned =>
    rcases after_cases s x with ⟨hes, -⟩ | ⟨manifest, -, hafter⟩ | ⟨c, hc, hafter⟩
    · exact ⟨e, by rw [hes, he], rfl⟩
    · rw [hafter]
      exact ⟨e, (get_install_of_ne (by simp) (by simp)).trans he, rfl⟩
    · rw [hafter]
      exact ⟨e, (get_mutate_of_tombstoned ⟨e, he, hstate⟩ hc.mutation (by simp)).trans he, rfl⟩

/-- What a command first installs under the key of a permission grant has passed the checks. -/
lemma good_of_first {e : CatalogEntry} (hx : KeepsPermissions s x) (hc : TakesEffect s x c)
    (hnone : s.entries[CatalogKey.permissionGrant id]? = none)
    (he : (s.mutate x.logIndex c)[CatalogKey.permissionGrant id]? = some e) :
    s.GoodPermission id e.value := by
  rw [get_mutate_of_ne (by simp)] at he
  revert e
  apply foldl_applyMutation (Q := fun es => ∀ e, es[CatalogKey.permissionGrant id]? = some e →
    s.GoodPermission id e.value)
  · intro e he
    rw [hnone] at he
    cases he
  intro es m hm hes e he
  by_cases hk : CatalogKey.permissionGrant id = changedKey m
  swap
  · rw [get_applyMutation_of_ne hk] at he
    exact hes e he
  have hcheck := hc.mutation m hm
  cases m with
  | putImmutable key value =>
    cases hk
    rw [applyMutation, FiniteMap.get_insert_self] at he
    cases he
    apply goodPermission_of_check
    simpa [checkMutation, hnone] using hcheck
  | advancePointer key value =>
    cases hk
    rw [applyMutation, FiniteMap.get_insert_self] at he
    cases he
    rcases hx c hc id value hm with ⟨e₀, he₀, -⟩ | ⟨-, hvalue⟩
    · rw [(get_eq_some_iff.mp he₀).1] at hnone
      cases hnone
    · exact goodPermission_of_check hvalue
  | advanceGrantState id' old new => cases hk
  | tombstone key =>
    cases hk
    obtain ⟨e₀, he₀⟩ := live_of_tombstone hcheck
    rw [(get_eq_some_iff.mp he₀).1] at hnone
    cases hnone

/-- Every permission grant of the catalog passed the checks. -/
def PermissionsGood (s : Catalog) : Prop :=
  ∀ id e, s.entries[CatalogKey.permissionGrant id]? = some e → s.GoodPermission id e.value

lemma permissionsGood_after (hpristine : s.Pristine) (h : s.PermissionsGood)
    (hx : KeepsPermissions s x) : (s.after x).PermissionsGood := by
  intro id e he
  rcases after_cases s x with ⟨hes, hgen⟩ | ⟨manifest, hnone, hafter⟩ | ⟨c, hc, hafter⟩
  · rw [hes] at he
    simpa only [GoodPermission, hgen] using h id e he
  · -- before the genesis there is no grant
    rw [hafter] at he
    rw [show _ = _ from get_install_of_ne (by simp) (by simp), hpristine hnone] at he
    simp at he
  · have hgood : s.GoodPermission id e.value := by
      cases hold : s.entries[CatalogKey.permissionGrant id]? with
      | none =>
        rw [hafter] at he
        exact good_of_first hx hc hold he
      | some e₀ =>
        obtain ⟨e', he', hvalue⟩ := value_after hx hold
        rw [he'] at he
        cases he
        rw [hvalue]
        exact h id e₀ hold
    rw [hafter]
    exact hgood

lemma Run.permissionsGood (h : Run KeepsPermissions new s) : s.PermissionsGood := by
  have hboth := h.keeps (fun s => s.Pristine ∧ s.PermissionsGood)
    ⟨pristine_new, by simp [PermissionsGood, new]⟩
    fun u x hx hu => ⟨pristine_after hu.1, permissionsGood_after hu.1 hu.2 hx⟩
  exact hboth.2

/-- A live permission grant is live after a call whose command does not tombstone it. -/
lemma live_after {e : CatalogEntry} (he : s.get (.permissionGrant id) = some e)
    (h : ∀ c, TakesEffect s x c → .tombstone (.permissionGrant id) ∉ c.mutations) :
    ∃ e', (s.after x).get (.permissionGrant id) = some e' := by
  have he' := get_eq_some_iff.mp he
  simp only [get_eq_some_iff]
  rcases after_cases s x with ⟨hes, -⟩ | ⟨manifest, -, hafter⟩ | ⟨c, hc, hafter⟩
  · exact ⟨e, by rw [hes, he'.1], he'.2⟩
  · rw [hafter]
    exact ⟨e, (get_install_of_ne (by simp) (by simp)).trans he'.1, he'.2⟩
  · rw [hafter]
    change ∃ e', (s.mutate x.logIndex c)[CatalogKey.permissionGrant id]? = some e' ∧ _
    rw [get_mutate_of_ne (by simp)]
    apply foldl_applyMutation (Q := fun es =>
      ∃ e', es[CatalogKey.permissionGrant id]? = some e' ∧ e'.state = .live) ⟨e, he'⟩
    intro es m hm hes
    by_cases hk : CatalogKey.permissionGrant id = changedKey m
    swap
    · rw [get_applyMutation_of_ne hk]
      exact hes
    cases m with
    | putImmutable key value =>
      cases hk
      exact ⟨_, FiniteMap.get_insert_self, rfl⟩
    | advancePointer key value =>
      cases hk
      exact ⟨_, FiniteMap.get_insert_self, rfl⟩
    | advanceGrantState id' old new => cases hk
    | tombstone key =>
      cases hk
      exact absurd hm (h c hc)

/-- Permission grants are well formed and immutable over every run in which pointer updates do not
change one: each live grant passed the checks, keeps its value for good, and goes by a tombstone. -/
theorem permission_grants_immutable {e : CatalogEntry} (hs : Run KeepsPermissions new s)
    (ht : Run KeepsPermissions s t) (he : s.get (.permissionGrant id) = some e) :
    (∃ g manifest, PermissionGrant.fromCanon e.value.val = .ok g ∧ g.grantId = id ∧
      s.genesis = some manifest ∧ g.securityPolicy = manifest.securityPolicy ∧ g.operations ≠ []) ∧
      (∃ e', t.entries[CatalogKey.permissionGrant id]? = some e' ∧ e'.value = e.value) ∧
      ∀ x, (s.after x).get (.permissionGrant id) = none →
        ∃ c, TakesEffect s x c ∧ .tombstone (.permissionGrant id) ∈ c.mutations := by
  have hentry := (get_eq_some_iff.mp he).1
  refine ⟨hs.permissionsGood id e hentry, ?_, ?_⟩
  · apply ht.keeps fun t => ∃ e', t.entries[CatalogKey.permissionGrant id]? = some e' ∧
      e'.value = e.value
    · exact ⟨e, hentry, rfl⟩
    rintro u x hx ⟨e', he', hvalue⟩
    obtain ⟨e'', he'', hvalue'⟩ := value_after hx he'
    exact ⟨e'', he'', hvalue'.trans hvalue⟩
  · intro x hgone
    by_contra hno
    obtain ⟨e', he'⟩ := live_after he fun c hc hm => hno ⟨c, hc, hm⟩
    rw [hgone] at he'
    cases he'

def samplePermission (operations : List OperationRef) : PermissionGrant :=
  { grantId := sampleId _ 1
    principal := sampleId _ 2
    tenant := sampleId _ 1
    requestNamespace := sampleId _ 1
    operations := operations
    allowInvoke := true
    allowResolve := true
    securityPolicy := sampleManifest.securityPolicy
    active := true }

def permissionTree (g : PermissionGrant) : CanonTree := ⟨g.toCanon, CanonValue.sorted_build (by simp)⟩

/-- Log entry two installs a permission for one operation. -/
def putPermission : Call :=
  sampleCall 2 [] [.putImmutable (.permissionGrant (sampleId _ 1))
    (permissionTree (samplePermission [⟨7, 1⟩]))]

set_option maxRecDepth 100000 in
theorem permission_grants_immutable_installed :
    ∃ g manifest, PermissionGrant.fromCanon (permissionTree (samplePermission [⟨7, 1⟩])).val = .ok g ∧
      g.grantId = sampleId _ 1 ∧ (started.after putPermission).genesis = some manifest ∧
      g.securityPolicy = manifest.securityPolicy ∧ g.operations ≠ [] := by
  have hrun : Run KeepsPermissions new (started.after putPermission) := by
    refine (run_started ?_).after ?_
    · intro c hc
      exact absurd hc not_takesEffect_sampleGenesis
    · intro c hc id value hmem
      rw [takesEffect_sampleCall hc] at hmem
      simp [sampleCommand] at hmem
  have hget : (started.after putPermission).get (.permissionGrant (sampleId _ 1)) =
      some ⟨.permissionGrant (sampleId _ 1), 2, .live,
        permissionTree (samplePermission [⟨7, 1⟩])⟩ := by
    decide
  exact (permission_grants_immutable hrun .refl hget).1

set_option maxRecDepth 100000 in
/-- A pointer update replaces a permission grant, here by one for another operation. -/
theorem permission_grant_replaced :
    ∃ s x, Run (fun _ _ => True) new s ∧
      s.invokeAllowed (sampleId _ 2) (sampleId _ 1) (sampleId _ 1) ⟨8, 1⟩ = false ∧
      (s.get (.permissionGrant (sampleId _ 1))).map CatalogEntry.value =
        some (permissionTree (samplePermission [⟨7, 1⟩])) ∧
      ((s.after x).get (.permissionGrant (sampleId _ 1))).map CatalogEntry.value =
        some (permissionTree (samplePermission [⟨8, 1⟩])) ∧
      (s.after x).invokeAllowed (sampleId _ 2) (sampleId _ 1) (sampleId _ 1) ⟨8, 1⟩ = true := by
  refine ⟨started.after putPermission, sampleCall 3 [] [.advancePointer
    (.permissionGrant (sampleId _ 1)) (permissionTree (samplePermission [⟨8, 1⟩]))], ?_, ?_, ?_, ?_, ?_⟩
  · exact (run_started trivial).after trivial
  all_goals decide

end Permissions

end CarolinaDB.Catalog
