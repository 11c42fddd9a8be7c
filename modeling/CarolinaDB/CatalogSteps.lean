import CarolinaDB.Catalog

/-!
# What one call does to the catalog

A call leaves the entries as they are, installs the genesis, or applies a command
that takes effect. In the last case each key has the entry of the last mutation
that wrote it, whatever the order the command lists them in.
-/
namespace CarolinaDB.Catalog

variable {s : Catalog} {k : CatalogKey} {rev : CatalogGeneration} {m : Mutation}
  {es : FiniteMap CatalogKey CatalogEntry}

/-- One call of `apply`. -/
structure Call where
  logIndex : UInt64
  command : LogCommand
  expectedManifestHash : Hash256

/-- The catalog after a call. One that fails, fails before it changes anything. -/
def after (s : Catalog) (x : Call) : Catalog :=
  match s.apply x.logIndex x.command x.expectedManifestHash with
  | .ok (_, s') => s'
  | .error _ => s

/-- The call applies a new command whose checks all pass. -/
structure TakesEffect (s : Catalog) (x : Call) (c : CatalogCommand) : Prop where
  command : x.command = .catalog c
  newer : s.appliedIndex < x.logIndex
  initialized : s.genesis.isSome
  distinct : distinctSets c
  unused : s.results[c.adminRequestId]? = none
  valid : s.validate c = .ok ()

/-- The key has an entry, and it is tombstoned. -/
def Tombstoned (s : Catalog) (k : CatalogKey) : Prop :=
  ∃ e, s.entries[k]? = some e ∧ e.state = .tombstoned

lemma get_eq_some_iff {e : CatalogEntry} :
    s.get k = some e ↔ s.entries[k]? = some e ∧ e.state = .live := by
  simp [get, Option.filter_eq_some_iff]

lemma Tombstoned.get_eq_none (h : s.Tombstoned k) : s.get k = none := by
  obtain ⟨e, he, hstate⟩ := h
  simp [get, he, hstate]

lemma grant_eq_some_iff {id : GrantId} {g : AuthorityGrant} :
    s.grant id = some g ↔
      ∃ e, s.get (.authority id) = some e ∧ AuthorityGrant.fromCanon e.value.val = .ok g := by
  rw [grant, Option.bind_eq_some_iff]
  apply exists_congr
  intro e
  apply and_congr_right
  intro _
  cases AuthorityGrant.fromCanon e.value.val <;> simp [Except.toOption]

section Validate

lemma forM_eq_ok_iff {α ε : Type} {f : α → Except ε Unit} {l : List α} :
    l.forM f = .ok () ↔ ∀ a ∈ l, f a = .ok () := by
  induction l with
  | nil => simp [pure, Except.pure]
  | cons a l ih =>
    change (f a >>= fun _ => l.forM f) = _ ↔ _
    cases h : f a with
    | error e => simp [bind, Except.bind, h]
    | ok u => simpa [bind, Except.bind, h] using ih

lemma validate_eq_ok_iff {c : CatalogCommand} : s.validate c = .ok () ↔
    s.adminAllowed c.principal ∧ (∀ x ∈ c.expected, s.checkExpected x = .ok ()) ∧
      (∀ p ∈ c.predicates, s.checkPredicate p = .ok ()) ∧
      ∀ m ∈ c.mutations, s.checkMutation m = .ok () := by
  have hbind : ∀ (x y : Except String Unit),
      (x >>= fun _ => y) = .ok () ↔ x = .ok () ∧ y = .ok () := by
    intro x y
    cases x <;> simp [bind, Except.bind]
  rw [validate]
  by_cases h : s.adminAllowed c.principal
  · simp only [h, not_true_eq_false, if_false, true_and, hbind, forM_eq_ok_iff]
  · simp [h]

variable {x : Call} {c : CatalogCommand}

lemma TakesEffect.mutation (h : TakesEffect s x c) : ∀ m ∈ c.mutations, s.checkMutation m = .ok () :=
  (validate_eq_ok_iff.mp h.valid).2.2.2

lemma TakesEffect.predicate (h : TakesEffect s x c) :
    ∀ p ∈ c.predicates, s.checkPredicate p = .ok () :=
  (validate_eq_ok_iff.mp h.valid).2.2.1

/-- No valid mutation writes a key that is tombstoned. -/
lemma changedKey_ne_of_tombstoned (h : s.Tombstoned k) (hm : s.checkMutation m = .ok ()) :
    changedKey m ≠ k := by
  rintro rfl
  have hget := h.get_eq_none
  obtain ⟨e, he, hstate⟩ := h
  cases m with
  | putImmutable key value =>
    simp only [changedKey] at he
    simp [checkMutation, he, hstate] at hm
  | advancePointer key value =>
    simp only [changedKey] at he
    simp [checkMutation, he, hstate] at hm
  | advanceGrantState id old new =>
    simp only [changedKey] at hget
    simp [checkMutation, grant, hget] at hm
  | tombstone key =>
    simp only [changedKey] at he
    simp [checkMutation, he, hstate] at hm

lemma entries_eq_none_of_putImmutable {value : CanonTree}
    (h : s.checkMutation (.putImmutable k value) = .ok ()) : s.entries[k]? = none := by
  cases he : s.entries[k]? with
  | none => rfl
  | some e =>
    simp only [checkMutation, he] at h
    split_ifs at h

lemma live_of_tombstone (h : s.checkMutation (.tombstone k) = .ok ()) :
    ∃ e, s.get k = some e := by
  rw [checkMutation] at h
  split_ifs at h with hlive
  rw [not_not, Option.map_eq_some_iff] at hlive
  obtain ⟨e, he, hstate⟩ := hlive
  exact ⟨e, get_eq_some_iff.mpr ⟨he, hstate⟩⟩

lemma advances_of_check {id : GrantId} {old new : GrantState} {g : AuthorityGrant}
    (hg : s.grant id = some g) (h : s.checkMutation (.advanceGrantState id old new) = .ok ()) :
    g.state.canAdvanceTo new := by
  rw [checkMutation, hg] at h
  dsimp only at h
  split_ifs at h with hcan
  rw [hcan.1]
  exact hcan.2

end Validate

section Entries

lemma get_applyMutation_of_ne (h : k ≠ changedKey m) : (applyMutation rev es m)[k]? = es[k]? := by
  cases m with
  | putImmutable key value => exact FiniteMap.get_insert_of_ne (Ne.symm h)
  | advancePointer key value => exact FiniteMap.get_insert_of_ne (Ne.symm h)
  | tombstone key => exact FiniteMap.get_insert_of_ne (Ne.symm h)
  | advanceGrantState id old new =>
    rw [applyMutation]
    split
    · split
      · exact FiniteMap.get_insert_of_ne (Ne.symm h)
      · rfl
    · rfl

/-- What holds before the mutations and is kept by each of them holds after them. -/
lemma foldl_applyMutation {Q : FiniteMap CatalogKey CatalogEntry → Prop} {ms : List Mutation}
    (h : Q es) (hstep : ∀ es, ∀ m ∈ ms, Q es → Q (applyMutation rev es m)) :
    Q (ms.foldl (applyMutation rev) es) := by
  induction ms generalizing es with
  | nil => exact h
  | cons m ms ih =>
    apply ih (hstep es m (by simp) h)
    intro es' m' hm'
    exact hstep es' m' (by simp [hm'])

lemma get_foldl_of_not_mem {ms : List Mutation} (h : ∀ m ∈ ms, changedKey m ≠ k) :
    (ms.foldl (applyMutation rev) es)[k]? = es[k]? := by
  apply foldl_applyMutation (Q := fun es' => es'[k]? = es[k]?) rfl
  intro es' m hm hes
  rw [get_applyMutation_of_ne (Ne.symm (h m hm)), hes]

/-- The entry a mutation leaves under its key, if it leaves one at all. -/
lemma get_applyMutation_self {e : CatalogEntry} (h : (applyMutation rev es m)[changedKey m]? = some e) :
    (∃ k v, (m = .putImmutable k v ∨ m = .advancePointer k v) ∧ e = ⟨k, rev, .live, v⟩) ∨
    (∃ k, m = .tombstone k ∧ e = ⟨k, rev, .tombstoned,
      (es[k]?.map CatalogEntry.value).getD ⟨.null, rfl⟩⟩) ∨
    ∃ id old new, m = .advanceGrantState id old new ∧ ∃ e₀, es[CatalogKey.authority id]? = some e₀ ∧
      ((∃ g, AuthorityGrant.fromCanon e₀.value.val = .ok g ∧
        e = { e₀ with value := { g with state := new }.tree, revision := rev }) ∨
      (∀ g, AuthorityGrant.fromCanon e₀.value.val ≠ .ok g) ∧ e = e₀) := by
  cases m with
  | putImmutable key value =>
    rw [applyMutation, changedKey, FiniteMap.get_insert_self, Option.some.injEq] at h
    exact .inl ⟨key, value, .inl rfl, h.symm⟩
  | advancePointer key value =>
    rw [applyMutation, changedKey, FiniteMap.get_insert_self, Option.some.injEq] at h
    exact .inl ⟨key, value, .inr rfl, h.symm⟩
  | tombstone key =>
    rw [applyMutation, changedKey, FiniteMap.get_insert_self, Option.some.injEq] at h
    exact .inr (.inl ⟨key, rfl, h.symm⟩)
  | advanceGrantState id old new =>
    refine .inr (.inr ⟨id, old, new, rfl, ?_⟩)
    rw [applyMutation, changedKey] at h
    cases he₀ : es[CatalogKey.authority id]? with
    | none =>
      rw [he₀] at h
      dsimp only at h
      rw [he₀] at h
      cases h
    | some e₀ =>
      rw [he₀] at h
      dsimp only at h
      refine ⟨e₀, rfl, ?_⟩
      cases hg : AuthorityGrant.fromCanon e₀.value.val with
      | error err =>
        rw [hg] at h
        dsimp only at h
        rw [he₀, Option.some.injEq] at h
        exact .inr ⟨by simp, h.symm⟩
      | ok g =>
        rw [hg] at h
        dsimp only at h
        rw [FiniteMap.get_insert_self, Option.some.injEq] at h
        exact .inl ⟨g, rfl, h.symm⟩

variable {c : CatalogCommand} {i : UInt64}

lemma get_mutate_of_ne (h : k ≠ .adminCommand c.adminRequestId) :
    (s.mutate i c)[k]? = (c.mutations.foldl (applyMutation (s.generation + 1)) s.entries)[k]? :=
  FiniteMap.get_insert_of_ne (Ne.symm h)

@[simp] lemma get_mutate_self :
    (s.mutate i c)[CatalogKey.adminCommand c.adminRequestId]? =
      some (adminEntry c (s.generation + 1) i) :=
  FiniteMap.get_insert_self

/-- A tombstoned key is left alone by every command but the one it is the record of. -/
lemma get_mutate_of_tombstoned (h : s.Tombstoned k)
    (hms : ∀ m ∈ c.mutations, s.checkMutation m = .ok ()) (hk : k ≠ .adminCommand c.adminRequestId) :
    (s.mutate i c)[k]? = s.entries[k]? := by
  rw [get_mutate_of_ne hk]
  apply get_foldl_of_not_mem
  intro m hm
  exact changedKey_ne_of_tombstoned h (hms m hm)

lemma get_install_of_ne {manifest : BootstrapManifest} (hc : k ≠ .clusterConfig)
    (hn : ∀ n, k ≠ .node n) : (s.install manifest).entries[k]? = s.entries[k]? := by
  change (manifest.voters.foldl _ _)[k]? = _
  generalize hes : s.entries.insert _ _ = es
  have hstart : es[k]? = s.entries[k]? := by
    rw [← hes]
    exact FiniteMap.get_insert_of_ne (Ne.symm hc)
  clear hes
  induction manifest.voters generalizing es with
  | nil => exact hstart
  | cons n ns ih =>
    apply ih
    rw [FiniteMap.get_insert_of_ne (Ne.symm (hn n)), hstart]

end Entries

section Calls
variable {x : Call}

/-- The catalog after a command that takes effect. -/
def effect (s : Catalog) (x : Call) (c : CatalogCommand) : Catalog :=
  { s with
    entries := s.mutate x.logIndex c
    generation := s.generation + 1
    results := s.results.insert c.adminRequestId (s.success x.logIndex c)
    appliedIndex := x.logIndex }

lemma apply_of_takesEffect {c : CatalogCommand} (h : TakesEffect s x c) :
    s.apply x.logIndex x.command x.expectedManifestHash =
      .ok (some (s.success x.logIndex c), s.effect x c) := by
  have hinit : s.genesis.isNone = false := by
    rw [← Option.not_isSome, h.initialized]
    rfl
  simp only [apply, not_le.mpr h.newer, if_false, h.command, hinit, Bool.false_eq_true, h.distinct,
    not_true_eq_false, applyCommand, h.unused, h.valid]
  rfl

lemma after_of_takesEffect {c : CatalogCommand} (h : TakesEffect s x c) :
    s.after x = s.effect x c := by
  rw [after, apply_of_takesEffect h]

/-- Everything a call can do. -/
lemma after_spec (s : Catalog) (x : Call) :
    s.after x = s ∨
    (s.appliedIndex < x.logIndex ∧ s.after x = { s with appliedIndex := x.logIndex }) ∨
    (∃ c code, s.appliedIndex < x.logIndex ∧ s.results[c.adminRequestId]? = none ∧
      s.after x = { s with
        results := s.results.insert c.adminRequestId (s.refusal x.logIndex c code)
        appliedIndex := x.logIndex }) ∨
    (∃ manifest, x.command = .genesis manifest ∧ s.appliedIndex < x.logIndex ∧ s.genesis = none ∧
      distinctSets manifest ∧
      s.after x = { s.install manifest with appliedIndex := x.logIndex }) ∨
    ∃ c, TakesEffect s x c ∧ s.after x = s.effect x c := by
  by_cases hnew : x.logIndex ≤ s.appliedIndex
  · left
    simp [after, apply, hnew]
  have hlt : s.appliedIndex < x.logIndex := lt_of_not_ge hnew
  cases hx : x.command with
  | genesis manifest =>
    by_cases hgen : s.genesis.isSome
    · left
      simp [after, apply, hnew, hx, hgen]
    have hnone : s.genesis = none := by simpa using hgen
    by_cases hd : distinctSets manifest
    · by_cases hhash : manifest.manifestHash = x.expectedManifestHash
      · by_cases hthree : manifest.voters.length = 3
        · refine .inr (.inr (.inr (.inl ⟨manifest, rfl, hlt, hnone, hd, ?_⟩)))
          simp [after, apply, hnew, hx, hgen, hd, hhash, hthree]
        · left
          simp [after, apply, hnew, hx, hgen, hd, hhash, hthree]
      · left
        simp [after, apply, hnew, hx, hgen, hd, hhash]
    · left
      simp [after, apply, hnew, hx, hgen, hd]
  | catalog c =>
    by_cases hgen : s.genesis.isNone
    · left
      simp [after, apply, hnew, hx, hgen]
    by_cases hd : distinctSets c
    · cases hr : s.results[c.adminRequestId]? with
      | some prev =>
        refine .inr (.inl ⟨hlt, ?_⟩)
        by_cases hhash : prev.commandHash = c.commandHash <;>
          simp [after, apply, hnew, hx, hgen, hd, applyCommand, hr, hhash]
      | none =>
        cases hv : s.validate c with
        | error code =>
          refine .inr (.inr (.inl ⟨c, code, hlt, hr, ?_⟩))
          simp [after, apply, hnew, hx, hgen, hd, applyCommand, hr, hv]
        | ok u =>
          have hinit : s.genesis.isSome := by simpa [Option.isSome_iff_ne_none] using hgen
          have h : TakesEffect s x c := ⟨hx, hlt, hinit, hd, hr, hv⟩
          exact .inr (.inr (.inr (.inr ⟨c, h, after_of_takesEffect h⟩)))
    · left
      simp [after, apply, hnew, hx, hgen, hd]

/-- The cases of a call for the entries. -/
lemma after_cases (s : Catalog) (x : Call) :
    ((s.after x).entries = s.entries ∧ (s.after x).genesis = s.genesis) ∨
    (∃ manifest, s.genesis = none ∧ s.after x =
      { s.install manifest with appliedIndex := x.logIndex }) ∨
    ∃ c, TakesEffect s x c ∧ s.after x = s.effect x c := by
  rcases after_spec s x with h | ⟨-, h⟩ | ⟨c, code, -, -, h⟩ | ⟨manifest, -, -, hnone, -, h⟩ | ⟨c, hc, h⟩
  · exact .inl (by simp [h])
  · exact .inl (by simp [h])
  · exact .inl (by simp [h])
  · exact .inr (.inl ⟨manifest, hnone, h⟩)
  · exact .inr (.inr ⟨c, hc, h⟩)

end Calls

section Runs

/-- One call that meets the condition `P`. -/
def Step (P : Catalog → Call → Prop) (s s' : Catalog) : Prop := ∃ x, P s x ∧ s' = s.after x

/-- A sequence of calls that each meet the condition `P` at the state they are made in. -/
abbrev Run (P : Catalog → Call → Prop) : Catalog → Catalog → Prop := Relation.ReflTransGen (Step P)

lemma Run.after {P : Catalog → Call → Prop} {s t : Catalog} {x : Call} (h : Run P s t) (hx : P t x) :
    Run P s (t.after x) :=
  h.tail ⟨x, hx, rfl⟩

/-- A property that every call keeps holds along a run. -/
lemma Run.keeps {P : Catalog → Call → Prop} {s t : Catalog} (h : Run P s t) (Q : Catalog → Prop)
    (hs : Q s) (hstep : ∀ u x, P u x → Q u → Q (u.after x)) : Q t := by
  induction h with
  | refl => exact hs
  | tail _ hlast ih =>
    obtain ⟨x, hx, rfl⟩ := hlast
    exact hstep _ x hx ih

/-- Before the genesis the catalog is empty. -/
def Pristine (s : Catalog) : Prop := s.genesis = none → s.entries = ∅

lemma pristine_new : new.Pristine := fun _ => rfl

lemma pristine_after {x : Call} (h : s.Pristine) : (s.after x).Pristine := by
  rcases after_cases s x with ⟨hes, hgen⟩ | ⟨manifest, -, he⟩ | ⟨c, hc, he⟩
  · intro hnone
    rw [hes, h (hgen.symm.trans hnone)]
  · intro hnone
    rw [he] at hnone
    cases hnone
  · intro hnone
    rw [he] at hnone
    have hinit := hc.initialized
    rw [show s.genesis = none from hnone] at hinit
    cases hinit

lemma Run.pristine {P : Catalog → Call → Prop} (h : Run P new s) : s.Pristine :=
  h.keeps Pristine pristine_new fun _ _ _ => pristine_after

end Runs

end CarolinaDB.Catalog
