import CarolinaDB.CatalogGrants

/-!
# No lost update

A command may expect a key at a revision. Once another command has changed the key, that
expectation fails for good.
-/
namespace CarolinaDB.Catalog

variable {s t : Catalog} {x : Call} {c : CatalogCommand} {k : CatalogKey}
  {g rev : CatalogGeneration} {es : FiniteMap CatalogKey CatalogEntry} {m : Mutation}

/-- What is under the key is newer than a generation. -/
def Newer (g : CatalogGeneration) (k : CatalogKey) (es : FiniteMap CatalogKey CatalogEntry) : Prop :=
  ∀ e, es[k]? = some e → g < e.revision

/-- A mutation writes at the new revision; one whose checks passed writes if nothing has written
its key before. -/
lemma newer_applyMutation (hg : g < rev) (h : Newer g k es ∨ changedKey m = k ∧
    s.checkMutation m = .ok () ∧ es[k]? = s.entries[k]?) : Newer g k (applyMutation rev es m) := by
  intro e he
  by_cases hk : changedKey m = k
  swap
  · rw [get_applyMutation_of_ne (Ne.symm hk)] at he
    exact (h.resolve_right fun h' => hk h'.1) e he
  subst hk
  rcases get_applyMutation_self he with ⟨_, _, -, rfl⟩ | ⟨_, -, rfl⟩ |
    ⟨id, old, new, rfl, e₀, he₀, ⟨_, -, rfl⟩ | ⟨hno, rfl⟩⟩
  · exact hg
  · exact hg
  · exact hg
  rcases h with h | ⟨-, hm, hsame⟩
  · exact h e he₀
  · -- the key is as it was checked, so it holds a grant and advancing the grant writes
    cases hgrant : s.grant id with
    | none => simp [checkMutation, hgrant] at hm
    | some a =>
      obtain ⟨e', he', ha⟩ := grant_eq_some_iff.mp hgrant
      rw [changedKey, (get_eq_some_iff.mp he').1] at hsame
      obtain rfl := Option.some.inj (he₀.symm.trans hsame)
      exact absurd ha (hno a)

lemma newer_foldl {ms : List Mutation} (hg : g < rev) (h : Newer g k es) :
    Newer g k (ms.foldl (applyMutation rev) es) :=
  foldl_applyMutation h fun _ _ _ h => newer_applyMutation (s := new) hg (.inl h)

lemma newer_foldl_of_mem {ms : List Mutation} (hg : g < rev)
    (hms : ∀ m ∈ ms, s.checkMutation m = .ok ()) (hes : es[k]? = s.entries[k]?)
    (hm : ∃ m ∈ ms, changedKey m = k) : Newer g k (ms.foldl (applyMutation rev) es) := by
  induction ms generalizing es with
  | nil => simp at hm
  | cons m ms ih =>
    by_cases hk : changedKey m = k
    · rw [List.foldl_cons]
      exact newer_foldl hg (newer_applyMutation hg (.inr ⟨hk, hms m (by simp), hes⟩))
    · refine ih (fun m' hm' => hms m' (by simp [hm'])) ?_ (by simpa [hk] using hm)
      rw [get_applyMutation_of_ne (Ne.symm hk), hes]

/-- The call is made below the last generation. -/
def Room (s : Catalog) (_ : Call) : Prop := s.generation < s.generation + 1

lemma newer_mutate {i : UInt64} (hg : g < s.generation + 1)
    (h : Newer g k (c.mutations.foldl (applyMutation (s.generation + 1)) s.entries)) :
    Newer g k (s.mutate i c) := by
  intro e he
  by_cases hk : k = .adminCommand c.adminRequestId
  · subst hk
    rw [get_mutate_self] at he
    exact Option.some.inj he ▸ hg
  · rw [get_mutate_of_ne hk] at he
    exact h e he

/-- No update is lost: after a command has changed a key, no command that expects the key at a
revision from before passes, in whatever state the catalog is later. -/
theorem no_lost_update (hc : TakesEffect s x c) (hroom : Room s x) (hm : m ∈ c.mutations)
    (hrun : Run Room (s.after x) t) {d : CatalogCommand} {digest : Hash256} (hg : g ≤ s.generation)
    (hd : ⟨changedKey m, .revision g digest⟩ ∈ d.expected) : t.validate d ≠ .ok () := by
  -- the run writes at later generations only
  have hnewer : Newer s.generation (changedKey m) t.entries := by
    refine (hrun.keeps (fun u => u.genesis.isSome ∧ s.generation < u.generation ∧
      Newer s.generation (changedKey m) u.entries) ?_ fun u y hy hu => ?_).2.2
    · rw [after_of_takesEffect hc]
      exact ⟨hc.initialized, hroom,
        newer_mutate hroom (newer_foldl_of_mem hroom hc.mutation rfl ⟨m, hm, rfl⟩)⟩
    · rcases after_spec u y with h | ⟨-, h⟩ | ⟨_, _, -, -, h⟩ | ⟨_, -, -, hnone, -⟩ | ⟨c', hc', h⟩
      · rwa [h]
      · rwa [h]
      · rwa [h]
      · simp [hnone] at hu
      · rw [h]
        have hlt := hu.2.1.trans hy
        exact ⟨hu.1, hlt, newer_mutate hlt (newer_foldl hlt hu.2.2)⟩
  intro hvalid
  have hcheck := (validate_eq_ok_iff.mp hvalid).2.1 _ hd
  rw [checkExpected] at hcheck
  cases he : t.entries[changedKey m]? with
  | none => simp [he] at hcheck
  | some e =>
    simp only [he] at hcheck
    split_ifs at hcheck with hbad
    simp only [not_or, not_not] at hbad
    exact absurd (hbad.2.1 ▸ hnewer e he) hg.not_gt

/-- The administrator's command `n` replaces the configuration that the genesis has written. -/
def sampleUpdate (n : UInt8) : CatalogCommand :=
  { sampleCommand n [] [.advancePointer .clusterConfig sampleManifest.tree] with
    expected := [⟨.clusterConfig, .revision 1
      (CatalogEntry.mk .clusterConfig 1 .live sampleManifest.tree).digest⟩] }

lemma validate_sampleUpdate (n : UInt8) : started.validate (sampleUpdate n) = .ok () := by
  have he : started.entries[CatalogKey.clusterConfig]? =
      some ⟨.clusterConfig, 1, .live, sampleManifest.tree⟩ := rfl
  refine validate_eq_ok_iff.mpr ⟨rfl, ?_⟩
  simp [sampleUpdate, sampleCommand, checkExpected, checkMutation, he]

/-- Of two such commands the second is refused, though it was valid before the first. -/
theorem no_lost_update_config : started.validate (sampleUpdate 3) = .ok () ∧
    (started.after ⟨2, .catalog (sampleUpdate 2), Hash256.zero⟩).validate (sampleUpdate 3) ≠ .ok () :=
  ⟨validate_sampleUpdate 3, no_lost_update (c := sampleUpdate 2)
    ⟨rfl, by decide, rfl, by decide, rfl, validate_sampleUpdate 2⟩
    (by unfold Room; decide) (List.mem_singleton.mpr rfl) .refl (by decide)
    (List.mem_singleton.mpr rfl)⟩

end CarolinaDB.Catalog
