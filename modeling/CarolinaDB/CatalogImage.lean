import CarolinaDB.CanonBijection
import CarolinaDB.CanonSize
import CarolinaDB.CatalogLocks
import CarolinaDB.LittleEndian

/-!
# Atomicity, repeats and images of the catalog

A request id takes effect at most once and keeps its first result for good, so
that a log can be applied again from any image of a prefix of it. The image is
read back exactly if it is within the limits of the decoder.
-/
namespace CarolinaDB.Catalog

open CanonValue

variable {s s' t : Catalog} {x : Call} {c c' : CatalogCommand} {k : CatalogKey} {i : UInt64}
  {hash : Hash256} {r : CatalogCommit}

/-- Apply the entries of a log in turn, on a voter that pins the manifest of that hash. -/
def replay (hash : Hash256) (s : Catalog) (log : List (UInt64 × LogCommand)) : Catalog :=
  log.foldl (fun s e => s.after ⟨e.1, e.2, hash⟩) s

/-- The log holds what the decoder of log entries reads. -/
def Stored (log : List (UInt64 × LogCommand)) : Prop :=
  ∀ e ∈ log, ∃ bytes, decodeCommand bytes = .ok e.2

lemma replay_append (log log' : List (UInt64 × LogCommand)) :
    s.replay hash (log ++ log') = (s.replay hash log).replay hash log' :=
  List.foldl_append

section Results

/-- A result is kept for good. -/
lemma results_after {id : AdminRequestId} (h : s.results[id]? = some r) :
    (s.after x).results[id]? = some r := by
  have hinsert : ∀ c : CatalogCommand, s.results[c.adminRequestId]? = none →
      ∀ r', (s.results.insert c.adminRequestId r')[id]? = some r := by
    intro c hnone r'
    rw [FiniteMap.get_insert_of_ne, h]
    rintro rfl
    rw [h] at hnone
    cases hnone
  rcases after_spec s x with he | ⟨-, he⟩ | ⟨c, code, -, hnone, he⟩ | ⟨manifest, -, -, -, -, he⟩ |
    ⟨c, hc, he⟩
  · rw [he]
    exact h
  · rw [he]
    exact h
  · rw [he]
    exact hinsert c hnone _
  · rw [he]
    exact h
  · rw [he]
    exact hinsert c hc.unused _

lemma results_replay {id : AdminRequestId} (log : List (UInt64 × LogCommand))
    (h : s.results[id]? = some r) : (s.replay hash log).results[id]? = some r := by
  induction log generalizing s with
  | nil => exact h
  | cons e log ih => exact ih (results_after h)

/-- A command is applied to the state with its checks, and the index is set. -/
lemma apply_catalog (h : s.apply i (.catalog c) hash = .ok (some r, s')) :
    s.appliedIndex < i ∧ s.genesis.isSome ∧ distinctSets c ∧
      (s.applyCommand i c).1 = r ∧ s' = { (s.applyCommand i c).2 with appliedIndex := i } := by
  simp only [apply] at h
  split_ifs at h with hold hgen hd
  · cases h
  · simp only [Except.ok.injEq, Prod.mk.injEq, Option.some.injEq] at h
    refine ⟨lt_of_not_ge hold, ?_, hd, h.1, h.2.symm⟩
    simpa [Option.isSome_iff_ne_none] using hgen

/-- A request id that was used before has no effect, and answers the same command the same. -/
lemma applyCommand_of_used {prev : CatalogCommit} (h : s.results[c.adminRequestId]? = some prev) :
    (s.applyCommand i c).2 = s ∧
      (prev.commandHash = c.commandHash → (s.applyCommand i c).1 = prev) := by
  simp only [applyCommand, h]
  split_ifs with hhash <;> simp [hhash]

lemma applyCommand_of_unused (h : s.results[c.adminRequestId]? = none) :
    (∃ code, (s.applyCommand i c).1 = s.refusal i c code ∧
      (s.applyCommand i c).2.entries = s.entries ∧
      (s.applyCommand i c).2.generation = s.generation) ∨
    (s.validate c = .ok () ∧ (s.applyCommand i c).1 = s.success i c ∧
      (s.applyCommand i c).2.entries = s.mutate i c ∧
      (s.applyCommand i c).2.generation = s.generation + 1) := by
  simp only [applyCommand, h]
  cases hv : s.validate c with
  | error code => exact .inl ⟨code, rfl, rfl, rfl⟩
  | ok u => exact .inr ⟨rfl, rfl, rfl, rfl⟩

/-- The first use of a request id is retained. -/
lemma results_applyCommand (h : s.results[c.adminRequestId]? = none) :
    (s.applyCommand i c).2.results[c.adminRequestId]? = some (s.applyCommand i c).1 := by
  simp only [applyCommand, h]
  cases s.validate c with
  | error code => exact FiniteMap.get_insert_self
  | ok u => exact FiniteMap.get_insert_self

lemma commandHash_applyCommand (h : s.results[c.adminRequestId]? = none) :
    (s.applyCommand i c).1.commandHash = c.commandHash := by
  rcases applyCommand_of_unused (i := i) h with ⟨code, he, -⟩ | ⟨-, he, -⟩
  · rw [he]
    rfl
  · rw [he]
    rfl

/-- A result that reports a failure comes with no change. -/
lemma unchanged_of_failure (h : ((s.applyCommand i c).1).failure.isSome) :
    (s.applyCommand i c).2.entries = s.entries ∧
      (s.applyCommand i c).2.generation = s.generation := by
  cases hr : s.results[c.adminRequestId]? with
  | some prev =>
    rw [(applyCommand_of_used hr).1]
    exact ⟨rfl, rfl⟩
  | none =>
    rcases applyCommand_of_unused (i := i) hr with ⟨code, -, hes⟩ | ⟨-, he, -⟩
    · exact hes
    · rw [he] at h
      cases h

end Results

section Stamps
variable {rev : CatalogGeneration} {es : FiniteMap CatalogKey CatalogEntry} {m : Mutation}

/-- The entry of the key carries the revision. -/
def Stamped (rev : CatalogGeneration) (k : CatalogKey) (es : FiniteMap CatalogKey CatalogEntry) :
    Prop :=
  ∃ e, es[k]? = some e ∧ e.revision = rev

/-- The grant can be advanced, or its entry was written already. -/
def Ready (rev : CatalogGeneration) (id : GrantId) (es : FiniteMap CatalogKey CatalogEntry) : Prop :=
  Stamped rev (.authority id) es ∨
    ∃ e g, es[CatalogKey.authority id]? = some e ∧ AuthorityGrant.fromCanon e.value.val = .ok g

lemma stamped_applyMutation_self (h : ∀ id old new, m = .advanceGrantState id old new → Ready rev id es) :
    Stamped rev (changedKey m) (applyMutation rev es m) := by
  cases m with
  | putImmutable key value => exact ⟨_, FiniteMap.get_insert_self, rfl⟩
  | advancePointer key value => exact ⟨_, FiniteMap.get_insert_self, rfl⟩
  | tombstone key => exact ⟨_, FiniteMap.get_insert_self, rfl⟩
  | advanceGrantState id old new =>
    have hready := h id old new rfl
    cases he : es[CatalogKey.authority id]? with
    | none =>
      rcases hready with ⟨e, he', -⟩ | ⟨e, g, he', -⟩ <;> rw [he] at he' <;> cases he'
    | some e =>
      simp only [applyMutation, he]
      cases hread : AuthorityGrant.fromCanon e.value.val with
      | ok g => exact ⟨_, FiniteMap.get_insert_self, rfl⟩
      | error err =>
        rcases hready with hstamped | ⟨e', g, he', hread'⟩
        · exact hstamped
        · rw [he] at he'
          cases he'
          rw [hread] at hread'
          cases hread'

lemma stamped_applyMutation (h : Stamped rev k es) : Stamped rev k (applyMutation rev es m) := by
  by_cases hk : k = changedKey m
  swap
  · rw [Stamped, get_applyMutation_of_ne hk]
    exact h
  subst hk
  apply stamped_applyMutation_self
  rintro id old new rfl
  exact .inl h

lemma ready_applyMutation {id : GrantId} (h : Ready rev id es) :
    Ready rev id (applyMutation rev es m) := by
  by_cases hk : CatalogKey.authority id = changedKey m
  swap
  · simpa only [Ready, Stamped, get_applyMutation_of_ne hk] using h
  left
  rw [hk]
  apply stamped_applyMutation_self
  rintro id' old new rfl
  cases hk
  exact h

/-- Every key a command reports as changed carries its revision. -/
lemma stamped_foldl {ms : List Mutation}
    (h : ∀ id old new, .advanceGrantState id old new ∈ ms → Ready rev id es) :
    ∀ m ∈ ms, Stamped rev (changedKey m) (ms.foldl (applyMutation rev) es) := by
  induction ms generalizing es with
  | nil => simp
  | cons m ms ih =>
    intro m' hm'
    rw [List.foldl_cons]
    rcases List.mem_cons.mp hm' with rfl | hm'
    · apply foldl_applyMutation (Q := Stamped rev (changedKey m'))
      · apply stamped_applyMutation_self
        rintro id old new rfl
        exact h id old new (by simp)
      · intro es' m'' _ hes
        exact stamped_applyMutation hes
    · apply ih _ m' hm'
      intro id old new hmem
      exact ready_applyMutation (h id old new (by simp [hmem]))

lemma ready_of_check {id : GrantId} {old new : GrantState}
    (h : s.checkMutation (.advanceGrantState id old new) = .ok ()) : Ready rev id s.entries := by
  rw [checkMutation] at h
  split at h
  · rename_i g hg
    obtain ⟨e, he, hread⟩ := grant_eq_some_iff.mp hg
    exact .inr ⟨e, g, (get_eq_some_iff.mp he).1, hread⟩
  · cases h

/-- A valid command writes the keys it reports and its own record, and no other. -/
lemma mutate_spec (hv : s.validate c = .ok ()) (k : CatalogKey) :
    if k ∈ c.mutations.map changedKey ∨ k = .adminCommand c.adminRequestId then
      Stamped (s.generation + 1) k (s.mutate i c)
    else (s.mutate i c)[k]? = s.entries[k]? := by
  have hms := (validate_eq_ok_iff.mp hv).2.2.2
  by_cases hown : k = .adminCommand c.adminRequestId
  · subst hown
    rw [if_pos (.inr rfl)]
    exact ⟨_, get_mutate_self, rfl⟩
  split_ifs with hmem
  · obtain ⟨m, hm, rfl⟩ := List.mem_map.mp (hmem.resolve_right hown)
    rw [Stamped, get_mutate_of_ne hown]
    apply stamped_foldl _ m hm
    intro id old new hadv
    exact ready_of_check (hms _ hadv)
  · rw [get_mutate_of_ne hown]
    apply get_foldl_of_not_mem
    intro m hm he
    exact hmem (.inl (List.mem_map.mpr ⟨m, hm, he⟩))

end Stamps

section Images

/-- What holds in every state a log leads to. -/
structure Consistent (s : Catalog) : Prop where
  keyed : Keyed s.entries
  named : ∀ (id : AdminRequestId) (r : CatalogCommit), s.results[id]? = some r → r.adminRequestId = id
  bounded : s.generation.toNat ≤ s.appliedIndex.toNat
  manifest : ∀ m, s.genesis = some m → m.distinctSets ∧ m.normal = m

lemma consistent_new : new.Consistent where
  keyed k e he := by simp [new] at he
  named id r hr := by simp [new] at hr
  bounded := le_rfl
  manifest m hm := by simp [new] at hm

lemma named_insert {rs : FiniteMap AdminRequestId CatalogCommit}
    (h : ∀ (id : AdminRequestId) (r : CatalogCommit), rs[id]? = some r → r.adminRequestId = id)
    (hr : r.adminRequestId = c.adminRequestId) (id : AdminRequestId) (r' : CatalogCommit)
    (he : (rs.insert c.adminRequestId r)[id]? = some r') : r'.adminRequestId = id := by
  rw [FiniteMap.get_insert] at he
  split_ifs at he with hid
  · cases he
    exact hr.trans hid
  · exact h id r' he

/-- The generation grows with the index at most, and so does not overflow. -/
lemma toNat_generation_succ (h : s.generation.toNat ≤ s.appliedIndex.toNat) (hi : s.appliedIndex < i) :
    (s.generation + 1).toNat = s.generation.toNat + 1 ∧ s.generation.toNat + 1 ≤ i.toNat := by
  have hlt : s.appliedIndex.toNat < i.toNat := hi
  have hmax := i.toNat_lt
  rw [UInt64.toNat_add]
  simp only [UInt64.reduceToNat]
  omega

lemma manifest_of_stored {m : BootstrapManifest} {bytes : Bytes}
    (h : decodeCommand bytes = .ok (.genesis m)) : m.normal = m := by
  obtain ⟨v, hv, h⟩ := CoreResult.bind_eq_ok h
  obtain ⟨lc, hlc, h⟩ := CoreResult.bind_eq_ok h
  split_ifs at h
  cases h
  have hsorted : v.sorted := (decode_eq_ok_iff.mp hv).1
  simp only [fromCanon, LogCommand.fromCanon, CoreResult.bind_eq_ok_iff] at hlc
  obtain ⟨_, -, kind, -, hlc⟩ := hlc
  split_ifs at hlc
  · obtain ⟨m', hm', he⟩ := CoreResult.bind_eq_ok hlc
    cases he
    obtain ⟨w, hw, hm'⟩ := CoreResult.bind_eq_ok hm'
    exact (BootstrapManifest.distinctSets_of_fromCanon (CarolinaDB.sorted_of_field hsorted hw) hm').2
  · obtain ⟨c, -, he⟩ := CoreResult.bind_eq_ok hlc
    cases he

lemma consistent_after (h : s.Consistent) (hx : ∃ bytes, decodeCommand bytes = .ok x.command) :
    (s.after x).Consistent := by
  have hkeyed := keyed_after (x := x) h.keyed
  rcases after_spec s x with he | ⟨hlt, he⟩ | ⟨c, code, hlt, hnone, he⟩ |
    ⟨manifest, hcommand, hlt, hnone, hd, he⟩ | ⟨c, hc, he⟩
  · rw [he]
    exact h
  · have hlt' : s.appliedIndex.toNat < x.logIndex.toNat := hlt
    rw [he] at hkeyed ⊢
    exact ⟨hkeyed, h.named, h.bounded.trans hlt'.le, h.manifest⟩
  · have hlt' : s.appliedIndex.toNat < x.logIndex.toNat := hlt
    rw [he] at hkeyed ⊢
    exact ⟨hkeyed, named_insert h.named rfl, h.bounded.trans hlt'.le, h.manifest⟩
  · obtain ⟨hsucc, hle⟩ := toNat_generation_succ h.bounded hlt
    rw [he] at hkeyed ⊢
    refine ⟨hkeyed, h.named, hsucc.le.trans hle, ?_⟩
    intro m hm
    cases hm
    obtain ⟨bytes, hbytes⟩ := hx
    rw [hcommand] at hbytes
    exact ⟨hd, manifest_of_stored hbytes⟩
  · obtain ⟨hsucc, hle⟩ := toNat_generation_succ h.bounded hc.newer
    rw [he] at hkeyed ⊢
    exact ⟨hkeyed, named_insert h.named rfl, hsucc.le.trans hle, h.manifest⟩

lemma consistent_replay {log : List (UInt64 × LogCommand)} (h : s.Consistent) (hlog : Stored log) :
    (s.replay hash log).Consistent := by
  induction log generalizing s with
  | nil => exact h
  | cons e log ih =>
    apply ih (consistent_after h (hlog e (by simp)))
    intro e' he'
    exact hlog e' (by simp [he'])

lemma restore_snapshot (h : s.Consistent) : restore s.snapshot = s := by
  have hentries : s.entries.values.foldl (fun es e => es.insert e.key e) ∅ = s.entries :=
    FiniteMap.foldl_insert_values h.keyed
  have hresults : s.results.values.foldl (fun rs r => rs.insert r.adminRequestId r) ∅ = s.results :=
    FiniteMap.foldl_insert_values h.named
  rw [restore, snapshot]
  dsimp only
  rw [hentries, hresults]

lemma normal_snapshot (h : s.Consistent) :
    distinctSets s.snapshot ∧ (normal s.snapshot : CatalogSnapshot) = s.snapshot := by
  cases hgen : s.genesis with
  | none =>
    constructor
    · change Option.all _ s.genesis = true
      rw [hgen]
      rfl
    · change ({ s.snapshot with genesis := s.genesis.map _ } : CatalogSnapshot) = _
      simp [snapshot, hgen]
  | some m =>
    obtain ⟨hd, hn⟩ := h.manifest m hgen
    constructor
    · change Option.all _ s.genesis = true
      rw [hgen]
      exact hd
    · change ({ s.snapshot with genesis := s.genesis.map BootstrapManifest.normal } :
        CatalogSnapshot) = _
      simp [snapshot, hgen, hn]

/-- The image of a state is within the limits of the decoder. -/
def ImageFits (s : Catalog) : Prop :=
  (Canonical.encode s.snapshot).length ≤ Limits.v1.maxPayloadBytes ∧
    (toCanon s.snapshot).fits Limits.v1 0

/-- The image is read back as it was taken if it is within the limits, and not at all otherwise. -/
lemma decode_snapshot_iff (h : s.Consistent) {image : CatalogSnapshot} :
    Canonical.decode (Canonical.encode s.snapshot) Limits.v1 = .ok image ↔
      s.ImageFits ∧ image = s.snapshot := by
  obtain ⟨hd, hn⟩ := normal_snapshot h
  rw [decode_encode_iff s.snapshot hd Limits.v1 image, hn]
  have hsound : sound s.snapshot = true := rfl
  simp only [ImageFits, hsound, true_and, and_assoc]

end Images

/-- Commands are atomic and idempotent, and images are transparent, for every log and every split of
it into a prefix that leads to `s` and a rest. A result with a failure comes with no change; a
success raises the generation by one and changes exactly the keys it reports and its own record, all
stamped with the new generation; after the first use of a request id no later use changes anything,
and the same command is answered the same. The image of the prefix is read back, and the rest applied
to it leads to the state the whole log leads to, if and only if it is within the limits. -/
theorem commands_atomic_images_transparent (log rest : List (UInt64 × LogCommand))
    (hlog : Stored log) (hs : s = new.replay hash log) :
    (∀ i c r s', s.apply i (.catalog c) hash = .ok (some r, s') →
      (r.failure.isSome → s'.entries = s.entries ∧ s'.generation = s.generation) ∧
      (s.results[c.adminRequestId]? = none → r.failure = none →
        s'.generation.toNat = s.generation.toNat + 1 ∧ r.catalogGeneration = s'.generation ∧
        ∀ k, if k ∈ r.changedKeys ∨ k = .adminCommand c.adminRequestId then
            ∃ e, s'.entries[k]? = some e ∧ e.revision = s'.generation
          else s'.entries[k]? = s.entries[k]?) ∧
      (s.results[c.adminRequestId]? = none →
        ∀ j c' r' t', (s'.replay hash rest).apply j (.catalog c') hash = .ok (some r', t') →
          c'.adminRequestId = c.adminRequestId →
            t'.entries = (s'.replay hash rest).entries ∧
            t'.generation = (s'.replay hash rest).generation ∧ (c' = c → r' = r))) ∧
    ((∃ image, Canonical.decode (Canonical.encode s.snapshot) Limits.v1 = .ok image ∧
        (restore image).replay hash rest = new.replay hash (log ++ rest)) ↔
      (Canonical.encode s.snapshot).length ≤ Limits.v1.maxPayloadBytes ∧
        (toCanon s.snapshot).fits Limits.v1 0) := by
  have hcons : s.Consistent := by
    rw [hs]
    exact consistent_replay consistent_new hlog
  constructor
  · intro i c r s' happly
    obtain ⟨hlt, -, -, rfl, rfl⟩ := apply_catalog happly
    refine ⟨unchanged_of_failure, ?_, ?_⟩
    · intro hnone hsuccess
      rcases applyCommand_of_unused (i := i) hnone with ⟨code, he, -⟩ | ⟨hv, he, hentries, hgen⟩
      · rw [he] at hsuccess
        cases hsuccess
      · dsimp only
        rw [he, hentries, hgen]
        exact ⟨(toNat_generation_succ hcons.bounded hlt).1, rfl, mutate_spec hv⟩
    · intro hnone j c' r' t' hagain hid
      obtain ⟨-, -, -, rfl, rfl⟩ := apply_catalog hagain
      have hkept : (replay hash { (s.applyCommand i c).2 with appliedIndex := i } rest).results[
          c'.adminRequestId]? = some (s.applyCommand i c).1 := by
        rw [hid]
        exact results_replay rest (results_applyCommand hnone)
      obtain ⟨hsame, hanswer⟩ := applyCommand_of_used (i := j) hkept
      dsimp only
      rw [hsame]
      refine ⟨rfl, rfl, ?_⟩
      rintro rfl
      exact hanswer (commandHash_applyCommand hnone)
  · constructor
    · rintro ⟨image, himage, -⟩
      exact ((decode_snapshot_iff hcons).mp himage).1
    · intro hfits
      refine ⟨s.snapshot, (decode_snapshot_iff hcons).mpr ⟨hfits, rfl⟩, ?_⟩
      rw [restore_snapshot hcons, replay_append, ← hs]

section Samples

/-- A command that is read back and within the limits can be an entry of a log. -/
lemma stored_of_fits {lc : LogCommand} (hd : lc.distinctSets) (hn : lc.normal = lc)
    (hlen : (Canonical.encode lc).length ≤ Limits.v1.maxPayloadBytes)
    (hfits : (toCanon lc).fits Limits.v1 0) : ∃ bytes, decodeCommand bytes = .ok lc :=
  ⟨_, (decode_encode_iff lc hd Limits.v1 lc).mpr ⟨hlen, hfits, rfl, hn.symm⟩⟩

def sampleLog : List (UInt64 × LogCommand) := [(1, .genesis sampleManifest)]

set_option maxRecDepth 100000 in
lemma stored_sampleLog : Stored sampleLog := by
  intro e he
  simp only [sampleLog, List.mem_singleton] at he
  subst he
  exact stored_of_fits (by decide) (by decide) (by decide) (by decide)

lemma replay_sampleLog : new.replay sampleManifest.manifestHash sampleLog = started := by
  rw [replay, sampleLog, List.foldl_cons, List.foldl_nil]
  exact after_sampleGenesis

set_option maxRecDepth 100000 in
theorem commands_atomic_images_transparent_genesis :
    ∃ image, Canonical.decode (Canonical.encode started.snapshot) Limits.v1 = .ok image ∧
      (restore image).replay sampleManifest.manifestHash [(2, .catalog (sampleCommand 2 [] []))] =
        new.replay sampleManifest.manifestHash
          (sampleLog ++ [(2, .catalog (sampleCommand 2 [] []))]) :=
  (commands_atomic_images_transparent sampleLog _ stored_sampleLog replay_sampleLog.symm).2.mpr
    ⟨by decide, by decide⟩

/-- Request `n` of a principal that is no administrator. -/
def denied (n : ℕ) : CatalogCommand :=
  ⟨⟨⟨littleEndian 16 n, length_littleEndian 16 n⟩⟩, sampleId _ 9, [], [], []⟩

def deniedLog (count : ℕ) : List (UInt64 × LogCommand) :=
  (List.range count).map fun n => (UInt64.ofNat (n + 2), .catalog (denied n))

lemma denied_injective {m n : ℕ} (hm : m < 2^32) (hn : n < 2^32)
    (h : (denied m).adminRequestId = (denied n).adminRequestId) : m = n := by
  have hbytes : littleEndian 16 m = littleEndian 16 n := congrArg (fun i => i.bytes.val) h
  have hnum := congrArg fromLittleEndian hbytes
  rw [fromLittleEndian_littleEndian, fromLittleEndian_littleEndian] at hnum
  norm_num at hnum
  omega

/-- A denied command leaves nothing but its result. -/
lemma after_denied (hash : Hash256) {n : ℕ} (hgen : s.genesis = started.genesis) (hlt : s.appliedIndex < i)
    (hnone : s.results[(denied n).adminRequestId]? = none) :
    ∃ r, s.after ⟨i, .catalog (denied n), hash⟩ = { s with
      results := s.results.insert (denied n).adminRequestId r
      appliedIndex := i } := by
  have hadmin : s.adminAllowed (denied n).principal = false := by
    rw [adminAllowed, hgen]
    change decide (sampleManifest.bootstrapAdmin = sampleId _ 9) = false
    decide
  have hv : s.validate (denied n) = .error "AuthorizationDenied" := by
    simp [validate, hadmin]
  have hinit : s.genesis.isNone = false := by
    rw [hgen]
    rfl
  have hd : distinctSets (denied n) = true := rfl
  refine ⟨s.refusal i (denied n) "AuthorizationDenied", ?_⟩
  simp [after, apply, not_le.mpr hlt, hinit, hd, applyCommand, hnone, hv]

/-- Every denied request is retained. -/
lemma replay_deniedLog (hash : Hash256) {count : ℕ} (h : count ≤ 2^32) :
    ∃ s, started.replay hash (deniedLog count) = s ∧ s.genesis = started.genesis ∧
      s.appliedIndex.toNat = count + 1 ∧ s.results.size = count ∧
      ∀ n, count ≤ n → n < 2^32 → s.results[(denied n).adminRequestId]? = none := by
  induction count with
  | zero =>
    refine ⟨started, rfl, rfl, rfl, rfl, ?_⟩
    intro n _ _
    change (∅ : FiniteMap AdminRequestId CatalogCommit)[_]? = none
    simp
  | succ count ih =>
    obtain ⟨s, hs, hgen, hindex, hsize, hnone⟩ := ih (by omega)
    have hlog : deniedLog (count + 1) =
        deniedLog count ++ [(UInt64.ofNat (count + 2), .catalog (denied count))] := by
      simp [deniedLog, List.range_succ]
    have hnew : (UInt64.ofNat (count + 2)).toNat = count + 2 := by
      rw [UInt64.toNat_ofNat']
      omega
    have hlt : s.appliedIndex < UInt64.ofNat (count + 2) := by
      rw [UInt64.lt_iff_toNat_lt, hindex, hnew]
      omega
    have hcount := hnone count le_rfl (by omega)
    obtain ⟨r, hr⟩ := after_denied hash hgen hlt hcount
    refine ⟨{ s with
      results := s.results.insert (denied count).adminRequestId r
      appliedIndex := UInt64.ofNat (count + 2) }, ?_, hgen, hnew, ?_, ?_⟩
    · rw [hlog, replay_append, hs]
      exact hr
    · rw [Std.ExtTreeMap.size_insert, if_neg, hsize]
      rw [Std.ExtTreeMap.contains_eq_isSome_getElem?, hcount]
      simp
    · intro n hle hn
      rw [FiniteMap.get_insert_of_ne, hnone n (by omega) hn]
      intro he
      have := denied_injective (by omega) hn he
      omega

lemma length_encode_denied (n : ℕ) : (toCanon (LogCommand.catalog (denied n))).encode.length =
    (toCanon (LogCommand.catalog (denied 0))).encode.length := by
  have hid : ∀ i : AdminRequestId, (toCanon i).encode.length = 34 := by
    intro i
    have := length_encode_bytes i.bytes.val
    rw [i.bytes.2] at this
    exact this
  apply length_encode_build_congr
  refine .cons ⟨rfl, ?_⟩ (.cons ⟨rfl, rfl⟩ .nil)
  apply length_encode_build_congr
  refine .cons ⟨rfl, ?_⟩ (.cons ⟨rfl, rfl⟩ (.cons ⟨rfl, rfl⟩ (.cons ⟨rfl, rfl⟩ (.cons ⟨rfl, rfl⟩ .nil))))
  rw [hid, hid]

lemma fits_denied (n : ℕ) : (toCanon (LogCommand.catalog (denied n))).fits Limits.v1 0 := by
  have hid : (toCanon (denied n).adminRequestId).fits Limits.v1 2 := by
    change fitsScalar Limits.v1 (hexEncode (littleEndian 16 n)) = true
    rw [fitsScalar, length_escape_hexEncode, length_littleEndian]
    decide
  have hrest : (toCanon ([] : List Expectation)).fits Limits.v1 2 ∧
      (toCanon ([] : List Mutation)).fits Limits.v1 2 ∧
      (toCanon ([] : List Predicate)).fits Limits.v1 2 ∧
      (toCanon (sampleId "PrincipalId" 9)).fits Limits.v1 2 := by
    decide
  have hcommand : (toCanon (denied n)).fits Limits.v1 1 := by
    refine (fits_build ["admin_request_id", "expected", "mutations", "predicates", "principal"] rfl
      (by decide) (by decide)).mpr ⟨by decide, ?_⟩
    simp only [List.mem_cons, List.not_mem_nil, or_false, forall_eq_or_imp, forall_eq]
    exact ⟨hid, hrest⟩
  refine (fits_build ["command", "kind"] rfl (by decide) (by decide)).mpr
    ⟨by decide, ?_⟩
  simp only [List.mem_cons, List.not_mem_nil, or_false, forall_eq_or_imp, forall_eq, hcommand,
    true_and]
  decide

set_option maxRecDepth 100000 in
lemma stored_denied (n : ℕ) : ∃ bytes, decodeCommand bytes = .ok (.catalog (denied n)) := by
  refine stored_of_fits rfl rfl ?_ (fits_denied n)
  rw [Canonical.encode, length_encode_denied]
  decide

/-- An image with more results than a collection may have is not within the limits. -/
lemma size_le_of_imageFits (h : s.ImageFits) : s.results.size ≤ 65536 := by
  have hfield : (toCanon s.snapshot).field "results" = .ok (toCanon s.results.values) := by
    change CanonValue.field (CanonValue.build _) _ = _
    simp [field_build, snapshot]
  have hfits := fits_of_field h.2 hfield
  have hlen : (s.results.values.map toCanon).length ≤ Limits.v1.maxCollectionLen := by
    simp only [toCanon, fits, Bool.and_eq_true, decide_eq_true_eq] at hfits
    exact hfits.2.1
  rw [List.length_map, FiniteMap.length_values] at hlen
  exact hlen

/-- The image of a catalog that has denied more requests than a collection may hold is not read. -/
theorem image_of_many_results_unreadable :
    ∃ log, Stored log ∧ ∀ image : CatalogSnapshot, Canonical.decode
      (Canonical.encode (new.replay sampleManifest.manifestHash log).snapshot) Limits.v1 ≠
        .ok image := by
  have hstored : Stored (sampleLog ++ deniedLog 65537) := by
    intro e he
    rcases List.mem_append.mp he with he | he
    · exact stored_sampleLog e he
    · obtain ⟨n, -, rfl⟩ := List.mem_map.mp he
      exact stored_denied n
  refine ⟨sampleLog ++ deniedLog 65537, hstored, ?_⟩
  · obtain ⟨s, hs, -, -, hsize, -⟩ := replay_deniedLog sampleManifest.manifestHash
      (show 65537 ≤ 2^32 by norm_num)
    rw [replay_append, replay_sampleLog, hs]
    have hcons : s.Consistent := by
      rw [← hs, ← replay_sampleLog, ← replay_append]
      exact consistent_replay consistent_new hstored
    intro image himage
    have := size_le_of_imageFits ((decode_snapshot_iff hcons).mp himage).1
    omega

end Samples

end CarolinaDB.Catalog
