import CarolinaDB.StoreDecisions
import CarolinaDB.StoreSnapshots

/-!
# What a scan of the store returns

The store asks the tree for twice as many visible versions as it may return and drops
the tombstones among them. The rows are those of the range as long as the tombstones
in front leave enough of the versions that were asked for.
-/
namespace CarolinaDB.Storage

/-- The value that was written, in the entry or behind it. -/
def Stored.content {V : Type} : Stored V → V
  | .inline v => v
  | .overflow v => v

lemma LeafEntry.readValue_cases {V : Type} (e : LeafEntry V) :
    e.readValue = .ok e.value.content ∨ ∃ err, e.readValue = .error err := by
  rw [readValue]
  cases e.value with
  | inline v =>
    dsimp only
    split_ifs
    · exact Or.inl rfl
    · exact Or.inr ⟨_, rfl⟩
  | overflow v =>
    dsimp only
    split_ifs
    · exact Or.inr ⟨_, rfl⟩
    · exact Or.inl rfl

namespace Store

/-- The entries that are no tombstones. -/
def live (es : List (LeafEntry Bytes)) : List (LeafEntry Bytes) := es.filter fun e => !e.isTombstone

/-- The row of an entry. -/
def rowOf (e : LeafEntry Bytes) : LogicalKey × Bytes := (e.key, e.value.content)

/-- `rows` are the live rows of a range, in key order. -/
def IsLive (m : Rows) (start : Bytes) (end_ : Option Bytes) (visible : ℕ)
    (rows : List (LogicalKey × Bytes)) : Prop :=
  rows.Pairwise (fun a b => a.1 < b.1) ∧
    ∀ k v, (k, v) ∈ rows ↔ start ≤ k ∧ (∀ b ∈ end_, k < b) ∧
      ∃ e, m.newest k visible = some e ∧ e.isTombstone = false ∧ e.value.content = v

section Live
variable {es : List (LeafEntry Bytes)}

lemma live_take_isPrefix (es : List (LeafEntry Bytes)) (n : ℕ) : live (es.take n) <+: live es :=
  (List.take_prefix n es).filter _

lemma isLive_rows (t : BTree Bytes) (start : Bytes) (end_ : Option Bytes) (visible : ℕ) :
    IsLive t.versions start end_ visible ((live (t.rows start end_ visible)).map rowOf) := by
  obtain ⟨hsorted, hmem⟩ := t.isRows_rows start end_ visible
  refine ⟨List.pairwise_map.mpr (hsorted.filter _), fun k v => ?_⟩
  rw [List.mem_map]
  constructor
  · rintro ⟨e, he, hrow⟩
    obtain ⟨he, hlive⟩ := List.mem_filter.mp he
    obtain ⟨rfl, rfl⟩ := Prod.mk.inj hrow
    obtain ⟨hstart, hend, hnewest⟩ := (hmem e).mp he
    exact ⟨hstart, hend, e, hnewest, by simpa using hlive, rfl⟩
  · rintro ⟨hstart, hend, e, hnewest, hlive, rfl⟩
    have hkey : e.key = k := by
      obtain ⟨v, -, hv, -⟩ := Versions.newest_eq_some_iff.mp hnewest
      exact (BTree.versions_eq_some_iff.mp hv).2.1
    subst hkey
    exact ⟨e, List.mem_filter.mpr ⟨(hmem e).mpr ⟨hstart, hend, hnewest⟩, by simpa using hlive⟩, rfl⟩

/-- What the loop over the versions returns: the first live rows, one of them for the limit zero. -/
lemma liveRows_eq_ok {limit : ℕ} {out rows : List (LogicalKey × Bytes)}
    (hout : out.length < max limit 1) :
    liveRows limit es out = .ok rows ↔
      (∀ e ∈ (live es).take (max limit 1 - out.length), e.readValue = .ok e.value.content) ∧
        rows = out ++ ((live es).take (max limit 1 - out.length)).map rowOf := by
  induction es generalizing out with
  | nil => simp [liveRows, live, eq_comm]
  | cons e es ih =>
    rw [liveRows]
    cases htomb : e.isTombstone with
    | true =>
      have hskip : live (e :: es) = live es := List.filter_cons_of_neg (by simp [htomb])
      rw [if_pos rfl, hskip]
      exact ih hout
    | false =>
      have hkeep : live (e :: es) = e :: live es := List.filter_cons_of_pos (by simp [htomb])
      obtain ⟨n, hn⟩ : ∃ n, max limit 1 - out.length = n + 1 := ⟨max limit 1 - out.length - 1, by omega⟩
      rw [if_neg Bool.false_ne_true, hkeep, hn, List.take_succ_cons, List.forall_mem_cons, List.map_cons]
      rcases e.readValue_cases with hread | ⟨err, herr⟩
      · rw [hread, CoreResult.ok_bind]
        by_cases hfull : limit ≤ (out ++ [(e.key, e.value.content)]).length
        · have hzero : n = 0 := by
            rw [List.length_append, List.length_singleton] at hfull
            omega
          rw [if_pos hfull, hzero]
          simp [rowOf, eq_comm]
        · rw [List.length_append, List.length_singleton] at hfull
          have hrest : max limit 1 - (out ++ [(e.key, e.value.content)]).length = n := by
            rw [List.length_append, List.length_singleton]
            omega
          rw [if_neg (by simpa using hfull), ih (by simp; omega), hrest, List.append_assoc]
          simp [rowOf]
      · rw [herr]
        simp

end Live

/-- The versions a scan asks for are enough: they hold as many live rows as are wanted, or all of
them. A scan for no row must not meet one at once. -/
def Suffices (limit : ℕ) (es : List (LeafEntry Bytes)) : Prop :=
  if limit = 0 then ∀ e ∈ es.head?, e.isTombstone = true
  else limit ≤ (live (es.take (max (min (limit * 2) u64Max) limit))).length ∨
    live (es.take (max (min (limit * 2) u64Max) limit)) = live es

lemma suffices_iff {limit : ℕ} {es : List (LeafEntry Bytes)} :
    Suffices limit es ↔ (live (es.take (max (max (min (limit * 2) u64Max) limit) 1))).take
      (max limit 1) = (live es).take limit := by
  rw [Suffices]
  split_ifs with hzero
  · subst hzero
    cases es with
    | nil => simp [live]
    | cons e es => cases htomb : e.isTombstone <;> simp [live, htomb, u64Max]
  · have hpos : max limit 1 = limit := by omega
    have hbound : max (max (min (limit * 2) u64Max) limit) 1 = max (min (limit * 2) u64Max) limit := by
      omega
    rw [hpos, hbound]
    obtain ⟨rest, hrest⟩ := live_take_isPrefix es (max (min (limit * 2) u64Max) limit)
    rw [← hrest]
    generalize live (es.take (max (min (limit * 2) u64Max) limit)) = seen
    constructor
    · rintro (hle | hall)
      · rw [List.take_append_of_le_length hle]
      · rw [← hall]
    · intro hsame
      by_cases hle : limit ≤ seen.length
      · exact Or.inl hle
      · rw [List.take_of_length_le (by omega), List.take_append, List.take_of_length_le (by omega),
          List.self_eq_append_right, List.take_eq_nil_iff] at hsame
        rcases hsame with hsame | rfl
        · omega
        · exact Or.inr (List.append_nil seen).symm

end Store

namespace StoreCall

open Store

/-- A batch that deletes two keys and writes the next one, without its digest. -/
def unsealedErasing : CompiledBatch :=
  { unsealedBatch with
    mutations := [.delete [1, 97] ⟨0, []⟩, .delete [1, 98] ⟨0, []⟩, .put [1, 99] [118] ⟨0, []⟩]
    protocolMutations := [] }

def erasingBatch : CompiledBatch :=
  { unsealedErasing with
    semanticDigest := domainHash "astra.batch.v1" unsealedErasing.semanticPayload.encode }

lemma verify_erasingBatch : erasingBatch.verify = .ok () := by
  have hseal : unsealedErasing.seal_ = .ok erasingBatch := by
    have hdistinct : unsealedErasing.distinctSets = true := by decide
    rw [CompiledBatch.seal_, CompiledBatch.computeDigest, if_pos hdistinct, CoreResult.ok_bind]
    rfl
  exact CompiledBatch.verify_of_seal hseal rfl (by decide) rfl rfl

/-- The three versions the batch writes. -/
def erasingCalls : List (InsertCall Bytes) :=
  [⟨[1, 97], 1, sampleTxn, 1, [], []⟩, ⟨[1, 98], 1, sampleTxn, 1, [], []⟩,
    ⟨[1, 99], 1, sampleTxn, 0, [], [118]⟩]

lemma commit_erasingBatch : ∃ res s, Store.commit calm erasingBatch (freshStore sampleOptions) =
    (.ok res, s) ∧ Extends erasingCalls (freshStore sampleOptions) s ∧ Serving s ∧
      s.tree.entries.length ≤ 3 := by
  have hs := serving_freshStore sampleOptions
  have hadmitted : (freshStore sampleOptions).validateAdmission erasingBatch = .ok () := by
    rw [hs.validateAdmission_eq, verify_erasingBatch]
    rfl
  have hundecided : (freshStore sampleOptions).refuseDecidedTxn sampleTxn = .ok () := by
    decide +kernel
  have hcalls (m : Rows) (visible : ℕ) :
      batchCalls m visible erasingBatch 1 none = erasingCalls := rfl
  have hlen : (commitPayload erasingBatch 1).encode.length ≤ maxJournalPayload := by
    have hfields : (erasingBatch.semanticFields.map CanonValue.fieldLen).sum ≤ 3000 := by
      decide +kernel
    have hbatch := erasingBatch.length_encode_le hfields
    have hpayload := length_commitPayload_le erasingBatch 1
    rw [maxJournalPayload]
    omega
  have hfits : ∀ c ∈ erasingCalls, c.Fits := by
    intro c hc
    simp only [erasingCalls, List.mem_cons, List.not_mem_nil, or_false] at hc
    rcases hc with rfl | rfl | rfl
    all_goals exact InsertCall.fits_of_length (by decide) (by decide) (by decide)
  have hends : (Store.commit calm erasingBatch).Ends (freshStore sampleOptions) fun _ s' =>
      Committed erasingBatch (freshStore sampleOptions) s' ∧ Advanced 3 (freshStore sampleOptions) s' :=
    commit_ends hs hadmitted hundecided rfl (by simp [freshStore])
      ⟨by decide, by decide, by decide⟩ hfits (fun w hw => absurd hw List.not_mem_nil) hlen
  obtain ⟨res, s, hrun, hcommitted, hadvanced⟩ := hends
  exact ⟨res, s, hrun, hcommitted.installed, hadvanced.serving, hadvanced.entries⟩

/-- The rows of the three keys are two tombstones and a value. -/
lemma rows_erasing {s : Store} (h : Extends erasingCalls (freshStore sampleOptions) s) :
    s.tree.rows [1] none s.durableCommitSeq = erasingCalls.map InsertCall.entry := by
  have hs := serving_freshStore sampleOptions
  refine (s.tree.isRows_rows [1] none s.durableCommitSeq).unique ⟨by decide, fun e => ?_⟩
  have hnewest (k : Bytes) : s.tree.versions.newest k s.durableCommitSeq =
      (erasingCalls.find? fun c => c.key = k).map InsertCall.entry := by
    rw [h.newest_eq hs.current hs.lt hs.next k]
    exact Option.or_none
  rw [hnewest, List.mem_map]
  constructor
  · rintro ⟨c, hc, rfl⟩
    simp only [erasingCalls, List.mem_cons, List.not_mem_nil, or_false] at hc
    rcases hc with rfl | rfl | rfl
    all_goals exact ⟨by decide, by simp, rfl⟩
  · rintro ⟨-, -, hfind⟩
    obtain ⟨c, hc, he⟩ := Option.map_eq_some_iff.mp hfind
    exact ⟨c, List.mem_of_find?_eq_some hc, he⟩

end StoreCall

end CarolinaDB.Storage
