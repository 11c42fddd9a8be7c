import CarolinaDB.BTreeScan
import CarolinaDB.BTreeVerify
import CarolinaDB.Versions

/-!
# The tree is a versioned map

A tree stands for the versioned map of its entries. Inserting adds a version to
the map, reads return the newest visible versions, and a scan is the rows of its
range up to the limit.
-/
namespace CarolinaDB.Storage

open PageTree

variable {V : Type} [ByteLen V] {t t' : BTree V}

namespace BTree

/-- The versioned map a tree stands for. -/
def versions (t : BTree V) : Versions Bytes (LeafEntry V) :=
  fun key seq => t.entries.find? fun e => e.pos = position key seq

lemma eq_of_pos_eq {x y : LeafEntry V} (hx : x ∈ t.entries) (hy : y ∈ t.entries)
    (h : x.pos = y.pos) : x = y := by
  have hnodup : (t.entries.map LeafEntry.pos).Nodup :=
    List.pairwise_map.mpr (t.sorted_entries.imp fun h => h.ne)
  exact List.inj_on_of_nodup_map hnodup hx hy h

lemma versions_eq_some_iff {key : Bytes} {seq : ℕ} {e : LeafEntry V} :
    t.versions key seq = some e ↔ e ∈ t.entries ∧ e.key = key ∧ e.seq = seq := by
  rw [versions]
  constructor
  · intro h
    have hpos := List.find?_some h
    simp only [decide_eq_true_eq] at hpos
    exact ⟨List.mem_of_find?_eq_some h, position_inj.mp hpos⟩
  · rintro ⟨he, rfl, rfl⟩
    obtain ⟨x, hx⟩ : ∃ x, t.entries.find? (fun x => x.pos = position e.key e.seq) = some x := by
      rw [← Option.isSome_iff_exists, List.find?_isSome]
      exact ⟨e, he, by simp [LeafEntry.pos]⟩
    have hpos := List.find?_some hx
    simp only [decide_eq_true_eq] at hpos
    rw [hx, eq_of_pos_eq (List.mem_of_find?_eq_some hx) he hpos]

lemma versions_eq_none_iff {key : Bytes} {seq : ℕ} :
    t.versions key seq = none ↔ ∀ x ∈ t.entries, x.key = key → x.seq ≠ seq := by
  rw [Option.eq_none_iff_forall_not_mem]
  constructor
  · intro h x hx hk hs
    exact h x (versions_eq_some_iff.mpr ⟨hx, hk, hs⟩)
  · intro h x hx
    obtain ⟨hmem, hk, hs⟩ := versions_eq_some_iff.mp hx
    exact h x hmem hk hs

/-- The newest visible entry is what a read of the versioned map sees. -/
lemma isNewest_iff {key : Bytes} {visible : ℕ} {r : Option (LeafEntry V)} :
    IsNewest t.entries key visible r ↔ r = t.versions.newest key visible := by
  cases r with
  | none =>
    rw [eq_comm, Versions.newest_eq_none_iff]
    constructor
    · intro h s hs
      rw [versions_eq_none_iff]
      rintro x hx hk rfl
      exact absurd hs (not_le.mpr (h x hx hk))
    · intro h x hx hk
      by_contra hle
      exact versions_eq_none_iff.mp (h x.seq (not_lt.mp hle)) x hx hk rfl
  | some e =>
    rw [eq_comm, Versions.newest_eq_some_iff]
    constructor
    · rintro ⟨he, hk, hv, hmax⟩
      refine ⟨e.seq, hv, versions_eq_some_iff.mpr ⟨he, hk, rfl⟩, fun s hlt hle => ?_⟩
      rw [versions_eq_none_iff]
      rintro x hx hxk rfl
      exact absurd (hmax x hx hxk hle) (not_le.mpr hlt)
    · rintro ⟨s, hs, he, hlast⟩
      obtain ⟨hmem, hk, rfl⟩ := versions_eq_some_iff.mp he
      refine ⟨hmem, hk, hs, fun x hx hxk hxv => ?_⟩
      by_contra hlt
      exact versions_eq_none_iff.mp (hlast x.seq (not_le.mp hlt) hxv) x hx hxk rfl

/-- `rows` are the entries a read of the map sees for the keys of a range, in key order. -/
def IsRows (m : Versions Bytes (LeafEntry V)) (start : Bytes) (end_ : Option Bytes) (visible : ℕ)
    (rows : List (LeafEntry V)) : Prop :=
  rows.Pairwise (fun a b => a.key < b.key) ∧
    ∀ e, e ∈ rows ↔ start ≤ e.key ∧ (∀ k ∈ end_, e.key < k) ∧ m.newest e.key visible = some e

omit [ByteLen V] in
/-- The rows of a range are determined by the map. -/
lemma IsRows.unique {m : Versions Bytes (LeafEntry V)} {start : Bytes} {end_ : Option Bytes}
    {visible : ℕ} {rows rows' : List (LeafEntry V)} (h : IsRows m start end_ visible rows)
    (h' : IsRows m start end_ visible rows') : rows = rows' := by
  have : Std.Antisymm fun a b : LeafEntry V => a.key < b.key :=
    ⟨fun a b hab hba => absurd (hab.trans hba) (lt_irrefl _)⟩
  have : Std.Irrefl fun a b : LeafEntry V => a.key < b.key := ⟨fun a => lt_irrefl _⟩
  exact h.1.eq_of_mem_iff h'.1 fun e => (h.2 e).trans (h'.2 e).symm

lemma isRows_rows (t : BTree V) (start : Bytes) (end_ : Option Bytes) (visible : ℕ) :
    IsRows t.versions start end_ visible (t.rows start end_ visible) := by
  have hsorted : (fromPosition (position start u64Max) t.entries).Pairwise
      fun a b => a.pos < b.pos := t.sorted_entries.filter _
  refine ⟨sorted_visibleRows hsorted, fun e => ?_⟩
  have hfrom : ∀ x, x ∈ fromPosition (position start u64Max) t.entries ↔
      x ∈ t.entries ∧ start ≤ x.key := by
    intro x
    rw [fromPosition, List.mem_filter, decide_eq_true_eq, LeafEntry.pos, position_le]
    refine and_congr_right fun hx => ⟨?_, fun h => ?_⟩
    · rintro (h | ⟨h, -⟩)
      · exact h.le
      · exact h.le
    · rcases h.lt_or_eq with h | h
      · exact Or.inl h
      · exact Or.inr ⟨h, (t.packed.of_mem x hx).2⟩
  rw [rows, mem_visibleRows hsorted (by simp), eq_comm (a := t.versions.newest e.key visible),
    ← isNewest_iff, hfrom]
  constructor
  · rintro ⟨⟨he, hstart⟩, hend, hv, -, hmax⟩
    exact ⟨hstart, hend, he, rfl, hv, fun x hx hk => hmax x ((hfrom x).mpr ⟨hx, hk ▸ hstart⟩) hk⟩
  · rintro ⟨hstart, hend, he, -, hv, hmax⟩
    exact ⟨⟨he, hstart⟩, hend, hv, by simp, fun x hx => hmax x ((hfrom x).mp hx).1⟩

/-- Installing an entry adds its version, or finds one in its place. -/
lemma install_cases {e : LeafEntry V} {he : EntryBound e} {b : Bool}
    (h : t.install e he = .ok (b, t')) :
    (b = false ∧ t' = t ∧ ∃ x ∈ t.entries, x.pos = e.pos) ∨
      (b = true ∧ Grown e t.entries t'.entries) := by
  unfold install at h
  split at h
  · simp at h
  · rename_i hins
    simp only [Except.ok.injEq, Prod.mk.injEq] at h
    obtain ⟨rfl, rfl⟩ := h
    exact Or.inl ⟨rfl, rfl, insertInto_good t.ordered bot_le Bound.of_lt_top hins⟩
  · rename_i p hins
    simp only [Except.ok.injEq, Prod.mk.injEq] at h
    obtain ⟨rfl, rfl⟩ := h
    exact Or.inr ⟨rfl, (insertInto_good t.ordered bot_le Bound.of_lt_top hins).2⟩
  · rename_i left sep right hins
    simp only [Except.ok.injEq, Prod.mk.injEq] at h
    obtain ⟨rfl, rfl⟩ := h
    refine Or.inr ⟨rfl, ?_⟩
    have hgrown := (insertInto_good t.ordered bot_le Bound.of_lt_top hins).2.2
    simpa [entries, entries_node] using hgrown

lemma versions_of_grown {e : LeafEntry V} (h : Grown e t.entries t'.entries) :
    t'.versions = t.versions.insert e.key e.seq e := by
  have hnone : t.versions e.key e.seq = none := by
    rw [versions_eq_none_iff]
    intro x hx hk hs
    obtain ⟨l, r, hl, hr⟩ := h
    have hsorted := t'.sorted_entries
    rw [hr, List.pairwise_append] at hsorted
    rw [hl, List.mem_append] at hx
    have hpos : x.pos = e.pos := position_inj.mpr ⟨hk, hs⟩
    rcases hx with hx | hx
    · exact (hsorted.2.2 x hx e (List.mem_cons_self ..)).ne hpos
    · exact ((List.pairwise_cons.mp hsorted.2.1).1 x hx).ne hpos.symm
  funext key seq
  rw [Versions.insert, hnone, Option.none_or]
  refine Option.ext fun x => ?_
  split
  · rename_i hkey
    obtain ⟨rfl, rfl⟩ := hkey
    rw [Option.some_inj, versions_eq_some_iff, h.mem_iff]
    constructor
    · rintro ⟨rfl | hx, hk, hs⟩
      · rfl
      · exact absurd hs (versions_eq_none_iff.mp hnone x hx hk)
    · rintro rfl
      exact ⟨Or.inl rfl, rfl, rfl⟩
  · rename_i hkey
    rw [versions_eq_some_iff, versions_eq_some_iff, h.mem_iff]
    constructor
    · rintro ⟨rfl | hx, rfl, rfl⟩
      · exact absurd ⟨rfl, rfl⟩ hkey
      · exact ⟨hx, rfl, rfl⟩
    · rintro ⟨hx, hk, hs⟩
      exact ⟨Or.inr hx, hk, hs⟩

omit [ByteLen V] in
lemma findIn_iff {p : Pos} {es : List (LeafEntry V)} (hs : es.Pairwise fun a b => a.pos < b.pos) :
    findIn p es = true ↔ ∃ x ∈ es, x.pos = p := by
  induction es with
  | nil => simp [findIn]
  | cons y es ih =>
    obtain ⟨hy, hs'⟩ := List.pairwise_cons.mp hs
    rw [findIn]
    split
    · rename_i hpos
      simp [hpos]
    rename_i hne
    split
    · rename_i hlt
      simp only [Bool.false_eq_true, false_iff, List.mem_cons, not_exists, not_and]
      rintro x (rfl | hx) hpos
      · exact hne hpos
      · exact absurd (hlt.trans (hy x hx)) (hpos ▸ lt_irrefl _)
    · rw [ih hs']
      simp [hne]

/-- Within the depth limit a version is found exactly if it is there. -/
lemma findVersion_eq (h : t.height < 64) (key : Bytes) (seq : UInt64) :
    t.findVersion key seq = .ok (t.versions key seq.toNat).isSome := by
  obtain ⟨path, before, leaf, after, hpath, hat, hb, ha⟩ := descend_eq h (position key seq.toNat)
  have hentries : t.entries = before.flatten ++ leaf ++ after.flatten := hat.entries_eq
  have hsorted := t.sorted_entries
  rw [hentries, List.pairwise_append, List.pairwise_append] at hsorted
  rw [findVersion, hpath]
  simp only [hat.leafAt_eq, Except.ok.injEq]
  rw [Bool.eq_iff_iff, findIn_iff hsorted.1.2.1, versions, List.find?_isSome]
  constructor
  · rintro ⟨x, hx, hpos⟩
    exact ⟨x, by simp [hentries, hx], by simpa using hpos⟩
  · rintro ⟨x, hx, hpos⟩
    rw [decide_eq_true_eq] at hpos
    rw [hentries, List.mem_append, List.mem_append] at hx
    rcases hx with (hx | hx) | hx
    · exact absurd (hb x hx) (hpos ▸ lt_irrefl _)
    · exact ⟨x, hx, hpos⟩
    · exact absurd (ha x hx) (hpos ▸ lt_irrefl _)

section Insert
variable {key : Bytes} {seq : UInt64} {txnId : TxnId} {flags : UInt8} {metadata : Bytes} {value : V}

lemma insertVersion_cases {b : Bool}
    (h : t.insertVersion key seq txnId flags metadata value = .ok (b, t')) :
    t.height < 64 ∧ key.length ≤ maxKeyLen ∧ byteLen value ≤ maxValueLen ∧
      ((b = false ∧ t' = t ∧ (t.versions key seq.toNat).isSome) ∨
        (b = true ∧ Grown (newEntry key seq txnId flags metadata value) t.entries t'.entries)) := by
  have hdepth : t.height < 64 := by
    by_contra hdeep
    unfold insertVersion findVersion descend at h
    simp only [hdeep, if_false] at h
    split_ifs at h
  unfold insertVersion at h
  split at h
  · simp at h
  rename_i hk
  split at h
  · simp at h
  rename_i hv
  refine ⟨hdepth, not_lt.mp hk, not_lt.mp hv, ?_⟩
  have hfind : (if maxInlineValue < byteLen value then t.findVersion key seq else .ok false) = .ok
      (decide (maxInlineValue < byteLen value) && (t.versions key seq.toNat).isSome) := by
    rw [findVersion_eq hdepth]
    by_cases hlong : maxInlineValue < byteLen value <;> simp [hlong]
  rw [hfind] at h
  obtain ⟨path, -, -, -, hpath, -⟩ := descend_eq hdepth (position key seq.toNat)
  rw [hpath] at h
  split at h
  · simp at h
  · rename_i htrue
    simp only [Except.ok.injEq, Bool.and_eq_true, Prod.mk.injEq] at htrue h
    exact Or.inl ⟨h.1.symm, h.2.symm, htrue.2⟩
  · rcases install_cases h with ⟨hb, ht, x, hx, hpos⟩ | hgrown
    · refine Or.inl ⟨hb, ht, ?_⟩
      rw [newEntry_pos] at hpos
      rw [Option.isSome_iff_exists]
      exact ⟨x, versions_eq_some_iff.mpr ⟨hx, position_inj.mp hpos⟩⟩
    · exact Or.inr hgrown

/-- Inserting a version that exists changes nothing. -/
lemma insertVersion_of_isSome (h : t.height < 64) (hk : key.length ≤ maxKeyLen)
    (hv : byteLen value ≤ maxValueLen) (hsome : (t.versions key seq.toNat).isSome) :
    t.insertVersion key seq txnId flags metadata value = .ok (false, t) := by
  obtain ⟨x, hx⟩ := Option.isSome_iff_exists.mp hsome
  obtain ⟨hmem, hxk, hxs⟩ := versions_eq_some_iff.mp hx
  have hkept : insertInto (newEntry key seq txnId flags metadata value) t.root = .ok .kept := by
    refine insertInto_eq_kept t.ordered hmem ?_
    rw [newEntry_pos]
    exact position_inj.mpr ⟨hxk, hxs⟩
  obtain ⟨path, -, -, -, hpath, -⟩ := descend_eq h (position key seq.toNat)
  have hinstall (he : EntryBound (newEntry key seq txnId flags metadata value)) :
      t.install (newEntry key seq txnId flags metadata value) he = .ok (false, t) := by
    unfold install
    split
    · rename_i hins
      simp [hkept] at hins
    · rfl
    · rename_i hins
      simp [hkept] at hins
    · rename_i hins
      simp [hkept] at hins
  rw [insertVersion, dif_neg (not_lt.mpr hk), if_neg (not_lt.mpr hv), findVersion_eq h, hpath]
  by_cases hlong : maxInlineValue < byteLen value
  · simp [hlong, hsome]
  · simp [hlong, hinstall]

end Insert

end BTree

/-- The arguments of an `insert_version` call. -/
structure InsertCall (V : Type) where
  key : Bytes
  seq : UInt64
  txnId : TxnId
  flags : UInt8
  metadata : Bytes
  value : V

namespace InsertCall

def entry (c : InsertCall V) : LeafEntry V :=
  newEntry c.key c.seq c.txnId c.flags c.metadata c.value

def run (c : InsertCall V) (t : BTree V) : CoreResult (Bool × BTree V) :=
  t.insertVersion c.key c.seq c.txnId c.flags c.metadata c.value

/-- The tree after a sequence of calls, if all of them return `Ok`. -/
def runAll : List (InsertCall V) → BTree V → CoreResult (BTree V)
  | [], t => .ok t
  | c :: cs, t =>
    match c.run t with
    | .error err => .error err
    | .ok (_, t') => runAll cs t'

/-- The versioned map after the same calls. -/
def versionsAfter (cs : List (InsertCall V)) (m : Versions Bytes (LeafEntry V)) :
    Versions Bytes (LeafEntry V) :=
  cs.foldl (fun m c => m.insert c.key c.seq.toNat c.entry) m

lemma readable_entry {c : InsertCall V} (h : c.flags &&& entryFlagOverflow = 0) :
    Readable c.entry := by
  unfold Readable entry newEntry
  split
  · intro hflag
    exact ⟨c.value, by simpa [LeafEntry.readValue] using hflag⟩
  · intro hflag
    exact absurd h hflag

lemma run_versions {c : InsertCall V} {b : Bool} (h : c.run t = .ok (b, t')) :
    t'.versions = t.versions.insert c.key c.seq.toNat c.entry := by
  obtain ⟨-, -, -, ⟨-, rfl, hsome⟩ | ⟨-, hgrown⟩⟩ := BTree.insertVersion_cases h
  · obtain ⟨x, hx⟩ := Option.isSome_iff_exists.mp hsome
    funext key seq
    rw [Versions.insert]
    split
    · rename_i hkey
      obtain ⟨rfl, rfl⟩ := hkey
      rw [hx, Option.some_or]
    · rfl
  · rw [BTree.versions_of_grown hgrown, newEntry_key, newEntry_seq]
    rfl

theorem runAll_spec {cs : List (InsertCall V)} (h : runAll cs t = .ok t') :
    t'.versions = versionsAfter cs t.versions ∧
      t'.entries.length ≤ t.entries.length + cs.length ∧
      ∀ e ∈ t'.entries, e ∈ t.entries ∨ ∃ c ∈ cs, e = c.entry := by
  induction cs generalizing t with
  | nil =>
    simp only [runAll, Except.ok.injEq] at h
    subst h
    exact ⟨rfl, by simp, fun e he => Or.inl he⟩
  | cons c cs ih =>
    rw [runAll] at h
    split at h
    · simp at h
    · rename_i b t₁ hrun
      obtain ⟨hversions, hlen, hmem⟩ := ih h
      rw [run_versions hrun] at hversions
      have hstep : t₁.entries.length ≤ t.entries.length + 1 ∧
          ∀ e ∈ t₁.entries, e = c.entry ∨ e ∈ t.entries := by
        obtain ⟨-, -, -, ⟨-, rfl, -⟩ | ⟨-, hgrown⟩⟩ := BTree.insertVersion_cases hrun
        · exact ⟨by omega, fun e he => Or.inr he⟩
        · refine ⟨?_, fun e he => hgrown.mem_iff.mp he⟩
          obtain ⟨l, r, hl, hr⟩ := hgrown
          rw [hl, hr]
          simp
          omega
      refine ⟨hversions, by simp; omega, fun e he => ?_⟩
      rcases hmem e he with he | ⟨d, hd, rfl⟩
      · rcases hstep.2 e he with rfl | he
        · exact Or.inr ⟨c, List.mem_cons_self .., rfl⟩
        · exact Or.inl he
      · exact Or.inr ⟨d, List.mem_cons_of_mem _ hd, rfl⟩

end InsertCall

lemma length_le_length_flatten {γ : Type} {ls : List (List γ)} (h : ∀ l ∈ ls, l ≠ []) :
    ls.length ≤ ls.flatten.length := by
  induction ls with
  | nil => simp
  | cons l ls ih =>
    have hl := List.length_pos_of_ne_nil (h l (List.mem_cons_self ..))
    have hls := ih fun l' hl' => h l' (List.mem_cons_of_mem _ hl')
    simp only [List.length_cons, List.flatten_cons, List.length_append]
    omega

/-- A tree has no more leaves than entries, but for the one of the empty tree. -/
lemma BTree.length_leaves_le (t : BTree V) : (leaves t.root).length ≤ max 1 t.entries.length := by
  obtain ⟨height, root, ordered, packed⟩ := t
  cases height with
  | zero => exact le_max_left _ _
  | succ n =>
    obtain ⟨c, hc⟩ := List.exists_mem_of_ne_nil _ ordered.ne_nil
    have hne := packed.leaf_ne_nil (entries_ne_nil hc (packed.2.2 c hc).2.1)
    exact (length_le_length_flatten hne).trans (le_max_right _ _)

/-- A tree needs sixty-four levels only for more entries than a counter can number. -/
lemma BTree.height_lt (h : t.entries.length < 2 ^ 64) : t.height < 64 := by
  have hpow : 2 ^ t.height < 2 ^ 64 := calc
    2 ^ t.height ≤ (leaves t.root).length := t.packed.two_pow_le
    _ ≤ max 1 t.entries.length := t.length_leaves_le
    _ < 2 ^ 64 := max_lt (by norm_num) h
  exact (Nat.pow_lt_pow_iff_right (by norm_num)).mp hpow

/-- One version of one key. -/
def oneVersion : InsertCall Bytes := ⟨[107], 1, Octets.zero 32, 0, [], [118]⟩

end CarolinaDB.Storage
