import CarolinaDB.CanonBijection
import CarolinaDB.EngineRows
import CarolinaDB.ValueSpelling

/-! The canonical form of logical states. A state is written table by table and row by row; a record
without rows is written if it has a table, and is not there any more when the form is read. -/
namespace CarolinaDB

namespace FiniteMap
variable {K V : Type} [LinearOrder K] {m : FiniteMap K V}

/-- What a map built entry by entry holds, when no two entries have one key. -/
lemma get_foldl_entries {l : List (K × V)} (hl : (l.map Prod.fst).Nodup) {k : K} {v : V} :
    (l.foldl (fun m p => m.insert p.1 p.2) m)[k]? = some v ↔
      (k, v) ∈ l ∨ (k ∉ l.map Prod.fst ∧ m[k]? = some v) := by
  induction l generalizing m with
  | nil => simp
  | cons p l ih =>
    obtain ⟨a, w⟩ := p
    rw [List.map_cons, List.nodup_cons] at hl
    rw [List.foldl_cons, ih hl.2, get_insert]
    by_cases hk : a = k
    · subst hk
      have hno : ∀ u, (a, u) ∉ l := fun u hu => hl.1 (List.mem_map.mpr ⟨(a, u), hu, rfl⟩)
      simp [hl.1, hno, eq_comm]
    · simp [hk, Ne.symm hk]

lemma nodup_keys (m : FiniteMap K V) : (m.toList.map Prod.fst).Nodup := by
  rw [List.Nodup, List.pairwise_map]
  exact Std.ExtTreeMap.distinct_keys_toList.imp fun hne he => hne (compare_eq_iff_eq.mpr he)

lemma toList_eq_nil_iff : m.toList = [] ↔ m.isEmpty := by
  rw [← Std.ExtTreeMap.isEmpty_toList, List.isEmpty_iff]

lemma insert_insert {k : K} {v w : V} : (m.insert k v).insert k w = m.insert k w := by
  apply Std.ExtTreeMap.ext_getElem?
  intro a
  simp only [get_insert]
  split_ifs <;> rfl

lemma get_filter {f : K → V → Bool} {k : K} {v : V} :
    (m.filter f)[k]? = some v ↔ m[k]? = some v ∧ f k v := by
  rw [← mem_toList, Std.ExtTreeMap.toList_filter, List.mem_filter, mem_toList]

lemma isEmpty_eq_false_iff : m.isEmpty = false ↔ ∃ (k : K) (v : V), m[k]? = some v := by
  rw [← Bool.not_eq_true, ← toList_eq_nil_iff]
  constructor
  · intro h
    obtain ⟨⟨k, v⟩, hmem⟩ := List.exists_mem_of_ne_nil _ h
    exact ⟨k, v, mem_toList.mp hmem⟩
  · rintro ⟨k, v, h⟩ hnil
    have hmem := mem_toList.mpr h
    rw [hnil] at hmem
    cases hmem

/-- A map is built again from its entries in any order. -/
lemma foldl_entries {l : List (K × V)} (h : l.Perm m.toList) :
    l.foldl (fun m p => m.insert p.1 p.2) ∅ = m := by
  apply Std.ExtTreeMap.ext_getElem?
  intro k
  apply Option.ext
  intro v
  rw [get_foldl_entries ((h.map _).nodup_iff.mpr (nodup_keys m)), h.mem_iff, mem_toList]
  simp

end FiniteMap

namespace CanonValue

variable {α : Type} (f : α → String × CanonValue)

lemma exists_perm_insertField (a : α) {l : List α} (h : (f a).1 ∉ l.map fun b => (f b).1) :
    ∃ l' : List α, l'.Perm (a :: l) ∧ insertField (f a).1 (f a).2 (l.map f) = l'.map f := by
  induction l with
  | nil => exact ⟨[a], List.Perm.refl _, rfl⟩
  | cons b l ih =>
    rw [List.map_cons, List.mem_cons, not_or] at h
    rw [List.map_cons, insertField, if_neg h.1]
    by_cases hlt : utf8 (f a).1 < utf8 (f b).1
    · rw [if_pos hlt]
      exact ⟨a :: b :: l, List.Perm.refl _, rfl⟩
    · obtain ⟨l', hperm, hins⟩ := ih h.2
      rw [if_neg hlt, hins]
      exact ⟨b :: l', (hperm.cons b).trans (List.Perm.swap a b l), rfl⟩

/-- The fields of an object are the given ones in another order. -/
lemma exists_perm_ofFields {l : List α} (h : (l.map fun a => (f a).1).Nodup) :
    ∃ l' : List α, l'.Perm l ∧ ofFields (l.map f) = l'.map f := by
  induction l with
  | nil => exact ⟨[], List.Perm.refl _, rfl⟩
  | cons a l ih =>
    rw [List.map_cons, List.nodup_cons] at h
    obtain ⟨l', hperm, hof⟩ := ih h.2
    have hnew : (f a).1 ∉ l'.map fun b => (f b).1 := by
      rw [(hperm.map _).mem_iff]
      exact h.1
    obtain ⟨l'', hperm', hins⟩ := exists_perm_insertField f a hnew
    refine ⟨l'', hperm'.trans (hperm.cons a), ?_⟩
    rw [List.map_cons, ofFields, hof, hins]

end CanonValue

/-- Ids are read back from their decimal text. -/
lemma parseCanonicalInt_id (x : UInt64) : parseCanonicalInt (decimal x.toNat) = .ok (x.toNat : ℤ) :=
  parseCanonicalInt_decimal x.toNat_lt

lemma decimal_id_injective {x y : UInt64} (h : decimal x.toNat = decimal y.toNat) : x = y := by
  have hx := parseCanonicalInt_id x
  rw [h, parseCanonicalInt_id y, Except.ok.injEq, Nat.cast_inj] at hx
  exact UInt64.toNat_inj.mp hx.symm

lemma nodup_ids {V : Type} (m : FiniteMap UInt64 V) :
    (m.toList.map fun p => decimal p.1.toNat).Nodup := by
  have hkeys := FiniteMap.nodup_keys m
  rw [List.Nodup, List.pairwise_map] at hkeys ⊢
  exact hkeys.imp fun hne he => hne (decimal_id_injective he)

lemma ofInt_toNat (x : UInt64) : UInt64.ofInt (x.toNat : ℤ) = x := by
  have hlt : (x.toNat : ℤ) < 2 ^ 64 := by exact_mod_cast x.toNat_lt
  rw [UInt64.ofInt, Int.emod_eq_of_lt (Int.natCast_nonneg _) hlt, Int.toNat_natCast,
    UInt64.ofNat_toNat]

namespace Lang

open CanonValue

namespace State

def rowEntry (p : Value × Row) : CanonValue :=
  build [("fields", rowCanon p.2), ("key", p.1.toCanon)]

def tableCanon (t : Table) : CanonValue := .array (t.toList.map rowEntry)

def toCanon (s : State) : CanonValue := build [
  ("kind", .str "state.v1"),
  ("tables", build (s.rows.toList.map fun p => (decimal p.1.toNat, tableCanon p.2)))]

def readEntry (v : CanonValue) : CoreResult (Value × Row) := do
  let key ← Value.fromCanon (← v.field "key")
  let row ← Runtime.readRowFields (← (← v.field "fields").asObject) ∅
  .ok (key, row)

/-- A key that is there already keeps its first row. -/
def readEntries (record : RecordId) : List CanonValue → State → CoreResult State
  | [], st => .ok st
  | v :: vs, st => do
    let (key, row) ← readEntry v
    readEntries record vs ((st.insert record key row).getD st)

/-- Ids are cut to the width of a record id. A table is made by the first of its rows. -/
def readTables : List (String × CanonValue) → State → CoreResult State
  | [], st => .ok st
  | (rid, rows) :: fs, st => do
    let id ← parseCanonicalInt rid
    let vs ← rows.asArray
    let st ← readEntries (UInt64.ofInt id) vs st
    readTables fs st

def fromCanon (v : CanonValue) : CoreResult State := do
  readTables (← (← v.field "tables").asObject) .empty

instance : Canonical State := ⟨toCanon, fromCanon, fun _ => true⟩

/-- Canonical logical digest of the whole state. -/
def digest (s : State) : Hash256 := domainHash "astra.state.v1" s.toCanon.encode

section Rows
variable {s st : State} {record : RecordId}

/-- Keys and values of the state are in order, as every value of the source is. -/
def Ordered (s : State) : Prop :=
  ∀ (record : RecordId) (t : Table), s.rows[record]? = some t →
    ∀ (key : Value) (row : Row), t[key]? = some row →
      key.Ordered ∧ ∀ (f : FieldId) (v : Value), row[f]? = some v → v.Ordered

lemma readRowFields_map {l : List (FieldId × Value)} (h : ∀ p ∈ l, p.2.Ordered) (row : Row) :
    Runtime.readRowFields (l.map fun p => (decimal p.1.toNat, p.2.toCanon)) row =
      .ok (l.foldl (fun row p => row.insert p.1 p.2) row) := by
  induction l generalizing row with
  | nil => rfl
  | cons p l ih =>
    rw [List.forall_mem_cons] at h
    rw [List.map_cons, Runtime.readRowFields, parseCanonicalInt_id, CoreResult.ok_bind,
      Value.fromCanon_toCanon h.1, CoreResult.ok_bind, ih h.2, List.foldl_cons, ofInt_toNat]

/-- A row is read back from its entry. -/
lemma readEntry_rowEntry {key : Value} {row : Row} (hkey : key.Ordered)
    (hrow : ∀ (f : FieldId) (v : Value), row[f]? = some v → v.Ordered) :
    readEntry (rowEntry (key, row)) = .ok (key, row) := by
  obtain ⟨l, hperm, hl⟩ := exists_perm_ofFields (fun f : FieldId × Value =>
    (decimal f.1.toNat, f.2.toCanon)) (nodup_ids row)
  have hord : ∀ p ∈ l, p.2.Ordered := fun p hp =>
    hrow p.1 p.2 (FiniteMap.mem_toList.mp (hperm.mem_iff.mp hp))
  have hrows : (rowCanon row).asObject =
      .ok (l.map fun f : FieldId × Value => (decimal f.1.toNat, f.2.toCanon)) := by
    rw [rowCanon, build, asObject, hl]
  have hfields : Runtime.readRowFields
      (l.map fun f : FieldId × Value => (decimal f.1.toNat, f.2.toCanon)) ∅ = .ok row := by
    rw [readRowFields_map hord, FiniteMap.foldl_entries hperm]
  simp [readEntry, rowEntry, field_build, Value.fromCanon_toCanon hkey, hrows, hfields]

/-- Add the rows of a table one by one. -/
lemma readEntries_map {l : List (Value × Row)} (hl : (l.map Prod.fst).Nodup)
    (hord : ∀ p ∈ l, p.1.Ordered ∧ ∀ (f : FieldId) (v : Value), p.2[f]? = some v → v.Ordered)
    (hnew : ∀ p ∈ l, (st.rows[record]?.getD ∅)[p.1]? = none) :
    readEntries record (l.map rowEntry) st =
      .ok (if l = [] then st else
        ⟨st.rows.insert record (l.foldl (fun t p => t.insert p.1 p.2) (st.rows[record]?.getD ∅))⟩) := by
  induction l generalizing st with
  | nil => rfl
  | cons p l ih =>
    obtain ⟨key, row⟩ := p
    rw [List.map_cons, List.nodup_cons] at hl
    rw [List.forall_mem_cons] at hord hnew
    have hinsert : st.insert record key row =
        some ⟨st.rows.insert record ((st.rows[record]?.getD ∅).insert key row)⟩ := by
      rw [State.insert]
      simp only [hnew.1]
    rw [List.map_cons, readEntries, readEntry_rowEntry hord.1.1 hord.1.2, CoreResult.ok_bind]
    simp only [hinsert, Option.getD_some]
    rw [ih hl.2 hord.2]
    · rw [FiniteMap.get_insert_self, Option.getD_some, if_neg (List.cons_ne_nil _ _)]
      by_cases hnil : l = []
      · rw [if_pos hnil, hnil]
        rfl
      · rw [if_neg hnil, FiniteMap.insert_insert]
        rfl
    · intro q hq
      have hne : key ≠ q.1 := fun he => hl.1 (List.mem_map.mpr ⟨q, hq, he.symm⟩)
      rw [FiniteMap.get_insert_self, Option.getD_some, FiniteMap.get_insert_of_ne hne]
      exact hnew.2 q hq

/-- Add the tables of a state one by one. Empty tables are not made. -/
lemma readTables_map {l : List (RecordId × Table)} (hl : (l.map Prod.fst).Nodup)
    (hord : ∀ p ∈ l, ∀ (key : Value) (row : Row), p.2[key]? = some row →
      key.Ordered ∧ ∀ (f : FieldId) (v : Value), row[f]? = some v → v.Ordered)
    (hnew : ∀ p ∈ l, st.rows[p.1]? = none) :
    readTables (l.map fun p => (decimal p.1.toNat, tableCanon p.2)) st =
      .ok ⟨(l.filter fun p => !p.2.isEmpty).foldl (fun m p => m.insert p.1 p.2) st.rows⟩ := by
  induction l generalizing st with
  | nil => rfl
  | cons p l ih =>
    obtain ⟨record, t⟩ := p
    rw [List.map_cons, List.nodup_cons] at hl
    rw [List.forall_mem_cons] at hord hnew
    have htable : readEntries record (t.toList.map rowEntry) st =
        .ok (if t.isEmpty then st else ⟨st.rows.insert record t⟩) := by
      rw [readEntries_map (FiniteMap.nodup_keys t)]
      · rw [hnew.1, Option.getD_none, FiniteMap.foldl_entries (List.Perm.refl _)]
        simp only [FiniteMap.toList_eq_nil_iff]
      · intro q hq
        exact hord.1 q.1 q.2 (FiniteMap.mem_toList.mp hq)
      · intro q hq
        rw [hnew.1]
        simp
    rw [List.map_cons, readTables, parseCanonicalInt_id, CoreResult.ok_bind, tableCanon, asArray,
      CoreResult.ok_bind, ofInt_toNat, htable, CoreResult.ok_bind, ih hl.2 hord.2]
    · by_cases hempty : t.isEmpty
      · rw [if_pos hempty, List.filter_cons_of_neg (by simp [hempty])]
      · rw [if_neg hempty, List.filter_cons_of_pos (by simp [hempty]), List.foldl_cons]
    · intro q hq
      have hne : record ≠ q.1 := fun he => hl.1 (List.mem_map.mpr ⟨q, hq, he.symm⟩)
      split_ifs
      · exact hnew.2 q hq
      · rw [FiniteMap.get_insert_of_ne hne]
        exact hnew.2 q hq

end Rows

section Forms
variable {s t : State}

/-- The state without its empty tables. -/
def pruned (s : State) : State := ⟨s.rows.filter fun _ t => !t.isEmpty⟩

/-- No record has a table without rows. -/
def NoEmptyTable (s : State) : Prop :=
  ∀ (record : RecordId) (t : Table), s.rows[record]? = some t → t.isEmpty = false

def SameRows (s t : State) : Prop :=
  ∀ (record : RecordId) (key : Value), s.get record key = t.get record key

/-- What is read from the form of a state has the rows of the state, without its empty tables. -/
theorem fromCanon_toCanon (hs : s.Ordered) : fromCanon s.toCanon = .ok s.pruned := by
  obtain ⟨l, hperm, hl⟩ := exists_perm_ofFields (fun p : RecordId × Table =>
    (decimal p.1.toNat, tableCanon p.2)) (nodup_ids s.rows)
  have htables : (build (s.rows.toList.map fun p => (decimal p.1.toNat, tableCanon p.2))).asObject =
      .ok (l.map fun p : RecordId × Table => (decimal p.1.toNat, tableCanon p.2)) := by
    rw [build, asObject, hl]
  have hnodup : (l.map Prod.fst).Nodup := (hperm.map _).nodup_iff.mpr (FiniteMap.nodup_keys s.rows)
  have hread := readTables_map (l := l) hnodup
    (fun p hp => hs p.1 p.2 (FiniteMap.mem_toList.mp (hperm.mem_iff.mp hp)))
    (fun p _ => show State.empty.rows[p.1]? = none by simp [State.empty])
  have hrows : (l.filter fun p => !p.2.isEmpty).foldl (fun m p => m.insert p.1 p.2)
      State.empty.rows = s.rows.filter fun _ t => !t.isEmpty := by
    apply FiniteMap.foldl_entries
    rw [Std.ExtTreeMap.toList_filter]
    exact hperm.filter _
  rw [hrows] at hread
  simp [fromCanon, toCanon, field_build, htables, hread, pruned]

lemma pruned_eq_iff : s.pruned = s ↔ s.NoEmptyTable := by
  constructor
  · intro h record t ht
    rw [← h, pruned, FiniteMap.get_filter] at ht
    simpa using ht.2
  · intro h
    rw [pruned]
    congr 1
    apply Std.ExtTreeMap.ext_getElem?
    intro record
    apply Option.ext
    intro t
    rw [FiniteMap.get_filter]
    constructor
    · intro ht
      exact ht.1
    · intro ht
      exact ⟨ht, by simp [h record t ht]⟩

lemma get_eq_some_iff {record : RecordId} {key : Value} {row : Row} :
    s.get record key = some row ↔ ∃ t : Table, s.rows[record]? = some t ∧ t[key]? = some row := by
  rw [State.get, Option.bind_eq_some_iff]

/-- The rows determine the tables that are not empty. -/
lemma rows_of_sameRows (hs : s.NoEmptyTable) (h : SameRows s t) {record : RecordId} {a : Table}
    (ha : s.rows[record]? = some a) : t.rows[record]? = some a := by
  obtain ⟨key, row, hrow⟩ := FiniteMap.isEmpty_eq_false_iff.mp (hs record a ha)
  have hget : t.get record key = some row := by
    rw [← h record key, get_eq_some_iff]
    exact ⟨a, ha, hrow⟩
  obtain ⟨b, hb, -⟩ := get_eq_some_iff.mp hget
  rw [hb, Option.some.injEq]
  apply Std.ExtTreeMap.ext_getElem?
  intro k
  have hk := h record k
  rw [State.get, State.get, ha, hb] at hk
  exact hk.symm

lemma eq_of_sameRows (hs : s.NoEmptyTable) (ht : t.NoEmptyTable) (h : SameRows s t) : s = t := by
  suffices s.rows = t.rows by
    cases s
    cases t
    exact congrArg State.mk this
  apply Std.ExtTreeMap.ext_getElem?
  intro record
  apply Option.ext
  intro a
  constructor
  · exact rows_of_sameRows hs h
  · exact rows_of_sameRows ht fun r k => (h r k).symm

/-- The digests agree on two encodings that differ. -/
def Collides (s t : State) : Prop :=
  Canonical.encode s ≠ Canonical.encode t ∧ s.digest = t.digest

/-- The state is read back from its canonical value, and from its bytes under limits they are
within. -/
def ReadsBack (s : State) : Prop :=
  fromCanon s.toCanon = .ok s ∧
    ∀ limits v, CanonValue.decode (Canonical.encode s) limits = .ok v →
      Canonical.decode (Canonical.encode s) limits = .ok s

/-- Two states have one canonical form exactly if they hold the same rows, and are read back from
it. -/
structure OneForm (s t : State) : Prop where
  encodings : Canonical.encode s = Canonical.encode t ↔ SameRows s t
  digests : s.digest = t.digest ↔ SameRows s t ∨ Collides s t
  left : ReadsBack s
  right : ReadsBack t

lemma readsBack_iff (hs : s.Ordered) : ReadsBack s ↔ s.NoEmptyTable := by
  rw [← pruned_eq_iff]
  constructor
  · intro h
    have hread := h.1
    rw [fromCanon_toCanon hs, Except.ok.injEq] at hread
    exact hread
  · intro h
    have hread := fromCanon_toCanon hs
    rw [h] at hread
    refine ⟨hread, fun limits v hv => ?_⟩
    have hcanon : v = s.toCanon := encode_injective (decode_eq_ok_iff.mp hv).2.2.2
    subst hcanon
    rw [Canonical.decode, hv, CoreResult.ok_bind]
    change (fromCanon s.toCanon >>= fun t => if t.toCanon ≠ s.toCanon then _ else _) = _
    rw [hread, CoreResult.ok_bind, if_neg (not_not.mpr rfl)]

theorem oneForm_iff (hs : s.Ordered) (ht : t.Ordered) :
    OneForm s t ↔ s.NoEmptyTable ∧ t.NoEmptyTable := by
  constructor
  · intro h
    exact ⟨(readsBack_iff hs).mp h.left, (readsBack_iff ht).mp h.right⟩
  · rintro ⟨hes, het⟩
    have henc : Canonical.encode s = Canonical.encode t ↔ SameRows s t := by
      constructor
      · intro h
        have hread := fromCanon_toCanon hs
        rw [show s.toCanon = t.toCanon from encode_injective h, fromCanon_toCanon ht,
          pruned_eq_iff.mpr hes, pruned_eq_iff.mpr het, Except.ok.injEq] at hread
        intro record key
        rw [hread]
      · intro h
        rw [eq_of_sameRows hes het h]
    refine ⟨henc, ?_, (readsBack_iff hs).mpr hes, (readsBack_iff ht).mpr het⟩
    constructor
    · intro h
      by_cases he : Canonical.encode s = Canonical.encode t
      · exact .inl (henc.mp he)
      · exact .inr ⟨he, h⟩
    · intro h
      rcases h with h | h
      · rw [eq_of_sameRows hes het h]
      · exact h.2

end Forms

section Histories
variable {s s' : State} {record : RecordId} {key : Value}

lemma noEmptyTable_insert_iff {m : FiniteMap RecordId Table} {t : Table} :
    NoEmptyTable ⟨m.insert record t⟩ ↔
      t.isEmpty = false ∧ ∀ (r : RecordId) (u : Table), r ≠ record → m[r]? = some u → u.isEmpty = false := by
  constructor
  · intro h
    refine ⟨h record t FiniteMap.get_insert_self, fun r u hr hu => h r u ?_⟩
    rw [FiniteMap.get_insert_of_ne hr.symm]
    exact hu
  · rintro ⟨ht, hm⟩ r u hu
    rw [FiniteMap.get_insert] at hu
    split_ifs at hu with hr
    · cases hu
      exact ht
    · exact hm r u (Ne.symm hr) hu

/-- A row that is added leaves no empty table behind. -/
lemma NoEmptyTable.insert {row : Row} (hs : s.NoEmptyTable)
    (h : s.insert record key row = some s') : s'.NoEmptyTable := by
  rw [State.insert] at h
  split at h
  · cases h
  · cases h
    refine noEmptyTable_insert_iff.mpr ⟨?_, fun r u _ hu => hs r u hu⟩
    exact FiniteMap.isEmpty_eq_false_iff.mpr ⟨key, row, FiniteMap.get_insert_self⟩

/-- A row that is deleted leaves an empty table behind exactly if it was the last of its record. -/
lemma noEmptyTable_remove_iff (hs : s.NoEmptyTable) (h : s.remove record key = some s') :
    s'.NoEmptyTable ↔ ∃ other, other ≠ key ∧ (s.get record other).isSome := by
  rw [State.remove] at h
  cases hget : s.get record key with
  | none => simp [hget] at h
  | some row =>
    obtain ⟨t, ht, -⟩ := get_eq_some_iff.mp hget
    simp only [hget, ht, Option.getD_some, Option.some.injEq] at h
    subst h
    rw [noEmptyTable_insert_iff, FiniteMap.isEmpty_eq_false_iff]
    constructor
    · rintro ⟨⟨other, w, hw⟩, hrest⟩
      rw [FiniteMap.get_erase] at hw
      split_ifs at hw with hne
      refine ⟨other, Ne.symm hne, ?_⟩
      rw [State.get, ht, Option.bind_some, hw]
      rfl
    · rintro ⟨other, hne, hsome⟩
      obtain ⟨w, hw⟩ := Option.isSome_iff_exists.mp hsome
      rw [State.get, ht, Option.bind_some] at hw
      refine ⟨⟨other, w, ?_⟩, fun r u _ hu => hs r u hu⟩
      rw [FiniteMap.get_erase_of_ne hne.symm]
      exact hw

/-- Adding a row changes no other table. -/
lemma rows_insert_of_ne {r : RecordId} (hr : r ≠ record) {row : Row} :
    ((s.insert record key row).getD s).rows[r]? = s.rows[r]? := by
  rw [State.insert]
  split
  · rfl
  · rw [Option.getD_some, FiniteMap.get_insert_of_ne hr.symm]

lemma rows_of_addRows {rows : List (Storage.LogicalKey × Bytes)} {r : RecordId} (hr : r ≠ record)
    (h : Runtime.addRows record rows s = .ok s') : s'.rows[r]? = s.rows[r]? := by
  induction rows generalizing s with
  | nil =>
    cases h
    rfl
  | cons p rows ih =>
    obtain ⟨k, bytes⟩ := p
    rw [Runtime.addRows] at h
    obtain ⟨⟨key, row⟩, -, h⟩ := CoreResult.bind_eq_ok h
    rw [ih h, rows_insert_of_ne hr]

/-- What is loaded has a table for each of the records, and no other but those it began with. -/
lemma rows_of_loadRecords {store : Storage.Store} {snap : Storage.LocalSnapshot}
    {records : List RecordId} (h : Runtime.loadRecords store snap records s = .ok s') (r : RecordId) :
    (s'.rows[r]?).isSome ↔ r ∈ records ∨ (s.rows[r]?).isSome := by
  induction records generalizing s with
  | nil =>
    cases h
    simp
  | cons record records ih =>
    rw [Runtime.loadRecords] at h
    obtain ⟨rows, -, h⟩ := CoreResult.bind_eq_ok h
    obtain ⟨st, hst, h⟩ := CoreResult.bind_eq_ok h
    rw [ih h, List.mem_cons, FiniteMap.get_insert]
    by_cases hr : r = record
    · simp [hr]
    · rw [if_neg (Ne.symm hr), rows_of_addRows hr hst]
      simp [hr]

/-- A loaded state has no empty table exactly if each of the records has a row. -/
lemma noEmptyTable_load_iff {store : Storage.Store} {snap : Storage.LocalSnapshot}
    {records : List RecordId} (h : Runtime.loadRecords store snap records .empty = .ok s) :
    s.NoEmptyTable ↔ ∀ r ∈ records, ∃ key, (s.get r key).isSome := by
  have htables : ∀ r : RecordId, (s.rows[r]?).isSome ↔ r ∈ records := fun r => by
    rw [rows_of_loadRecords h r]
    simp [State.empty]
  constructor
  · intro hs r hr
    obtain ⟨t, ht⟩ := Option.isSome_iff_exists.mp ((htables r).mpr hr)
    obtain ⟨key, row, hrow⟩ := FiniteMap.isEmpty_eq_false_iff.mp (hs r t ht)
    exact ⟨key, Option.isSome_iff_exists.mpr ⟨row, get_eq_some_iff.mpr ⟨t, ht, hrow⟩⟩⟩
  · intro hall r t ht
    obtain ⟨key, hkey⟩ := hall r ((htables r).mp (by rw [ht]; rfl))
    obtain ⟨row, hrow⟩ := Option.isSome_iff_exists.mp hkey
    obtain ⟨u, hu, hurow⟩ := get_eq_some_iff.mp hrow
    rw [ht, Option.some.injEq] at hu
    subst hu
    exact FiniteMap.isEmpty_eq_false_iff.mpr ⟨key, row, hurow⟩

end Histories

/-- Two states have one canonical form exactly if neither has an empty table. Deleting a row leaves
an empty table if no other row of its record is there, and loading makes one for each record without
rows. -/
theorem state_canonical_form_iff (s : State) :
    (∀ t : State, s.Ordered → t.Ordered →
      (OneForm s t ↔ s.NoEmptyTable ∧ t.NoEmptyTable)) ∧
    (∀ (s' : State) (record : RecordId) (key : Value), s.NoEmptyTable →
      s.remove record key = some s' →
        (s'.NoEmptyTable ↔ ∃ other, other ≠ key ∧ (s.get record other).isSome)) ∧
    ∀ (store : Storage.Store) (snap : Storage.LocalSnapshot) (records : List RecordId),
      Runtime.loadRecords store snap records .empty = .ok s →
        (s.NoEmptyTable ↔ ∀ r ∈ records, ∃ key, (s.get r key).isSome) :=
  ⟨fun _ => oneForm_iff, fun _ _ _ => noEmptyTable_remove_iff, fun _ _ _ => noEmptyTable_load_iff⟩

/-- One item in stock. -/
def stocked : State := ⟨(∅ : FiniteMap RecordId Table).insert 1
  ((∅ : Table).insert (.u64 7) ((∅ : Row).insert 2 (.bool true)))⟩

lemma ordered_stocked : stocked.Ordered := by
  intro record t ht key row hrow
  rw [stocked, FiniteMap.get_insert] at ht
  split_ifs at ht
  · cases ht
    rw [FiniteMap.get_insert] at hrow
    split_ifs at hrow with hkey
    · cases hrow
      subst hkey
      refine ⟨.u64 7, fun f v hv => ?_⟩
      rw [FiniteMap.get_insert] at hv
      split_ifs at hv
      · cases hv
        exact .bool true
      · simp at hv
    · simp at hrow
  · simp at ht

lemma noEmptyTable_stocked : stocked.NoEmptyTable := by
  have h : State.empty.insert 1 (.u64 7) ((∅ : Row).insert 2 (.bool true)) = some stocked := rfl
  refine NoEmptyTable.insert ?_ h
  intro record t ht
  simp [State.empty] at ht

theorem state_canonical_form_stocked : OneForm stocked stocked :=
  ((state_canonical_form_iff stocked).1 stocked ordered_stocked ordered_stocked).mpr
    ⟨noEmptyTable_stocked, noEmptyTable_stocked⟩

/-- The item is deleted: the state holds the rows of the empty state, is not equal to it, has another
encoding and is not read back from it. -/
theorem deleted_row_leaves_table : ∃ s : State, stocked.remove 1 (.u64 7) = some s ∧
    SameRows s .empty ∧ s ≠ .empty ∧ Canonical.encode s ≠ Canonical.encode State.empty ∧
    fromCanon s.toCanon = .ok .empty := by
  have hencode : Canonical.encode (⟨(∅ : FiniteMap RecordId Table).insert 1 ∅⟩ : State) ≠
      Canonical.encode State.empty := by decide +kernel
  refine ⟨⟨(∅ : FiniteMap RecordId Table).insert 1 ∅⟩, ?_, ?_, ?_, hencode, ?_⟩
  · rfl
  · intro record key
    rw [State.get, State.get, FiniteMap.get_insert]
    split_ifs <;> simp [State.empty]
  · intro he
    rw [he] at hencode
    exact hencode rfl
  · rfl

end State

end Lang

end CarolinaDB
