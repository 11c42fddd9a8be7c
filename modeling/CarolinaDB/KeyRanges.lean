import CarolinaDB.EngineRows
import CarolinaDB.StoreDecisions

/-!
# Which keys belong together

The keys with a prefix are a range of keys, and records have disjoint ranges. Records of
the protocol, transaction statuses and rows never share a key.
-/
namespace CarolinaDB

open Storage Lang

section Prefixes

lemma prefixUpperBound_cons (b : UInt8) (p : Bytes) :
    Runtime.prefixUpperBound (b :: p) = match Runtime.prefixUpperBound p with
      | some u => some (b :: u)
      | none => if b = 0xff then none else some [b + 1] := by
  simp only [Runtime.prefixUpperBound, List.reverse_cons, List.dropWhile_append]
  cases hrest : p.reverse.dropWhile (· = 0xff) with
  | nil =>
    by_cases hb : b = 0xff <;> simp [hb]
  | cons last rest => simp

/-- From `start` on, and below `end_` if there is one. -/
def InRange (start : Bytes) (end_ : Option Bytes) (k : Bytes) : Prop :=
  start ≤ k ∧ ∀ u ∈ end_, k < u

lemma lt_add_one_iff_le {b c : UInt8} (hb : b ≠ 0xff) : c < b + 1 ↔ c ≤ b := by
  have hlt : b.toNat < 255 := by
    have := b.toNat_lt
    have : b.toNat ≠ 255 := fun h => hb (UInt8.toNat_inj.mp h)
    omega
  rw [UInt8.lt_iff_toNat_lt, UInt8.le_iff_toNat_le, UInt8.toNat_add]
  simp only [UInt8.toNat_one]
  omega

lemma prefixUpperBound_eq_none_iff (p : Bytes) :
    Runtime.prefixUpperBound p = none ↔ ∀ b ∈ p, b = 0xff := by
  induction p with
  | nil => exact ⟨fun _ => by simp, fun _ => rfl⟩
  | cons b p ih =>
    rw [prefixUpperBound_cons, List.forall_mem_cons, ← ih]
    cases Runtime.prefixUpperBound p <;> simp

lemma cons_le_cons_iff {b c : UInt8} {p k : Bytes} : b :: p ≤ c :: k ↔ b < c ∨ b = c ∧ p ≤ k := by
  rw [← not_lt, List.cons_lt_cons_iff, not_or, not_and, not_lt, not_lt, le_iff_lt_or_eq]
  constructor
  · rintro ⟨hbc | rfl, hp⟩
    · exact .inl hbc
    · exact .inr ⟨rfl, hp rfl⟩
  · rintro (hbc | ⟨rfl, hp⟩)
    · exact ⟨.inl hbc, fun he => absurd hbc (he ▸ lt_irrefl _)⟩
    · exact ⟨.inr rfl, fun _ => hp⟩

/-- The first byte settles whether a key is below the bound, unless it is that of the prefix. -/
lemma below_prefixUpperBound_cons {b c : UInt8} {p k : Bytes} :
    (∀ u ∈ Runtime.prefixUpperBound (b :: p), c :: k < u) ↔
      c < b ∨ c = b ∧ ∀ u ∈ Runtime.prefixUpperBound p, k < u := by
  rw [prefixUpperBound_cons]
  cases Runtime.prefixUpperBound p with
  | some u => simp only [Option.mem_some_iff, forall_eq', List.cons_lt_cons_iff]
  | none =>
    by_cases hb : b = 0xff
    · have hle : c ≤ b := by
        rw [hb, UInt8.le_iff_toNat_le]
        exact Nat.le_of_lt_succ c.toNat_lt
      simpa [hb, le_iff_lt_or_eq] using hle
    · simp [hb, List.cons_lt_cons_iff, lt_add_one_iff_le hb, le_iff_lt_or_eq]

lemma prefix_iff_inRange (p k : Bytes) : p <+: k ↔ InRange p (Runtime.prefixUpperBound p) k := by
  induction p generalizing k with
  | nil => exact ⟨fun _ => ⟨not_lt.mp (List.not_lt_nil k), fun u hu => (by cases hu)⟩, fun _ => List.nil_prefix⟩
  | cons b p ih =>
    cases k with
    | nil => exact ⟨fun h => absurd h (by simp), fun h => absurd List.Lex.nil (not_lt.mpr h.1)⟩
    | cons c k =>
      rw [List.cons_prefix_cons, ih, InRange, InRange, cons_le_cons_iff,
        below_prefixUpperBound_cons]
      constructor
      · rintro ⟨rfl, hle, hbelow⟩
        exact ⟨.inr ⟨rfl, hle⟩, .inr ⟨rfl, hbelow⟩⟩
      · rintro ⟨hbc | ⟨rfl, hle⟩, hcb | ⟨heq, hbelow⟩⟩
        · exact absurd hcb (lt_asymm hbc)
        · exact absurd hbc (heq ▸ lt_irrefl _)
        · exact absurd hcb (lt_irrefl _)
        · exact ⟨rfl, hle, hbelow⟩

lemma recordPrefix_append_inj {r r' : Lang.RecordId} {x y : Bytes}
    (h : Runtime.recordPrefix r ++ x = Runtime.recordPrefix r' ++ y) : r = r' := by
  have htail : (KeyElem.u64 r).write ++ x = (KeyElem.u64 r').write ++ y := (List.cons.inj h).2
  have hread := KeyReader.elem_write (.u64 r) x
  rw [htail, KeyReader.elem_write] at hread
  exact KeyElem.u64.inj (Prod.mk.inj (Except.ok.inj hread)).1.symm

/-- The bound of a prefix is missing exactly if it has no byte below `0xff`, and otherwise it closes
the range of the keys with that prefix. The ranges of two records are disjoint. -/
theorem prefixUpperBound_exact (p : Bytes) :
    (Runtime.prefixUpperBound p = none ↔ ∀ b ∈ p, b = 0xff) ∧
    (∀ u, Runtime.prefixUpperBound p = some u → ∀ k : Bytes, p <+: k ↔ p ≤ k ∧ k < u) ∧
    ∀ r r' : Lang.RecordId, r ≠ r' → ∀ k,
      InRange (Runtime.recordPrefix r) (Runtime.prefixUpperBound (Runtime.recordPrefix r)) k →
      ¬ InRange (Runtime.recordPrefix r') (Runtime.prefixUpperBound (Runtime.recordPrefix r')) k := by
  refine ⟨prefixUpperBound_eq_none_iff p, fun u hu k => ?_, fun r r' hne k hk hk' => ?_⟩
  · rw [prefix_iff_inRange, InRange, hu]
    simp only [Option.mem_some_iff, forall_eq']
  · rw [← prefix_iff_inRange] at hk hk'
    obtain ⟨x, rfl⟩ := hk
    obtain ⟨y, hy⟩ := hk'
    exact hne (recordPrefix_append_inj hy.symm)

end Prefixes

section Collisions

lemma logicalKey_injective : Function.Injective ProtocolRecordKey.logicalKey := by
  intro k k' h
  obtain ⟨-, h⟩ := List.cons.inj h
  obtain ⟨hkind, h⟩ := keyBytes_append_inj h
  obtain ⟨hscope, h⟩ := keyBytes_append_inj h
  have hid : keyBytes k.recordId ++ [] = keyBytes k'.recordId ++ [] := congrArg (· ++ []) h
  cases k
  cases k'
  exact congr (congr (congrArg _ (utf8_injective hkind)) hscope) (keyBytes_append_inj hid).1

mutual

lemma prefix_writeKey {v : Value} {w k : Bytes} (h : v.writeKey w = .ok k) : w <+: k := by
  cases v <;> rw [Value.writeKey] at h
  case some v => exact (List.prefix_append _ _).trans (prefix_writeKey h)
  case tuple items => exact (List.prefix_append _ _).trans (prefix_writeKeys h)
  all_goals first | (cases h; exact List.prefix_append _ _) | cases h

lemma prefix_writeKeys {vs : List Value} {w k : Bytes} (h : Value.writeKeys vs w = .ok k) :
    w <+: k := by
  cases vs with
  | nil =>
    rw [Value.writeKeys] at h
    cases h
    exact List.prefix_rfl
  | cons v vs =>
    rw [Value.writeKeys] at h
    obtain ⟨w', hw, h⟩ := CoreResult.bind_eq_ok h
    exact (prefix_writeKey hw).trans (prefix_writeKeys h)

end

lemma kindNamespace_ne_user (kind : String) :
    (ProtocolRecordKey.kindNamespace kind).toByte ≠ Namespace.user.toByte := by
  unfold ProtocolRecordKey.kindNamespace
  split <;> decide

/-- Keys of protocol records differ from each other, from the keys of transaction statuses and from
the keys of rows. -/
theorem logicalKey_collides_with_none (k : ProtocolRecordKey) :
    (∀ k', k' ≠ k → k'.logicalKey ≠ k.logicalKey) ∧ (∀ txn, k.logicalKey ≠ txnStatusKey txn) ∧
    ∀ record key row, Runtime.rowKey record key = .ok row → k.logicalKey ≠ row := by
  refine ⟨fun k' hne h => hne (logicalKey_injective h), logicalKey_ne_txnStatusKey k, ?_⟩
  intro record key row hrow h
  obtain ⟨rest, hrest⟩ := prefix_writeKey hrow
  rw [← h, Runtime.recordPrefix, List.cons_append, ProtocolRecordKey.logicalKey] at hrest
  exact kindNamespace_ne_user _ (List.cons.inj hrest).1.symm

end Collisions

end CarolinaDB
