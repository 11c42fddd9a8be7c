import CarolinaDB.CanonNumbers

/-!
# Types with a canonical representation

Most types read back exactly. Those that hold sets read back with every set in
the natural order of its type, and only if the checks their decoder makes hold.
-/
namespace CarolinaDB

open CanonValue

class Canonical (α : Type) where
  toCanon : α → CanonValue
  fromCanon : CanonValue → CoreResult α
  /-- No set field holds an element twice; the encoder panics on one that does. -/
  distinctSets : α → Bool := fun _ => true

export Canonical (toCanon fromCanon distinctSets)

namespace Canonical
variable {α : Type} [Canonical α]

def encode (a : α) : Bytes := (toCanon a).encode

/-- Strict typed decode: the value read must project back to the input. -/
def decode (bytes : Bytes) (limits : Limits) : CoreResult α := do
  let v ← CanonValue.decode bytes limits
  let t ← fromCanon v
  if toCanon t ≠ v then
    .error (.new .nonCanonicalEncoding
      "decoded value does not re-encode to the input (unknown or non-canonical fields)")
  else .ok t

end Canonical

/-- Reads back exactly. -/
class ExactCanonical (α : Type) [Canonical α] : Prop where
  sorted_toCanon : ∀ a : α, (toCanon a).sorted
  fromCanon_toCanon : ∀ a : α, fromCanon (toCanon a) = .ok a

attribute [simp] ExactCanonical.sorted_toCanon ExactCanonical.fromCanon_toCanon

/-- Never encodes as null, so that it can be optional. -/
class NonNull (α : Type) [Canonical α] : Prop where
  toCanon_ne_null : ∀ a : α, toCanon a ≠ .null

/-- Reads back as `normal`, if it is `sound`. -/
class LawfulCanonical (α : Type) [Canonical α] where
  sound : α → Bool
  normal : α → α
  sorted_toCanon : ∀ a : α, (toCanon a).sorted
  fromCanon_toCanon : ∀ a : α, distinctSets a →
    ∀ b, fromCanon (toCanon a) = .ok b ↔ sound a ∧ b = normal a
  toCanon_normal : ∀ a : α, distinctSets a → toCanon (normal a) = toCanon a
  distinctSets_normal : ∀ a : α, distinctSets a → distinctSets (normal a)

export LawfulCanonical (sound normal)

section Records
variable {α : Type} [Canonical α]

/-- A required field as a value of its type. -/
def CanonValue.fieldAs (v : CanonValue) (name : String) : CoreResult α := do
  fromCanon (← v.field name)

@[simp] lemma fieldAs_build (fs : List (String × CanonValue)) (name : String) :
    ((build fs).fieldAs name : CoreResult α) =
      match fs.lookup name with
      | some w => fromCanon w
      | none => .error (missingField name) := by
  rw [fieldAs, field_build]
  cases fs.lookup name <;> rfl

end Records

section Scalars

instance : Canonical String where
  toCanon s := .str s
  fromCanon v := v.asStr

instance : ExactCanonical String where
  sorted_toCanon _ := rfl
  fromCanon_toCanon _ := rfl

instance : Canonical UInt64 where
  toCanon n := .uint n
  fromCanon v := v.asU64

instance : ExactCanonical UInt64 where
  sorted_toCanon _ := rfl
  fromCanon_toCanon := asU64_uint

instance : Canonical UInt32 where
  toCanon n := .u32 n
  fromCanon v := v.asU32

instance : ExactCanonical UInt32 where
  sorted_toCanon _ := rfl
  fromCanon_toCanon := asU32_u32

instance : Canonical Bytes where
  toCanon b := .bytes b
  fromCanon v := v.asBytes

instance : ExactCanonical Bytes where
  sorted_toCanon _ := rfl
  fromCanon_toCanon := asBytes_bytes

/-- A byte array of fixed length from its text. -/
def octetsFromHex (n : ℕ) (message : String → String) (s : String) : CoreResult (Octets n) := do
  let b ← hexDecode s
  if h : b.length = n then .ok ⟨b, h⟩ else .error (.new .nonCanonicalEncoding (message s))

lemma octetsFromHex_hexEncode {n : ℕ} (message : String → String) (b : Octets n) :
    octetsFromHex n message (hexEncode b.val) = .ok b := by
  simp [octetsFromHex, hexDecode_hexEncode, bind, Except.bind, b.2]

/-- Thirty-two bytes: a transaction identity. -/
instance : Canonical (Octets 32) where
  toCanon b := .str (hexEncode b.val)
  fromCanon v := do octetsFromHex 32 (fun _ => "TxnId must be 64 hex chars") (← v.asStr)

instance : ExactCanonical (Octets 32) where
  sorted_toCanon _ := rfl
  fromCanon_toCanon b := octetsFromHex_hexEncode (fun _ => "TxnId must be 64 hex chars") b

structure Hash256 where
  bytes : Octets 32
  deriving DecidableEq, Repr

def Hash256.zero : Hash256 := ⟨Octets.zero 32⟩

instance : Canonical Hash256 where
  toCanon h := .str (hexEncode h.bytes.val)
  fromCanon v := do
    let s ← v.asStr
    let b ← octetsFromHex 32
      (fun s => "hash must be 64 hex chars, got " ++ toString (utf8 s).length) s
    .ok ⟨b⟩

instance : ExactCanonical Hash256 where
  sorted_toCanon _ := rfl
  fromCanon_toCanon h := by
    simp [fromCanon, toCanon, asStr, bind, Except.bind, octetsFromHex_hexEncode]

instance : NonNull Hash256 where
  toCanon_ne_null _ := by simp [toCanon]

/-- A 128-bit identity. The name tells the identity types of the source apart. -/
structure Id128 (name : String) where
  bytes : Octets 16
  deriving DecidableEq, Repr

def Id128.nil (name : String) : Id128 name := ⟨Octets.zero 16⟩

instance {name : String} : Canonical (Id128 name) where
  toCanon i := .str (hexEncode i.bytes.val)
  fromCanon v := do
    let s ← v.asStr
    let b ← octetsFromHex 16 (fun _ => name ++ " must be 32 hex chars") s
    .ok ⟨b⟩

instance {name : String} : ExactCanonical (Id128 name) where
  sorted_toCanon _ := rfl
  fromCanon_toCanon i := by
    simp [fromCanon, toCanon, asStr, bind, Except.bind, octetsFromHex_hexEncode]

/-- A canonical value as a field. A map of the source is sorted by construction. -/
abbrev CanonTree := {v : CanonValue // v.sorted}

instance : Canonical CanonTree where
  toCanon v := v.val
  fromCanon v := if h : v.sorted then .ok ⟨v, h⟩ else .error .panicked

instance : ExactCanonical CanonTree where
  sorted_toCanon v := v.2
  fromCanon_toCanon v := dif_pos v.2

end Scalars

section Vectors
variable {α : Type} [Canonical α]

def decodeAll : List CanonValue → CoreResult (List α)
  | [] => .ok []
  | v :: vs => do
    let a ← fromCanon v
    let l ← decodeAll vs
    .ok (a :: l)

instance : Canonical (List α) where
  toCanon l := .array (l.map toCanon)
  fromCanon v := do decodeAll (← v.asArray)
  distinctSets l := l.all distinctSets

lemma sortedItems_iff {vs : List CanonValue} : sortedItems vs ↔ ∀ v ∈ vs, v.sorted := by
  induction vs with
  | nil => simp [sortedItems]
  | cons v vs ih => simp [sortedItems, ih]

lemma decodeAll_map [ExactCanonical α] (l : List α) : decodeAll (l.map toCanon) = .ok l := by
  induction l with
  | nil => rfl
  | cons a l ih =>
    simp only [List.map_cons, decodeAll, ExactCanonical.fromCanon_toCanon, ih, bind, Except.bind]

instance [ExactCanonical α] : ExactCanonical (List α) where
  sorted_toCanon l := by
    simp only [toCanon, sorted, sortedItems_iff, List.mem_map]
    rintro _ ⟨a, -, rfl⟩
    exact ExactCanonical.sorted_toCanon a
  fromCanon_toCanon l := decodeAll_map l

lemma decodeAll_map_iff [LawfulCanonical α] (l : List α) (h : l.all distinctSets) (b : List α) :
    decodeAll (l.map toCanon) = .ok b ↔ l.all sound ∧ b = l.map normal := by
  induction l generalizing b with
  | nil => simp [decodeAll, eq_comm]
  | cons a l ih =>
    simp only [List.all_cons, Bool.and_eq_true] at h
    simp only [List.map_cons, decodeAll, CoreResult.bind_eq_ok_iff, ih h.2,
      LawfulCanonical.fromCanon_toCanon a h.1, List.all_cons, Bool.and_eq_true, Except.ok.injEq]
    constructor
    · rintro ⟨_, ⟨ha, rfl⟩, _, ⟨hl, rfl⟩, rfl⟩
      exact ⟨⟨ha, hl⟩, rfl⟩
    · rintro ⟨⟨ha, hl⟩, rfl⟩
      exact ⟨_, ⟨ha, rfl⟩, _, ⟨hl, rfl⟩, rfl⟩

instance (priority := low) [LawfulCanonical α] : LawfulCanonical (List α) where
  sound l := l.all sound
  normal l := l.map normal
  sorted_toCanon l := by
    simp only [toCanon, sorted, sortedItems_iff, List.mem_map]
    rintro _ ⟨a, -, rfl⟩
    exact LawfulCanonical.sorted_toCanon a
  fromCanon_toCanon l h b := decodeAll_map_iff l h b
  toCanon_normal l h := by
    simp only [distinctSets, List.all_eq_true] at h
    simp only [toCanon, List.map_map, CanonValue.array.injEq]
    exact List.map_congr_left fun a ha => LawfulCanonical.toCanon_normal a (h a ha)
  distinctSets_normal l h := by
    simp only [distinctSets, List.all_eq_true, List.all_map, Function.comp_apply] at h ⊢
    exact fun a ha => LawfulCanonical.distinctSets_normal a (h a ha)

instance : Canonical (Option α) where
  toCanon
    | some a => toCanon a
    | none => .null
  fromCanon v := if v = .null then .ok none else (fromCanon v).map some
  distinctSets o := o.all distinctSets

instance [ExactCanonical α] [NonNull α] : ExactCanonical (Option α) where
  sorted_toCanon o := by
    cases o with
    | none => rfl
    | some a => exact ExactCanonical.sorted_toCanon a
  fromCanon_toCanon o := by
    cases o with
    | none => rfl
    | some a =>
      simp only [toCanon, fromCanon]
      rw [if_neg (NonNull.toCanon_ne_null a), ExactCanonical.fromCanon_toCanon]
      rfl

instance (priority := low) [LawfulCanonical α] [NonNull α] : LawfulCanonical (Option α) where
  sound o := o.all sound
  normal o := o.map normal
  sorted_toCanon o := by
    cases o with
    | none => rfl
    | some a => exact LawfulCanonical.sorted_toCanon a
  fromCanon_toCanon o h b := by
    cases o with
    | none => simp [toCanon, fromCanon, eq_comm]
    | some a =>
      have ha : distinctSets a := by simpa [distinctSets] using h
      simp only [toCanon, fromCanon]
      rw [if_neg (NonNull.toCanon_ne_null a), CoreResult.map_eq_ok_iff]
      simp only [LawfulCanonical.fromCanon_toCanon a ha, Option.all_some, Option.map_some]
      constructor
      · rintro ⟨_, ⟨hs, rfl⟩, rfl⟩
        exact ⟨hs, rfl⟩
      · rintro ⟨hs, rfl⟩
        exact ⟨_, ⟨hs, rfl⟩, rfl⟩
  toCanon_normal o h := by
    cases o with
    | none => rfl
    | some a => exact LawfulCanonical.toCanon_normal a (by simpa [distinctSets] using h)
  distinctSets_normal o h := by
    cases o with
    | none => rfl
    | some a =>
      have := LawfulCanonical.distinctSets_normal a (by simpa [distinctSets] using h)
      simpa [distinctSets] using this

end Vectors

section Sets
variable {α : Type} [Canonical α]

/-- Encodings in the order of their bytes. -/
def encodedLE (v w : CanonValue) : Prop := ¬ w.encode < v.encode

instance : DecidableRel encodedLE := fun v w => inferInstanceAs (Decidable (¬ w.encode < v.encode))

instance : Std.Total encodedLE := ⟨fun v w => by
  rcases lt_or_ge w.encode v.encode with h | h
  · exact Or.inr (lt_asymm h)
  · exact Or.inl (not_lt.mpr h)⟩

instance : IsTrans CanonValue encodedLE := ⟨fun u v w huv hvw => by
  rw [encodedLE, not_lt] at huv hvw ⊢
  exact huv.trans hvw⟩

/-- A set as a value: its elements by the order of their encodings. -/
def canonSet (l : List α) : CanonValue := .array ((l.map toCanon).insertionSort encodedLE)

/-- No two elements have one encoding. -/
def distinctElems (l : List α) : Bool := (l.map fun a => (toCanon a).encode).Nodup

/-- The elements of a set in the natural order of their type. -/
def naturalOrder [LinearOrder α] (l : List α) : List α := l.insertionSort (· ≤ ·)

def decodeSet [LinearOrder α] (v : CanonValue) : CoreResult (List α) := do
  let out ← decodeAll (← v.asSet)
  .ok (naturalOrder out)

omit [Canonical α] in
lemma naturalOrder_perm [LinearOrder α] (l : List α) : (naturalOrder l).Perm l :=
  List.perm_insertionSort _ l

omit [Canonical α] in
lemma naturalOrder_eq_of_perm [LinearOrder α] {l l' : List α} (h : l.Perm l') :
    naturalOrder l = naturalOrder l' := by
  refine List.Perm.eq_of_pairwise ?_ (List.pairwise_insertionSort (· ≤ ·) l)
    (List.pairwise_insertionSort (· ≤ ·) l')
    ((naturalOrder_perm l).trans (h.trans (naturalOrder_perm l').symm))
  intro a b _ _ hab hba
  exact le_antisymm hab hba

/-- The elements of `l` in the order the encoder writes them. -/
def encodedOrder (l : List α) : List α :=
  l.insertionSort fun a b => encodedLE (toCanon a) (toCanon b)

lemma map_encodedOrder (l : List α) :
    (encodedOrder l).map toCanon = (l.map toCanon).insertionSort encodedLE :=
  List.map_insertionSort _ _ _ _ fun _ _ _ _ => Iff.rfl

lemma encodedOrder_perm (l : List α) : (encodedOrder l).Perm l := List.perm_insertionSort _ l

lemma canonSet_eq (l : List α) : canonSet l = .array ((encodedOrder l).map toCanon) := by
  rw [canonSet, map_encodedOrder]

@[simp] lemma sorted_canonSet [ExactCanonical α] (l : List α) : (canonSet l).sorted := by
  rw [canonSet_eq]
  exact ExactCanonical.sorted_toCanon (encodedOrder l)

lemma asSet_canonSet {l : List α} (h : distinctElems l) :
    (canonSet l).asSet = .ok ((encodedOrder l).map toCanon) := by
  have hle : ((encodedOrder l).map toCanon).Pairwise encodedLE := by
    rw [map_encodedOrder]
    exact List.pairwise_insertionSort _ _
  have hne : ((encodedOrder l).map fun a => (toCanon a).encode).Nodup := by
    have hn : (l.map fun a => (toCanon a).encode).Nodup := by simpa [distinctElems] using h
    exact (((encodedOrder_perm l).map _).nodup_iff).mpr hn
  have hlt : (((encodedOrder l).map toCanon).map CanonValue.encode).IsChain (· < ·) := by
    apply List.Pairwise.isChain
    rw [List.pairwise_map] at hle ⊢
    rw [List.pairwise_map]
    rw [List.nodup_iff_pairwise_ne, List.pairwise_map] at hne
    exact (hle.and hne).imp fun hab => lt_of_le_of_ne (not_lt.mp hab.1) hab.2
  rw [canonSet_eq, asSet]
  simp only [asArray, bind, Except.bind]
  rw [if_pos hlt]

@[simp] lemma decodeSet_canonSet [ExactCanonical α] [LinearOrder α] {l : List α} (h : distinctElems l) :
    decodeSet (canonSet l) = .ok (naturalOrder l) := by
  rw [decodeSet, asSet_canonSet h]
  simp only [bind, Except.bind, decodeAll_map]
  exact congrArg _ (naturalOrder_eq_of_perm (encodedOrder_perm l))

/-- A required field that holds a set. -/
def CanonValue.fieldAsSet [LinearOrder α] (v : CanonValue) (name : String) :
    CoreResult (List α) := do
  decodeSet (← v.field name)

@[simp] lemma fieldAsSet_build [LinearOrder α] (fs : List (String × CanonValue)) (name : String) :
    ((build fs).fieldAsSet name : CoreResult (List α)) =
      match fs.lookup name with
      | some w => decodeSet w
      | none => .error (missingField name) := by
  rw [fieldAsSet, field_build]
  cases fs.lookup name <;> rfl

lemma distinctElems_naturalOrder [LinearOrder α] {l : List α} (h : distinctElems l) :
    distinctElems (naturalOrder l) := by
  simp only [distinctElems, decide_eq_true_eq] at h ⊢
  exact (((naturalOrder_perm l).map _).nodup_iff).mpr h

lemma canonSet_naturalOrder [LinearOrder α] {l : List α} (h : distinctElems l) :
    canonSet (naturalOrder l) = canonSet l := by
  have hperm : ((naturalOrder l).map toCanon).Perm (l.map toCanon) := (naturalOrder_perm l).map _
  rw [canonSet, canonSet, CanonValue.array.injEq]
  refine List.Perm.eq_of_pairwise ?_ (List.pairwise_insertionSort encodedLE _)
    (List.pairwise_insertionSort encodedLE _)
    ((List.perm_insertionSort _ _).trans (hperm.trans (List.perm_insertionSort _ _).symm))
  intro v w hv hw hvw hwv
  have henc : v.encode = w.encode := le_antisymm (not_lt.mp hvw) (not_lt.mp hwv)
  have hn : ((l.map toCanon).map CanonValue.encode).Nodup := by
    simpa [distinctElems, Function.comp_def] using h
  rw [List.mem_insertionSort] at hv hw
  exact List.inj_on_of_nodup_map hn (hperm.subset hv) hw henc

end Sets

section Decode
variable {α : Type} [Canonical α] [LawfulCanonical α]

lemma fromCanon_eq_ok_normal {a : α} (h : distinctSets a) (hs : sound a) :
    fromCanon (toCanon a) = .ok (normal a) :=
  (LawfulCanonical.fromCanon_toCanon a h _).mpr ⟨hs, rfl⟩

/-- A typed value decodes from its encoding exactly if that is within limits and it is sound. -/
theorem decode_encode_iff (a : α) (h : distinctSets a) (limits : Limits) (b : α) :
    Canonical.decode (Canonical.encode a) limits = .ok b ↔
      (Canonical.encode a).length ≤ limits.maxPayloadBytes ∧ (toCanon a).fits limits 0 ∧
        sound a ∧ b = normal a := by
  rw [Canonical.decode, Canonical.encode, CoreResult.bind_eq_ok_iff]
  simp only [decode_encode (LawfulCanonical.sorted_toCanon a)]
  constructor
  · rintro ⟨v, ⟨hlen, hfits, rfl⟩, hv⟩
    rw [CoreResult.bind_eq_ok_iff] at hv
    obtain ⟨c, hc, hb⟩ := hv
    obtain ⟨hs, rfl⟩ := (LawfulCanonical.fromCanon_toCanon a h c).mp hc
    rw [LawfulCanonical.toCanon_normal a h] at hb
    exact ⟨hlen, hfits, hs, by simpa [eq_comm] using hb⟩
  · rintro ⟨hlen, hfits, hs, rfl⟩
    refine ⟨_, ⟨hlen, hfits, rfl⟩, CoreResult.bind_eq_ok_iff.mpr ⟨normal a, ?_, ?_⟩⟩
    · exact (LawfulCanonical.fromCanon_toCanon a h _).mpr ⟨hs, rfl⟩
    · simp [LawfulCanonical.toCanon_normal a h]

end Decode

end CarolinaDB
