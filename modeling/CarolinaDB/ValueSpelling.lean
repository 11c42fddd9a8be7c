import CarolinaDB.CanonInjective
import CarolinaDB.CanonStrict
import CarolinaDB.DecimalExact
import CarolinaDB.ValueCodec

/-! How values are spelled in the canonical form, one layer at a time: a value is read from its
spellings only. Each kind has one spelling, but for the precision and the scale of a decimal, which
are read as 32-bit numbers and kept as bytes. A value whose sets and records are in order is read
back from its encoding. -/
namespace CarolinaDB

namespace CanonValue

lemma asI128_eq_ok_iff {v : CanonValue} {x : ℤ} :
    v.asI128 = .ok x ↔ v = .int x ∧ x.natAbs ≤ i128Max := by
  cases v with
  | str s =>
    simp only [asI128, asStr, CoreResult.ok_bind, parseCanonicalInt_eq_ok_iff]
    rw [eq_comm]
  | _ => simp [asI128, asStr, CanonValue.int]

lemma asI64_eq_ok_iff {v : CanonValue} {x : Int64} : v.asI64 = .ok x ↔ v = .int x.toInt := by
  have hlo := x.le_toInt
  have hhi := x.toInt_lt
  rw [asI64, CoreResult.bind_eq_ok_iff]
  simp only [asI128_eq_ok_iff]
  constructor
  · rintro ⟨y, ⟨hv, hmax⟩, h⟩
    split_ifs at h with hr
    rw [hv, ← Except.ok.inj h, Int64.toInt_ofInt_of_le hr.1 hr.2]
  · intro hv
    refine ⟨x.toInt, ⟨hv, ?_⟩, ?_⟩
    · have hmax : (2 : ℕ) ^ 63 ≤ i128Max := by norm_num [i128Max]
      omega
    · rw [if_pos ⟨hlo, hhi⟩, Int64.ofInt_toInt]

lemma ofFields_of_sorted {fs : List (String × CanonValue)}
    (h : fs.Pairwise fun f g => utf8 f.1 < utf8 g.1) : ofFields fs = fs := by
  induction fs with
  | nil => rfl
  | cons f fs ih =>
    obtain ⟨k, v⟩ := f
    rw [List.pairwise_cons] at h
    rw [ofFields, ih h.2]
    cases fs with
    | nil => rfl
    | cons g gs =>
      obtain ⟨l, w⟩ := g
      have hlt : utf8 k < utf8 l := h.1 _ List.mem_cons_self
      rw [insertField, if_neg (fun he => hlt.ne (congrArg utf8 he)), if_pos hlt]

lemma pairwise_of_sortedFields {last : Option String} {fs : List (String × CanonValue)}
    (h : sortedFields last fs) : fs.Pairwise fun f g => utf8 f.1 < utf8 g.1 := by
  induction fs generalizing last with
  | nil => exact List.Pairwise.nil
  | cons f fs ih =>
    obtain ⟨k, v⟩ := f
    simp only [sortedFields, Bool.and_eq_true] at h
    refine List.Pairwise.cons (fun g hg => ?_) (ih h.2.2)
    simpa using (sortedFields_mem h.2.2 g hg).2

lemma depthItems_le {vs : List CanonValue} {v : CanonValue} (h : v ∈ vs) :
    v.depth ≤ depthItems vs := by
  induction vs with
  | nil => simp at h
  | cons w vs ih =>
    rw [depthItems]
    rcases List.mem_cons.mp h with rfl | h
    · exact le_max_left _ _
    · exact (ih h).trans (le_max_right _ _)

lemma depthFields_le {fs : List (String × CanonValue)} {f : String × CanonValue} (h : f ∈ fs) :
    f.2.depth ≤ depthFields fs := by
  induction fs with
  | nil => simp at h
  | cons g fs ih =>
    obtain ⟨k, v⟩ := g
    rw [depthFields]
    rcases List.mem_cons.mp h with rfl | h
    · exact le_max_left _ _
    · exact (ih h).trans (le_max_right _ _)

lemma depth_lt_array {vs : List CanonValue} {v : CanonValue} (h : v ∈ vs) :
    v.depth < (array vs).depth := by
  rw [depth]
  exact Nat.lt_succ_of_le (depthItems_le h)

lemma depth_lt_object {fs : List (String × CanonValue)} {f : String × CanonValue} (h : f ∈ fs) :
    f.2.depth < (object fs).depth := by
  rw [depth]
  exact Nat.lt_succ_of_le (depthFields_le h)

lemma depth_lt_build {fs : List (String × CanonValue)} {name : String} {w : CanonValue}
    (h : fs.lookup name = some w) : w.depth < (build fs).depth := by
  rw [← lookup_ofFields] at h
  obtain ⟨l₁, l₂, hl, -⟩ := List.lookup_eq_some_iff.mp h
  exact depth_lt_object (f := (name, w)) (by rw [hl]; simp)

section Readers
variable {v : CanonValue}

lemma asStr_eq_ok_iff {s : String} : v.asStr = .ok s ↔ v = .str s := by
  cases v <;> simp [asStr]

lemma asBool_eq_ok_iff {b : Bool} : v.asBool = .ok b ↔ v = .bool b := by
  cases v <;> simp [asBool]

lemma sorted_of_asStr {s : String} (h : v.asStr = .ok s) : v.sorted := by
  rw [eq_str_of_asStr h]
  rfl

lemma asU64_eq_ok_iff {x : UInt64} : v.asU64 = .ok x ↔ v = .uint x := by
  constructor
  · intro h
    exact (uint_of_asU64 h).symm
  · intro h
    rw [h]
    exact ExactCanonical.fromCanon_toCanon x

lemma asU32_eq_ok_iff {x : UInt32} : v.asU32 = .ok x ↔ v = .u32 x := by
  constructor
  · intro h
    obtain ⟨y, hy, -⟩ := CoreResult.bind_eq_ok h
    obtain ⟨s, hs, -⟩ := CoreResult.bind_eq_ok hy
    exact (toCanon_of_fromCanon (α := UInt32) (sorted_of_asStr hs) h).symm
  · intro h
    rw [h]
    exact ExactCanonical.fromCanon_toCanon x

lemma asBytes_eq_ok_iff {b : Bytes} : v.asBytes = .ok b ↔ v = .bytes b := by
  constructor
  · intro h
    obtain ⟨s, hs, -⟩ := CoreResult.bind_eq_ok h
    exact (toCanon_of_fromCanon (α := Bytes) (sorted_of_asStr hs) h).symm
  · intro h
    rw [h]
    exact ExactCanonical.fromCanon_toCanon b

lemma asArray_eq_ok_iff {vs : List CanonValue} : v.asArray = .ok vs ↔ v = .array vs := by
  cases v <;> simp [asArray]

lemma asObject_eq_ok_iff {fs : List (String × CanonValue)} :
    v.asObject = .ok fs ↔ v = .object fs := by
  cases v <;> simp [asObject]

lemma asSet_eq_ok_iff {vs : List CanonValue} :
    v.asSet = .ok vs ↔ v = .array vs ∧ (vs.map CanonValue.encode).IsChain (· < ·) := by
  rw [asSet, CoreResult.bind_eq_ok_iff]
  simp only [asArray_eq_ok_iff]
  constructor
  · rintro ⟨ws, hv, h⟩
    split_ifs at h with hchain
    cases h
    exact ⟨hv, hchain⟩
  · rintro ⟨hv, hchain⟩
    exact ⟨vs, hv, if_pos hchain⟩

end Readers

end CanonValue

namespace Lang

open CanonValue

namespace Value

/-- Sets hold their elements and records their fields in order, as the collections of the source
do. -/
inductive Ordered : Value → Prop
  | bool (b) : Ordered (.bool b)
  | i64 (x) : Ordered (.i64 x)
  | u64 (x) : Ordered (.u64 x)
  | uuid (u) : Ordered (.uuid u)
  | bytes (b) : Ordered (.bytes b)
  | str (s) : Ordered (.str s)
  | decimal (d) : Ordered (.decimal d)
  | enum (e variant) : Ordered (.enum e variant)
  | none : Ordered .none
  | some {v} (h : Ordered v) : Ordered (.some v)
  | set {items} (hs : items.Pairwise (· < ·)) (h : ∀ v ∈ items, Ordered v) : Ordered (.set items)
  | tuple {items} (h : ∀ v ∈ items, Ordered v) : Ordered (.tuple items)
  | row {r fs} (hs : fs.Pairwise fun f g => utf8 f.1 < utf8 g.1) (h : ∀ f ∈ fs, Ordered f.2) :
      Ordered (.row r fs)
  | struct {fs} (hs : fs.Pairwise fun f g => utf8 f.1 < utf8 g.1) (h : ∀ f ∈ fs, Ordered f.2) :
      Ordered (.struct fs)
  | unit : Ordered .unit

/-- One layer of the spelling of a value, over the spelling of what it holds. -/
def Spells (R : CanonValue → Value → Prop) (c : CanonValue) : Value → Prop
  | bool b => c = build [("kind", .str "bool"), ("value", .bool b)]
  | i64 x => c = build [("kind", .str "i64"), ("value", .int x.toInt)]
  | u64 x => c = build [("kind", .str "u64"), ("value", .uint x)]
  | uuid u => c = build [("kind", .str "uuid"), ("value", .bytes u.val)]
  | bytes b => c = build [("kind", .str "bytes"), ("value", .bytes b)]
  | str s => c = build [("kind", .str "string"), ("value", .str s)]
  | decimal d => ∃ p s : UInt32, p.toUInt8 = d.precision ∧ s.toUInt8 = d.scale ∧
      c = build [("coefficient", .int d.coefficient), ("kind", .str "decimal"),
        ("precision", .u32 p), ("scale", .u32 s)]
  | enum e variant => c = build [
      ("enum", Canonical.toCanon e), ("kind", .str "enum"), ("variant", .u32 variant)]
  | none => c = build [("kind", .str "none")]
  | some v => ∃ w, R w v ∧ c = build [("kind", .str "some"), ("value", w)]
  | set items => ∃ ws vs, List.Forall₂ R ws vs ∧ items = vs.foldl insertValue [] ∧
      (ws.map CanonValue.encode).IsChain (· < ·) ∧
      c = build [("items", .array ws), ("kind", .str "set")]
  | tuple vs => ∃ ws, List.Forall₂ R ws vs ∧
      c = build [("items", .array ws), ("kind", .str "tuple")]
  | row r fs => ∃ ws, List.Forall₂ (fun w f => w.1 = f.1 ∧ R w.2 f.2) ws fs ∧
      c = build [("fields", .object ws), ("kind", .str "row"), ("record", Canonical.toCanon r)]
  | struct fs => ∃ ws, List.Forall₂ (fun w f => w.1 = f.1 ∧ R w.2 f.2) ws fs ∧
      c = build [("fields", .object ws), ("kind", .str "struct")]
  | unit => c = build [("kind", .str "unit")]

lemma mapM_eq_ok_iff {α β : Type} {read : α → CoreResult β} {ws : List α} {vs : List β} :
    ws.mapM read = .ok vs ↔ List.Forall₂ (fun w v => read w = .ok v) ws vs := by
  induction ws generalizing vs with
  | nil => simp [pure, Except.pure, eq_comm]
  | cons w ws ih =>
    simp only [List.mapM_cons, CoreResult.bind_eq_ok_iff, ih]
    constructor
    · rintro ⟨v, hv, us, hus, h⟩
      cases h
      exact List.Forall₂.cons hv hus
    · intro h
      cases h with
      | cons hv hus => exact ⟨_, hv, _, hus, rfl⟩

lemma compareStr_eq_lt_iff {a b : String} : compareStr a b = .lt ↔ utf8 a < utf8 b :=
  lexCmp_lt_iff

lemma insertField_of_lt {fs : List (String × Value)} {k : String} {v : Value}
    (h : ∀ f ∈ fs, utf8 f.1 < utf8 k) : insertField fs k v = fs ++ [(k, v)] := by
  induction fs with
  | nil => rfl
  | cons f fs ih =>
    obtain ⟨l, w⟩ := f
    have hlt : utf8 l < utf8 k := h _ List.mem_cons_self
    have hgt : compareStr k l = .gt := by
      cases hc : compareStr k l with
      | lt => exact absurd (compareStr_eq_lt_iff.mp hc) hlt.asymm
      | eq => exact absurd (Lexicographic.eq_of_lexCmp hc) hlt.ne'
      | gt => rfl
    rw [insertField, hgt]
    simp only [List.cons_append]
    rw [ih fun f hf => h f (List.mem_cons_of_mem _ hf)]

/-- Fields that come in order are read in order. -/
lemma readFields_eq_ok_iff {read : CanonValue → CoreResult Value}
    {ws : List (String × CanonValue)} {out r : List (String × Value)}
    (hout : ∀ f ∈ out, ∀ w ∈ ws, utf8 f.1 < utf8 w.1)
    (hws : ws.Pairwise fun f g => utf8 f.1 < utf8 g.1) :
    readFields read ws out = .ok r ↔
      ∃ fs, List.Forall₂ (fun w f => w.1 = f.1 ∧ read w.2 = .ok f.2) ws fs ∧ r = out ++ fs := by
  induction ws generalizing out with
  | nil => simp [readFields, eq_comm]
  | cons w ws ih =>
    obtain ⟨k, w⟩ := w
    rw [List.pairwise_cons] at hws
    have hstep : ∀ v : Value, ∀ f ∈ out ++ [(k, v)], ∀ u ∈ ws, utf8 f.1 < utf8 u.1 := by
      intro v f hf u hu
      rcases List.mem_append.mp hf with hf | hf
      · exact hout f hf u (List.mem_cons_of_mem _ hu)
      · rw [List.mem_singleton.mp hf]
        exact hws.1 u hu
    rw [readFields, CoreResult.bind_eq_ok_iff]
    constructor
    · rintro ⟨v, hv, h⟩
      rw [insertField_of_lt fun f hf => hout f hf _ List.mem_cons_self,
        ih (hstep v) hws.2] at h
      obtain ⟨fs, hfs, rfl⟩ := h
      exact ⟨(k, v) :: fs, List.Forall₂.cons ⟨rfl, hv⟩ hfs, by simp⟩
    · rintro ⟨fs, hfs, hr⟩
      cases hfs with
      | @cons _ f _ fs hf hfs =>
        obtain ⟨l, v⟩ := f
        obtain ⟨rfl, hv⟩ := hf
        refine ⟨v, hv, ?_⟩
        rw [insertField_of_lt fun f hf => hout f hf _ List.mem_cons_self, ih (hstep v) hws.2]
        exact ⟨fs, hfs, by simpa using hr⟩

lemma natAbs_coefficient_le (d : Decimal) : d.coefficient.natAbs ≤ i128Max := by
  have hle : d.precision.toNat ≤ 38 := d.precision_le
  have hpow : (10 : ℤ) ^ d.precision.toNat ≤ 10 ^ 38 := pow_le_pow_right₀ (by norm_num) hle
  have hrange := d.range
  have hmax : (10 : ℤ) ^ 38 ≤ i128Max := by norm_num [i128Max]
  omega

section Spellings
variable {n : ℕ} {c : CanonValue} {v : Value}

lemma eq_build_value {kind : String} {w : CanonValue} (hc : c.sorted)
    (hk : c.field "kind" = .ok (.str kind)) (hnames : c.expectFields ["kind", "value"] = .ok ())
    (hw : c.field "value" = .ok w) : c = build [("kind", .str kind), ("value", w)] := by
  refine (eq_build_of_expectFields hc (by simpa using hnames) ?_).symm
  simp [hk, hw]

lemma spells_of_readValue (hc : c.sorted) (h : readValue (n + 1) c = .ok v) :
    Spells (fun w u => readValue n w = .ok u) c v := by
  rw [readValue, CoreResult.bind_eq_ok_iff] at h
  obtain ⟨k, hk, h⟩ := h
  rw [CoreResult.bind_eq_ok_iff] at h
  obtain ⟨kind, hkind, h⟩ := h
  rw [asStr_eq_ok_iff] at hkind
  subst hkind
  by_cases hbool : kind = "bool"
  · rw [if_pos hbool] at h
    simp only [CoreResult.bind_eq_ok_iff, asBool_eq_ok_iff] at h
    obtain ⟨_, hnames, _, hw, b, rfl, h⟩ := h
    cases h
    subst hbool
    exact eq_build_value hc hk hnames hw
  rw [if_neg hbool] at h
  by_cases hi64 : kind = "i64"
  · rw [if_pos hi64] at h
    simp only [CoreResult.bind_eq_ok_iff, asI64_eq_ok_iff] at h
    obtain ⟨_, hnames, _, hw, x, rfl, h⟩ := h
    cases h
    subst hi64
    exact eq_build_value hc hk hnames hw
  rw [if_neg hi64] at h
  by_cases hu64 : kind = "u64"
  · rw [if_pos hu64] at h
    simp only [CoreResult.bind_eq_ok_iff, asU64_eq_ok_iff] at h
    obtain ⟨_, hnames, _, hw, x, rfl, h⟩ := h
    cases h
    subst hu64
    exact eq_build_value hc hk hnames hw
  rw [if_neg hu64] at h
  by_cases huuid : kind = "uuid"
  · rw [if_pos huuid] at h
    simp only [CoreResult.bind_eq_ok_iff, asBytes_eq_ok_iff] at h
    obtain ⟨_, hnames, _, hw, b, rfl, h⟩ := h
    split_ifs at h with hlen
    cases h
    subst huuid
    exact eq_build_value hc hk hnames hw
  rw [if_neg huuid] at h
  by_cases hbytes : kind = "bytes"
  · rw [if_pos hbytes] at h
    simp only [CoreResult.bind_eq_ok_iff, asBytes_eq_ok_iff] at h
    obtain ⟨_, hnames, _, hw, b, rfl, h⟩ := h
    cases h
    subst hbytes
    exact eq_build_value hc hk hnames hw
  rw [if_neg hbytes] at h
  by_cases hstring : kind = "string"
  · rw [if_pos hstring] at h
    simp only [CoreResult.bind_eq_ok_iff, asStr_eq_ok_iff] at h
    obtain ⟨_, hnames, _, hw, t, rfl, h⟩ := h
    cases h
    subst hstring
    exact eq_build_value hc hk hnames hw
  rw [if_neg hstring] at h
  by_cases hdecimal : kind = "decimal"
  · rw [if_pos hdecimal] at h
    simp only [CoreResult.bind_eq_ok_iff, asI128_eq_ok_iff, asU32_eq_ok_iff] at h
    obtain ⟨_, hnames, _, hx, x, ⟨rfl, -⟩, _, hp, p, rfl, _, hs, s, rfl, d, hd, h⟩ := h
    cases h
    subst hdecimal
    obtain ⟨rfl, hpd, hsd⟩ := Decimal.new_eq_ok_iff.mp hd
    refine ⟨p, s, hpd.symm, hsd.symm, (eq_build_of_expectFields hc (by simpa using hnames) ?_).symm⟩
    simp only [List.forall_mem_cons, List.not_mem_nil, false_imp_iff, implies_true, and_true]
    exact ⟨hx, hk, hp, hs⟩
  rw [if_neg hdecimal] at h
  by_cases henum : kind = "enum"
  · rw [if_pos henum] at h
    simp only [CoreResult.bind_eq_ok_iff, asU32_eq_ok_iff] at h
    obtain ⟨_, hnames, e, he, _, hw, x, rfl, h⟩ := h
    cases h
    subst henum
    refine (eq_build_of_expectFields hc (by simpa using hnames) ?_).symm
    simp only [List.forall_mem_cons, List.not_mem_nil, false_imp_iff, implies_true, and_true]
    exact ⟨field_of_fieldAs hc he, hk, hw⟩
  rw [if_neg henum] at h
  by_cases hnone : kind = "none"
  · rw [if_pos hnone] at h
    simp only [CoreResult.bind_eq_ok_iff] at h
    obtain ⟨_, hnames, h⟩ := h
    cases h
    subst hnone
    refine (eq_build_of_expectFields hc (by simpa using hnames) ?_).symm
    simpa using hk
  rw [if_neg hnone] at h
  by_cases hsome : kind = "some"
  · rw [if_pos hsome] at h
    simp only [CoreResult.bind_eq_ok_iff] at h
    obtain ⟨_, hnames, w, hw, u, hu, h⟩ := h
    cases h
    subst hsome
    exact ⟨w, hu, eq_build_value hc hk hnames hw⟩
  rw [if_neg hsome] at h
  by_cases hset : kind = "set"
  · rw [if_pos hset] at h
    simp only [CoreResult.bind_eq_ok_iff, asSet_eq_ok_iff, mapM_eq_ok_iff] at h
    obtain ⟨_, hnames, _, hw, ws, ⟨rfl, hchain⟩, vs, hvs, h⟩ := h
    cases h
    subst hset
    refine ⟨ws, vs, hvs, rfl, hchain, (eq_build_of_expectFields hc (by simpa using hnames) ?_).symm⟩
    simp [hk, hw]
  rw [if_neg hset] at h
  by_cases htuple : kind = "tuple"
  · rw [if_pos htuple] at h
    simp only [CoreResult.bind_eq_ok_iff, asArray_eq_ok_iff, mapM_eq_ok_iff] at h
    obtain ⟨_, hnames, _, hw, ws, rfl, vs, hvs, h⟩ := h
    cases h
    subst htuple
    refine ⟨ws, hvs, (eq_build_of_expectFields hc (by simpa using hnames) ?_).symm⟩
    simp [hk, hw]
  rw [if_neg htuple] at h
  by_cases hrow : kind = "row"
  · rw [if_pos hrow] at h
    simp only [CoreResult.bind_eq_ok_iff, asObject_eq_ok_iff] at h
    obtain ⟨_, hnames, _, hw, ws, rfl, fs, hfs, r, hr, h⟩ := h
    cases h
    subst hrow
    have hws := pairwise_of_sortedFields (sorted_of_field hc hw)
    obtain ⟨fs, hfs, rfl⟩ := (readFields_eq_ok_iff (by simp) hws).mp hfs
    refine ⟨ws, hfs, (eq_build_of_expectFields hc (by simpa using hnames) ?_).symm⟩
    simp [hk, hw, field_of_fieldAs hc hr]
  rw [if_neg hrow] at h
  by_cases hstruct : kind = "struct"
  · rw [if_pos hstruct] at h
    simp only [CoreResult.bind_eq_ok_iff, asObject_eq_ok_iff] at h
    obtain ⟨_, hnames, _, hw, ws, rfl, fs, hfs, h⟩ := h
    cases h
    subst hstruct
    have hws := pairwise_of_sortedFields (sorted_of_field hc hw)
    obtain ⟨fs, hfs, rfl⟩ := (readFields_eq_ok_iff (by simp) hws).mp hfs
    refine ⟨ws, hfs, (eq_build_of_expectFields hc (by simpa using hnames) ?_).symm⟩
    simp [hk, hw]
  rw [if_neg hstruct] at h
  by_cases hunit : kind = "unit"
  · rw [if_pos hunit] at h
    simp only [CoreResult.bind_eq_ok_iff] at h
    obtain ⟨_, hnames, h⟩ := h
    cases h
    subst hunit
    refine (eq_build_of_expectFields hc (by simpa using hnames) ?_).symm
    simpa using hk
  rw [if_neg hunit] at h
  cases h

lemma readValue_of_spells (hc : c.sorted) (h : Spells (fun w u => readValue n w = .ok u) c v) :
    readValue (n + 1) c = .ok v := by
  cases v with
  | bool b =>
    rw [h]
    simp [readValue, field_build, asStr, CanonValue.asBool]
  | i64 x =>
    rw [h]
    simp [readValue, field_build, asStr, asI64_eq_ok_iff.mpr rfl]
  | u64 x =>
    rw [h]
    simp [readValue, field_build, asStr, asU64_eq_ok_iff.mpr rfl]
  | uuid u =>
    rw [h]
    simp [readValue, field_build, asStr, asBytes_eq_ok_iff.mpr rfl, u.property]
  | bytes b =>
    rw [h]
    simp [readValue, field_build, asStr, asBytes_eq_ok_iff.mpr rfl]
  | str t =>
    rw [h]
    simp [readValue, field_build, asStr]
  | decimal d =>
    obtain ⟨p, s, hp, hs, rfl⟩ := h
    have hx : (CanonValue.int d.coefficient).asI128 = .ok d.coefficient :=
      asI128_eq_ok_iff.mpr ⟨rfl, natAbs_coefficient_le d⟩
    have hd : Decimal.new d.coefficient p.toUInt8 s.toUInt8 = .ok d :=
      Decimal.new_eq_ok_iff.mpr ⟨rfl, hp.symm, hs.symm⟩
    simp [readValue, field_build, asStr, hx, asU32_eq_ok_iff.mpr rfl, hd]
  | enum e x =>
    rw [h]
    simp [readValue, field_build, asStr, asU32_eq_ok_iff.mpr rfl]
  | none =>
    rw [h]
    simp [readValue, field_build, asStr]
  | some u =>
    obtain ⟨w, hw, rfl⟩ := h
    simp [readValue, field_build, asStr, hw]
  | set items =>
    obtain ⟨ws, vs, hvs, rfl, hchain, rfl⟩ := h
    simp [readValue, field_build, asStr, asSet_eq_ok_iff.mpr ⟨rfl, hchain⟩, mapM_eq_ok_iff.mpr hvs]
  | tuple vs =>
    obtain ⟨ws, hvs, rfl⟩ := h
    simp [readValue, field_build, asStr, asArray, mapM_eq_ok_iff.mpr hvs]
  | row r fs =>
    obtain ⟨ws, hfs, rfl⟩ := h
    have hws : (object ws).sorted :=
      sorted_of_field hc (show CanonValue.field _ "fields" = _ by simp [field_build])
    have hread : readFields (readValue n) ws [] = .ok fs :=
      (readFields_eq_ok_iff (by simp) (pairwise_of_sortedFields hws)).mpr ⟨fs, hfs, rfl⟩
    simp [readValue, field_build, asStr, asObject, hread]
  | struct fs =>
    obtain ⟨ws, hfs, rfl⟩ := h
    have hws : (object ws).sorted :=
      sorted_of_field hc (show CanonValue.field _ "fields" = _ by simp [field_build])
    have hread : readFields (readValue n) ws [] = .ok fs :=
      (readFields_eq_ok_iff (by simp) (pairwise_of_sortedFields hws)).mpr ⟨fs, hfs, rfl⟩
    simp [readValue, field_build, asStr, asObject, hread]
  | unit =>
    rw [h]
    simp [readValue, field_build, asStr]

end Spellings

section Encoding

lemma itemsCanon_eq (items : List Value) : itemsCanon items = items.map toCanon := by
  induction items with
  | nil => rfl
  | cons v vs ih => rw [itemsCanon, ih, List.map_cons]

lemma fieldsCanon_eq (fs : List (String × Value)) :
    fieldsCanon fs = fs.map fun f => (f.1, f.2.toCanon) := by
  induction fs with
  | nil => rfl
  | cons f fs ih =>
    obtain ⟨k, v⟩ := f
    rw [fieldsCanon, ih, List.map_cons]

lemma toCanon_set (items : List Value) :
    (set items).toCanon = build [("items", canonSet items), ("kind", .str "set")] := by
  rw [toCanon, itemsCanon_eq]
  rfl

mutual

theorem sorted_toCanon (v : Value) : v.toCanon.sorted := by
  cases v with
  | some v =>
    rw [toCanon]
    exact sorted_build (by simp [sorted, sorted_toCanon v])
  | set items =>
    have hitems : sortedItems ((itemsCanon items).insertionSort encodedLE) := by
      refine sortedItems_iff.mpr fun c hc => ?_
      exact sorted_itemsCanon items c ((List.mem_insertionSort _).mp hc)
    rw [toCanon]
    exact sorted_build (by simp [sorted, hitems])
  | tuple items =>
    have hitems : sortedItems (itemsCanon items) := sortedItems_iff.mpr (sorted_itemsCanon items)
    rw [toCanon]
    exact sorted_build (by simp [sorted, hitems])
  | row r fs =>
    have hfs : (build (fieldsCanon fs)).sorted := sorted_build (sorted_fieldsCanon fs)
    rw [toCanon]
    exact sorted_build (by simp [sorted, hfs])
  | struct fs =>
    have hfs : (build (fieldsCanon fs)).sorted := sorted_build (sorted_fieldsCanon fs)
    rw [toCanon]
    exact sorted_build (by simp [sorted, hfs])
  | _ =>
    rw [toCanon]
    exact sorted_build (by simp [sorted, CanonValue.int, CanonValue.uint, CanonValue.u32, CanonValue.bytes])

theorem sorted_itemsCanon (items : List Value) : ∀ c ∈ itemsCanon items, c.sorted := by
  cases items with
  | nil => simp [itemsCanon]
  | cons v vs =>
    simp only [itemsCanon, List.forall_mem_cons]
    exact ⟨sorted_toCanon v, sorted_itemsCanon vs⟩

theorem sorted_fieldsCanon (fs : List (String × Value)) : ∀ f ∈ fieldsCanon fs, f.2.sorted := by
  cases fs with
  | nil => simp [fieldsCanon]
  | cons f fs =>
    obtain ⟨k, v⟩ := f
    simp only [fieldsCanon, List.forall_mem_cons]
    exact ⟨sorted_toCanon v, sorted_fieldsCanon fs⟩

end

/-- Fields in order are written as they stand. -/
lemma build_fieldsCanon {fs : List (String × Value)}
    (h : fs.Pairwise fun f g => utf8 f.1 < utf8 g.1) :
    build (fieldsCanon fs) = .object (fs.map fun f => (f.1, f.2.toCanon)) := by
  rw [build, fieldsCanon_eq, ofFields_of_sorted]
  rw [List.pairwise_map]
  exact h

end Encoding

section Sets

lemma mem_insertValue {items : List Value} {u v : Value} :
    u ∈ insertValue items v ↔ u = v ∨ u ∈ items := by
  induction items with
  | nil => simp [insertValue]
  | cons w items ih =>
    rw [insertValue]
    cases hcmp : v.cmp w with
    | lt => simp
    | eq =>
      obtain rfl := cmp_eq_iff.mp hcmp
      simp
    | gt =>
      simp only [List.mem_cons, ih]
      tauto

lemma pairwise_insertValue {items : List Value} (v : Value) (h : items.Pairwise (· < ·)) :
    (insertValue items v).Pairwise (· < ·) := by
  induction items with
  | nil => exact List.pairwise_singleton _ _
  | cons w items ih =>
    obtain ⟨hw, hitems⟩ := List.pairwise_cons.mp h
    rw [insertValue]
    cases hcmp : v.cmp w with
    | lt =>
      have hvw : v < w := cmp_lt_iff.mp hcmp
      refine List.Pairwise.cons (fun u hu => ?_) h
      rcases List.mem_cons.mp hu with rfl | hu
      · exact hvw
      · exact hvw.trans (hw u hu)
    | eq => exact h
    | gt =>
      have hwv : w < v := compare_gt_iff_gt.mp hcmp
      refine List.Pairwise.cons (fun u hu => ?_) (ih hitems)
      rcases mem_insertValue.mp hu with rfl | hu
      · exact hwv
      · exact hw u hu

lemma pairwise_foldl_insertValue {vs items : List Value} (h : items.Pairwise (· < ·)) :
    (vs.foldl insertValue items).Pairwise (· < ·) := by
  induction vs generalizing items with
  | nil => exact h
  | cons v vs ih => exact ih (pairwise_insertValue v h)

lemma mem_foldl_insertValue {vs items : List Value} {u : Value} :
    u ∈ vs.foldl insertValue items ↔ u ∈ vs ∨ u ∈ items := by
  induction vs generalizing items with
  | nil => simp
  | cons v vs ih =>
    rw [List.foldl_cons, ih, mem_insertValue, List.mem_cons]
    tauto

lemma naturalOrder_of_pairwise {items : List Value} (h : items.Pairwise (· < ·)) :
    naturalOrder items = items :=
  (h.imp fun h => h.le).insertionSort_eq

/-- Different values are collected in the natural order. -/
lemma foldl_insertValue {vs : List Value} (h : vs.Nodup) :
    vs.foldl insertValue [] = naturalOrder vs := by
  have hsorted : (vs.foldl insertValue []).Pairwise (· < ·) :=
    pairwise_foldl_insertValue List.Pairwise.nil
  have hperm : (vs.foldl insertValue []).Perm vs := by
    rw [List.perm_ext_iff_of_nodup (hsorted.imp fun h => h.ne) h]
    intro u
    rw [mem_foldl_insertValue]
    simp
  rw [← naturalOrder_eq_of_perm hperm, naturalOrder_of_pairwise hsorted]

end Sets

section RoundTrip
variable {n : ℕ}

lemma forall₂_map_toCanon {items : List Value}
    (h : ∀ v ∈ items, readValue n v.toCanon = .ok v) :
    List.Forall₂ (fun w u => readValue n w = .ok u) (items.map toCanon) items := by
  rw [List.forall₂_map_left_iff, List.forall₂_same]
  exact h

lemma forall₂_map_fields {fs : List (String × Value)}
    (h : ∀ f ∈ fs, readValue n f.2.toCanon = .ok f.2) :
    List.Forall₂ (fun w f => w.1 = f.1 ∧ readValue n w.2 = .ok f.2)
      (fs.map fun f => (f.1, f.2.toCanon)) fs := by
  rw [List.forall₂_map_left_iff, List.forall₂_same]
  exact fun f hf => ⟨rfl, h f hf⟩

/-- The elements of a set have different encodings. -/
lemma distinctElems_of_reads {items : List Value} (hs : items.Pairwise (· < ·))
    (h : ∀ v ∈ items, readValue n v.toCanon = .ok v) : distinctElems items := by
  simp only [distinctElems, decide_eq_true_eq]
  refine List.Nodup.map_on ?_ (hs.imp fun h => h.ne)
  intro a ha b hb hab
  have hcanon : a.toCanon = b.toCanon := encode_injective hab
  have hread := h a ha
  rw [hcanon, h b hb, Except.ok.injEq] at hread
  exact hread.symm

lemma spells_set {items : List Value} (hs : items.Pairwise (· < ·))
    (h : ∀ v ∈ items, readValue n v.toCanon = .ok v) :
    Spells (fun w u => readValue n w = .ok u) (set items).toCanon (.set items) := by
  have hdistinct := distinctElems_of_reads hs h
  obtain ⟨-, hchain⟩ := asSet_eq_ok_iff.mp (asSet_canonSet hdistinct)
  have hperm := encodedOrder_perm items
  refine ⟨(encodedOrder items).map toCanon, encodedOrder items, ?_, ?_, hchain, ?_⟩
  · exact forall₂_map_toCanon fun v hv => h v (hperm.subset hv)
  · rw [foldl_insertValue (hperm.nodup_iff.mpr (hs.imp fun h => h.ne)),
      naturalOrder_eq_of_perm hperm, naturalOrder_of_pairwise hs]
  · rw [toCanon_set, canonSet_eq]
    rfl

lemma depth_lt_some (v : Value) : v.toCanon.depth < (some v).toCanon.depth := by
  rw [toCanon]
  exact depth_lt_build (show List.lookup "value" _ = _ by simp)

lemma depth_lt_set {items : List Value} {v : Value} (h : v ∈ items) :
    v.toCanon.depth < (set items).toCanon.depth := by
  have hmem : v.toCanon ∈ (items.map toCanon).insertionSort encodedLE :=
    (List.mem_insertionSort _).mpr (List.mem_map_of_mem h)
  rw [toCanon_set]
  exact (depth_lt_array hmem).trans (depth_lt_build (show List.lookup "items" _ = _ by simp; rfl))

lemma depth_lt_tuple {items : List Value} {v : Value} (h : v ∈ items) :
    v.toCanon.depth < (tuple items).toCanon.depth := by
  rw [toCanon, itemsCanon_eq]
  exact (depth_lt_array (List.mem_map_of_mem h)).trans
    (depth_lt_build (show List.lookup "items" _ = _ by simp))

lemma depth_lt_fields {fs : List (String × Value)} {f : String × Value}
    (hs : fs.Pairwise fun f g => utf8 f.1 < utf8 g.1) (h : f ∈ fs) :
    f.2.toCanon.depth < (build (fieldsCanon fs)).depth := by
  rw [build_fieldsCanon hs]
  exact depth_lt_object (f := (f.1, f.2.toCanon)) (List.mem_map.mpr ⟨f, h, rfl⟩)

/-- A value is read back from its encoding by a reader that goes deep enough. -/
theorem readValue_toCanon {v : Value} (hv : v.Ordered) (hn : v.toCanon.depth < n) :
    readValue n v.toCanon = .ok v := by
  induction n generalizing v with
  | zero => omega
  | succ n ih =>
    refine readValue_of_spells (sorted_toCanon v) ?_
    cases hv with
    | decimal d => exact ⟨_, _, UInt8.toUInt8_toUInt32 _, UInt8.toUInt8_toUInt32 _, by rw [toCanon]⟩
    | @some v h =>
      have hdepth := depth_lt_some v
      exact ⟨_, ih h (by omega), by rw [toCanon]⟩
    | @set items hs h =>
      refine spells_set hs fun v hv => ?_
      have hdepth := depth_lt_set hv
      exact ih (h v hv) (by omega)
    | @tuple items h =>
      refine ⟨_, forall₂_map_toCanon fun v hv => ?_, by rw [toCanon, itemsCanon_eq]⟩
      have hdepth := depth_lt_tuple hv
      exact ih (h v hv) (by omega)
    | @row r fs hs h =>
      refine ⟨_, forall₂_map_fields fun f hf => ?_, by rw [toCanon, build_fieldsCanon hs]⟩
      have hdepth := depth_lt_fields hs hf
      have hrow : (build (fieldsCanon fs)).depth < (row r fs).toCanon.depth := by
        rw [toCanon]
        exact depth_lt_build (show List.lookup "fields" _ = _ by simp)
      exact ih (h f hf) (by omega)
    | @struct fs hs h =>
      refine ⟨_, forall₂_map_fields fun f hf => ?_, by rw [toCanon, build_fieldsCanon hs]⟩
      have hdepth := depth_lt_fields hs hf
      have hstruct : (build (fieldsCanon fs)).depth < (struct fs).toCanon.depth := by
        rw [toCanon]
        exact depth_lt_build (show List.lookup "fields" _ = _ by simp)
      exact ih (h f hf) (by omega)
    | _ => rw [toCanon]; rfl

theorem fromCanon_toCanon {v : Value} (hv : v.Ordered) : fromCanon v.toCanon = .ok v :=
  readValue_toCanon hv (Nat.lt_succ_self _)

end RoundTrip

end Value

end Lang

end CarolinaDB
