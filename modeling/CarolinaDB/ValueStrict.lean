import CarolinaDB.Engine
import CarolinaDB.ValueSpelling

/-! What is read as a value re-encodes to the same text if no decimal in it names a precision or a
scale that a byte cannot hold. So do the arguments of a request that the engine admits. -/
namespace CarolinaDB

namespace CanonValue

section Narrow

/-- A number that does not fit into a byte. -/
def wide (v : CanonValue) : Bool :=
  match v.asU32 with
  | .ok n => 256 ≤ n
  | .error _ => false

/-- A decimal whose precision or scale does not fit into a byte. -/
def wideDecimal (fs : List (String × CanonValue)) : Bool :=
  fs.lookup "kind" = some (.str "decimal") ∧
    ((fs.lookup "precision").any wide ∨ (fs.lookup "scale").any wide)

mutual

/-- No decimal in the tree names a precision or a scale above 255. -/
def narrow : CanonValue → Bool
  | .array vs => narrowItems vs
  | .object fs => !wideDecimal fs && narrowFields fs
  | _ => true

def narrowItems : List CanonValue → Bool
  | [] => true
  | v :: vs => v.narrow && narrowItems vs

def narrowFields : List (String × CanonValue) → Bool
  | [] => true
  | (_, v) :: fs => v.narrow && narrowFields fs

end

@[simp] lemma narrow_str (s : String) : (str s).narrow := by simp [narrow]

@[simp] lemma narrow_bool (b : Bool) : (CanonValue.bool b).narrow := by simp [narrow]

@[simp] lemma narrow_int (x : ℤ) : (int x).narrow := narrow_str _

@[simp] lemma narrow_uint (x : UInt64) : (uint x).narrow := narrow_str _

@[simp] lemma narrow_u32 (x : UInt32) : (u32 x).narrow := narrow_str _

@[simp] lemma narrow_bytes (b : Bytes) : (bytes b).narrow := narrow_str _

@[simp] lemma narrow_id (x : UInt64) : (toCanon x).narrow := narrow_str _

lemma narrow_array {vs : List CanonValue} : (array vs).narrow ↔ ∀ v ∈ vs, v.narrow := by
  rw [narrow]
  induction vs with
  | nil => simp [narrowItems]
  | cons v vs ih => simp [narrowItems, ih]

lemma narrow_object {fs : List (String × CanonValue)} :
    (object fs).narrow ↔ wideDecimal fs = false ∧ ∀ f ∈ fs, f.2.narrow := by
  have hfields : narrowFields fs ↔ ∀ f ∈ fs, f.2.narrow := by
    induction fs with
    | nil => simp [narrowFields]
    | cons f fs ih =>
      obtain ⟨k, v⟩ := f
      simp [narrowFields, ih]
  simp [narrow, hfields]

lemma narrow_of_field {v w : CanonValue} {name : String} (hv : v.narrow)
    (h : v.field name = .ok w) : w.narrow := by
  obtain ⟨o, rfl, hl⟩ := field_eq_ok_iff.mp h
  obtain ⟨l₁, l₂, rfl, -⟩ := List.lookup_eq_some_iff.mp hl
  exact (narrow_object.mp hv).2 (name, w) (by simp)

lemma narrow_build {fs : List (String × CanonValue)}
    (h : fs.Pairwise fun f g => utf8 f.1 < utf8 g.1) :
    (build fs).narrow ↔ wideDecimal fs = false ∧ ∀ f ∈ fs, f.2.narrow := by
  rw [build, ofFields_of_sorted h, narrow_object]

lemma toUInt32_lt (b : UInt8) : b.toUInt32 < 256 := by
  have hb : b.toNat < 256 := b.toNat_lt
  rw [UInt32.lt_iff_toNat_lt, UInt8.toNat_toUInt32]
  exact hb

lemma toUInt32_toUInt8 {x : UInt32} (h : x < 256) : x.toUInt8.toUInt32 = x := by
  have hx : x.toNat < 256 := h
  apply UInt32.toNat_inj.mp
  rw [UInt8.toNat_toUInt32, UInt32.toNat_toUInt8, Nat.mod_eq_of_lt hx]

lemma wide_u32 (x : UInt32) : (u32 x).wide = decide (256 ≤ x) := by
  rw [wide, asU32_eq_ok_iff.mpr rfl]

end Narrow

end CanonValue

namespace Lang

open CanonValue

namespace Value

section Strict
variable {n : ℕ} {c : CanonValue} {v : Value}

lemma forall_mem_of_forall₂ {α β : Type} {R : α → β → Prop} {P : β → Prop} {ws : List α}
    {vs : List β} (h : List.Forall₂ R ws vs) (hP : ∀ w ∈ ws, ∀ v, R w v → P v) : ∀ v ∈ vs, P v := by
  induction h with
  | nil => simp
  | cons hwv _ ih =>
    rw [List.forall_mem_cons] at hP ⊢
    exact ⟨hP.1 _ hwv, ih hP.2⟩

lemma map_eq_of_forall₂ {α β : Type} {R : α → β → Prop} {f : β → α} {ws : List α} {vs : List β}
    (h : List.Forall₂ R ws vs) (hf : ∀ w ∈ ws, ∀ v, R w v → f v = w) : vs.map f = ws := by
  induction h with
  | nil => rfl
  | cons hwv _ ih =>
    rw [List.forall_mem_cons] at hf
    rw [List.map_cons, hf.1 _ hwv, ih hf.2]

/-- The names of fields are read in the order they come in. -/
lemma pairwise_of_names {ws : List (String × CanonValue)} {fs : List (String × Value)}
    (h : List.Forall₂ (fun w f => w.1 = f.1) ws fs)
    (hws : ws.Pairwise fun f g => utf8 f.1 < utf8 g.1) :
    fs.Pairwise fun f g => utf8 f.1 < utf8 g.1 := by
  induction h with
  | nil => exact List.Pairwise.nil
  | cons hwf hrest ih =>
    rw [List.pairwise_cons] at hws
    refine List.Pairwise.cons ?_ (ih hws.2)
    refine forall_mem_of_forall₂ hrest fun w hw f hf => ?_
    rw [← hwf, ← hf]
    exact hws.1 w hw

/-- What is read is in order. -/
theorem ordered_of_readValue (hc : c.sorted) (h : readValue n c = .ok v) : v.Ordered := by
  induction n generalizing c v with
  | zero => cases h
  | succ n ih =>
    have hspells := spells_of_readValue hc h
    cases v with
    | some v =>
      obtain ⟨w, hw, rfl⟩ := hspells
      have hws : w.sorted :=
        sorted_of_field hc (show CanonValue.field _ "value" = _ by simp [field_build])
      exact .some (ih hws hw)
    | set items =>
      obtain ⟨ws, vs, hvs, rfl, -, rfl⟩ := hspells
      have hws : (array ws).sorted :=
        sorted_of_field hc (show CanonValue.field _ "items" = _ by simp [field_build])
      refine .set (pairwise_foldl_insertValue List.Pairwise.nil) fun v hv => ?_
      rw [mem_foldl_insertValue] at hv
      exact forall_mem_of_forall₂ hvs (fun w hw v => ih (sortedItems_iff.mp hws w hw)) v
        (by simpa using hv)
    | tuple vs =>
      obtain ⟨ws, hvs, rfl⟩ := hspells
      have hws : (array ws).sorted :=
        sorted_of_field hc (show CanonValue.field _ "items" = _ by simp [field_build])
      exact .tuple (forall_mem_of_forall₂ hvs fun w hw v => ih (sortedItems_iff.mp hws w hw))
    | row r fs =>
      obtain ⟨ws, hfs, rfl⟩ := hspells
      have hws : (object ws).sorted :=
        sorted_of_field hc (show CanonValue.field _ "fields" = _ by simp [field_build])
      exact .row (pairwise_of_names (hfs.imp fun _ _ h => h.1) (pairwise_of_sortedFields hws))
        (forall_mem_of_forall₂ hfs fun w hw f hf => ih (sortedFields_mem hws w hw).1 hf.2)
    | struct fs =>
      obtain ⟨ws, hfs, rfl⟩ := hspells
      have hws : (object ws).sorted :=
        sorted_of_field hc (show CanonValue.field _ "fields" = _ by simp [field_build])
      exact .struct (pairwise_of_names (hfs.imp fun _ _ h => h.1) (pairwise_of_sortedFields hws))
        (forall_mem_of_forall₂ hfs fun w hw f hf => ih (sortedFields_mem hws w hw).1 hf.2)
    | _ => constructor

lemma toCanon_ne_str (v : Value) (s : String) : v.toCanon ≠ .str s := by
  cases v <;> simp [toCanon, build]

lemma wideDecimal_fields (fs : List (String × Value)) :
    wideDecimal (fs.map fun f => (f.1, f.2.toCanon)) = false := by
  have hkind : (fs.map fun f => (f.1, f.2.toCanon)).lookup "kind" ≠ Option.some (.str "decimal") := by
    intro h
    obtain ⟨l₁, l₂, hl, -⟩ := List.lookup_eq_some_iff.mp h
    have hmem : ("kind", CanonValue.str "decimal") ∈ fs.map fun f => (f.1, f.2.toCanon) := by
      rw [hl]
      simp
    obtain ⟨f, -, hf⟩ := List.mem_map.mp hmem
    exact toCanon_ne_str f.2 _ (congrArg Prod.snd hf)
  simp [wideDecimal, hkind]

lemma narrow_fields {fs : List (String × Value)}
    (hs : fs.Pairwise fun f g => utf8 f.1 < utf8 g.1) (h : ∀ f ∈ fs, f.2.toCanon.narrow) :
    (build (fieldsCanon fs)).narrow := by
  rw [build_fieldsCanon hs, narrow_object]
  refine ⟨wideDecimal_fields fs, ?_⟩
  rw [List.forall_mem_map]
  exact h

/-- The encoding of a value names no precision and no scale above 255. -/
theorem narrow_toCanon (hv : v.Ordered) : v.toCanon.narrow := by
  induction hv with
  | decimal d =>
    rw [toCanon, narrow_build (by simp; decide)]
    simp [wideDecimal, wide_u32, toUInt32_lt]
  | some h ih =>
    rw [toCanon, narrow_build (by simp; decide)]
    simp [wideDecimal, ih]
  | @set items hs h ih =>
    have hitems : (canonSet items).narrow := by
      refine narrow_array.mpr fun w hw => ?_
      obtain ⟨u, hu, rfl⟩ := List.mem_map.mp ((List.mem_insertionSort _).mp hw)
      exact ih u hu
    rw [toCanon_set, narrow_build (by simp; decide)]
    simp [wideDecimal, hitems]
  | @tuple items h ih =>
    have hitems : (array (items.map toCanon)).narrow := by
      refine narrow_array.mpr fun w hw => ?_
      obtain ⟨u, hu, rfl⟩ := List.mem_map.mp hw
      exact ih u hu
    rw [toCanon, itemsCanon_eq, narrow_build (by simp; decide)]
    simp [wideDecimal, hitems]
  | row hs h ih =>
    rw [toCanon, narrow_build (by simp; decide)]
    simp [wideDecimal, narrow_fields hs ih]
  | struct hs h ih =>
    rw [toCanon, narrow_build (by simp; decide)]
    simp [wideDecimal, narrow_fields hs ih]
  | _ =>
    rw [toCanon, narrow_build (by simp <;> decide)]
    simp [wideDecimal]

/-- A set read from ordered spellings is written as they stand. -/
lemma canonSet_foldl {ws : List CanonValue} {vs : List Value} (hvs : vs.map toCanon = ws)
    (hchain : (ws.map CanonValue.encode).IsChain (· < ·)) :
    canonSet (vs.foldl insertValue []) = .array ws := by
  have hpair : ws.Pairwise fun a b => a.encode < b.encode :=
    List.pairwise_map.mp (List.isChain_iff_pairwise.mp hchain)
  have hdistinct : distinctElems vs := by
    simp only [distinctElems, decide_eq_true_eq]
    have hnodup : (ws.map CanonValue.encode).Nodup := List.pairwise_map.mpr (hpair.imp fun h => h.ne)
    rw [← hvs, List.map_map] at hnodup
    exact hnodup
  have hnodup : vs.Nodup := by
    rw [← hvs] at hpair
    exact (List.pairwise_map.mp hpair).imp fun h he => h.ne (by rw [he])
  rw [foldl_insertValue hnodup, canonSet_naturalOrder hdistinct]
  change CanonValue.array ((vs.map toCanon).insertionSort encodedLE) = .array ws
  rw [hvs, (hpair.imp fun h => h.asymm : ws.Pairwise encodedLE).insertionSort_eq]

/-- Fields are written as they were read if their values are. -/
lemma fields_of_reads {ws : List (String × CanonValue)} {fs : List (String × Value)}
    (hws : (object ws).sorted)
    (hfs : List.Forall₂ (fun w f => w.1 = f.1 ∧ readValue n w.2 = .ok f.2) ws fs)
    (hR : ∀ w ∈ ws, ∀ v, readValue n w.2 = .ok v → v.toCanon = w.2) : build (fieldsCanon fs) = .object ws := by
  rw [build_fieldsCanon
    (pairwise_of_names (hfs.imp fun _ _ h => h.1) (pairwise_of_sortedFields hws))]
  rw [map_eq_of_forall₂ hfs fun w hw f hf => Prod.ext hf.1.symm (hR w hw f.2 hf.2)]

/-- What is read without a wide decimal re-encodes to what was read. -/
theorem toCanon_of_readValue (hc : c.sorted) (hn : c.narrow) (h : readValue n c = .ok v) :
    v.toCanon = c := by
  induction n generalizing c v with
  | zero => cases h
  | succ n ih =>
    have hspells := spells_of_readValue hc h
    -- what a field holds is sorted and narrow with the value
    have hsub : ∀ name w, c.field name = .ok w → w.sorted ∧ w.narrow := fun name w hw =>
      ⟨sorted_of_field hc hw, narrow_of_field hn hw⟩
    cases v with
    | decimal d =>
      obtain ⟨p, s, hp, hs, rfl⟩ := hspells
      rw [narrow_build (by simp; decide)] at hn
      have hwide : p < 256 ∧ s < 256 := by simpa [wideDecimal, wide_u32] using hn.1
      rw [toCanon, ← hp, ← hs, toUInt32_toUInt8 hwide.1, toUInt32_toUInt8 hwide.2]
    | some v =>
      obtain ⟨w, hw, rfl⟩ := hspells
      obtain ⟨hws, hwn⟩ := hsub "value" w (by simp [field_build])
      rw [toCanon, ih hws hwn hw]
    | set items =>
      obtain ⟨ws, vs, hvs, rfl, hchain, rfl⟩ := hspells
      obtain ⟨hws, hwn⟩ := hsub "items" (.array ws) (by simp [field_build])
      have hmap : vs.map toCanon = ws := map_eq_of_forall₂ hvs fun w hw v =>
        ih (sortedItems_iff.mp hws w hw) (narrow_array.mp hwn w hw)
      rw [toCanon_set, canonSet_foldl hmap hchain]
    | tuple vs =>
      obtain ⟨ws, hvs, rfl⟩ := hspells
      obtain ⟨hws, hwn⟩ := hsub "items" (.array ws) (by simp [field_build])
      rw [toCanon, itemsCanon_eq, map_eq_of_forall₂ hvs fun w hw v =>
        ih (sortedItems_iff.mp hws w hw) (narrow_array.mp hwn w hw)]
    | row r fs =>
      obtain ⟨ws, hfs, rfl⟩ := hspells
      obtain ⟨hws, hwn⟩ := hsub "fields" (.object ws) (by simp [field_build])
      rw [toCanon, fields_of_reads hws hfs fun w hw v =>
        ih (sortedFields_mem hws w hw).1 ((narrow_object.mp hwn).2 w hw)]
    | struct fs =>
      obtain ⟨ws, hfs, rfl⟩ := hspells
      obtain ⟨hws, hwn⟩ := hsub "fields" (.object ws) (by simp [field_build])
      rw [toCanon, fields_of_reads hws hfs fun w hw v =>
        ih (sortedFields_mem hws w hw).1 ((narrow_object.mp hwn).2 w hw)]
    | _ => rw [hspells, toCanon]

/-- What was read re-encodes to what was read exactly if it holds no wide decimal. -/
theorem toCanon_eq_iff_narrow (hc : c.sorted) (h : fromCanon c = .ok v) :
    v.toCanon = c ↔ c.narrow := by
  constructor
  · intro he
    rw [← he]
    exact narrow_toCanon (ordered_of_readValue hc h)
  · intro hn
    exact toCanon_of_readValue hc hn h

end Strict

end Value

end Lang

open Lang CanonValue

/-- The request with these arguments, encoded anew. -/
def RequestContentV1.withArguments (content : RequestContentV1) (args : List Value) :
    RequestContentV1 :=
  { content with arguments := ⟨(Value.tuple args).toCanon, Value.sorted_toCanon _⟩ }

lemma encode_withArguments_eq_iff {content : RequestContentV1} {args : List Value} :
    Canonical.encode (content.withArguments args) = Canonical.encode content ↔
      (Value.tuple args).toCanon = content.arguments.val := by
  constructor
  · intro h
    have hcanon := congrArg (CanonValue.field · "arguments") (encode_injective h)
    change (RequestContentV1.toCanon _).field "arguments" =
      (RequestContentV1.toCanon _).field "arguments" at hcanon
    rw [RequestContentV1.toCanon, RequestContentV1.toCanon, field_build, field_build] at hcanon
    simpa [RequestContentV1.withArguments, toCanon] using hcanon
  · intro h
    have hcontent : content.withArguments args = content := by
      rw [RequestContentV1.withArguments]
      congr
    rw [hcontent]

lemma fromCanon_of_admitContent {e : Runtime.LocalEngine} {content : RequestContentV1}
    {a : Runtime.LocalEngine.Admission}
    (h : e.admitContent content = .ok a) :
    Value.fromCanon content.arguments.val = .ok (.tuple a.args) := by
  rw [Runtime.LocalEngine.admitContent] at h
  by_cases hready : e.kernel.store.currentReadiness ≠ .ready
  · rw [if_pos hready] at h
    cases h
  rw [if_neg hready] at h
  obtain ⟨op, -, h⟩ := CoreResult.bind_eq_ok h
  cases hplan : e.catalog.planFor op.identity with
  | none => simp [hplan] at h
  | some plan =>
    simp only [hplan] at h
    split_ifs at h with hschema hstale
    obtain ⟨v, hv, h⟩ := CoreResult.bind_eq_ok h
    cases v with
    | tuple args =>
      dsimp only at h
      split_ifs at h with hlen
      obtain ⟨_, -, h⟩ := CoreResult.bind_eq_ok h
      cases h
      exact hv
    | _ => cases h

/-- Values are read back from their encoding. What is read as a value, and the arguments of an
admitted request, re-encode to the same text exactly if no decimal in them names a precision or a
scale above 255. -/
theorem value_codec_strict_iff (v : Value) :
    (v.Ordered → Value.fromCanon v.toCanon = .ok v) ∧
    (∀ c : CanonTree, Value.fromCanon c.val = .ok v →
      (v.toCanon = c.val ↔ c.val.narrow)) ∧
    ∀ (e : Runtime.LocalEngine) (content : RequestContentV1) (a : Runtime.LocalEngine.Admission),
      e.admitContent content = .ok a →
      (Canonical.encode (content.withArguments a.args) = Canonical.encode content ↔
        content.arguments.val.narrow) := by
  refine ⟨Value.fromCanon_toCanon, fun c => Value.toCanon_eq_iff_narrow c.property, ?_⟩
  intro e content a h
  rw [encode_withArguments_eq_iff]
  exact Value.toCanon_eq_iff_narrow content.arguments.property (fromCanon_of_admitContent h)

/-- A record with a set of optional numbers and a priced pair. -/
def nestedRecord : Value :=
  .struct [
    ("counts", .set [.none, .some (.i64 (-3)), .some (.i64 7)]),
    ("price", .tuple [.str "net", .decimal ⟨-1250, 10, 2, by decide, by decide, by decide, by decide⟩])]

lemma ordered_nestedRecord : nestedRecord.Ordered := by
  refine .struct (by decide) ?_
  simp only [List.forall_mem_cons, List.not_mem_nil, false_imp_iff, implies_true, and_true]
  constructor
  · refine .set (by decide) ?_
    simp only [List.forall_mem_cons, List.not_mem_nil, false_imp_iff, implies_true, and_true]
    exact ⟨.none, .some (.i64 _), .some (.i64 _)⟩
  · refine .tuple ?_
    simp only [List.forall_mem_cons, List.not_mem_nil, false_imp_iff, implies_true, and_true]
    exact ⟨.str _, .decimal _⟩

theorem value_codec_strict_nestedRecord :
    Value.fromCanon nestedRecord.toCanon = .ok nestedRecord ∧ nestedRecord.toCanon.narrow := by
  obtain ⟨hback, hstrict, -⟩ := value_codec_strict_iff nestedRecord
  have hread := hback ordered_nestedRecord
  exact ⟨hread, (hstrict ⟨_, Value.sorted_toCanon nestedRecord⟩ hread).mp rfl⟩

/-- The arguments of a request that names the precision 266. -/
def wideArguments : CanonValue :=
  build [
    ("items", .array [build [
      ("coefficient", .str "5"), ("kind", .str "decimal"), ("precision", .str "266"),
      ("scale", .str "2")]]),
    ("kind", .str "tuple")]

def fiveCents : Decimal := ⟨5, 10, 2, by decide, by decide, by decide, by decide⟩

/-- They are read as a decimal of precision 10, which is of the declared type and is written
otherwise. -/
theorem wideArguments_reencode :
    Value.fromCanon wideArguments = .ok (.tuple [.decimal fiveCents]) ∧
      Runtime.LocalEngine.checkArguments [.decimal fiveCents] [⟨"amount", .decimal 10 2⟩] = .ok () ∧
      (Value.tuple [.decimal fiveCents]).toCanon ≠ wideArguments := by
  have hsorted : wideArguments.sorted := by decide +kernel
  have hread : Value.fromCanon wideArguments = .ok (.tuple [.decimal fiveCents]) := by
    rfl
  refine ⟨hread, rfl, ?_⟩
  rw [Ne, Value.toCanon_eq_iff_narrow hsorted hread]
  decide +kernel

end CarolinaDB
