import CarolinaDB.Ids

/-!
# Readers that accept one text only

A strict type is read from nothing but what it is written as. The readers of
integers and of hexadecimal text are strict, a record that names its fields is
strict if its fields are, and a set that was read holds no element twice.
-/
namespace CarolinaDB

open CanonValue

section Text

lemma nibble_all (c : UInt8) : (nibble c).all fun x => hexDigit x = c ∧ x < 16 := by
  revert c
  decide +kernel

lemma nibble_eq_some {c x : UInt8} (h : nibble c = some x) : hexDigit x = c ∧ x < 16 := by
  simpa [h] using nibble_all c

lemma div_mod_sixteen {x y : UInt8} (hx : x < 16) (hy : y < 16) :
    (x * 16 + y) / 16 = x ∧ (x * 16 + y) % 16 = y := by
  have hx' : x.toNat < 16 := hx
  have hy' : y.toNat < 16 := hy
  constructor
  · apply UInt8.toNat_inj.mp
    simp only [UInt8.toNat_div, UInt8.toNat_add, UInt8.toNat_mul, UInt8.reduceToNat]
    omega
  · apply UInt8.toNat_inj.mp
    simp only [UInt8.toNat_mod, UInt8.toNat_add, UInt8.toNat_mul, UInt8.reduceToNat]
    omega

lemma hexPairs_eq_ok {cs b : Bytes} (heven : cs.length % 2 = 0) (h : hexPairs cs = .ok b) :
    (b.flatMap fun x => [hexDigit (x / 16), hexDigit (x % 16)]) = cs := by
  induction cs using hexPairs.induct generalizing b with
  | case1 c d cs y x hd hc ih =>
    simp only [hexPairs, hc, hd] at h
    obtain ⟨out, hout, rfl⟩ := CoreResult.map_eq_ok h
    simp only [List.length_cons] at heven
    have hcs := ih (by omega) hout
    obtain ⟨rfl, hx⟩ := nibble_eq_some hc
    obtain ⟨rfl, hy⟩ := nibble_eq_some hd
    obtain ⟨hdiv, hmod⟩ := div_mod_sixteen hx hy
    rw [List.flatMap_cons, hdiv, hmod, hcs]
    rfl
  | case2 c d cs hno =>
    rw [hexPairs] at h
    split at h
    · rename_i x y hc hd
      exact absurd hd (hno x y hc)
    · simp at h
  | case3 cs hshort =>
    -- what is left of a text of even length has no single digit
    cases cs with
    | nil =>
      rw [hexPairs] at h
      · cases h
        rfl
      · simp
    | cons c cs =>
      cases cs with
      | nil => simp at heven
      | cons d cs => exact absurd rfl (hshort c d cs)

lemma hexEncode_of_hexDecode {s : String} {b : Bytes} (h : hexDecode s = .ok b) :
    hexEncode b = s := by
  rw [hexDecode] at h
  split_ifs at h with heven
  apply utf8_injective
  rw [utf8_hexEncode]
  exact hexPairs_eq_ok (by omega) h

end Text

/-- Read from its own encoding only. -/
class StrictCanonical (α : Type) [Canonical α] : Prop where
  toCanon_of_fromCanon : ∀ {v : CanonValue} {a : α}, v.sorted → fromCanon v = .ok a → toCanon a = v

export StrictCanonical (toCanon_of_fromCanon)

lemma eq_str_of_asStr {v : CanonValue} {s : String} (h : v.asStr = .ok s) : v = .str s := by
  cases v <;> simp_all [asStr]

lemma uint_of_asU64 {v : CanonValue} {n : UInt64} (h : v.asU64 = .ok n) : uint n = v := by
  obtain ⟨s, hs, h⟩ := CoreResult.bind_eq_ok h
  obtain ⟨i, hi, h⟩ := CoreResult.bind_eq_ok h
  split_ifs at h with hneg hlt
  rw [Except.ok.injEq] at h
  have hi64 : i.toNat < 2^64 := by omega
  rw [eq_str_of_asStr hs, uint, ← h, UInt64.toNat_ofNat', Nat.mod_eq_of_lt hi64,
    decimal_of_parseCanonicalInt hi (by omega)]

lemma hexEncode_of_octetsFromHex {n : ℕ} {message : String → String} {s : String} {b : Octets n}
    (h : octetsFromHex n message s = .ok b) : hexEncode b.val = s := by
  obtain ⟨x, hx, h⟩ := CoreResult.bind_eq_ok h
  split_ifs at h with hlen
  cases h
  exact hexEncode_of_hexDecode hx

instance : StrictCanonical UInt64 where
  toCanon_of_fromCanon _ h := uint_of_asU64 h

instance : StrictCanonical UInt32 where
  toCanon_of_fromCanon {v n} _ h := by
    obtain ⟨m, hm, h⟩ := CoreResult.bind_eq_ok (show v.asU32 = .ok n from h)
    split_ifs at h with hlt
    cases h
    rw [← uint_of_asU64 hm]
    change CanonValue.str (decimal _) = CanonValue.str (decimal _)
    rw [UInt32.toNat_ofNat', Nat.mod_eq_of_lt hlt]

instance : StrictCanonical Bytes where
  toCanon_of_fromCanon {v b} _ h := by
    obtain ⟨s, hs, h⟩ := CoreResult.bind_eq_ok (show v.asBytes = .ok b from h)
    rw [eq_str_of_asStr hs, ← hexEncode_of_hexDecode h]
    rfl

instance : StrictCanonical Hash256 where
  toCanon_of_fromCanon {v a} _ h := by
    obtain ⟨s, hs, h⟩ := CoreResult.bind_eq_ok h
    obtain ⟨b, hb, h⟩ := CoreResult.bind_eq_ok h
    cases h
    rw [eq_str_of_asStr hs, ← hexEncode_of_octetsFromHex hb]
    rfl

instance {name : String} : StrictCanonical (Id128 name) where
  toCanon_of_fromCanon {v a} _ h := by
    obtain ⟨s, hs, h⟩ := CoreResult.bind_eq_ok h
    obtain ⟨b, hb, h⟩ := CoreResult.bind_eq_ok h
    cases h
    rw [eq_str_of_asStr hs, ← hexEncode_of_octetsFromHex hb]
    rfl

section Records

lemma sortedFields_mem {last : Option String} {fs : List (String × CanonValue)}
    (h : sortedFields last fs) : ∀ f ∈ fs, f.2.sorted ∧ last.all fun prev => utf8 prev < utf8 f.1 := by
  induction fs generalizing last with
  | nil => simp
  | cons f fs ih =>
    obtain ⟨k, v⟩ := f
    simp only [sortedFields, Bool.and_eq_true] at h
    intro g hg
    rcases List.mem_cons.mp hg with rfl | hg
    · exact ⟨h.2.1, h.1⟩
    · obtain ⟨hs, hlt⟩ := ih h.2.2 g hg
      refine ⟨hs, ?_⟩
      cases last with
      | none => rfl
      | some l =>
        have hlk : utf8 l < utf8 k := by simpa using h.1
        simpa using hlk.trans (by simpa using hlt)

lemma lookup_eq_none_of_lt {k : String} {fs : List (String × CanonValue)}
    (h : sortedFields (some k) fs) : fs.lookup k = none := by
  rw [List.lookup_eq_none_iff]
  intro f hf
  have hlt := (sortedFields_mem h f hf).2
  simp only [Option.all_some, decide_eq_true_eq] at hlt
  rw [bne_iff_ne]
  intro he
  rw [he] at hlt
  exact lt_irrefl _ hlt

/-- An ordered map is determined by what it holds. -/
lemma sortedFields_ext {last last' : Option String} {fs gs : List (String × CanonValue)}
    (hf : sortedFields last fs) (hg : sortedFields last' gs)
    (h : ∀ name, fs.lookup name = gs.lookup name) : fs = gs := by
  induction fs generalizing last last' gs with
  | nil =>
    cases gs with
    | nil => rfl
    | cons g gs =>
      obtain ⟨l, w⟩ := g
      simpa using h l
  | cons f fs ih =>
    cases gs with
    | nil =>
      obtain ⟨k, v⟩ := f
      simpa using h k
    | cons g gs =>
      obtain ⟨k, v⟩ := f
      obtain ⟨l, w⟩ := g
      simp only [sortedFields, Bool.and_eq_true] at hf hg
      have hkl : k = l := by
        -- the smaller of two different first names would be missing in the other map
        by_contra hne
        rcases lt_trichotomy (utf8 k) (utf8 l) with hlt | he | hlt
        · have := h k
          simp only [lookup_cons_eq, if_true, hne, if_false] at this
          obtain ⟨l₁, l₂, hl, -⟩ := List.lookup_eq_some_iff.mp this.symm
          have hm := (sortedFields_mem hg.2.2 (k, v) (by rw [hl]; simp)).2
          simp only [Option.all_some, decide_eq_true_eq] at hm
          exact lt_asymm hlt hm
        · exact hne (utf8_injective he)
        · have := h l
          simp only [lookup_cons_eq, if_true, Ne.symm hne, if_false] at this
          obtain ⟨l₁, l₂, hl, -⟩ := List.lookup_eq_some_iff.mp this
          have hm := (sortedFields_mem hf.2.2 (l, w) (by rw [hl]; simp)).2
          simp only [Option.all_some, decide_eq_true_eq] at hm
          exact lt_asymm hlt hm
      subst hkl
      have hvw : v = w := by simpa using h k
      subst hvw
      congr 1
      apply ih hf.2.2 hg.2.2
      intro name
      by_cases hname : name = k
      · rw [hname, lookup_eq_none_of_lt hf.2.2, lookup_eq_none_of_lt hg.2.2]
      · simpa [hname] using h name

variable {v w : CanonValue} {name : String}

lemma field_eq_ok_iff : v.field name = .ok w ↔ ∃ o, v = .object o ∧ o.lookup name = some w := by
  cases v with
  | object o =>
    simp only [field, asObject, CoreResult.ok_bind, CanonValue.object.injEq, exists_eq_left']
    cases o.lookup name <;> simp
  | _ => simp [field, asObject]

lemma sorted_of_field (hv : v.sorted) (h : v.field name = .ok w) : w.sorted := by
  obtain ⟨o, rfl, hl⟩ := field_eq_ok_iff.mp h
  obtain ⟨l₁, l₂, rfl, -⟩ := List.lookup_eq_some_iff.mp hl
  exact (sortedFields_mem hv (name, w) (by simp)).1

lemma sorted_of_asArray {vs : List CanonValue} (hv : v.sorted) (h : v.asArray = .ok vs) :
    ∀ u ∈ vs, u.sorted := by
  cases v with
  | array items =>
    cases h
    exact sortedItems_iff.mp hv
  | _ => simp [asArray] at h

/-- An object with exactly the expected fields is the one built from them. -/
lemma eq_build_of_expectFields {fs : List (String × CanonValue)} (hv : v.sorted)
    (hnames : v.expectFields (fs.map Prod.fst) = .ok ()) (hfs : ∀ f ∈ fs, v.field f.1 = .ok f.2) :
    build fs = v := by
  cases v with
  | object o =>
    simp only [field_eq_ok_iff, CanonValue.object.injEq, exists_eq_left'] at hfs
    have hbuild : (build fs).sorted := by
      apply sorted_build
      intro f hf
      exact sorted_of_field hv (field_eq_ok_iff.mpr ⟨o, rfl, hfs f hf⟩)
    rw [build]
    congr 1
    apply sortedFields_ext hbuild hv
    intro name
    rw [lookup_ofFields]
    by_cases hname : name ∈ fs.map Prod.fst
    · obtain ⟨w, hw⟩ := Option.isSome_iff_exists.mp (mem_keys_iff.mp hname)
      obtain ⟨l₁, l₂, rfl, -⟩ := List.lookup_eq_some_iff.mp hw
      rw [hw, hfs (name, w) (by simp)]
    · have hnone : fs.lookup name = none := by
        rw [mem_keys_iff, Option.isSome_iff_ne_none, not_not] at hname
        exact hname
      rw [hnone, eq_comm]
      by_contra hsome
      obtain ⟨w, hw⟩ := Option.ne_none_iff_exists'.mp hsome
      obtain ⟨l₁, l₂, rfl, -⟩ := List.lookup_eq_some_iff.mp hw
      simp only [expectFields, asObject, CoreResult.ok_bind] at hnames
      split at hnames
      · simp at hnames
      · rename_i hnone'
        have := List.find?_eq_none.mp hnone' (name, w) (by simp)
        simp only [decide_not, Bool.not_eq_true', decide_eq_false_iff_not, not_not] at this
        exact hname (by simpa using this)
  | _ => simp [expectFields, asObject] at hnames

variable {α : Type} [Canonical α]

lemma field_of_fieldAs [StrictCanonical α] {a : α} (hv : v.sorted) (h : v.fieldAs name = .ok a) :
    v.field name = .ok (toCanon a) := by
  obtain ⟨w, hw, ha⟩ := CoreResult.bind_eq_ok h
  rw [toCanon_of_fromCanon (sorted_of_field hv hw) ha, hw]

end Records

instance : StrictCanonical PlanRef where
  toCanon_of_fromCanon {v p} hv h := by
    obtain ⟨_, hnames, h⟩ := CoreResult.bind_eq_ok (show PlanRef.fromCanon v = .ok p from h)
    obtain ⟨i, hi, h⟩ := CoreResult.bind_eq_ok h
    obtain ⟨g, hg, h⟩ := CoreResult.bind_eq_ok h
    obtain ⟨d, hd, h⟩ := CoreResult.bind_eq_ok h
    cases h
    refine eq_build_of_expectFields hv (by simpa using hnames) ?_
    simp [field_of_fieldAs hv hi, field_of_fieldAs hv hg, field_of_fieldAs hv hd]

section Sets
variable {α : Type} [Canonical α] [StrictCanonical α] [LinearOrder α]

omit [LinearOrder α] in
lemma map_toCanon_of_decodeAll {vs : List CanonValue} {l : List α} (hvs : ∀ v ∈ vs, v.sorted)
    (h : decodeAll vs = .ok l) : l.map toCanon = vs := by
  induction vs generalizing l with
  | nil =>
    cases h
    rfl
  | cons v vs ih =>
    obtain ⟨a, ha, h⟩ := CoreResult.bind_eq_ok h
    obtain ⟨as, has, h⟩ := CoreResult.bind_eq_ok h
    cases h
    rw [List.map_cons, ih (fun u hu => hvs u (by simp [hu])) has,
      toCanon_of_fromCanon (hvs v (by simp)) ha]

omit [StrictCanonical α] [Canonical α] in
lemma naturalOrder_idem (l : List α) : naturalOrder (naturalOrder l) = naturalOrder l :=
  naturalOrder_eq_of_perm (naturalOrder_perm l)

/-- A set that was read is in the natural order and holds no element twice. -/
lemma distinctElems_of_decodeSet {v : CanonValue} {l : List α} (hv : v.sorted)
    (h : decodeSet v = .ok l) : distinctElems l ∧ naturalOrder l = l := by
  obtain ⟨vs, hvs, h⟩ := CoreResult.bind_eq_ok h
  obtain ⟨out, hout, h⟩ := CoreResult.bind_eq_ok h
  cases h
  obtain ⟨items, hitems, hvs⟩ := CoreResult.bind_eq_ok hvs
  split_ifs at hvs with hchain
  rw [Except.ok.injEq] at hvs
  subst hvs
  refine ⟨distinctElems_naturalOrder ?_, naturalOrder_idem out⟩
  have hmap := map_toCanon_of_decodeAll (sorted_of_asArray hv hitems) hout
  have hnodup : (items.map CanonValue.encode).Nodup :=
    (List.isChain_iff_pairwise.mp hchain).imp fun hlt => ne_of_lt hlt
  rw [← hmap, List.map_map] at hnodup
  simpa [distinctElems, Function.comp_def] using hnodup

end Sets

end CarolinaDB
