import CarolinaDB.CanonLimits

/-!
# Encoding and decoding are inverse

Whatever the parser returns is a value the source can hold: the keys of every
object strictly increase. With the comparison at the end of `decode` this makes the
decoder a partial function that `encode` inverts on both sides.
-/
namespace CarolinaDB

open CanonValue

section Parse
variable (p : Parser)

lemma ite_fail_eq_ok {α : Type} {c : Prop} [Decidable c] {message : String} {src : Bytes}
    {x : CoreResult α} {a : α} (h : (if c then p.fail message src else x) = .ok a) :
    ¬ c ∧ x = .ok a := by
  by_cases hc : c
  · simp [hc, Parser.fail] at h
  · exact ⟨hc, by simpa [hc] using h⟩

/-- What one level of fuel gives for the three parsers. -/
def ParsesSorted (fuel : ℕ) : Prop :=
  (∀ depth src v rest, p.parseValue fuel depth src = .ok (v, rest) → v.sorted) ∧
  (∀ depth n src vs rest, p.parseItems fuel depth n src = .ok (vs, rest) → sortedItems vs) ∧
  ∀ depth n last src fs rest, p.parseFields fuel depth n last src = .ok (fs, rest) →
    sortedFields last fs

lemma parseValue_sorted {fuel depth : ℕ} {src rest : Bytes} {v : CanonValue}
    (ih : ParsesSorted p fuel) (h : p.parseValue (fuel + 1) depth src = .ok (v, rest)) :
    v.sorted := by
  cases src with
  | nil => simp [Parser.parseValue, Parser.fail] at h
  | cons c src =>
    rw [Parser.parseValue] at h
    split_ifs at h
    · obtain ⟨_, -, heq⟩ := CoreResult.map_eq_ok h
      obtain ⟨rfl, -⟩ := Prod.mk.inj heq
      rfl
    · obtain ⟨_, -, heq⟩ := CoreResult.map_eq_ok h
      obtain ⟨rfl, -⟩ := Prod.mk.inj heq
      rfl
    · obtain ⟨_, -, heq⟩ := CoreResult.map_eq_ok h
      obtain ⟨rfl, -⟩ := Prod.mk.inj heq
      rfl
    · obtain ⟨_, -, heq⟩ := CoreResult.map_eq_ok h
      obtain ⟨rfl, -⟩ := Prod.mk.inj heq
      rfl
    · obtain ⟨rfl, -⟩ := Prod.mk.inj (Except.ok.inj h)
      rfl
    · obtain ⟨⟨vs, rest'⟩, hvs, heq⟩ := CoreResult.map_eq_ok h
      obtain ⟨rfl, -⟩ := Prod.mk.inj heq
      rw [sorted]
      exact ih.2.1 _ _ _ _ _ hvs
    · obtain ⟨rfl, -⟩ := Prod.mk.inj (Except.ok.inj h)
      rfl
    · obtain ⟨⟨fs, rest'⟩, hfs, heq⟩ := CoreResult.map_eq_ok h
      obtain ⟨rfl, -⟩ := Prod.mk.inj heq
      rw [sorted]
      exact ih.2.2 _ _ _ _ _ _ hfs
    all_goals simp [Parser.fail] at h

lemma parseItems_sorted {fuel depth n : ℕ} {src rest : Bytes} {vs : List CanonValue}
    (ih : ParsesSorted p fuel) (h : p.parseItems (fuel + 1) depth n src = .ok (vs, rest)) :
    sortedItems vs := by
  rw [Parser.parseItems] at h
  obtain ⟨⟨v, rest₁⟩, hv, h⟩ := CoreResult.bind_eq_ok h
  have hsorted := ih.1 _ _ _ _ hv
  dsimp only at h
  split_ifs at h
  · obtain ⟨⟨ws, rest₂⟩, hws, heq⟩ := CoreResult.map_eq_ok h
    obtain ⟨rfl, -⟩ := Prod.mk.inj heq
    simp [sortedItems, hsorted, ih.2.1 _ _ _ _ _ hws]
  · obtain ⟨rfl, -⟩ := Prod.mk.inj (Except.ok.inj h)
    simp [sortedItems, hsorted]
  · simp [Parser.fail] at h

lemma parseFields_sorted {fuel depth n : ℕ} {last : Option String} {src rest : Bytes}
    {fs : List (String × CanonValue)} (ih : ParsesSorted p fuel)
    (h : p.parseFields (fuel + 1) depth n last src = .ok (fs, rest)) : sortedFields last fs := by
  rw [Parser.parseFields] at h
  obtain ⟨-, h⟩ := ite_fail_eq_ok p h
  obtain ⟨⟨key, rest₁⟩, -, h⟩ := CoreResult.bind_eq_ok h
  obtain ⟨-, h⟩ := ite_fail_eq_ok p h
  obtain ⟨hlast, h⟩ := ite_fail_eq_ok p h
  obtain ⟨-, h⟩ := ite_fail_eq_ok p h
  have hkey : last.all fun prev => utf8 prev < utf8 key := by
    cases last with
    | none => rfl
    | some prev => simpa using hlast
  obtain ⟨⟨v, rest₂⟩, hv, h⟩ := CoreResult.bind_eq_ok h
  have hsorted := ih.1 _ _ _ _ hv
  dsimp only at h
  split_ifs at h
  · obtain ⟨⟨gs, rest₃⟩, hgs, heq⟩ := CoreResult.map_eq_ok h
    obtain ⟨rfl, -⟩ := Prod.mk.inj heq
    simp [sortedFields, hkey, hsorted, ih.2.2 _ _ _ _ _ _ hgs]
  · obtain ⟨rfl, -⟩ := Prod.mk.inj (Except.ok.inj h)
    simp [sortedFields, hkey, hsorted]
  · simp [Parser.fail] at h

theorem parsesSorted (fuel : ℕ) : ParsesSorted p fuel := by
  induction fuel with
  | zero => simp [ParsesSorted, Parser.parseValue, Parser.parseItems, Parser.parseFields, Parser.fail]
  | succ fuel ih =>
    exact ⟨fun _ _ _ _ h => parseValue_sorted p ih h, fun _ _ _ _ _ h => parseItems_sorted p ih h,
      fun _ _ _ _ _ _ h => parseFields_sorted p ih h⟩

end Parse

lemma encode_of_decode {b : Bytes} {limits : Limits} {v : CanonValue}
    (h : CanonValue.decode b limits = .ok v) : v.encode = b ∧ v.sorted := by
  rw [CanonValue.decode] at h
  split_ifs at h
  obtain ⟨⟨w, rest⟩, hw, h⟩ := CoreResult.bind_eq_ok h
  dsimp only at h
  split_ifs at h with hrest henc
  obtain rfl := Except.ok.inj h
  exact ⟨not_not.mp henc, (parsesSorted _ _).1 _ _ _ _ hw⟩

/-- What the decoder accepts: the encodings of the values within its limits, each as that value. -/
theorem decode_eq_ok_iff {b : Bytes} {limits : Limits} {v : CanonValue} :
    CanonValue.decode b limits = .ok v ↔
      v.sorted ∧ v.fits limits 0 ∧ b.length ≤ limits.maxPayloadBytes ∧ v.encode = b := by
  constructor
  · intro h
    obtain ⟨rfl, hv⟩ := encode_of_decode h
    obtain ⟨hlen, hf, -⟩ := (decode_encode hv limits v).mp h
    exact ⟨hv, hf, hlen, rfl⟩
  · rintro ⟨hv, hf, hlen, rfl⟩
    exact (decode_encode hv limits v).mpr ⟨hlen, hf, rfl⟩

/-- The canonical form is a bijection onto what the decoder accepts. A value with strictly
increasing keys that is within the limits is read back from its encoding, every accepted input is
the encoding of the value it decodes to, and no two inputs decode to one value. -/
theorem canonical_encoding_bijective (limits : Limits) :
    (∀ v : CanonValue, v.sorted → v.fits limits 0 → v.encode.length ≤ limits.maxPayloadBytes →
      CanonValue.decode v.encode limits = .ok v) ∧
    (∀ b v, CanonValue.decode b limits = .ok v →
      v.encode = b ∧ v.sorted ∧ v.fits limits 0 ∧ b.length ≤ limits.maxPayloadBytes) ∧
    ∀ b b' v, CanonValue.decode b limits = .ok v → CanonValue.decode b' limits = .ok v → b = b' := by
  refine ⟨fun v hv hf hlen => ?_, fun b v h => ?_, fun b b' v h h' => ?_⟩
  · exact decode_eq_ok_iff.mpr ⟨hv, hf, hlen, rfl⟩
  · obtain ⟨hv, hf, hlen, henc⟩ := decode_eq_ok_iff.mp h
    exact ⟨henc, hv, hf, hlen⟩
  · rw [← (encode_of_decode h).1, (encode_of_decode h').1]

/-- An object with an escaped string and a nested array. -/
def nestedValue : CanonValue :=
  .object [("a", .array [.null, .bool true]), ("b", .str "\"\n")]

theorem canonical_encoding_bijective_nestedValue :
    CanonValue.decode nestedValue.encode .v1 = .ok nestedValue :=
  (canonical_encoding_bijective .v1).1 nestedValue (by decide +kernel) (by decide +kernel)
    (by decide +kernel)

end CarolinaDB
