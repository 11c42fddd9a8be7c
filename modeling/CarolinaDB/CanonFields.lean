import CarolinaDB.CanonLimits

/-!
# Reading and building canonical values

Typed accessors with their errors, and the object builder. An object built from
fields answers for each of them, and is within limits only if they are.
-/
namespace CarolinaDB

namespace CanonValue

section Equality

mutual

def beq : CanonValue → CanonValue → Bool
  | .null, .null => true
  | .bool a, .bool b => a == b
  | .str a, .str b => a == b
  | .array a, .array b => beqItems a b
  | .object a, .object b => beqFields a b
  | _, _ => false

def beqItems : List CanonValue → List CanonValue → Bool
  | [], [] => true
  | v :: vs, w :: ws => v.beq w && beqItems vs ws
  | _, _ => false

def beqFields : List (String × CanonValue) → List (String × CanonValue) → Bool
  | [], [] => true
  | (k, v) :: fs, (l, w) :: gs => k == l && (v.beq w && beqFields fs gs)
  | _, _ => false

end

mutual

theorem beq_iff : ∀ a b : CanonValue, a.beq b ↔ a = b
  | .null, b => by cases b <;> simp [beq]
  | .bool _, b => by cases b <;> simp [beq]
  | .str _, b => by cases b <;> simp [beq]
  | .array l, b => by
    cases b with
    | array l' => simp [beq, beqItems_iff l l']
    | _ => simp [beq]
  | .object l, b => by
    cases b with
    | object l' => simp [beq, beqFields_iff l l']
    | _ => simp [beq]

theorem beqItems_iff : ∀ a b : List CanonValue, beqItems a b ↔ a = b
  | [], b => by cases b <;> simp [beqItems]
  | v :: vs, b => by
    cases b with
    | nil => simp [beqItems]
    | cons w ws => simp [beqItems, beq_iff v w, beqItems_iff vs ws]

theorem beqFields_iff : ∀ a b : List (String × CanonValue), beqFields a b ↔ a = b
  | [], b => by cases b <;> simp [beqFields]
  | (k, v) :: fs, b => by
    cases b with
    | nil => simp [beqFields]
    | cons g gs =>
      obtain ⟨l, w⟩ := g
      simp [beqFields, beq_iff v w, beqFields_iff fs gs, and_assoc]

end

instance : DecidableEq CanonValue := fun a b => decidable_of_iff _ (beq_iff a b)

end Equality

section Accessors

def typeErr (expected : String) : CoreError := .new .nonCanonicalEncoding ("expected " ++ expected)

def asStr : CanonValue → CoreResult String
  | .str s => .ok s
  | _ => .error (typeErr "string")

def asBool : CanonValue → CoreResult Bool
  | .bool b => .ok b
  | _ => .error (typeErr "bool")

def asArray : CanonValue → CoreResult (List CanonValue)
  | .array items => .ok items
  | _ => .error (typeErr "array")

def asObject : CanonValue → CoreResult (List (String × CanonValue))
  | .object fields => .ok fields
  | _ => .error (typeErr "object")

def missingField (name : String) : CoreError :=
  .new .nonCanonicalEncoding ("missing required field `" ++ name ++ "`")

/-- A required field. -/
def field (v : CanonValue) (name : String) : CoreResult CanonValue := do
  let o ← v.asObject
  match o.lookup name with
  | some w => .ok w
  | none => .error (missingField name)

/-- The object has exactly the given fields. -/
def expectFields (v : CanonValue) (names : List String) : CoreResult Unit := do
  let o ← v.asObject
  match o.find? (fun f => ¬ names.contains f.1) with
  | some f => .error (.new .nonCanonicalEncoding ("unknown field `" ++ f.1 ++ "`"))
  | none =>
    match names.find? (fun name => (o.lookup name).isNone) with
    | some name => .error (missingField name)
    | none => .ok ()

/-- The elements of a set, which are sorted by their encodings without repetition. -/
def asSet (v : CanonValue) : CoreResult (List CanonValue) := do
  let a ← v.asArray
  if (a.map CanonValue.encode).IsChain (· < ·) then .ok a
  else .error (.new .nonCanonicalEncoding "set not sorted or has duplicates")

end Accessors

section Builder

/-- Insert into the ordered map of an object. -/
def insertField (k : String) (v : CanonValue) :
    List (String × CanonValue) → List (String × CanonValue)
  | [] => [(k, v)]
  | (l, w) :: fs =>
    if k = l then (k, v) :: fs
    else if utf8 k < utf8 l then (k, v) :: (l, w) :: fs
    else (l, w) :: insertField k v fs

/-- The ordered map with these fields. -/
def ofFields : List (String × CanonValue) → List (String × CanonValue)
  | [] => []
  | (k, v) :: fs => insertField k v (ofFields fs)

/-- The object with these fields; no two of them have one name. -/
def build (fields : List (String × CanonValue)) : CanonValue := .object (ofFields fields)

variable {k : String} {v : CanonValue} {fs : List (String × CanonValue)}

@[simp] lemma lookup_cons_eq (k : String) (v : CanonValue) (fs : List (String × CanonValue))
    (name : String) :
    ((k, v) :: fs).lookup name = if name = k then some v else fs.lookup name := by
  rw [List.lookup_cons]
  cases h : name == k with
  | true => rw [if_pos (beq_iff_eq.mp h)]
  | false => rw [if_neg (by simpa using h)]

lemma lookup_insertField (k : String) (v : CanonValue) (fs : List (String × CanonValue))
    (name : String) :
    (insertField k v fs).lookup name = if name = k then some v else fs.lookup name := by
  induction fs with
  | nil => simp [insertField, lookup_cons_eq]
  | cons f fs ih =>
    obtain ⟨l, w⟩ := f
    rw [insertField]
    by_cases hkl : k = l
    · subst hkl
      rw [if_pos rfl, lookup_cons_eq, lookup_cons_eq]
      split_ifs <;> rfl
    rw [if_neg hkl]
    by_cases hlt : utf8 k < utf8 l
    · rw [if_pos hlt, lookup_cons_eq]
    rw [if_neg hlt, lookup_cons_eq, ih, lookup_cons_eq]
    by_cases hname : name = k
    · subst hname
      rw [if_neg hkl]
      simp
    · simp [hname]

lemma lookup_ofFields (fs : List (String × CanonValue)) (name : String) :
    (ofFields fs).lookup name = fs.lookup name := by
  induction fs with
  | nil => rfl
  | cons f fs ih =>
    obtain ⟨k, v⟩ := f
    rw [ofFields, lookup_insertField, ih, lookup_cons_eq]

lemma field_build (fs : List (String × CanonValue)) (name : String) :
    (build fs).field name =
      match fs.lookup name with
      | some w => .ok w
      | none => .error (missingField name) := by
  simp only [field, build, asObject, bind, Except.bind, lookup_ofFields]

lemma mem_keys_iff {fs : List (String × CanonValue)} {name : String} :
    name ∈ fs.map Prod.fst ↔ (fs.lookup name).isSome := by
  rw [List.lookup_isSome_iff, List.mem_map]
  exact exists_congr fun f => and_congr_right fun _ => by rw [beq_iff_eq, eq_comm]

/-- An object answers `expectFields` for the names it was built with. -/
@[simp] lemma expectFields_build {fs : List (String × CanonValue)} {names : List String}
    (h : ∀ name, name ∈ names ↔ name ∈ fs.map Prod.fst) : (build fs).expectFields names = .ok () := by
  have hknown : (ofFields fs).find? (fun f => ¬ names.contains f.1) = none := by
    rw [List.find?_eq_none]
    intro f hf
    have : f.1 ∈ (ofFields fs).map Prod.fst := List.mem_map_of_mem hf
    rw [mem_keys_iff, lookup_ofFields, ← mem_keys_iff, ← h] at this
    simpa using this
  have hall : names.find? (fun name => ((ofFields fs).lookup name).isNone) = none := by
    rw [List.find?_eq_none]
    intro name hname
    rw [h, mem_keys_iff] at hname
    simpa [lookup_ofFields, Option.isSome_iff_ne_none] using hname
  simp only [expectFields, build, asObject, bind, Except.bind, hknown, hall]

lemma sortedFields_insertField {last : Option String} (hv : v.sorted)
    (hk : last.all fun prev => utf8 prev < utf8 k) (h : sortedFields last fs) :
    sortedFields last (insertField k v fs) := by
  induction fs generalizing last with
  | nil => simpa [insertField, sortedFields, hv] using hk
  | cons f fs ih =>
    obtain ⟨l, w⟩ := f
    simp only [sortedFields, Bool.and_eq_true] at h
    rw [insertField]
    split_ifs with hkl hlt
    · subst hkl
      simp [sortedFields, hv, h]
    · simpa [sortedFields, hv, h, hlt] using hk
    · have hlk : utf8 l < utf8 k := by
        rcases lt_trichotomy (utf8 k) (utf8 l) with h' | h' | h'
        · exact absurd h' hlt
        · exact absurd (utf8_injective h') hkl
        · exact h'
      have hlast : (some l).all fun prev => utf8 prev < utf8 k := by simpa using hlk
      simp [sortedFields, h, ih hlast h.2.2]

lemma sorted_build {fs : List (String × CanonValue)} (h : ∀ f ∈ fs, f.2.sorted) :
    (build fs).sorted := by
  rw [build, sorted]
  induction fs with
  | nil => rfl
  | cons f fs ih =>
    obtain ⟨k, v⟩ := f
    exact sortedFields_insertField (h _ List.mem_cons_self) rfl
      (ih fun f hf => h f (List.mem_cons_of_mem _ hf))

end Builder

section Limits
variable {limits : Limits} {depth : ℕ}

lemma fitsFields_iff {fs : List (String × CanonValue)} :
    fitsFields limits depth fs ↔
      ∀ f ∈ fs, (isAscii f.1 ∧ fitsScalar limits f.1) ∧ f.2.fits limits depth := by
  induction fs with
  | nil => simp [fitsFields]
  | cons f fs ih =>
    obtain ⟨k, v⟩ := f
    simp [fitsFields, ih, and_assoc]

lemma fitsItems_iff {vs : List CanonValue} :
    fitsItems limits depth vs ↔ ∀ v ∈ vs, v.fits limits depth := by
  induction vs with
  | nil => simp [fitsItems]
  | cons v vs ih => simp [fitsItems, ih]

/-- What an object holds is within the limits one level down. -/
lemma fits_of_field {v w : CanonValue} {name : String} (h : v.fits limits depth)
    (hf : v.field name = .ok w) : w.fits limits (depth + 1) := by
  cases v with
  | object fs =>
    simp only [field, asObject, bind, Except.bind] at hf
    split at hf
    · rename_i u hu
      rw [Except.ok.injEq] at hf
      subst hf
      simp only [fits, Bool.and_eq_true, fitsFields_iff] at h
      obtain ⟨l₁, l₂, rfl, -⟩ := List.lookup_eq_some_iff.mp hu
      exact (h.2.2 (name, u) (by simp)).2
    · simp at hf
  | _ => simp [field, asObject, bind, Except.bind] at hf

end Limits

end CanonValue

end CarolinaDB
