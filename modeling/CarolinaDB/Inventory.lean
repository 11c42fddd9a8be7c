import CarolinaDB.FiniteMap
import CarolinaDB.ValueCodec

/-!
# The inventory oracle

The contract of the inventory workload restated by hand: reservations against items,
all quantities checked. A rejection leaves the state unchanged, and what is accepted
satisfies the invariants.
-/
namespace CarolinaDB.Qualify

open Lang

abbrev Ident := Octets 16

inductive ResState
  | active | consumed | released
  deriving DecidableEq, Repr

structure ItemState where
  available : Int64
  reserved : Int64
  total : Int64
  deriving DecidableEq, Repr

structure Reservation where
  item : Ident
  amount : Int64
  state : ResState
  deriving DecidableEq, Repr

structure InventoryModel where
  items : FiniteMap Ident ItemState
  reservations : FiniteMap Ident Reservation
  deriving DecidableEq

inductive W1Op
  | reserve (item : Ident) (q : Int64) (rid : Ident)
  | release (item : Ident) (q : Int64) (rid : Ident)
  | consume (item : Ident) (q : Int64) (rid : Ident)
  | supply (item : Ident) (q : Int64)
  deriving DecidableEq, Repr

/-- What the contract requires the reply to be. -/
inductive Expected
  | committed (result : Value)
  | rejected (reason : String)

namespace Expected

def resultDigest : Expected → Option Hash256
  | committed v => some (sha256 v.toCanon.encode)
  | rejected _ => none

def isCommitted : Expected → Bool
  | committed _ => true
  | rejected _ => false

/-- The outcome a reply carries. -/
def label : Expected → String
  | committed _ => "COMMITTED"
  | rejected _ => "REJECTED"

end Expected

/-- A sum or a difference, unless it leaves the type. -/
def checked (n : ℤ) : Option Int64 :=
  if -(2 ^ 63) ≤ n ∧ n < 2 ^ 63 then some (Int64.ofInt n) else none

def short (id : Ident) : String := hexEncode (id.val.take 2)

namespace InventoryModel

def seed (items : List (Ident × Int64)) : InventoryModel where
  items := items.foldl (fun m x => m.insert x.1 ⟨x.2, 0, x.2⟩) ∅
  reservations := ∅

def checkItem (id : Ident) (it : ItemState) : Except String Unit :=
  if it.available.toInt < 0 then .error ("available_nonneg violated for " ++ short id)
  else if it.reserved.toInt < 0 then .error ("reserved_nonneg violated for " ++ short id)
  else if checked (it.available.toInt + it.reserved.toInt) = some it.total then .ok ()
  else .error ("supply_conserved violated for " ++ short id)

def checkReservation (rid : Ident) (r : Reservation) : Except String Unit :=
  if r.amount.toInt ≤ 0 then .error ("reservation " ++ short rid ++ " has non-positive amount")
  else .ok ()

def invariants (m : InventoryModel) : Except String Unit := do
  m.items.toList.forM fun (id, it) => checkItem id it
  m.reservations.toList.forM fun (rid, r) => checkReservation rid r

/-- The result names what was moved. -/
def moved (item : Ident) (q : Int64) (rid : Ident) : Value :=
  .struct [("item", .uuid item), ("quantity", .i64 q), ("reservation", .uuid rid)]

def reserve (m : InventoryModel) (item : Ident) (q : Int64) (rid : Ident) :
    Except String (Value × InventoryModel) :=
  if q.toInt ≤ 0 then .error "precondition q > 0"
  else
    match m.items[item]? with
    | none => .error "read Item[item] missing"
    | some it =>
      match checked (it.available.toInt - q.toInt), checked (it.reserved.toInt + q.toInt) with
      | some av, some rs =>
        if m.reservations.contains rid then .error "duplicate reservation identity"
        else if av.toInt < 0 then .error "postcondition available >= 0"
        else .ok (moved item q rid,
          ⟨m.items.insert item { it with available := av, reserved := rs },
            m.reservations.insert rid ⟨item, q, .active⟩⟩)
      | _, _ => .error "arithmetic overflow"

def release (m : InventoryModel) (item : Ident) (q : Int64) (rid : Ident) :
    Except String (Value × InventoryModel) :=
  if q.toInt ≤ 0 then .error "precondition q > 0"
  else
    match m.reservations[rid]? with
    | none => .error "read Reservation[rid] missing"
    | some r =>
      if r.item ≠ item then .error "reservation belongs to another item"
      else if r.amount ≠ q then .error "whole-reservation release only"
      else if r.state ≠ .active then .error "reservation not ACTIVE"
      else
        match m.items[item]? with
        | none => .error "Item[item] missing"
        | some it =>
          match checked (it.reserved.toInt - q.toInt), checked (it.available.toInt + q.toInt) with
          | some rs, some av =>
            .ok (.struct [("item", .uuid item), ("reservation", .uuid rid)],
              ⟨m.items.insert item { it with available := av, reserved := rs },
                m.reservations.insert rid { r with state := .released }⟩)
          | _, _ => .error "arithmetic overflow"

def consume (m : InventoryModel) (item : Ident) (q : Int64) (rid : Ident) :
    Except String (Value × InventoryModel) :=
  if q.toInt ≤ 0 then .error "precondition q > 0"
  else
    match m.reservations[rid]? with
    | none => .error "read Reservation[rid] missing"
    | some r =>
      if r.state ≠ .active then .error "ADVANCE expects ACTIVE"
      else
        match m.items[item]? with
        | none => .error "Item[item] missing"
        | some it =>
          match checked (it.reserved.toInt - q.toInt), checked (it.total.toInt - q.toInt) with
          | some rs, some tt =>
            if r.amount ≠ q ∨ r.item ≠ item then .error "postcondition amount/resource"
            else .ok (moved item q rid,
              ⟨m.items.insert item { it with reserved := rs, total := tt },
                m.reservations.insert rid { r with state := .consumed }⟩)
          | _, _ => .error "arithmetic overflow"

def supply (m : InventoryModel) (item : Ident) (q : Int64) : Except String (Value × InventoryModel) :=
  if q.toInt ≤ 0 then .error "precondition q > 0"
  else
    match m.items[item]? with
    | none => .error "read Item[item] missing"
    | some it =>
      match checked (it.available.toInt + q.toInt), checked (it.total.toInt + q.toInt) with
      | some av, some tt =>
        .ok (.struct [("item", .uuid item), ("quantity", .i64 q)],
          { m with items := m.items.insert item { it with available := av, total := tt } })
      | _, _ => .error "arithmetic overflow"

/-- The invocation before its invariants are checked. -/
def attempt (m : InventoryModel) : W1Op → Except String (Value × InventoryModel)
  | .reserve item q rid => m.reserve item q rid
  | .release item q rid => m.release item q rid
  | .consume item q rid => m.consume item q rid
  | .supply item q => m.supply item q

/-- The expected reply, and the post-state when it is committed. -/
def evaluate (m : InventoryModel) (op : W1Op) : Expected × Option InventoryModel :=
  match m.attempt op with
  | .error reason => (.rejected reason, none)
  | .ok (result, next) =>
    match next.invariants with
    | .error _ => (.rejected "invariant", none)
    | .ok () => (.committed result, some next)

/-- A rejection leaves the model unchanged. -/
def apply (m : InventoryModel) (op : W1Op) : Expected × InventoryModel :=
  match m.evaluate op with
  | (e, some next) => (e, next)
  | (e, none) => (e, m)

/-- A row on which two models differ. -/
inductive Difference
  | itemDiffers (id : Ident) (a b : ItemState)
  | itemMissing (id : Ident)
  | itemOnly (id : Ident)
  | reservationDiffers (id : Ident) (a b : Reservation)
  | reservationMissing (id : Ident)
  | reservationOnly (id : Ident)

/-- The other side has what this side has not, or has it otherwise. -/
def Difference.extra : Difference → Bool
  | itemDiffers _ _ _ | itemOnly _ | reservationDiffers _ _ _ | reservationOnly _ => true
  | itemMissing _ | reservationMissing _ => false

def diff (m other : InventoryModel) : List Difference :=
  m.items.toList.filterMap (fun (id, a) =>
    match other.items[id]? with
    | some b => if a = b then none else some (.itemDiffers id a b)
    | none => some (.itemMissing id)) ++
  other.items.keys.filterMap (fun id =>
    if m.items.contains id then none else some (.itemOnly id)) ++
  m.reservations.toList.filterMap (fun (id, a) =>
    match other.reservations[id]? with
    | some b => if a = b then none else some (.reservationDiffers id a b)
    | none => some (.reservationMissing id)) ++
  other.reservations.keys.filterMap (fun id =>
    if m.reservations.contains id then none else some (.reservationOnly id))

end InventoryModel

/-- What an operation returns when it commits. The state has no part in it. -/
def W1Op.result : W1Op → Value
  | .reserve item q rid => InventoryModel.moved item q rid
  | .release item _ rid => .struct [("item", .uuid item), ("reservation", .uuid rid)]
  | .consume item q rid => InventoryModel.moved item q rid
  | .supply item q => .struct [("item", .uuid item), ("quantity", .i64 q)]

/-- Supplies are the operations that can commit twice. -/
def W1Op.isSupply : W1Op → Bool
  | .supply _ _ => true
  | .reserve _ _ _ | .release _ _ _ | .consume _ _ _ => false

namespace InventoryModel

variable {m next : InventoryModel} {op : W1Op} {v : Value}

/-- A post-state is there exactly if the contract commits, and it satisfies the invariants. -/
lemma evaluate_cases (m : InventoryModel) (op : W1Op) :
    (∃ reason, m.evaluate op = (.rejected reason, none)) ∨
      ∃ v next, m.evaluate op = (.committed v, some next) ∧ m.attempt op = .ok (v, next) ∧
        next.invariants = .ok () := by
  unfold evaluate
  split
  · exact .inl ⟨_, rfl⟩
  · rename_i v next hattempt
    split
    · exact .inl ⟨_, rfl⟩
    · rename_i hinv
      exact .inr ⟨v, next, rfl, hattempt, hinv⟩

variable {item rid : Ident} {q : Int64}

lemma reserve_ok (h : m.reserve item q rid = .ok (v, next)) :
    v = (W1Op.reserve item q rid).result ∧ m.reservations.contains rid = false ∧
      next.reservations = m.reservations.insert rid ⟨item, q, .active⟩ := by
  unfold reserve at h
  split at h
  · cases h
  split at h
  · cases h
  split at h
  · split_ifs at h with hdup hav
    cases h
    exact ⟨rfl, Bool.eq_false_iff.mpr hdup, rfl⟩
  · cases h

lemma release_ok (h : m.release item q rid = .ok (v, next)) :
    v = (W1Op.release item q rid).result ∧ ∃ r, m.reservations[rid]? = some r ∧
      r.state = .active ∧
        next.reservations = m.reservations.insert rid { r with state := .released } := by
  unfold release at h
  split at h
  · cases h
  split at h
  · cases h
  rename_i r hr
  split at h
  · cases h
  split at h
  · cases h
  split at h
  · cases h
  rename_i hactive
  split at h
  · cases h
  split at h
  · cases h
    exact ⟨rfl, r, hr, not_not.mp hactive, rfl⟩
  · cases h

lemma consume_ok (h : m.consume item q rid = .ok (v, next)) :
    v = (W1Op.consume item q rid).result ∧ ∃ r, m.reservations[rid]? = some r ∧
      r.state = .active ∧
        next.reservations = m.reservations.insert rid { r with state := .consumed } := by
  unfold consume at h
  split at h
  · cases h
  split at h
  · cases h
  rename_i r hr
  split at h
  · cases h
  rename_i hactive
  split at h
  · cases h
  split at h
  · split at h
    · cases h
    · cases h
      exact ⟨rfl, r, hr, not_not.mp hactive, rfl⟩
  · cases h

lemma supply_ok (h : m.supply item q = .ok (v, next)) :
    v = (W1Op.supply item q).result ∧ next.reservations = m.reservations := by
  unfold supply at h
  split at h
  · cases h
  split at h
  · cases h
  split at h
  · cases h
    exact ⟨rfl, rfl⟩
  · cases h

lemma attempt_result (h : m.attempt op = .ok (v, next)) : v = op.result := by
  cases op with
  | reserve item q rid => exact (reserve_ok h).1
  | release item q rid => exact (release_ok h).1
  | consume item q rid => exact (consume_ok h).1
  | supply item q => exact (supply_ok h).1

/-- What the operation has used up: its reservation identity, or the active state of its
reservation. -/
def Spent (m : InventoryModel) : W1Op → Prop
  | .reserve _ _ rid => m.reservations.contains rid = true
  | .release _ _ rid | .consume _ _ rid => ∃ r, m.reservations[rid]? = some r ∧ r.state ≠ .active
  | .supply _ _ => False

/-- Reservations are never removed, and a closed one is never opened again. -/
def Outlasts (m next : InventoryModel) : Prop :=
  ∀ (rid : Ident) (r : Reservation), m.reservations[rid]? = some r →
    ∃ r' : Reservation, next.reservations[rid]? = some r' ∧ (r.state ≠ .active → r'.state ≠ .active)

lemma outlasts_of_insert {r' : Reservation}
    (hold : ∀ r, m.reservations[rid]? = some r → r.state = .active)
    (h : next.reservations = m.reservations.insert rid r') : Outlasts m next := by
  intro rid' r hr
  rw [h, FiniteMap.get_insert]
  split_ifs with heq
  · subst heq
    exact ⟨r', rfl, fun hclosed => absurd (hold r hr) hclosed⟩
  · exact ⟨r, hr, id⟩

lemma attempt_outlasts (h : m.attempt op = .ok (v, next)) : Outlasts m next := by
  cases op with
  | reserve item q rid =>
    obtain ⟨-, hnew, hnext⟩ := reserve_ok h
    apply outlasts_of_insert _ hnext
    intro r hr
    simp [Std.ExtTreeMap.contains_eq_isSome_getElem?, hr] at hnew
  | release item q rid =>
    obtain ⟨-, r, hr, hactive, hnext⟩ := release_ok h
    apply outlasts_of_insert _ hnext
    intro r' hr'
    rw [hr] at hr'
    cases hr'
    exact hactive
  | consume item q rid =>
    obtain ⟨-, r, hr, hactive, hnext⟩ := consume_ok h
    apply outlasts_of_insert _ hnext
    intro r' hr'
    rw [hr] at hr'
    cases hr'
    exact hactive
  | supply item q =>
    intro rid r hr
    rw [(supply_ok h).2]
    exact ⟨r, hr, id⟩

lemma Spent.outlasts (h : m.Spent op) (hnext : Outlasts m next) : next.Spent op := by
  cases op with
  | reserve item q rid =>
    simp only [Spent, Std.ExtTreeMap.contains_eq_isSome_getElem?, Option.isSome_iff_exists] at h ⊢
    obtain ⟨r, hr⟩ := h
    obtain ⟨r', hr', -⟩ := hnext rid r hr
    exact ⟨r', hr'⟩
  | release item q rid =>
    obtain ⟨r, hr, hclosed⟩ := h
    obtain ⟨r', hr', hkeep⟩ := hnext rid r hr
    exact ⟨r', hr', hkeep hclosed⟩
  | consume item q rid =>
    obtain ⟨r, hr, hclosed⟩ := h
    obtain ⟨r', hr', hkeep⟩ := hnext rid r hr
    exact ⟨r', hr', hkeep hclosed⟩
  | supply item q => exact h

/-- Whatever commits, supplies apart, is spent. -/
lemma spent_of_attempt (h : m.attempt op = .ok (v, next)) (hop : op.isSupply = false) :
    next.Spent op := by
  cases op with
  | reserve item q rid =>
    rw [Spent, (reserve_ok h).2.2]
    simp
  | release item q rid =>
    obtain ⟨-, r, -, -, hnext⟩ := release_ok h
    exact ⟨_, by rw [hnext, FiniteMap.get_insert_self], by simp⟩
  | consume item q rid =>
    obtain ⟨-, r, -, -, hnext⟩ := consume_ok h
    exact ⟨_, by rw [hnext, FiniteMap.get_insert_self], by simp⟩
  | supply item q => cases hop

/-- What is spent is rejected. -/
lemma attempt_of_spent (hspent : m.Spent op) : m.attempt op ≠ .ok (v, next) := by
  intro h
  cases op with
  | reserve item q rid =>
    rw [Spent, (reserve_ok h).2.1] at hspent
    cases hspent
  | release item q rid =>
    obtain ⟨-, r, hr, hactive, -⟩ := release_ok h
    obtain ⟨r', hr', hclosed⟩ := hspent
    rw [hr] at hr'
    cases hr'
    exact hclosed hactive
  | consume item q rid =>
    obtain ⟨-, r, hr, hactive, -⟩ := consume_ok h
    obtain ⟨r', hr', hclosed⟩ := hspent
    rw [hr] at hr'
    cases hr'
    exact hclosed hactive
  | supply item q => exact hspent

/-- An applied operation commits to its post-state or leaves the state alone. -/
lemma apply_cases (m : InventoryModel) (op : W1Op) :
    (∃ reason, m.evaluate op = (.rejected reason, none) ∧ m.apply op = (.rejected reason, m)) ∨
      ∃ next, m.evaluate op = (.committed op.result, some next) ∧
        m.apply op = (.committed op.result, next) ∧ m.attempt op = .ok (op.result, next) ∧
          next.invariants = .ok () := by
  obtain ⟨reason, he⟩ | ⟨v, next, he, hattempt, hinv⟩ := m.evaluate_cases op
  · exact .inl ⟨reason, he, by rw [apply, he]⟩
  · obtain rfl := attempt_result hattempt
    exact .inr ⟨next, he, by rw [apply, he], hattempt, hinv⟩

lemma Spent.apply {op' : W1Op} (h : m.Spent op') : (m.apply op).2.Spent op' := by
  obtain ⟨reason, -, ha⟩ | ⟨next, -, ha, hattempt, -⟩ := m.apply_cases op
  · rw [ha]
    exact h
  · rw [ha]
    exact h.outlasts (attempt_outlasts hattempt)

end InventoryModel

end CarolinaDB.Qualify
