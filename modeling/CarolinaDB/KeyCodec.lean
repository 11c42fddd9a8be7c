import CarolinaDB.Canon

/-!
# Order-preserving keys

A logical key starts with a namespace byte. Strings and byte strings are written
with their zero bytes escaped and a terminator, so that no one of them begins another.
-/
namespace CarolinaDB

inductive Namespace
  | user | catalog | idcMeta | escrow | txnStatus | plan | replication | system | index
  | requestBinding | fact
  deriving DecidableEq, Repr

namespace Namespace

def toByte : Namespace → UInt8
  | user => 0x01
  | catalog => 0x02
  | idcMeta => 0x03
  | escrow => 0x04
  | txnStatus => 0x05
  | plan => 0x06
  | replication => 0x07
  | system => 0x08
  | index => 0x09
  | requestBinding => 0x0a
  | fact => 0x0b

def all : List Namespace :=
  [user, catalog, idcMeta, escrow, txnStatus, plan, replication, system, index, requestBinding, fact]

/-- The name of the variant. -/
def name : Namespace → String
  | user => "User"
  | catalog => "Catalog"
  | idcMeta => "IdcMeta"
  | escrow => "Escrow"
  | txnStatus => "TxnStatus"
  | plan => "Plan"
  | replication => "Replication"
  | system => "System"
  | index => "Index"
  | requestBinding => "RequestBinding"
  | fact => "Fact"

/-- A byte as Rust prints it in hexadecimal. -/
def showHex (b : UInt8) : String := "0x" ++ String.ofList (Nat.toDigits 16 b.toNat)

def fromByte (b : UInt8) : CoreResult Namespace :=
  match all.find? (fun ns => ns.toByte = b) with
  | some ns => .ok ns
  | none => .error (.new .corruption ("unknown namespace byte " ++ showHex b))

def isUserWritable : Namespace → Bool
  | user | index | fact => true
  | _ => false

lemma fromByte_toByte (ns : Namespace) : fromByte ns.toByte = .ok ns := by
  cases ns <;> rfl

end Namespace

/-- A byte string as a key element. -/
def keyBytes (v : Bytes) : Bytes :=
  0x14 :: (v.flatMap (fun b => if b = 0 then [0x00, 0xff] else [b]) ++ [0x00, 0x00])

def keyStr (s : String) : Bytes := keyBytes (utf8 s)

/-- The namespace of a key. -/
def keyNamespace : Bytes → CoreResult Namespace
  | [] => .error (.new .corruption "truncated key")
  | b :: _ => Namespace.fromByte b

/-- An element ends where its terminator is: what follows it does not matter. -/
lemma keyBytes_append_inj {v w r s : Bytes} (h : keyBytes v ++ r = keyBytes w ++ s) :
    v = w ∧ r = s := by
  simp only [keyBytes, List.cons_append, List.cons.injEq, true_and, List.append_assoc] at h
  induction v generalizing w with
  | nil =>
    cases w with
    | nil => exact ⟨rfl, by simpa using h⟩
    | cons b w =>
      simp only [List.flatMap_cons] at h
      split_ifs at h with hb <;> simp at h
      exact absurd h.1.symm hb
  | cons a v ih =>
    cases w with
    | nil =>
      simp only [List.flatMap_cons] at h
      split_ifs at h with ha <;> simp at h
      exact absurd h.1 ha
    | cons b w =>
      simp only [List.flatMap_cons] at h
      split_ifs at h with ha hb hb
      · obtain ⟨hvw, hr⟩ := ih (by simpa using h)
        exact ⟨by rw [ha, hb, hvw], hr⟩
      · simp at h
        exact absurd h.1.symm hb
      · simp at h
        exact absurd h.1 ha
      · simp only [List.cons_append, List.nil_append, List.cons.injEq] at h
        obtain ⟨hvw, hr⟩ := ih h.2
        exact ⟨by rw [h.1, hvw], hr⟩

end CarolinaDB
