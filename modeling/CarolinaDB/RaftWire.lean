import CarolinaDB.CanonSize
import CarolinaDB.Frame
import CarolinaDB.RaftReads
import CarolinaDB.WireRecords

/-!
# Consensus messages on the wire

The canonical form of log entries, messages and envelopes. Terms, indices and
rounds are 64-bit on the wire. A message that replicates entries is read back
exactly if the suffix it carries is within the limits of the decoder.
-/
namespace CarolinaDB

open CanonValue

namespace Consensus

/-- A number of the node as a 64-bit field. -/
def u64 (n : ℕ) : CanonValue := Canonical.toCanon (UInt64.ofNat n)

def fieldAsNat (v : CanonValue) (name : String) : CoreResult ℕ := do
  let n : UInt64 ← v.fieldAs name
  .ok n.toNat

/-- What is left of a number in 64 bits. -/
def wrap (n : ℕ) : ℕ := n % 2^64

lemma wrap_of_lt {n : ℕ} (h : n < 2^64) : wrap n = n := Nat.mod_eq_of_lt h

@[simp] lemma u64_wrap (n : ℕ) : u64 (wrap n) = u64 n := by
  have : UInt64.ofNat (wrap n) = UInt64.ofNat n := by
    apply UInt64.toNat_inj.mp
    simp [wrap]
  rw [u64, u64, this]

@[simp] lemma sorted_u64 (n : ℕ) : (u64 n).sorted := rfl

/-- A 64-bit field as the node reads it. -/
def natOf (v : CanonValue) : CoreResult ℕ := (Canonical.fromCanon v : CoreResult UInt64).map UInt64.toNat

@[simp] lemma natOf_u64 (n : ℕ) : natOf (u64 n) = .ok (wrap n) := by
  simp [natOf, u64, Except.map, wrap]

@[simp] lemma fieldAsNat_build (fs : List (String × CanonValue)) (name : String) :
    fieldAsNat (build fs) name =
      match fs.lookup name with
      | some w => natOf w
      | none => .error (missingField name) := by
  rw [fieldAsNat, fieldAs_build]
  cases fs.lookup name <;> rfl

namespace Entry

def toCanon (e : Entry) : CanonValue := build [
  ("data", Canonical.toCanon e.data),
  ("index", u64 e.index),
  ("term", u64 e.term)]

def fromCanon (v : CanonValue) : CoreResult Entry := do
  v.expectFields ["data", "index", "term"]
  let term ← fieldAsNat v "term"
  let index ← fieldAsNat v "index"
  let data ← v.fieldAs "data"
  .ok { term, index, data }

def normal (e : Entry) : Entry := ⟨wrap e.term, wrap e.index, e.data⟩

instance : Canonical Entry := ⟨toCanon, fromCanon, fun _ => true⟩

instance : LawfulCanonical Entry where
  sound _ := true
  normal := normal
  sorted_toCanon e := sorted_build (by simp)
  fromCanon_toCanon e _ b := by
    have heq : fromCanon (toCanon e) = .ok (normal e) := by
      simp [fromCanon, toCanon, normal, bind, Except.bind]
    change fromCanon (toCanon e) = _ ↔ _
    rw [heq]
    simp [eq_comm]
  toCanon_normal e _ := by
    change toCanon (normal e) = toCanon e
    simp [toCanon, normal]
  distinctSets_normal _ _ := rfl

end Entry

namespace Message

def toCanon : Message → CanonValue
  | requestVote term li lt => build [
      ("kind", .str "RequestVote"),
      ("last_log_index", u64 li),
      ("last_log_term", u64 lt),
      ("term", u64 term)]
  | requestVoteReply term granted => build [
      ("granted", .bool granted),
      ("kind", .str "RequestVoteReply"),
      ("term", u64 term)]
  | appendEntries term pi pt es lc rr => build [
      ("entries", Canonical.toCanon es),
      ("kind", .str "AppendEntries"),
      ("leader_commit", u64 lc),
      ("prev_log_index", u64 pi),
      ("prev_log_term", u64 pt),
      ("read_round", u64 rr),
      ("term", u64 term)]
  | appendEntriesReply term success m rr ap => build [
      ("applied_index", u64 ap),
      ("kind", .str "AppendEntriesReply"),
      ("match_index", u64 m),
      ("read_round", u64 rr),
      ("success", .bool success),
      ("term", u64 term)]

def fromCanon (v : CanonValue) : CoreResult Message := do
  let kind : String ← v.fieldAs "kind"
  if kind = "RequestVote" then do
    let term ← fieldAsNat v "term"
    let li ← fieldAsNat v "last_log_index"
    let lt ← fieldAsNat v "last_log_term"
    .ok (requestVote term li lt)
  else if kind = "RequestVoteReply" then do
    let term ← fieldAsNat v "term"
    let granted ← (← v.field "granted").asBool
    .ok (requestVoteReply term granted)
  else if kind = "AppendEntries" then do
    let term ← fieldAsNat v "term"
    let pi ← fieldAsNat v "prev_log_index"
    let pt ← fieldAsNat v "prev_log_term"
    let es ← v.fieldAs "entries"
    let lc ← fieldAsNat v "leader_commit"
    let rr ← fieldAsNat v "read_round"
    .ok (appendEntries term pi pt es lc rr)
  else if kind = "AppendEntriesReply" then do
    let term ← fieldAsNat v "term"
    let success ← (← v.field "success").asBool
    let m ← fieldAsNat v "match_index"
    let rr ← fieldAsNat v "read_round"
    let ap ← fieldAsNat v "applied_index"
    .ok (appendEntriesReply term success m rr ap)
  else .error (.new .nonCanonicalEncoding ("raft message " ++ kind))

def normal : Message → Message
  | requestVote term li lt => requestVote (wrap term) (wrap li) (wrap lt)
  | requestVoteReply term granted => requestVoteReply (wrap term) granted
  | appendEntries term pi pt es lc rr =>
    appendEntries (wrap term) (wrap pi) (wrap pt) (es.map Entry.normal) (wrap lc) (wrap rr)
  | appendEntriesReply term success m rr ap =>
    appendEntriesReply (wrap term) success (wrap m) (wrap rr) (wrap ap)

instance : Canonical Message := ⟨toCanon, fromCanon, fun _ => true⟩

lemma fromCanon_entries (es : List Entry) :
    (Canonical.fromCanon (Canonical.toCanon es) : CoreResult (List Entry)) =
      .ok (es.map Entry.normal) :=
  (LawfulCanonical.fromCanon_toCanon es (by simp [distinctSets]) _).mpr
    ⟨by simp [sound], rfl⟩

instance : LawfulCanonical Message where
  sound _ := true
  normal := normal
  sorted_toCanon m := by
    cases m with
    | appendEntries term pi pt es lc rr =>
      exact sorted_build (by simp [LawfulCanonical.sorted_toCanon, sorted])
    | _ => exact sorted_build (by simp [sorted])
  fromCanon_toCanon m _ b := by
    have heq : fromCanon (toCanon m) = .ok (normal m) := by
      cases m <;>
        simp [fromCanon, toCanon, normal, bind, Except.bind, field_build, asBool, fromCanon_entries]
    change fromCanon (toCanon m) = _ ↔ _
    rw [heq]
    simp [eq_comm]
  toCanon_normal m _ := by
    change toCanon (normal m) = toCanon m
    cases m with
    | appendEntries term pi pt es lc rr =>
      have : Canonical.toCanon (es.map Entry.normal) = Canonical.toCanon es :=
        LawfulCanonical.toCanon_normal es (by simp [distinctSets])
      simp [toCanon, normal, this]
    | _ => simp [toCanon, normal]
  distinctSets_normal _ _ := rfl

end Message

namespace Envelope

def toCanon (env : Envelope NodeId) : CanonValue := build [
  ("from", Canonical.toCanon env.from_),
  ("msg", Canonical.toCanon env.msg),
  ("to", Canonical.toCanon env.to_)]

def fromCanon (v : CanonValue) : CoreResult (Envelope NodeId) := do
  v.expectFields ["from", "msg", "to"]
  let from_ ← v.fieldAs "from"
  let to_ ← v.fieldAs "to"
  let msg ← v.fieldAs "msg"
  .ok { from_, to_, msg }

def normal (env : Envelope NodeId) : Envelope NodeId := ⟨env.from_, env.to_, env.msg.normal⟩

instance : Canonical (Envelope NodeId) := ⟨toCanon, fromCanon, fun _ => true⟩

instance : LawfulCanonical (Envelope NodeId) where
  sound _ := true
  normal := normal
  sorted_toCanon env := sorted_build (by simp [LawfulCanonical.sorted_toCanon])
  fromCanon_toCanon env _ b := by
    have heq : fromCanon (toCanon env) = .ok (normal env) := by
      have hm : (Canonical.fromCanon (Canonical.toCanon env.msg) : CoreResult Message) =
          .ok env.msg.normal :=
        (LawfulCanonical.fromCanon_toCanon env.msg rfl _).mpr ⟨rfl, rfl⟩
      simp [fromCanon, toCanon, normal, bind, Except.bind, hm]
    change fromCanon (toCanon env) = _ ↔ _
    rw [heq]
    simp [eq_comm]
  toCanon_normal env _ := by
    have hm : Canonical.toCanon env.msg.normal = Canonical.toCanon env.msg :=
      LawfulCanonical.toCanon_normal env.msg rfl
    change toCanon (normal env) = toCanon env
    simp [toCanon, normal, hm]
  distinctSets_normal _ _ := rfl

end Envelope

section Size

/-- Decimal digits of a 64-bit field. -/
def digits (n : ℕ) : ℕ := (decimalDigits (wrap n + 1) (wrap n)).length

lemma length_encode_u64 (n : ℕ) : (u64 n).encode.length = digits n + 2 := by
  simp [u64, Canonical.toCanon, uint, encode, writeString, escape_decimal, digits, wrap]

lemma fits_u64 (n depth : ℕ) : (u64 n).fits Limits.v1 depth := by
  have hlen := length_encode_uint (UInt64.ofNat n)
  simp only [uint, encode, writeString, List.length_cons, List.length_append, List.length_nil] at hlen
  simp only [u64, Canonical.toCanon, uint, fits, fitsScalar, Limits.v1, decide_eq_true_eq]
  omega

lemma length_encode_id {name : String} (i : Id128 name) :
    (Canonical.toCanon i).encode.length = 34 := by
  have hlen : i.bytes.val.length = 16 := i.bytes.property
  exact (length_encode_bytes i.bytes.val).trans (by rw [hlen])

lemma fits_id {name : String} (i : Id128 name) (depth : ℕ) :
    (Canonical.toCanon i).fits Limits.v1 depth := by
  have hlen : i.bytes.val.length = 16 := i.bytes.property
  simp [Canonical.toCanon, fits, fitsScalar, length_escape_hexEncode, hlen, Limits.v1]

/-- Bytes an entry takes in a message. -/
def Entry.size (e : Entry) : ℕ := 2 * e.data.length + digits e.index + digits e.term + 32

lemma Entry.length_encode (e : Entry) : (Canonical.toCanon e).encode.length = e.size := by
  have hb : (Canonical.toCanon e.data).encode.length = 2 * e.data.length + 2 :=
    length_encode_bytes e.data
  have hk : (writeString "data").length = 6 ∧ (writeString "index").length = 7 ∧
      (writeString "term").length = 6 := by decide
  refine (length_encode_build (.of_names ["data", "index", "term"] rfl (by decide))).trans ?_
  simp only [fieldLen, List.map_cons, List.map_nil, List.sum_cons, List.sum_nil, hb,
    length_encode_u64, hk, Entry.size]
  omega

/-- Bytes of an envelope that carries `es`. -/
def replicationSize (term pi pt lc rr : ℕ) (es : List Entry) : ℕ :=
  211 + (es.length - 1) + (es.map Entry.size).sum +
    (digits term + digits pi + digits pt + digits lc + digits rr)

lemma length_encode_appendEntries (from_ to_ : NodeId) (term pi pt lc rr : ℕ) (es : List Entry) :
    (Canonical.encode (⟨from_, to_, .appendEntries term pi pt es lc rr⟩ : Envelope NodeId)).length =
      replicationSize term pi pt lc rr es := by
  have hes : (Canonical.toCanon es).encode.length =
      2 + (es.length - 1) + (es.map Entry.size).sum := by
    refine (length_encode_array _).trans ?_
    simp only [List.length_map, List.map_map, Function.comp_def, Entry.length_encode]
  have hk : (writeString "entries").length = 9 ∧ (writeString "kind").length = 6 ∧
      (writeString "leader_commit").length = 15 ∧ (writeString "prev_log_index").length = 16 ∧
      (writeString "prev_log_term").length = 15 ∧ (writeString "read_round").length = 12 ∧
      (writeString "term").length = 6 ∧ (encode (.str "AppendEntries")).length = 15 := by decide
  have hmsg : (Canonical.toCanon (Message.appendEntries term pi pt es lc rr)).encode.length =
      121 + (es.length - 1) + (es.map Entry.size).sum +
        (digits term + digits pi + digits pt + digits lc + digits rr) := by
    refine (length_encode_build (.of_names ["entries", "kind", "leader_commit", "prev_log_index",
      "prev_log_term", "read_round", "term"] rfl (by decide))).trans ?_
    simp only [fieldLen, List.map_cons, List.map_nil, List.sum_cons, List.sum_nil, hes,
      length_encode_u64, hk]
    omega
  have hk' : (writeString "from").length = 6 ∧ (writeString "msg").length = 5 ∧
      (writeString "to").length = 4 := by decide
  refine (length_encode_build (.of_names ["from", "msg", "to"] rfl (by decide))).trans ?_
  simp only [fieldLen, List.map_cons, List.map_nil, List.sum_cons, List.sum_nil,
    length_encode_id, hk', replicationSize]
  rw [hmsg]
  omega

/-- Hex doubles the data, and an escaped scalar may exceed the limit by eight bytes. -/
lemma Entry.fits_iff (e : Entry) (depth : ℕ) (hd : depth + 1 ≤ 64) :
    (Canonical.toCanon e).fits Limits.v1 depth ↔ e.data.length ≤ 524292 := by
  have hb : (Canonical.toCanon e.data).fits Limits.v1 (depth + 1) ↔ e.data.length ≤ 524292 := by
    simp only [Canonical.toCanon, bytes, fits, fitsScalar, length_escape_hexEncode, Limits.v1,
      decide_eq_true_eq]
    omega
  refine (fits_build ["data", "index", "term"] rfl (by decide) (by decide)).trans ?_
  simp only [List.forall_mem_cons, hb, fits_u64, List.not_mem_nil, false_imp_iff,
    implies_true, and_true]
  exact and_iff_right hd

lemma fits_appendEntries (from_ to_ : NodeId) (term pi pt lc rr : ℕ) (es : List Entry) :
    (Canonical.toCanon (⟨from_, to_, .appendEntries term pi pt es lc rr⟩ : Envelope NodeId)).fits
      Limits.v1 0 ↔ es.length ≤ 65536 ∧ ∀ e ∈ es, e.data.length ≤ 524292 := by
  have hes : (Canonical.toCanon es).fits Limits.v1 2 ↔
      es.length ≤ 65536 ∧ ∀ e ∈ es, e.data.length ≤ 524292 := by
    simp only [Canonical.toCanon, fits, Bool.and_eq_true, decide_eq_true_eq, fitsItems_iff,
      List.length_map, List.forall_mem_map]
    have hitems : (∀ e ∈ es, (Entry.toCanon e).fits Limits.v1 3) ↔
        ∀ e ∈ es, e.data.length ≤ 524292 :=
      forall₂_congr fun e _ => Entry.fits_iff e 3 (by decide)
    exact (and_iff_right (by decide)).trans (and_congr_right fun _ => hitems)
  have hmsg : (Canonical.toCanon (Message.appendEntries term pi pt es lc rr)).fits Limits.v1 1 ↔
      es.length ≤ 65536 ∧ ∀ e ∈ es, e.data.length ≤ 524292 := by
    refine (fits_build ["entries", "kind", "leader_commit", "prev_log_index", "prev_log_term",
      "read_round", "term"] rfl (by decide) (by decide)).trans ?_
    have hkind : fits Limits.v1 2 (.str "AppendEntries") := by decide
    simp only [List.forall_mem_cons, hes, hkind, fits_u64, List.not_mem_nil,
      false_imp_iff, implies_true, and_true]
    exact and_iff_right (by decide)
  refine (fits_build ["from", "msg", "to"] rfl (by decide) (by decide)).trans ?_
  simp only [List.forall_mem_cons, fits_id, true_and, List.not_mem_nil, false_imp_iff,
    implies_true, and_true]
  exact (and_iff_right (by decide)).trans hmsg

end Size

section Delivery

/-- The envelope is framed for a peer, and the peer reads it back. -/
def Deliverable (sequence : ℕ) (env : Envelope NodeId) : Prop :=
  (∃ frame, encodeFrame .consensus 1 sequence (Canonical.encode env) = .ok frame) ∧
    ∃ b : Envelope NodeId, Canonical.decode (Canonical.encode env) Limits.v1 = .ok b ∧
      toCanon b = toCanon env

lemma deliverable_iff (sequence : ℕ) (env : Envelope NodeId) :
    Deliverable sequence env ↔
      (Canonical.encode env).length ≤ maxFramePayload ∧ (toCanon env).fits Limits.v1 0 := by
  rw [Deliverable, encodeFrame_consensus_ok_iff]
  refine and_congr_right fun hlen => ?_
  constructor
  · rintro ⟨b, hb, -⟩
    exact ((decode_encode_iff env rfl Limits.v1 b).mp hb).2.1
  · intro hf
    exact ⟨normal env, (decode_encode_iff env rfl Limits.v1 _).mpr ⟨hlen, hf, rfl, rfl⟩,
      LawfulCanonical.toCanon_normal env rfl⟩

variable {Id : Type} [LinearOrder Id]

/-- The index from which a follower is missing entries, as far as the leader knows. -/
def Raft.nextFor (r : Raft Id) (to_ : Id) : ℕ := (r.nextIndex to_).getD (r.snapshotIndex + 1)

/-- The suffix of the log a follower is missing. -/
def Raft.missing (r : Raft Id) (to_ : Id) : List Entry :=
  if r.nextFor to_ ≤ r.lastIndex then r.log.drop (r.nextFor to_ - r.snapshotIndex - 1) else []

/-- The message that brings a follower up to date. -/
def Raft.replication (r : Raft Id) (to_ : Id) (rr : ℕ) : Envelope Id :=
  ⟨r.me, to_, .appendEntries r.term (r.nextFor to_ - 1) (r.termAt (r.nextFor to_ - 1))
    (r.missing to_) r.commitIndex rr⟩

/-- What the leader sends is the missing suffix, whole. -/
lemma Raft.sendAppend_outbox (r : Raft Id) (to_ : Id) (rr : ℕ) :
    (r.sendAppend to_ rr).outbox = r.outbox ++
      if r.nextFor to_ ≤ r.snapshotIndex then []
      else [r.replication to_ rr] := by
  unfold Raft.sendAppend
  extract_lets next prevLogIndex prevLogTerm entries
  change (if r.nextFor to_ ≤ r.snapshotIndex then _ else _ : Raft Id).outbox = _
  split
  · rw [List.append_nil]
  · rename_i hn
    have hpos : r.logPos next = some (r.nextFor to_ - r.snapshotIndex - 1) := if_neg hn
    have hes : entries = r.missing to_ := by
      unfold entries
      rw [hpos]
      rfl
    rw [hes]
    rfl

/-- A follower's missing suffix is small enough to be replicated in one message. -/
def Raft.SuffixFits (r : Raft Id) (to_ : Id) (rr : ℕ) : Prop :=
  (r.missing to_).length ≤ 65536 ∧ (∀ e ∈ r.missing to_, e.data.length ≤ 524292) ∧
    replicationSize r.term (r.nextFor to_ - 1) (r.termAt (r.nextFor to_ - 1)) r.commitIndex rr
      (r.missing to_) ≤ maxFramePayload

instance (r : Raft Id) (to_ : Id) (rr : ℕ) : Decidable (r.SuffixFits to_ rr) :=
  inferInstanceAs (Decidable (_ ∧ _ ∧ _))

/-- Two voters of a cluster. -/
def voterA : NodeId := ⟨⟨0x0a :: List.replicate 15 0, by decide⟩⟩

def voterB : NodeId := ⟨⟨0x0b :: List.replicate 15 0, by decide⟩⟩

/-- A broadcast sends every follower above the base what it is missing. -/
lemma Raft.replication_mem_broadcastAppend (r : Raft Id) (rr : ℕ) {m : Id} (hm : m ∈ r.cfg.members)
    (hme : m ≠ r.me) (hs : r.snapshotIndex < r.nextFor m) :
    r.replication m rr ∈ (r.broadcastAppend rr).outbox := by
  have hfold : ∀ ms : List Id, ∃ out n,
      ms.foldl (fun r m => if m ≠ r.me then r.sendAppend m rr else r) r =
        { r with outbox := out, followersBehindSnapshot := n } ∧
      (m ∈ ms → r.replication m rr ∈ out) := by
    intro ms
    induction ms using List.reverseRecOn with
    | nil => exact ⟨r.outbox, r.followersBehindSnapshot, rfl, by simp⟩
    | append_singleton ms k ih =>
      obtain ⟨out, n, heq, hin⟩ := ih
      rw [List.foldl_append, List.foldl_cons, List.foldl_nil, heq]
      set q : Raft Id := { r with outbox := out, followersBehindSnapshot := n } with hq
      obtain ⟨out', n', -, hsend⟩ := Raft.sendAppend_eq q k rr
      split
      · refine ⟨q.outbox ++ out', n', hsend, fun hmem => ?_⟩
        rcases List.mem_append.mp hmem with hmem | hmem
        · exact List.mem_append_left _ (hin hmem)
        · rw [List.mem_singleton] at hmem
          subst hmem
          have hout := q.sendAppend_outbox m rr
          have hs' : ¬ q.nextFor m ≤ q.snapshotIndex := not_le.mpr hs
          rw [hsend, if_neg hs'] at hout
          have hout' : out' = [q.replication m rr] := List.append_cancel_left hout
          rw [hout']
          exact List.mem_append_right _ (List.mem_singleton_self _)
      · rename_i hk
        refine ⟨out, n, rfl, fun hmem => ?_⟩
        rcases List.mem_append.mp hmem with hmem | hmem
        · exact hin hmem
        · rw [List.mem_singleton] at hmem
          subst hmem
          exact absurd hme hk
  obtain ⟨out, n, heq, hin⟩ := hfold r.cfg.members
  unfold Raft.broadcastAppend
  simp only [heq]
  exact hin hm

/-- A command whose hex text exceeds the scalar limit is accepted, and cannot be delivered. -/
lemma propose_not_deliverable {r r' : Raft NodeId} {full : List Entry} (v : r.Views full)
    {data : List UInt8} {n : ℕ} (h : r.propose data = .ok (n, r')) (hlen : 524292 < data.length)
    {m : NodeId} (hm : m ∈ r.cfg.members) (hme : m ≠ r.me) (hs : r.snapshotIndex < r.nextFor m)
    (hn : r.nextFor m ≤ r.lastIndex + 1) (sequence : ℕ) :
    r'.role = .leader ∧ ∃ env ∈ r'.outbox, env.to_ = m ∧ ¬ Deliverable sequence env := by
  unfold Raft.propose at h
  split at h
  · cases h
  rename_i hr
  simp only [ne_eq, not_not] at hr
  split at h
  · cases h
  set q := (r.appendLocal data).2 with hq
  simp only [Except.ok.injEq, Prod.mk.injEq] at h
  obtain ⟨-, rfl⟩ := h
  have hrole : (q.broadcastAppend 0).role = .leader := by
    obtain ⟨out, k, -, heq⟩ := Raft.broadcastAppend_eq q 0
    rw [heq]
    exact hr
  refine ⟨hrole, q.replication m 0, q.replication_mem_broadcastAppend 0 hm hme hs, rfl, ?_⟩
  have hmem : ⟨r.term, r.lastIndex + 1, data⟩ ∈ q.missing m := by
    have hlast : q.lastIndex = r.lastIndex + 1 := by
      simp [hq, Raft.appendLocal, Raft.lastIndex]
    have hdrop : r.nextFor m - r.snapshotIndex - 1 ≤ r.log.length := by
      rw [v.log_length]
      rw [v.lastIndex] at hn
      omega
    have hn' : q.nextFor m ≤ r.lastIndex + 1 := hn
    rw [Raft.missing, hlast, if_pos hn']
    have hlog : q.log = r.log ++ [⟨r.term, r.lastIndex + 1, data⟩] := rfl
    have hpos : q.nextFor m - q.snapshotIndex - 1 = r.nextFor m - r.snapshotIndex - 1 := rfl
    rw [hlog, hpos, List.drop_append_of_le_length hdrop]
    exact List.mem_append_right _ (List.mem_singleton_self _)
  intro hd
  rw [deliverable_iff, Raft.replication, fits_appendEntries] at hd
  have : data.length ≤ 524292 := hd.2.2 _ hmem
  omega

/-- The first of two voters is elected. -/
def electRun (a b : Id) : List (Action Id) :=
  [.restart a fun _ => 0, .restart b fun _ => 0, .call a .tick, .drain a,
    .call b (.step ⟨a, b, .requestVote 1 0 0⟩), .drain b,
    .call a (.step ⟨b, a, .requestVoteReply 1 true⟩)]

end Delivery

end Consensus

end CarolinaDB
