import CarolinaDB.Crc32c
import CarolinaDB.RaftWire

/-!
# The files behind a voter's durable state

`raft.state` holds the term, the vote and the log base and is replaced by a
rename; `raft.log` holds the framed entries and is appended to, or replaced by a
rename. A kill inside a call leaves one of the images listed with the call.
Temporary files are never read.
-/
namespace CarolinaDB.Consensus

open CanonValue

/-- The contents of the two files, `none` for one that does not exist. -/
structure Files where
  state : Option Bytes
  log : Option Bytes

structure FileRaftStorage where
  files : Files
  entries : List Entry
  snapshotIndex : ℕ
  snapshotTerm : ℕ

def frameMagic : Bytes := [0x43, 0x52, 0x46, 0x54]

def Entry.frame (e : Entry) : Bytes :=
  let body := Canonical.encode e
  frameMagic ++ (littleEndian 4 body.length ++ (littleEndian 4 (crc32c body).toNat ++ body))

/-- The contents of `raft.state`. -/
def stateValue (snapshotIndex snapshotTerm term : ℕ) (votedFor : Option NodeId) : CanonValue :=
  build [
    ("snapshot_index", u64 snapshotIndex),
    ("snapshot_term", u64 snapshotTerm),
    ("term", u64 term),
    ("voted_for", toCanon votedFor)]

namespace Files

/-- Base index and term on disk, zero when the file is absent or predates compaction. -/
def readBase (f : Files) : CoreResult (ℕ × ℕ) :=
  match f.state with
  | none => .ok (0, 0)
  | some bytes => do
    let v ← CanonValue.decode bytes Limits.v1
    match v.field "snapshot_index", v.field "snapshot_term" with
    | .ok i, .ok t => do
      let index ← natOf i
      let term ← natOf t
      .ok (index, term)
    | _, _ => .ok (0, 0)

def readState (f : Files) : CoreResult (ℕ × Option NodeId) :=
  match f.state with
  | none => .ok (0, none)
  | some bytes => do
    let v ← CanonValue.decode bytes Limits.v1
    let term ← natOf (← v.field "term")
    let votedFor ← v.fieldAs "voted_for"
    .ok (term, votedFor)

/-- Read frames until the bytes end or a frame is incomplete; what is left is a torn tail. Entries
at or below the base are skipped. -/
def scan (base : ℕ) : ℕ → List Entry → Bytes → CoreResult (List Entry × Bytes)
  | 0, entries, bytes => .ok (entries, bytes)
  | fuel+1, entries, bytes =>
    if bytes.length < 12 then .ok (entries, bytes)
    else if slice bytes 0 4 ≠ frameMagic then
      .error (.new .corruption "raft log frame magic")
    else
      let len := numberAt bytes 4 4
      let crc := numberAt bytes 8 4
      if bytes.length < 12 + len then .ok (entries, bytes)
      else
        let body := slice bytes 12 len
        if (crc32c body).toNat ≠ crc then .error (.new .checksumMismatch "raft log frame crc")
        else do
          let e : Entry ← Canonical.decode body Limits.v1
          if e.index ≤ base then scan base fuel entries (bytes.drop (12 + len))
          else if e.index ≠ ((entries.getLast?.map (·.index + 1)).getD (base + 1)) then
            .error (.new .corruption "raft log index gap")
          else scan base fuel (entries ++ [e]) (bytes.drop (12 + len))

/-- Open the directory: read both files, drop a torn tail and create a missing log. -/
def open_ (f : Files) : CoreResult FileRaftStorage :=
  match f.log with
  | none => do
    let (index, term) ← f.readBase
    .ok ⟨{ f with log := some [] }, [], index, term⟩
  | some bytes => do
    let (index, term) ← f.readBase
    let (entries, rest) ← scan index bytes.length [] bytes
    let keep := bytes.take (bytes.length - rest.length)
    .ok ⟨{ f with log := some keep }, entries, index, term⟩

/-- Images a kill inside `open_` can leave. A torn tail is dropped by writing the file anew, so
every initial part of what is kept is one of them. -/
def openImages (f : Files) : List Files :=
  match f.log with
  | none => [f, { f with log := some [] }]
  | some bytes =>
    match f.readBase.bind fun b => scan b.1 bytes.length [] bytes with
    | .ok (_, []) => [f]
    | .ok (_, rest) =>
      let keep := bytes.take (bytes.length - rest.length)
      f :: (List.range (keep.length + 1)).map fun k => { f with log := some (keep.take k) }
    | .error _ => [f]

end Files

inductive StorageCall
  | saveTermVote (term : ℕ) (votedFor : Option NodeId)
  | append (entries : List Entry)
  | truncateFrom (from_ : ℕ)
  | compactTo (index term : ℕ)

namespace FileRaftStorage

def load (s : FileRaftStorage) : CoreResult (Persistent NodeId) := do
  let (term, votedFor) ← s.files.readState
  .ok ⟨term, votedFor, s.entries, s.snapshotIndex, s.snapshotTerm⟩

def logBytes (s : FileRaftStorage) : Bytes := s.files.log.getD []

def saveTermVote (s : FileRaftStorage) (term : ℕ) (votedFor : Option NodeId) : FileRaftStorage :=
  { s with files := { s.files with
    state := some (stateValue s.snapshotIndex s.snapshotTerm term votedFor).encode } }

def append (s : FileRaftStorage) (entries : List Entry) : FileRaftStorage :=
  { s with
    files := { s.files with log := some (s.logBytes ++ entries.flatMap Entry.frame) }
    entries := s.entries ++ entries }

def rewriteLog (s : FileRaftStorage) : FileRaftStorage :=
  { s with files := { s.files with log := some (s.entries.flatMap Entry.frame) } }

def truncateFrom (s : FileRaftStorage) (from_ : ℕ) : FileRaftStorage :=
  rewriteLog { s with entries := s.entries.filter (·.index < from_) }

/-- The base first, the entries second. -/
def compactBase (s : FileRaftStorage) (index term : ℕ) : CoreResult FileRaftStorage := do
  let (current, votedFor) ← s.files.readState
  .ok { s with
    files := { s.files with state := some (stateValue index term current votedFor).encode }
    snapshotIndex := index
    snapshotTerm := term }

def compactTo (s : FileRaftStorage) (index term : ℕ) : CoreResult FileRaftStorage :=
  if index ≤ s.snapshotIndex then .ok s
  else do
    let s ← s.compactBase index term
    .ok (rewriteLog { s with entries := s.entries.filter (index < ·.index) })

def call (s : FileRaftStorage) : StorageCall → CoreResult FileRaftStorage
  | .saveTermVote term votedFor => .ok (s.saveTermVote term votedFor)
  | .append entries => .ok (s.append entries)
  | .truncateFrom from_ => .ok (s.truncateFrom from_)
  | .compactTo index term => s.compactTo index term

/-- Images a kill inside a call can leave: an append stops at any byte, a replaced file is the old
or the new one. -/
def images (s : FileRaftStorage) (c : StorageCall) : List Files :=
  match c with
  | .append entries =>
    (List.range ((entries.flatMap Entry.frame).length + 1)).map fun k =>
      { s.files with log := some (s.logBytes ++ (entries.flatMap Entry.frame).take k) }
  | .compactTo index term =>
    s.files :: (match s.compactBase index term with
      | .ok b => if index ≤ s.snapshotIndex then [] else [b.files]
      | .error _ => []) ++
      (match s.compactTo index term with
      | .ok s' => [s'.files]
      | .error _ => [])
  | .saveTermVote term votedFor => [s.files, (s.saveTermVote term votedFor).files]
  | .truncateFrom from_ => [s.files, (s.truncateFrom from_).files]

end FileRaftStorage

/-- The durable state after a call, as the in-memory storage keeps it. -/
def Persistent.call (p : Persistent NodeId) : StorageCall → Persistent NodeId
  | .saveTermVote term votedFor => (Storage.saveTermVote ⟨p, []⟩ term votedFor).state
  | .append entries => (Storage.append ⟨p, []⟩ entries).state
  | .truncateFrom from_ => (Storage.truncateFrom ⟨p, []⟩ from_).state
  | .compactTo index term => (Storage.compactTo ⟨p, []⟩ index term).state

/-- What may be found after a kill inside a call: the state before or after it, and for an append
any prefix of the entries. -/
def Persistent.Survives (p : Persistent NodeId) (c : StorageCall) (q : Persistent NodeId) : Prop :=
  q = p ∨ q = p.call c ∨
    ∃ entries k, c = .append entries ∧ q = { p with entries := p.entries ++ entries.take k }

/-- The calls a node makes: numbers are 64-bit, appends continue the log, truncation and compaction
stay inside it. -/
def StorageCall.Made (p : Persistent NodeId) : StorageCall → Prop
  | .saveTermVote term _ => term < 2^64
  | .append entries => ∀ k e, entries[k]? = some e →
      e.term < 2^64 ∧ e.index < 2^64 ∧ e.index = p.snapshotIndex + p.entries.length + 1 + k
  | .truncateFrom from_ => p.snapshotIndex < from_ ∧ from_ ≤ p.snapshotIndex + p.entries.length
  | .compactTo index term =>
      p.snapshotIndex < index ∧ index ≤ p.snapshotIndex + p.entries.length ∧
        index < 2^64 ∧ term < 2^64

section Frames

/-- Data short enough to be read back, and numbers of 64 bits. -/
structure Entry.Fits (e : Entry) : Prop where
  data : e.data.length ≤ 524292
  term : e.term < 2^64
  index : e.index < 2^64

lemma digits_le (n : ℕ) : digits n ≤ 20 := by
  have h := length_encode_uint (UInt64.ofNat n)
  have h' := length_encode_u64 n
  rw [u64] at h'
  have : (Canonical.toCanon (UInt64.ofNat n)).encode.length ≤ 22 := h
  omega

lemma Entry.Fits.size_le {e : Entry} (h : e.Fits) : e.size ≤ 1048656 := by
  have h₁ := h.data
  have h₂ := digits_le e.index
  have h₃ := digits_le e.term
  rw [Entry.size]
  omega

lemma Entry.Fits.decode_encode {e : Entry} (h : e.Fits) :
    Canonical.decode (Canonical.encode e) Limits.v1 = .ok e := by
  have hsize := h.size_le
  have hlen : (Canonical.encode e).length = e.size := e.length_encode
  have hfits := (e.fits_iff 0 (by decide)).mpr h.data
  refine (decode_encode_iff e rfl Limits.v1 e).mpr ⟨?_, hfits, rfl, ?_⟩
  · rw [hlen]
    exact hsize.trans (by decide)
  · change e = ⟨wrap e.term, wrap e.index, e.data⟩
    rw [wrap_of_lt h.term, wrap_of_lt h.index]

lemma Entry.Fits.size_lt {e : Entry} (h : e.Fits) : e.size < 2^32 :=
  h.size_le.trans_lt (by decide)

lemma Entry.length_frame (e : Entry) : e.frame.length = 12 + (Canonical.encode e).length := by
  simp [Entry.frame, frameMagic]
  omega

/-- The fields of a frame are where the scan looks for them, whatever follows. -/
lemma Entry.frame_fields {e : Entry} (h : e.size < 2^32) (r : Bytes) :
    slice (e.frame ++ r) 0 4 = frameMagic ∧
      numberAt (e.frame ++ r) 4 4 = (Canonical.encode e).length ∧
      numberAt (e.frame ++ r) 8 4 = (crc32c (Canonical.encode e)).toNat ∧
      slice (e.frame ++ r) 12 (Canonical.encode e).length = Canonical.encode e ∧
      (e.frame ++ r).drop (12 + (Canonical.encode e).length) = r := by
  have hlen : (Canonical.encode e).length = e.size := e.length_encode
  set body := Canonical.encode e with hbody
  have hframe : e.frame ++ r = frameMagic ++ (littleEndian 4 body.length ++
      (littleEndian 4 (crc32c body).toNat ++ (body ++ r))) := by
    simp [Entry.frame, hbody]
  refine ⟨?_, ?_, ?_, ?_, ?_⟩
  · rw [hframe]
    rfl
  · rw [hframe]
    exact numberAt_littleEndian rfl (by omega) _
  · rw [hframe, ← List.append_assoc]
    exact numberAt_littleEndian (by simp [frameMagic]) (crc32c body).toNat_lt _
  · rw [hframe, ← List.append_assoc, ← List.append_assoc]
    exact slice_middle (by simp [frameMagic]) rfl _
  · rw [← e.length_frame]
    exact List.drop_left

/-- Bytes the scan stops at: too few for a header, or for the body a header announces. -/
def Torn (t : Bytes) : Prop :=
  t.length < 12 ∨ (slice t 0 4 = frameMagic ∧ t.length < 12 + numberAt t 4 4)

/-- A frame that was being written. -/
lemma Entry.Fits.torn {e : Entry} (h : e.Fits) {t : Bytes} (ht : t <+: e.frame)
    (hne : t.length < e.frame.length) : Torn t := by
  by_cases hlen : t.length < 12
  · exact Or.inl hlen
  right
  obtain ⟨r, hr⟩ := ht
  obtain ⟨hmagic, hbody, -⟩ := Entry.frame_fields h.size_lt []
  rw [List.append_nil, ← hr] at hmagic hbody
  rw [slice_append_of_le (by omega)] at hmagic
  rw [numberAt, slice_append_of_le (by omega)] at hbody
  rw [e.length_frame] at hne
  refine ⟨hmagic, ?_⟩
  rw [numberAt, hbody]
  exact hne

lemma Files.scan_torn (base fuel : ℕ) (entries : List Entry) {t : Bytes} (ht : Torn t) :
    scan base fuel entries t = .ok (entries, t) := by
  cases fuel with
  | zero => rfl
  | succ fuel =>
    rw [scan]
    by_cases hlen : t.length < 12
    · rw [if_pos hlen]
    · obtain ⟨hmagic, hshort⟩ := ht.resolve_left hlen
      rw [if_neg hlen, if_neg (not_not.mpr hmagic)]
      exact if_pos hshort

/-- A whole frame is read, whatever follows it. -/
lemma Files.scan_frame (base fuel : ℕ) (entries : List Entry) {e : Entry} (h : e.Fits) (r : Bytes) :
    scan base (fuel+1) entries (e.frame ++ r) =
      if e.index ≤ base then scan base fuel entries r
      else if e.index ≠ ((entries.getLast?.map (·.index + 1)).getD (base + 1)) then
        .error (.new .corruption "raft log index gap")
      else scan base fuel (entries ++ [e]) r := by
  obtain ⟨hmagic, hlen, hcrc, hbody, hrest⟩ := Entry.frame_fields h.size_lt r
  have hframe := e.length_frame
  have h12 : ¬ (e.frame ++ r).length < 12 := by
    rw [List.length_append]
    omega
  have hfull : ¬ (e.frame ++ r).length < 12 + (Canonical.encode e).length := by
    rw [List.length_append]
    omega
  rw [scan, if_neg h12, if_neg (not_not.mpr hmagic)]
  simp only [hlen, hcrc, hbody, hrest]
  rw [if_neg hfull, if_neg (not_not.mpr rfl), h.decode_encode]
  rfl

lemma Files.scan_skipped (base fuel : ℕ) (entries : List Entry) (old : List Entry)
    (hold : ∀ e ∈ old, e.Fits ∧ e.index ≤ base) (r : Bytes) :
    scan base (fuel + old.length) entries (old.flatMap Entry.frame ++ r) =
      scan base fuel entries r := by
  induction old with
  | nil => rfl
  | cons e old ih =>
    obtain ⟨hfits, hle⟩ := hold e List.mem_cons_self
    rw [List.flatMap_cons, List.append_assoc, List.length_cons, ← Nat.add_assoc,
      scan_frame _ _ _ hfits, if_pos hle]
    exact ih fun x hx => hold x (List.mem_cons_of_mem _ hx)

/-- Entries numbered from the base on, after those already read. -/
lemma Files.scan_numbered (base fuel : ℕ) (entries es : List Entry) (hfits : ∀ e ∈ es, e.Fits)
    (hread : ∀ k e, entries[k]? = some e → e.index = base + 1 + k)
    (hnum : ∀ k e, es[k]? = some e → e.index = base + 1 + entries.length + k) (r : Bytes) :
    scan base (fuel + es.length) entries (es.flatMap Entry.frame ++ r) =
      scan base fuel (entries ++ es) r := by
  induction es generalizing entries with
  | nil => simp
  | cons e es ih =>
    have hidx : e.index = base + 1 + entries.length := hnum 0 e rfl
    have hlast : (entries.getLast?.map (·.index + 1)).getD (base + 1) = e.index := by
      cases hl : entries.getLast? with
      | none =>
        rw [List.getLast?_eq_none_iff] at hl
        subst hl
        simpa using hidx.symm
      | some x =>
        rw [List.getLast?_eq_getElem?] at hl
        have hpos : 0 < entries.length := by
          rcases entries with _ | ⟨y, ys⟩
          · simp at hl
          · simp
        have := hread _ x hl
        simp only [Option.map_some, Option.getD_some]
        omega
    rw [List.flatMap_cons, List.append_assoc, List.length_cons, ← Nat.add_assoc,
      scan_frame _ _ _ (hfits e List.mem_cons_self), if_neg (by omega),
      if_neg (not_not.mpr hlast.symm), ih (entries ++ [e]), List.append_assoc, List.singleton_append]
    · exact fun x hx => hfits x (List.mem_cons_of_mem _ hx)
    · intro k x hx
      rw [List.getElem?_append] at hx
      split at hx
      · exact hread k x hx
      · rename_i hk
        rw [List.getElem?_singleton] at hx
        split at hx
        · cases hx
          omega
        · cases hx
    · intro k x hx
      have := hnum (k+1) x hx
      rw [List.length_append, List.length_singleton]
      omega

end Frames

section State

instance {name : String} : NonNull (Id128 name) where
  toCanon_ne_null i := by simp [Canonical.toCanon]

variable {index term current : ℕ} {vote : Option NodeId}

/-- What was written to `raft.state` is read back. -/
lemma decode_stateValue : CanonValue.decode (stateValue index term current vote).encode Limits.v1 =
    .ok (stateValue index term current vote) := by
  have hsorted : (stateValue index term current vote).sorted := sorted_build (by simp)
  have hvote : (Canonical.toCanon vote).encode.length ≤ 34 ∧
      ∀ depth, (Canonical.toCanon vote).fits Limits.v1 depth := by
    cases vote with
    | none => exact ⟨by decide, fun _ => rfl⟩
    | some v => exact ⟨(length_encode_id v).le, fun depth => fits_id v depth⟩
  refine (decode_encode hsorted Limits.v1 _).mpr ⟨?_, ?_, rfl⟩
  · refine (length_build_le ["snapshot_index", "snapshot_term", "term", "voted_for"] rfl
      (by decide : _ ≤ 56)).trans ?_
    have h₁ := digits_le index
    have h₂ := digits_le term
    have h₃ := digits_le current
    simp only [List.map_cons, List.map_nil, List.sum_cons, List.sum_nil, length_encode_u64, Limits.v1]
    omega
  · refine (fits_build ["snapshot_index", "snapshot_term", "term", "voted_for"] rfl (by decide)
      (by decide)).mpr ⟨by decide, ?_⟩
    simp [fits_u64, hvote.2]

end State

/-- The state file holds what `p` says, or is absent and `p` is as at the start. -/
def StateOk (f : Files) (p : Persistent NodeId) : Prop :=
  f.state = some (stateValue p.snapshotIndex p.snapshotTerm p.term p.votedFor).encode ∨
    (f.state = none ∧ p.term = 0 ∧ p.votedFor = none ∧ p.snapshotIndex = 0 ∧ p.snapshotTerm = 0)

/-- Numbers of 64 bits. -/
structure Persistent.Fits (p : Persistent NodeId) : Prop where
  term : p.term < 2^64
  snapshotIndex : p.snapshotIndex < 2^64
  snapshotTerm : p.snapshotTerm < 2^64

section Restore
variable {f : Files} {s : FileRaftStorage} {p : Persistent NodeId}

lemma StateOk.readBase (h : StateOk f p) (hp : p.Fits) :
    f.readBase = .ok (p.snapshotIndex, p.snapshotTerm) := by
  rcases h with h | ⟨h, -, -, hi, ht⟩
  · have hi : (stateValue p.snapshotIndex p.snapshotTerm p.term p.votedFor).field "snapshot_index" =
        .ok (u64 p.snapshotIndex) := by simp [stateValue, field_build]
    have ht : (stateValue p.snapshotIndex p.snapshotTerm p.term p.votedFor).field "snapshot_term" =
        .ok (u64 p.snapshotTerm) := by simp [stateValue, field_build]
    rw [Files.readBase, h]
    simp only [decode_stateValue, CoreResult.ok_bind, hi, ht, natOf_u64, wrap_of_lt hp.snapshotIndex,
      wrap_of_lt hp.snapshotTerm]
  · rw [Files.readBase, h, hi, ht]

lemma StateOk.readState (h : StateOk f p) (hp : p.Fits) :
    f.readState = .ok (p.term, p.votedFor) := by
  rcases h with h | ⟨h, ht, hv, -⟩
  · have ht : (stateValue p.snapshotIndex p.snapshotTerm p.term p.votedFor).field "term" =
        .ok (u64 p.term) := by simp [stateValue, field_build]
    have hv : (stateValue p.snapshotIndex p.snapshotTerm p.term p.votedFor).fieldAs "voted_for" =
        .ok p.votedFor := by simp [stateValue]
    rw [Files.readState, h]
    simp only [decode_stateValue, CoreResult.ok_bind, ht, hv, natOf_u64, wrap_of_lt hp.term]
  · rw [Files.readState, h, ht, hv]

/-- The frames on disk: leftovers at or below the base, then the entries of `p`. -/
structure Logged (p : Persistent NodeId) (es : List Entry) : Prop where
  fits : ∀ e ∈ es, e.Fits
  split : ∃ old, es = old ++ p.entries ∧ ∀ e ∈ old, e.index ≤ p.snapshotIndex
  numbered : ∀ k e, p.entries[k]? = some e → e.index = p.snapshotIndex + 1 + k

/-- Files from which `p` is restored. -/
structure Image (f : Files) (p : Persistent NodeId) : Prop where
  state : StateOk f p
  fits : p.Fits
  log : (f.log = none ∧ p.entries = []) ∨
    ∃ es t, f.log = some (es.flatMap Entry.frame ++ t) ∧ Logged p es ∧ Torn t

/-- An open storage that holds `p`. -/
structure Live (s : FileRaftStorage) (p : Persistent NodeId) : Prop where
  state : StateOk s.files p
  fits : p.Fits
  entries : s.entries = p.entries
  snapshotIndex : s.snapshotIndex = p.snapshotIndex
  snapshotTerm : s.snapshotTerm = p.snapshotTerm
  log : ∃ es, s.files.log = some (es.flatMap Entry.frame) ∧ Logged p es

lemma Live.load (h : Live s p) : s.load = .ok p := by
  rw [FileRaftStorage.load, h.state.readState h.fits, h.entries, h.snapshotIndex, h.snapshotTerm]
  rfl

lemma Live.image (h : Live s p) : Image s.files p := by
  obtain ⟨es, hlog, hl⟩ := h.log
  refine ⟨h.state, h.fits, Or.inr ⟨es, [], ?_, hl, Or.inl (by simp)⟩⟩
  rw [List.append_nil]
  exact hlog

lemma length_le_frames (es : List Entry) : es.length ≤ (es.flatMap Entry.frame).length := by
  induction es with
  | nil => simp
  | cons e es ih =>
    rw [List.flatMap_cons, List.length_append, e.length_frame, List.length_cons]
    omega

lemma Logged.scan {es : List Entry} (h : Logged p es) {t : Bytes} (ht : Torn t) :
    Files.scan p.snapshotIndex (es.flatMap Entry.frame ++ t).length []
      (es.flatMap Entry.frame ++ t) = .ok (p.entries, t) := by
  obtain ⟨old, rfl, hold⟩ := h.split
  have hlen := length_le_frames (old ++ p.entries)
  obtain ⟨fuel, hfuel⟩ : ∃ fuel, ((old ++ p.entries).flatMap Entry.frame ++ t).length =
      fuel + p.entries.length + old.length := by
    refine ⟨((old ++ p.entries).flatMap Entry.frame ++ t).length - p.entries.length - old.length, ?_⟩
    rw [List.length_append] at hlen ⊢
    omega
  rw [hfuel, List.flatMap_append, List.append_assoc, Files.scan_skipped]
  · rw [Files.scan_numbered, Files.scan_torn _ _ _ ht, List.nil_append]
    · exact fun e he => h.fits e (List.mem_append_right _ he)
    · simp
    · simpa using h.numbered
  · exact fun e he => ⟨h.fits e (List.mem_append_left _ he), hold e he⟩

/-- Opening an image succeeds and restores the state. -/
theorem Image.open_ (h : Image f p) : ∃ s, f.open_ = .ok s ∧ Live s p := by
  rcases h.log with ⟨hlog, hent⟩ | ⟨es, t, hlog, hl, ht⟩
  · refine ⟨⟨{ f with log := some [] }, [], p.snapshotIndex, p.snapshotTerm⟩, ?_, ?_⟩
    · rw [Files.open_, hlog]
      simp only [h.state.readBase h.fits, CoreResult.ok_bind]
    · refine ⟨h.state, h.fits, hent.symm, rfl, rfl, [], rfl, ?_⟩
      exact ⟨by simp, ⟨[], by simp [hent], by simp⟩, by simp [hent]⟩
  · refine ⟨⟨{ f with log := some (es.flatMap Entry.frame) }, p.entries, p.snapshotIndex,
      p.snapshotTerm⟩, ?_, ⟨h.state, h.fits, rfl, rfl, rfl, es, rfl, hl⟩⟩
    rw [Files.open_, hlog]
    simp only [h.state.readBase h.fits, CoreResult.ok_bind, hl.scan ht]
    rw [List.length_append, Nat.add_sub_cancel, List.take_left]

end Restore

section Calls

/-- A cut through frames leaves whole frames and a torn one. -/
lemma take_frames (es : List Entry) (hfits : ∀ e ∈ es, e.Fits) (n : ℕ) :
    ∃ k t, (es.flatMap Entry.frame).take n = (es.take k).flatMap Entry.frame ++ t ∧ Torn t := by
  induction es generalizing n with
  | nil => exact ⟨0, [], by simp, Or.inl (by simp)⟩
  | cons e es ih =>
    rw [List.flatMap_cons, List.take_append]
    by_cases hn : n < e.frame.length
    · have h0 : n - e.frame.length = 0 := by omega
      refine ⟨0, e.frame.take n, by simp [h0], ?_⟩
      refine (hfits e List.mem_cons_self).torn (List.take_prefix _ _) ?_
      rw [List.length_take]
      omega
    · obtain ⟨k, t, heq, ht⟩ := ih (fun x hx => hfits x (List.mem_cons_of_mem _ hx))
        (n - e.frame.length)
      refine ⟨k+1, t, ?_, ht⟩
      rw [heq, List.take_of_length_le (not_lt.mp hn), List.take_succ_cons, List.flatMap_cons,
        List.append_assoc]

lemma Storage.state_append {Id : Type} (st : Storage Id) (es : List Entry) :
    (st.append es).state = { st.state with entries := st.state.entries ++ es } := by
  induction es generalizing st with
  | nil => simp [Storage.append]
  | cons e es ih =>
    have := ih (st.write { st.state with entries := st.state.entries ++ [e] })
    rw [Storage.append, List.foldl_cons]
    rw [Storage.append] at this
    rw [this]
    simp [Storage.write]

/-- Appended entries are short enough to be read back. -/
def StorageCall.Short : StorageCall → Prop
  | .append entries => ∀ e ∈ entries, e.data.length ≤ 524292
  | _ => True

variable {s : FileRaftStorage} {p : Persistent NodeId}

/-- What a call leaves: a live storage on the state of the in-memory one, and images of states that
survive a kill. -/
structure CallKept (s : FileRaftStorage) (p : Persistent NodeId) (c : StorageCall)
    (s' : FileRaftStorage) : Prop where
  done : s.call c = .ok s'
  live : Live s' (p.call c)
  images : ∀ f ∈ s.images c, ∃ q, p.Survives c q ∧ Image f q

theorem Live.saveTermVote (h : Live s p) {term : ℕ} {vote : Option NodeId} (ht : term < 2^64) :
    CallKept s p (.saveTermVote term vote) (s.saveTermVote term vote) := by
  obtain ⟨es, hlog, hl⟩ := h.log
  have live : Live (s.saveTermVote term vote) (p.call (.saveTermVote term vote)) := by
    refine ⟨Or.inl ?_, ⟨ht, h.fits.snapshotIndex, h.fits.snapshotTerm⟩, h.entries, h.snapshotIndex,
      h.snapshotTerm, es, hlog, ⟨hl.fits, hl.split, hl.numbered⟩⟩
    simp [FileRaftStorage.saveTermVote, h.snapshotIndex, h.snapshotTerm, Persistent.call,
      Storage.saveTermVote, Storage.write]
  refine ⟨rfl, live, fun f hf => ?_⟩
  simp only [FileRaftStorage.images, List.mem_cons, List.not_mem_nil, or_false] at hf
  rcases hf with rfl | rfl
  · exact ⟨p, Or.inl rfl, h.image⟩
  · exact ⟨_, Or.inr (Or.inl rfl), live.image⟩

lemma Logged.append {es new : List Entry} (hl : Logged p es) (hfits : ∀ e ∈ new, e.Fits)
    (hnew : ∀ k e, new[k]? = some e → e.index = p.snapshotIndex + p.entries.length + 1 + k) :
    Logged { p with entries := p.entries ++ new } (es ++ new) := by
  obtain ⟨old, rfl, hold⟩ := hl.split
  refine ⟨?_, ⟨old, List.append_assoc .., hold⟩, ?_⟩
  · intro e he
    rcases List.mem_append.mp he with he | he
    · exact hl.fits e he
    · exact hfits e he
  · intro k e hk
    rw [List.getElem?_append] at hk
    split at hk
    · exact hl.numbered k e hk
    · have := hnew _ e hk
      change e.index = p.snapshotIndex + 1 + k
      omega

theorem Live.append (h : Live s p) {new : List Entry} (hfits : ∀ e ∈ new, e.Fits)
    (hnew : ∀ k e, new[k]? = some e → e.index = p.snapshotIndex + p.entries.length + 1 + k) :
    CallKept s p (.append new) (s.append new) := by
  obtain ⟨es, hlog, hl⟩ := h.log
  have hcall : p.call (.append new) = { p with entries := p.entries ++ new } :=
    Storage.state_append ⟨p, []⟩ new
  have hbytes : s.logBytes = es.flatMap Entry.frame := by
    rw [FileRaftStorage.logBytes, hlog]
    rfl
  have live : Live (s.append new) (p.call (.append new)) := by
    rw [hcall]
    refine ⟨h.state, ⟨h.fits.term, h.fits.snapshotIndex, h.fits.snapshotTerm⟩, ?_, h.snapshotIndex,
      h.snapshotTerm, es ++ new, ?_, hl.append hfits hnew⟩
    · simp [FileRaftStorage.append, h.entries]
    · simp [FileRaftStorage.append, hbytes]
  refine ⟨rfl, live, fun f hf => ?_⟩
  simp only [FileRaftStorage.images, List.mem_map] at hf
  obtain ⟨n, -, rfl⟩ := hf
  obtain ⟨k, t, heq, ht⟩ := take_frames new hfits n
  refine ⟨{ p with entries := p.entries ++ new.take k }, Or.inr (Or.inr ⟨new, k, rfl, rfl⟩), ?_⟩
  refine ⟨h.state, ⟨h.fits.term, h.fits.snapshotIndex, h.fits.snapshotTerm⟩, Or.inr ⟨es ++ new.take k, t, ?_, ?_, ht⟩⟩
  · rw [heq, hbytes, List.flatMap_append, List.append_assoc]
  · refine hl.append (fun e he => hfits e (List.mem_of_mem_take he)) fun j e hj => ?_
    rw [List.getElem?_take] at hj
    split at hj
    · exact hnew j e hj
    · cases hj

theorem Live.truncateFrom (h : Live s p) {from_ : ℕ} :
    CallKept s p (.truncateFrom from_) (s.truncateFrom from_) := by
  obtain ⟨es, hlog, hl⟩ := h.log
  obtain ⟨old, rfl, hold⟩ := hl.split
  have hcut := filter_lt_of_numbered hl.numbered from_
  have live : Live (s.truncateFrom from_) (p.call (.truncateFrom from_)) := by
    refine ⟨h.state, ⟨h.fits.term, h.fits.snapshotIndex, h.fits.snapshotTerm⟩, ?_, h.snapshotIndex,
      h.snapshotTerm, p.entries.filter (·.index < from_), ?_, ?_⟩
    · exact congrArg (List.filter _) h.entries
    · simp [FileRaftStorage.truncateFrom, FileRaftStorage.rewriteLog, h.entries]
    · refine ⟨fun e he => hl.fits e (List.mem_append_right _ (List.mem_of_mem_filter he)),
        ⟨[], rfl, by simp⟩, fun k e hk => ?_⟩
      change (p.entries.filter (·.index < from_))[k]? = some e at hk
      rw [hcut, List.getElem?_take] at hk
      split at hk
      · exact hl.numbered k e hk
      · cases hk
  refine ⟨rfl, live, fun f hf => ?_⟩
  simp only [FileRaftStorage.images, List.mem_cons, List.not_mem_nil, or_false] at hf
  rcases hf with rfl | rfl
  · exact ⟨p, Or.inl rfl, h.image⟩
  · exact ⟨_, Or.inr (Or.inl rfl), live.image⟩

/-- The base is written before the log: in between the log holds redundant entries. -/
theorem Live.compactTo (h : Live s p) {index term : ℕ} (hi : index < 2^64) (ht : term < 2^64)
    (hm : p.snapshotIndex < index) :
    ∃ s', CallKept s p (.compactTo index term) s' := by
  obtain ⟨es, hlog, hl⟩ := h.log
  obtain ⟨old, rfl, hold⟩ := hl.split
  have hcut := filter_gt_of_numbered hl.numbered hm.le
  have hgt : ¬ index ≤ s.snapshotIndex := by
    rw [h.snapshotIndex]
    omega
  set q := p.call (.compactTo index term) with hq
  have hent : q.entries = p.entries.drop (index - p.snapshotIndex) := hcut
  have hnum : ∀ k e, q.entries[k]? = some e → e.index = q.snapshotIndex + 1 + k := by
    intro k e hk
    rw [hent, List.getElem?_drop] at hk
    have := hl.numbered _ e hk
    change e.index = index + 1 + k
    omega
  have hfits : q.Fits := ⟨h.fits.term, hi, ht⟩
  set b : FileRaftStorage := { s with
    files := { s.files with state := some (stateValue index term p.term p.votedFor).encode }
    snapshotIndex := index
    snapshotTerm := term } with hb
  have hbase : s.compactBase index term = .ok b := by
    rw [FileRaftStorage.compactBase, h.state.readState h.fits]
    rfl
  set s' : FileRaftStorage :=
    FileRaftStorage.rewriteLog { b with entries := b.entries.filter (index < ·.index) } with hs'
  have hcall : s.compactTo index term = .ok s' := by
    rw [FileRaftStorage.compactTo, if_neg hgt, hbase]
    rfl
  have live : Live s' q := by
    refine ⟨Or.inl rfl, hfits, ?_, rfl, rfl, q.entries, ?_, ?_⟩
    · exact congrArg (List.filter _) h.entries
    · simp [hs', FileRaftStorage.rewriteLog, hb, h.entries, hq, Persistent.call, Storage.compactTo,
        Storage.write]
    · refine ⟨fun e he => hl.fits e (List.mem_append_right _ ?_), ⟨[], rfl, by simp⟩, hnum⟩
      rw [hent] at he
      exact List.mem_of_mem_drop he
  have between : Image b.files q := by
    refine ⟨Or.inl rfl, hfits, Or.inr ⟨old ++ p.entries, [], by rw [List.append_nil]; exact hlog,
      ⟨hl.fits, ⟨old ++ p.entries.take (index - p.snapshotIndex), ?_, ?_⟩, hnum⟩,
      Or.inl (by simp)⟩⟩
    · rw [hent, List.append_assoc, List.take_append_drop]
    · intro e he
      rcases List.mem_append.mp he with he | he
      · exact (hold e he).trans hm.le
      · obtain ⟨k, hk⟩ := List.mem_iff_getElem?.mp he
        rw [List.getElem?_take] at hk
        split at hk
        · have := hl.numbered k e hk
          change e.index ≤ index
          omega
        · cases hk
  refine ⟨s', hcall, live, fun f hf => ?_⟩
  simp only [FileRaftStorage.images, hbase, hcall, if_neg hgt, List.cons_append, List.nil_append,
    List.mem_cons, List.not_mem_nil, or_false] at hf
  rcases hf with rfl | rfl | rfl
  · exact ⟨p, Or.inl rfl, h.image⟩
  · exact ⟨q, Or.inr (Or.inl rfl), between⟩
  · exact ⟨q, Or.inr (Or.inl rfl), live.image⟩

/-- Every call a node makes, on entries that can be read back. -/
theorem Live.call (h : Live s p) {c : StorageCall} (hm : c.Made p) (hs : c.Short) :
    ∃ s', CallKept s p c s' := by
  cases c with
  | saveTermVote term vote => exact ⟨_, h.saveTermVote hm⟩
  | append new =>
    refine ⟨_, h.append (fun e he => ?_) fun k e hk => (hm k e hk).2.2⟩
    obtain ⟨k, hk⟩ := List.mem_iff_getElem?.mp he
    exact ⟨hs e he, (hm k e hk).1, (hm k e hk).2.1⟩
  | truncateFrom from_ => exact ⟨_, h.truncateFrom⟩
  | compactTo index term => exact h.compactTo hm.2.2.1 hm.2.2.2 hm.1

end Calls

/-- A directory in use, with the state the in-memory storage has, or left by a kill, with the states
that may be found in it. -/
inductive Disk
  | up (s : FileRaftStorage) (p : Persistent NodeId)
  | down (f : Files) (found : Persistent NodeId → Prop)

inductive DiskEvent
  | opened
  | called (c : StorageCall)
  /-- The process dies inside a call. -/
  | killed (c : StorageCall)
  /-- The process dies inside `open_`. -/
  | killedOpening

/-- One event. Recovery may find any state that `found` allows. -/
inductive Disk.Step : Disk → DiskEvent → Disk → Prop
  | opened {f found s p} : f.open_ = .ok s → s.load = .ok p → Step (.down f found) .opened (.up s p)
  | called {s p c s'} : c.Made p → s.call c = .ok s' →
      Step (.up s p) (.called c) (.up s' (p.call c))
  | killed {s p c f} : c.Made p → f ∈ s.images c →
      Step (.up s p) (.killed c) (.down f (p.Survives c))
  | killedOpening {f found f'} : f' ∈ f.openImages →
      Step (.down f found) .killedOpening (.down f' found)

/-- The states of a directory, from an empty one, by events that `ok` allows. -/
inductive Disk.Reached (ok : Disk → DiskEvent → Prop) : Disk → Prop
  | empty : Reached ok (.down ⟨none, none⟩ (· = Persistent.default))
  | step {d e d'} : Reached ok d → ok d e → Step d e d' → Reached ok d'

/-- An open storage holds the state of the in-memory one and takes the next call; what a kill left
can be opened and holds one of the states allowed, with contiguous entries from the base on. -/
def Disk.Restores : Disk → Prop
  | .up s p => s.load = .ok p ∧ ∀ c : StorageCall, c.Made p → ∃ s', s.call c = .ok s'
  | .down f found => ∃ s p, f.open_ = .ok s ∧ s.load = .ok p ∧ found p ∧
      ∀ k e, p.entries[k]? = some e → e.index = p.snapshotIndex + 1 + k

/-- Appended entries have at most 524,292 bytes. -/
def DiskEvent.Short : DiskEvent → Prop
  | .called c | .killed c => c.Short
  | _ => True

/-- The log ends in the first part of a frame. -/
def Files.TornTail (f : Files) : Prop :=
  ∃ (es : List Entry) (t : Bytes), f.log = some (es.flatMap Entry.frame ++ t) ∧ Torn t ∧ t ≠ []

/-- No kill inside an `open_` that drops a torn tail. -/
def Disk.Unhurried : Disk → DiskEvent → Prop
  | .down f _, .killedOpening => ¬ f.TornTail
  | _, _ => True

section Runs
variable {s : FileRaftStorage} {p : Persistent NodeId} {f f' : Files}

lemma Live.calls (h : Live s p) (c : StorageCall) (hm : c.Made p) : ∃ s', s.call c = .ok s' := by
  cases c with
  | saveTermVote term vote => exact ⟨_, rfl⟩
  | append new => exact ⟨_, rfl⟩
  | truncateFrom from_ => exact ⟨_, rfl⟩
  | compactTo index term =>
    obtain ⟨s', hk⟩ := h.compactTo hm.2.2.1 hm.2.2.2 hm.1
    exact ⟨s', hk.done⟩

lemma Image.numbered (h : Image f p) :
    ∀ k e, p.entries[k]? = some e → e.index = p.snapshotIndex + 1 + k := by
  rcases h.log with ⟨-, hent⟩ | ⟨es, t, -, hl, -⟩
  · simp [hent]
  · exact hl.numbered

/-- With no torn tail `open_` writes nothing but a missing log. -/
lemma Image.openImages (h : Image f p) (hw : ¬ f.TornTail) (hf : f' ∈ f.openImages) :
    Image f' p := by
  rcases h.log with ⟨hlog, hent⟩ | ⟨es, t, hlog, hl, ht⟩
  · rw [Files.openImages, hlog] at hf
    simp only [List.mem_cons, List.not_mem_nil, or_false] at hf
    rcases hf with rfl | rfl
    · exact h
    · refine ⟨h.state, h.fits, Or.inr ⟨[], [], rfl, ?_, Or.inl (by simp)⟩⟩
      exact ⟨by simp, ⟨[], by simp [hent], by simp⟩, by simp [hent]⟩
  · have hnil : t = [] := by
      by_contra hne
      exact hw ⟨es, t, hlog, ht, hne⟩
    subst hnil
    rw [Files.openImages, hlog] at hf
    simp only [h.state.readBase h.fits, Except.bind, hl.scan ht, List.mem_singleton] at hf
    rw [hf]
    exact h

/-- The repair of a torn tail first empties the file. -/
lemma Image.emptied {es : List Entry} {t : Bytes} (h : Image f p)
    (hlog : f.log = some (es.flatMap Entry.frame ++ t)) (hl : Logged p es) (ht : Torn t)
    (hne : t ≠ []) : { f with log := some [] } ∈ f.openImages := by
  obtain ⟨b, r, rfl⟩ := List.exists_cons_of_ne_nil hne
  rw [Files.openImages, hlog]
  simp only [h.state.readBase h.fits, Except.bind, hl.scan ht]
  refine List.mem_cons_of_mem _ (List.mem_map.mpr ⟨0, ?_, by rw [List.take_zero]⟩)
  rw [List.mem_range]
  omega

/-- What holds along a run of short entries without a kill inside a repair. -/
def Disk.Held : Disk → Prop
  | .up s p => Live s p
  | .down f found => ∃ p, found p ∧ Image f p

lemma Disk.Held.step {d d' : Disk} {e : DiskEvent} (h : d.Held) (hshort : e.Short)
    (hu : d.Unhurried e) (hs : d.Step e d') : d'.Held := by
  cases hs with
  | opened ho hload =>
    obtain ⟨q, -, himage⟩ := h
    obtain ⟨s', hs', hlive⟩ := himage.open_
    rw [ho] at hs'
    cases hs'
    have := hlive.load
    rw [hload] at this
    cases this
    exact hlive
  | called hm hcall =>
    obtain ⟨s', hk⟩ := Live.call h hm hshort
    have := hk.done
    rw [hcall] at this
    cases this
    exact hk.live
  | killed hm hf =>
    obtain ⟨s', hk⟩ := Live.call h hm hshort
    exact hk.images _ hf
  | killedOpening hf =>
    obtain ⟨q, hq, himage⟩ := h
    exact ⟨q, hq, himage.openImages hu hf⟩

lemma Disk.Held.restores {d : Disk} (h : d.Held) : d.Restores := by
  cases d with
  | up s p => exact ⟨Live.load h, Live.calls h⟩
  | down f found =>
    obtain ⟨p, hp, himage⟩ := h
    obtain ⟨s, hs, hlive⟩ := himage.open_
    exact ⟨s, p, hs, hlive.load, hp, himage.numbered⟩

/-- A directory survives a kill at any point, when its entries can be read back and no kill falls
inside the repair of a torn tail. -/
theorem reached_restores {d : Disk} (h : d.Reached fun d e => e.Short ∧ d.Unhurried e) :
    d.Restores := by
  suffices d.Held from this.restores
  induction h with
  | empty =>
    refine ⟨_, rfl, Or.inr (by simp [Persistent.default]), ?_, Or.inl (by simp [Persistent.default])⟩
    constructor <;> simp [Persistent.default]
  | step _ hok hs ih => exact ih.step hok.1 hok.2 hs

lemma StorageCall.made_append_singleton {e : Entry} (ht : e.term < 2^64) (hi : e.index < 2^64)
    (hidx : e.index = p.snapshotIndex + p.entries.length + 1) :
    (StorageCall.append [e]).Made p := by
  intro k x hk
  rw [List.getElem?_singleton] at hk
  split at hk
  · cases hk
    subst k
    exact ⟨ht, hi, hidx⟩
  · cases hk

/-- The storage of an empty directory, after one append. -/
def oneEntry (e : Entry) : FileRaftStorage := ⟨⟨none, some e.frame⟩, [e], 0, 0⟩

lemma reached_oneEntry (ok : Disk → DiskEvent → Prop) (e : Entry) (ht : e.term < 2^64)
    (hi : e.index = 1) (hopen : ∀ f found, ok (.down f found) .opened)
    (hcall : ∀ s p, ok (.up s p) (.called (.append [e]))) :
    Disk.Reached ok (.up (oneEntry e) { Persistent.default with entries := [e] }) := by
  let s : FileRaftStorage := ⟨⟨none, some []⟩, [], 0, 0⟩
  have opened : Disk.Reached ok (.up s Persistent.default) :=
    .step .empty (hopen _ _) (.opened rfl rfl)
  refine .step opened (hcall _ _) (.called (StorageCall.made_append_singleton ht ?_ hi) ?_)
  · rw [hi]
    decide
  · simp [s, FileRaftStorage.call, FileRaftStorage.append, FileRaftStorage.logBytes, oneEntry]

/-- A second append that dies in its first byte. -/
lemma reached_torn (ok : Disk → DiskEvent → Prop) (e e' : Entry) (ht : e.term < 2^64)
    (hi : e.index = 1) (ht' : e'.term < 2^64) (hi' : e'.index = 2)
    (hopen : ∀ f found, ok (.down f found) .opened)
    (hcall : ∀ s p, ok (.up s p) (.called (.append [e])))
    (hkill : ∀ s p, ok (.up s p) (.killed (.append [e']))) :
    Disk.Reached ok (.down ⟨none, some (e.frame ++ [0x43])⟩
      (Persistent.Survives { Persistent.default with entries := [e] } (.append [e']))) := by
  refine .step (reached_oneEntry ok e ht hi hopen hcall) (hkill _ _)
    (.killed (StorageCall.made_append_singleton ht' ?_ hi') (List.mem_map.mpr ⟨1, ?_, ?_⟩))
  · rw [hi']
    decide
  · rw [List.mem_range]
    simp [Entry.length_frame]
  · simp [oneEntry, FileRaftStorage.logBytes, Entry.frame, frameMagic]

/-- An empty directory is opened, an entry is appended, and a second append dies in its first byte:
the first entry is still there. -/
theorem reached_restores_torn :
    Disk.Restores (.down ⟨none, some ((Entry.mk 1 1 []).frame ++ [0x43])⟩
      (Persistent.Survives { Persistent.default with entries := [⟨1, 1, []⟩] }
        (.append [⟨1, 2, []⟩]))) := by
  have hshort : ∀ i, ∀ e ∈ [Entry.mk 1 i []], e.data.length ≤ 524292 := by simp
  exact reached_restores (reached_torn _ ⟨1, 1, []⟩ ⟨1, 2, []⟩ (by decide) rfl (by decide) rfl
    (fun _ _ => ⟨trivial, trivial⟩) (fun _ _ => ⟨hshort 1, trivial⟩)
    fun _ _ => ⟨hshort 2, trivial⟩)

/-- A frame with too much data cannot be read back. -/
lemma Files.open_long {e : Entry} (hlong : 524292 < e.data.length) (hsize : e.size < 2^32)
    (s : FileRaftStorage) : (Files.mk none (some e.frame)).open_ ≠ .ok s := by
  obtain ⟨hmagic, hlen, hcrc, hbody, -⟩ := Entry.frame_fields hsize []
  rw [List.append_nil] at hmagic hlen hcrc hbody
  have hdecode : ∀ x : Entry, Canonical.decode (Canonical.encode e) Limits.v1 ≠ .ok x := by
    intro x hx
    have := (e.fits_iff 0 (by decide)).mp ((decode_encode_iff e rfl Limits.v1 x).mp hx).2.1
    omega
  have hscan : ∀ r, scan 0 e.frame.length [] e.frame ≠ .ok r := by
    intro r hr
    have h12 : ¬ e.frame.length < 12 := by
      rw [e.length_frame]
      omega
    have hfull : ¬ e.frame.length < 12 + (Canonical.encode e).length := by
      rw [e.length_frame]
      omega
    obtain ⟨fuel, hfuel⟩ : ∃ fuel, e.frame.length = fuel + 1 := ⟨e.frame.length - 1, by omega⟩
    rw [hfuel, scan, if_neg h12, if_neg (not_not.mpr hmagic)] at hr
    simp only [hlen, hcrc, hbody] at hr
    rw [if_neg hfull, if_neg (not_not.mpr rfl)] at hr
    cases hd : (Canonical.decode (Canonical.encode e) Limits.v1 : CoreResult Entry) with
    | error x =>
      rw [hd] at hr
      cases hr
    | ok x => exact hdecode x hd
  intro hs
  cases hd : scan 0 e.frame.length [] e.frame with
  | error x =>
    simp only [open_, readBase, CoreResult.ok_bind, hd] at hs
    cases hs
  | ok r => exact hscan r hd

/-- A kill inside the repair of a torn tail loses an entry of a completed append; and a completed
append of more data than the decoder takes makes the directory unreadable. -/
theorem kill_in_repair_or_long_entry_loses :
    (∃ d : Disk, d.Reached (fun _ e => e.Short) ∧ ¬ d.Restores) ∧
      ∃ d : Disk, d.Reached (fun d e => d.Unhurried e) ∧ ¬ d.Restores := by
  constructor
  · have hshort : ∀ i, ∀ e ∈ [Entry.mk 1 i []], e.data.length ≤ 524292 := by simp
    have htorn := reached_torn (fun _ e => e.Short) ⟨1, 1, []⟩ ⟨1, 2, []⟩
      (by decide) rfl (by decide) rfl (fun _ _ => trivial) (fun _ _ => hshort 1)
      fun _ _ => hshort 2
    set p : Persistent NodeId := { Persistent.default with entries := [⟨1, 1, []⟩] } with hp
    have hl : Logged p [⟨1, 1, []⟩] := by
      refine ⟨?_, ⟨[], rfl, by simp⟩, ?_⟩
      · intro e he
        rw [List.mem_singleton.mp he]
        exact ⟨by simp, by decide, by decide⟩
      · intro k e hk
        change [Entry.mk 1 1 []][k]? = some e at hk
        rw [List.getElem?_singleton] at hk
        split at hk
        · cases hk
          subst k
          rfl
        · cases hk
    have himage : Image ⟨none, some ((Entry.mk 1 1 []).frame ++ [0x43])⟩ p :=
      ⟨Or.inr (by simp [hp, Persistent.default]),
        ⟨by simp [hp, Persistent.default], by simp [hp, Persistent.default],
          by simp [hp, Persistent.default]⟩,
        Or.inr ⟨[⟨1, 1, []⟩], [0x43], by simp, hl, Or.inl (by simp)⟩⟩
    have hlog : some ((Entry.mk 1 1 []).frame ++ [0x43]) =
        some ([(⟨1, 1, []⟩ : Entry)].flatMap Entry.frame ++ [0x43]) := by simp
    have hempty := himage.emptied hlog hl (Or.inl (by simp)) (by simp)
    refine ⟨_, .step (e := .killedOpening) htorn trivial (.killedOpening hempty), ?_⟩
    rintro ⟨s, q, hopen, hload, hfound, -⟩
    have hs : s = ⟨⟨none, some []⟩, [], 0, 0⟩ := (Except.ok.inj hopen).symm
    subst hs
    have hq : q.entries = [] := by
      rw [← Except.ok.inj hload]
    rcases hfound with rfl | rfl | ⟨entries, k, -, rfl⟩
    · simp [hp] at hq
    · simp [hp, Persistent.call, Storage.state_append] at hq
    · simp [hp] at hq
  · obtain ⟨data, hlen⟩ : ∃ data : Bytes, data.length = 524293 :=
      ⟨List.replicate 524293 0, List.length_replicate⟩
    set e : Entry := ⟨1, 1, data⟩ with he
    have hone := reached_oneEntry (fun d e => d.Unhurried e) e (by simp [he]) rfl
      (fun _ _ => trivial) fun _ _ => trivial
    refine ⟨_, .step hone (e := .killed (.saveTermVote 1 none)) trivial
      (.killed (by simp [StorageCall.Made]) List.mem_cons_self), ?_⟩
    rintro ⟨s, q, hopen, -⟩
    refine Files.open_long (by rw [hlen]; decide) ?_ s hopen
    have h₁ := digits_le e.index
    have h₂ := digits_le e.term
    rw [Entry.size, he]
    rw [he] at h₁ h₂
    simp only [hlen]
    simp only at h₁ h₂
    omega

end Runs

end CarolinaDB.Consensus
