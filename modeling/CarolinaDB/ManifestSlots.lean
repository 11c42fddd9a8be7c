import CarolinaDB.PageHeader
import CarolinaDB.StoreCalls

/-!
# The two manifest slots

A manifest is a record of 160 bytes with a checksum, published into one of two files by turns.
A publication may be torn; the slot that holds the newest complete one is never written.
-/
namespace CarolinaDB.Storage

def manifestFormatVersion : ℕ := 1
def keyCodecVersion : ℕ := 1
def manifestMagic : Bytes := [0x43, 0x44, 0x42, 0x4d]
def manifestLen : ℕ := 160

/-- A manifest as it is written. -/
structure ManifestRecord where
  manifestGeneration : UInt64
  storageEpoch : UInt64
  rootPageId : UInt64
  nextPageId : UInt64
  freeListHead : UInt64
  checkpointLsn : UInt64
  checkpointCommitSeq : UInt64
  journalSegment : UInt64
  storageId : Octets 16
  clusterId : Octets 16
  deriving DecidableEq

namespace ManifestRecord

/-- The numbers after the magic, in the order of the layout. -/
def numbers (m : ManifestRecord) : List (ℕ × ℕ) :=
  [(2, manifestFormatVersion), (2, pageFormatVersion), (2, journalFormatVersion), (2, 0),
    (4, keyCodecVersion), (8, m.manifestGeneration.toNat), (8, m.storageEpoch.toNat), (4, pageSize),
    (4, 0), (8, m.rootPageId.toNat), (8, m.nextPageId.toNat), (8, m.freeListHead.toNat),
    (8, m.checkpointLsn.toNat), (8, m.checkpointCommitSeq.toNat), (8, m.journalSegment.toNat)]

/-- All but the checksum. -/
def head (m : ManifestRecord) : Bytes :=
  manifestMagic ++ (pack m.numbers ++ (m.storageId.val ++ (m.clusterId.val ++ List.replicate 36 0)))

def encode (m : ManifestRecord) : Bytes := m.head ++ littleEndian 4 (crc32c m.head).toNat

/-- The checks on a record of full length, and its fields. -/
def decodeWhole (m : Bytes) : CoreResult ManifestRecord :=
  if slice m 0 4 ≠ manifestMagic then .error (.new .invalidManifest "bad manifest magic")
  else if (crc32c (m.take (manifestLen - 4))).toNat ≠ numberAt m (manifestLen - 4) 4 then
    .error (.new .invalidManifest "manifest checksum mismatch")
  else if numberAt m 4 2 ≠ manifestFormatVersion ∨ numberAt m 6 2 ≠ pageFormatVersion ∨
      numberAt m 8 2 ≠ journalFormatVersion ∨ numberAt m 12 4 ≠ keyCodecVersion then
    .error (.new .unsupportedFormat ("format versions manifest=" ++ toString (numberAt m 4 2) ++
      " page=" ++ toString (numberAt m 6 2) ++ " journal=" ++ toString (numberAt m 8 2) ++
      " key_codec=" ++ toString (numberAt m 12 4)))
  else if numberAt m 32 4 ≠ pageSize then
    .error (.new .unsupportedFormat
      ("page size " ++ toString (numberAt m 32 4) ++ " != " ++ toString pageSize))
  else if h : (slice m 88 16).length = 16 ∧ (slice m 104 16).length = 16 then
    .ok ⟨.ofNat (numberAt m 16 8), .ofNat (numberAt m 24 8), .ofNat (numberAt m 40 8),
      .ofNat (numberAt m 48 8), .ofNat (numberAt m 56 8), .ofNat (numberAt m 64 8),
      .ofNat (numberAt m 72 8), .ofNat (numberAt m 80 8), ⟨slice m 88 16, h.1⟩,
      ⟨slice m 104 16, h.2⟩⟩
  else .error .panicked

def decode (bytes : Bytes) : CoreResult ManifestRecord :=
  if bytes.length < manifestLen then .error (.new .invalidManifest "manifest too short")
  else decodeWhole (bytes.take manifestLen)

section Layout
variable (m : ManifestRecord)

lemma length_head : m.head.length = 156 := by
  simp [head, manifestMagic, length_pack, numbers, m.storageId.2, m.clusterId.2]

lemma length_encode : m.encode.length = manifestLen := by
  rw [encode, List.length_append, length_head, length_littleEndian, manifestLen]

/-- The k-th number of the record. -/
lemma numberAt_encode (k : ℕ) {n x o : ℕ}
    (hnumbers : m.numbers = m.numbers.take k ++ (n, x) :: m.numbers.drop (k + 1)) (hx : x < 256 ^ n)
    (ho : 4 + ((m.numbers.take k).map Prod.fst).sum = o) : numberAt m.encode o n = x := by
  have hsplit : m.encode = manifestMagic ++ (pack (m.numbers.take k ++ (n, x) ::
      m.numbers.drop (k + 1)) ++ (m.storageId.val ++ (m.clusterId.val ++ List.replicate 36 0) ++
        littleEndian 4 (crc32c m.head).toNat)) := by
    rw [← hnumbers]
    simp [encode, head]
  rw [hsplit]
  exact numberAt_pack _ _ hx ho

lemma word_encode (k : ℕ) (x : UInt64) {o : ℕ}
    (hnumbers : m.numbers = m.numbers.take k ++ (8, x.toNat) :: m.numbers.drop (k + 1))
    (ho : 4 + ((m.numbers.take k).map Prod.fst).sum = o) :
    UInt64.ofNat (numberAt m.encode o 8) = x := by
  have hx : x.toNat < 256 ^ 8 := x.toNat_lt
  rw [m.numberAt_encode k hnumbers hx ho, UInt64.ofNat_toNat]

lemma storageId_encode : slice m.encode 88 16 = m.storageId.val := by
  have hsplit : m.encode = (manifestMagic ++ pack m.numbers) ++ (m.storageId.val ++
      (m.clusterId.val ++ List.replicate 36 0 ++ littleEndian 4 (crc32c m.head).toNat)) := by
    simp [encode, head]
  rw [hsplit]
  exact slice_middle (by simp [manifestMagic, length_pack, numbers]) m.storageId.2 _

lemma clusterId_encode : slice m.encode 104 16 = m.clusterId.val := by
  have hsplit : m.encode = (manifestMagic ++ pack m.numbers ++ m.storageId.val) ++
      (m.clusterId.val ++ (List.replicate 36 0 ++ littleEndian 4 (crc32c m.head).toNat)) := by
    simp [encode, head]
  rw [hsplit]
  exact slice_middle (by simp [manifestMagic, length_pack, numbers, m.storageId.2]) m.clusterId.2 _

lemma crc_encode : (crc32c (m.encode.take (manifestLen - 4))).toNat =
    numberAt m.encode (manifestLen - 4) 4 := by
  change (crc32c (m.encode.take 156)).toNat = numberAt m.encode 156 4
  have htake : m.encode.take 156 = m.head := by
    rw [encode, List.take_append_of_le_length (by rw [length_head]),
      List.take_of_length_le (by rw [length_head])]
  have hnumber : numberAt m.encode 156 4 = (crc32c m.head).toNat := by
    rw [encode, ← List.append_nil (littleEndian 4 _)]
    exact numberAt_littleEndian m.length_head (crc32c m.head).toNat_lt _
  rw [htake, hnumber]

end Layout

/-- A record is read back, whatever follows it. -/
theorem decode_encode (m : ManifestRecord) : decode m.encode = .ok m := by
  have htake : m.encode.take manifestLen = m.encode :=
    List.take_of_length_le m.length_encode.le
  have hcrc := m.crc_encode
  have hgeneration := m.word_encode 5 m.manifestGeneration (o := 16) rfl (by simp [numbers])
  have hepoch := m.word_encode 6 m.storageEpoch (o := 24) rfl (by simp [numbers])
  have hroot := m.word_encode 9 m.rootPageId (o := 40) rfl (by simp [numbers])
  have hnext := m.word_encode 10 m.nextPageId (o := 48) rfl (by simp [numbers])
  have hfree := m.word_encode 11 m.freeListHead (o := 56) rfl (by simp [numbers])
  have hlsn := m.word_encode 12 m.checkpointLsn (o := 64) rfl (by simp [numbers])
  have hseq := m.word_encode 13 m.checkpointCommitSeq (o := 72) rfl (by simp [numbers])
  have hsegment := m.word_encode 14 m.journalSegment (o := 80) rfl (by simp [numbers])
  have hversions : numberAt m.encode 4 2 = 1 ∧ numberAt m.encode 6 2 = 1 ∧
      numberAt m.encode 8 2 = 1 ∧ numberAt m.encode 12 4 = 1 ∧ numberAt m.encode 32 4 = pageSize :=
    ⟨m.numberAt_encode 0 rfl (by decide) (by simp [numbers]), m.numberAt_encode 1 rfl (by decide) (by simp [numbers]),
      m.numberAt_encode 2 rfl (by decide) (by simp [numbers]), m.numberAt_encode 4 rfl (by decide) (by simp [numbers]),
      m.numberAt_encode 7 rfl (by decide) (by simp [numbers])⟩
  have hmagic : slice m.encode 0 4 = manifestMagic := by
    rw [encode, head, List.append_assoc]
    exact slice_middle (a := []) (b := manifestMagic) rfl rfl _
  obtain ⟨h₀, h₁, h₂, h₄, h₇⟩ := hversions
  have hids : (slice m.encode 88 16).length = 16 ∧ (slice m.encode 104 16).length = 16 := by
    rw [storageId_encode, clusterId_encode]
    exact ⟨m.storageId.2, m.clusterId.2⟩
  rw [decode, if_neg (by rw [length_encode]; omega), htake, decodeWhole,
    if_neg (not_not.mpr hmagic), if_neg (not_not.mpr hcrc),
    if_neg (by simp [h₀, h₁, h₂, h₄, manifestFormatVersion, pageFormatVersion, journalFormatVersion,
      keyCodecVersion]), if_neg (not_not.mpr h₇), dif_pos hids]
  simp only [hgeneration, hepoch, hroot, hnext, hfree, hlsn, hseq, hsegment, storageId_encode,
    clusterId_encode]

end ManifestRecord

/-! ### Slots -/

def readManifest : Option Bytes → Option ManifestRecord
  | none => none
  | some bytes =>
    if bytes.length < manifestLen then none else (ManifestRecord.decode bytes).toOption

inductive Slot
  | a | b
  deriving DecidableEq, Repr

def Slot.other : Slot → Slot
  | .a => .b
  | .b => .a

/-- The files MANIFEST.A and MANIFEST.B. -/
structure Slots where
  a : Option Bytes
  b : Option Bytes

namespace Slots

def get (s : Slots) : Slot → Option Bytes
  | .a => s.a
  | .b => s.b

def set (s : Slots) : Slot → Option Bytes → Slots
  | .a, file => { s with a := file }
  | .b, file => { s with b := file }

/-- The manifest that the store opens with. -/
def newest (s : Slots) : CoreResult ManifestRecord :=
  match readManifest s.a, readManifest s.b with
  | some x, some y => .ok (if y.manifestGeneration ≤ x.manifestGeneration then x else y)
  | some x, none => .ok x
  | none, some x => .ok x
  | none, none => .error (.new .invalidManifest "no valid manifest")

def generation (s : Slots) (slot : Slot) : UInt64 :=
  ((readManifest (s.get slot)).map ManifestRecord.manifestGeneration).getD 0

/-- The slot that a publication writes: the one without the highest generation. -/
def target (s : Slots) : Slot := if s.generation .b < s.generation .a then .b else .a

/-- The slot holds this manifest, and the other one nothing as new. -/
structure Holds (s : Slots) (slot : Slot) (m : ManifestRecord) : Prop where
  read : readManifest (s.get slot) = some m
  older : ∀ m', readManifest (s.get slot.other) = some m' →
    m'.manifestGeneration < m.manifestGeneration
  positive : 0 < m.manifestGeneration

variable {s : Slots} {slot : Slot} {m : ManifestRecord}

@[simp] lemma get_set_self (s : Slots) (slot : Slot) (file : Option Bytes) :
    (s.set slot file).get slot = file := by
  cases slot <;> rfl

@[simp] lemma get_set_other (s : Slots) (slot : Slot) (file : Option Bytes) :
    (s.set slot.other file).get slot = s.get slot := by
  cases slot <;> rfl

@[simp] lemma other_other (slot : Slot) : slot.other.other = slot := by
  cases slot <;> rfl

lemma Holds.newest (h : s.Holds slot m) : s.newest = .ok m := by
  unfold Slots.newest
  cases slot with
  | a =>
    have hread : readManifest s.a = some m := h.read
    rw [hread]
    cases hb : readManifest s.b with
    | none => rfl
    | some m' =>
      have hlt := h.older m' hb
      dsimp only
      rw [if_pos hlt.le]
  | b =>
    have hread : readManifest s.b = some m := h.read
    rw [hread]
    cases ha : readManifest s.a with
    | none => rfl
    | some m' =>
      have hlt := h.older m' ha
      dsimp only
      rw [if_neg (not_le.mpr hlt)]

lemma Holds.generation_other (h : s.Holds slot m) :
    s.generation slot.other < s.generation slot := by
  have hself : s.generation slot = m.manifestGeneration := by
    rw [generation, h.read]
    rfl
  rw [hself, generation]
  cases hother : readManifest (s.get slot.other) with
  | none => exact h.positive
  | some m' => exact h.older m' hother

/-- A publication writes the other slot. -/
lemma Holds.target (h : s.Holds slot m) : s.target = slot.other := by
  have hlt := h.generation_other
  unfold Slots.target
  cases slot with
  | a => exact if_pos hlt
  | b => exact if_neg (not_lt.mpr (le_of_lt hlt))

end Slots

lemma readManifest_encode (m : ManifestRecord) : readManifest (some m.encode) = some m := by
  rw [readManifest, if_neg (by rw [m.length_encode]; omega), m.decode_encode]
  rfl

/-- What a slot holds after a write that may have stopped anywhere: the file is truncated, then
written, then synced. The checksum detects what is neither the old nor the new content. -/
inductive Written (old : Option Bytes) (m : ManifestRecord) : Option Bytes → Prop
  | whole : Written old m (some m.encode)
  | untouched : Written old m old
  | torn {bytes : Bytes} : readManifest (some bytes) = none → Written old m (some bytes)

/-- A write that stopped within the record. -/
lemma Written.of_take (old : Option Bytes) (m : ManifestRecord) {k : ℕ} (hk : k < manifestLen) :
    Written old m (some (m.encode.take k)) := by
  apply Written.torn
  have hshort : (m.encode.take k).length < manifestLen := by
    rw [List.length_take]
    omega
  rw [readManifest, if_pos hshort]

/-- The slots, the manifest of the store that has them open, if one has, and what was published,
the newest first. -/
structure Publisher where
  slots : Slots
  current : Option ManifestRecord
  published : List ManifestRecord

/-- A manifest with the next generation. Running past the width of the counter is a panic. -/
def NextGeneration (c m : ManifestRecord) : Prop :=
  m.manifestGeneration.toNat = c.manifestGeneration.toNat + 1

namespace Publisher

/-- A new store: the first manifest is in the first slot. -/
def create (m : ManifestRecord) : Publisher := ⟨⟨some m.encode, none⟩, some m, [m]⟩

/-- A publication that returns, one that does not and leaves its slot in some state, the end of a
process, and the next one that opens the store. -/
inductive Step : Publisher → Publisher → Prop
  | publish {p : Publisher} {c m : ManifestRecord} : p.current = some c → NextGeneration c m →
    Step p ⟨p.slots.set p.slots.target (some m.encode), some m, m :: p.published⟩
  | interrupted {p : Publisher} {c m : ManifestRecord} {file : Option Bytes} : p.current = some c →
    NextGeneration c m → Written (p.slots.get p.slots.target) m file →
    Step p ⟨p.slots.set p.slots.target file, none,
      if readManifest file = some m then m :: p.published else p.published⟩
  | close {p : Publisher} : Step p { p with current := none }
  | reopen {p : Publisher} {m : ManifestRecord} : p.slots.newest = .ok m →
    Step p { p with current := some m }

/-- One slot holds what was published last, and an open store works with that. -/
structure Sound (p : Publisher) (m : ManifestRecord) : Prop where
  last : p.published.head? = some m
  holds : ∃ slot, p.slots.Holds slot m
  current : ∀ c, p.current = some c → c = m
  sorted : p.published.Pairwise fun x y => y.manifestGeneration < x.manifestGeneration

variable {p p' : Publisher} {m m' : ManifestRecord}

lemma lt_of_nextGeneration (h : NextGeneration m m') :
    m.manifestGeneration < m'.manifestGeneration := by
  rw [UInt64.lt_iff_toNat_lt, h]
  omega

/-- A completed publication is in the other slot, and newer. -/
lemma holds_published {s : Slots} {slot : Slot} (h : s.Holds slot m) (hnext : NextGeneration m m') :
    (s.set slot.other (some m'.encode)).Holds slot.other m' where
  read := by rw [Slots.get_set_self, readManifest_encode]
  older x hx := by
    rw [Slots.other_other, Slots.get_set_other, h.read] at hx
    cases hx
    exact lt_of_nextGeneration hnext
  positive := lt_trans h.positive (lt_of_nextGeneration hnext)

lemma sorted_published (h : p.Sound m) (hnext : NextGeneration m m') :
    (m' :: p.published).Pairwise fun x y => y.manifestGeneration < x.manifestGeneration := by
  have hlt := lt_of_nextGeneration hnext
  have hsorted := h.sorted
  obtain ⟨rest, hrest⟩ : ∃ rest, p.published = m :: rest := List.head?_eq_some_iff.mp h.last
  rw [hrest] at hsorted ⊢
  refine List.pairwise_cons.mpr ⟨fun x hx => ?_, hsorted⟩
  obtain rfl | hx := List.mem_cons.mp hx
  · exact hlt
  · exact lt_trans ((List.pairwise_cons.mp hsorted).1 x hx) hlt

lemma Sound.step (h : p.Sound m) (hstep : Step p p') :
    ∃ m', p'.Sound m' ∧ m.manifestGeneration ≤ m'.manifestGeneration := by
  obtain ⟨slot, hholds⟩ := h.holds
  cases hstep with
  | @publish c m' hc hnext =>
    obtain rfl := h.current c hc
    rw [hholds.target]
    exact ⟨m', ⟨rfl, ⟨slot.other, holds_published hholds hnext⟩, fun x hx => by cases hx; rfl,
      sorted_published h hnext⟩, (lt_of_nextGeneration hnext).le⟩
  | @interrupted c m' file hc hnext hwritten =>
    obtain rfl := h.current c hc
    have hlt := lt_of_nextGeneration hnext
    rw [hholds.target] at hwritten ⊢
    cases hwritten with
    | whole =>
      rw [readManifest_encode, if_pos rfl]
      exact ⟨m', ⟨rfl, ⟨slot.other, holds_published hholds hnext⟩, by simp,
        sorted_published h hnext⟩, hlt.le⟩
    | untouched =>
      have hold : readManifest (p.slots.get slot.other) ≠ some m' :=
        fun hread => lt_asymm hlt (hholds.older m' hread)
      rw [if_neg hold]
      refine ⟨c, ⟨h.last, ⟨slot, ⟨?_, fun x hx => ?_, hholds.positive⟩⟩, by simp, h.sorted⟩, le_rfl⟩
      · rw [Slots.get_set_other]
        exact hholds.read
      · rw [Slots.get_set_self] at hx
        exact hholds.older x hx
    | torn htorn =>
      rw [htorn, if_neg (by simp)]
      refine ⟨c, ⟨h.last, ⟨slot, ⟨?_, fun x hx => ?_, hholds.positive⟩⟩, by simp, h.sorted⟩, le_rfl⟩
      · rw [Slots.get_set_other]
        exact hholds.read
      · rw [Slots.get_set_self, htorn] at hx
        cases hx
  | close => exact ⟨m, ⟨h.last, ⟨slot, hholds⟩, by simp, h.sorted⟩, le_rfl⟩
  | reopen hopen =>
    rw [hholds.newest] at hopen
    cases hopen
    exact ⟨m, ⟨h.last, ⟨slot, hholds⟩, fun x hx => by cases hx; rfl, h.sorted⟩, le_rfl⟩

lemma Sound.steps (h : p.Sound m) (hsteps : Relation.ReflTransGen Step p p') :
    ∃ m', p'.Sound m' ∧ m.manifestGeneration ≤ m'.manifestGeneration := by
  induction hsteps with
  | refl => exact ⟨m, h, le_rfl⟩
  | tail _ hstep ih =>
    obtain ⟨m₁, h₁, hle⟩ := ih
    obtain ⟨m₂, h₂, hle'⟩ := h₁.step hstep
    exact ⟨m₂, h₂, hle.trans hle'⟩

lemma sound_create (hm : 0 < m.manifestGeneration) : (create m).Sound m where
  last := rfl
  holds := by
    refine ⟨.a, readManifest_encode m, fun x hx => ?_, hm⟩
    cases hx
  current c hc := by
    cases hc
    rfl
  sorted := by simp [create]

/-- Opening selects what was published last, which is the newest of all that was published. Along
a run the generation selected never decreases, and the slot that a publication writes is not the
one with the manifest selected. -/
theorem newest_of_steps (first : ManifestRecord) (hfirst : first.manifestGeneration = 1)
    (p p' : Publisher) (hp : Relation.ReflTransGen Step (create first) p)
    (hp' : Relation.ReflTransGen Step p p') :
    ∃ m m', p.slots.newest = .ok m ∧ p.published.head? = some m ∧
      (∀ x ∈ p.published, x.manifestGeneration ≤ m.manifestGeneration) ∧
      readManifest (p.slots.get p.slots.target.other) = some m ∧
      readManifest (p.slots.get p.slots.target) ≠ some m ∧
      p'.slots.newest = .ok m' ∧ m.manifestGeneration ≤ m'.manifestGeneration := by
  obtain ⟨m, h, -⟩ := (sound_create (m := first) (by rw [hfirst]; decide)).steps hp
  obtain ⟨m', h', hle⟩ := h.steps hp'
  obtain ⟨slot, hholds⟩ := h.holds
  obtain ⟨slot', hholds'⟩ := h'.holds
  refine ⟨m, m', hholds.newest, h.last, fun x hx => ?_, ?_, ?_, hholds'.newest, hle⟩
  · have hsorted := h.sorted
    obtain ⟨rest, hrest⟩ : ∃ rest, p.published = m :: rest := List.head?_eq_some_iff.mp h.last
    rw [hrest] at hx hsorted
    obtain rfl | hx := List.mem_cons.mp hx
    · exact le_rfl
    · exact ((List.pairwise_cons.mp hsorted).1 x hx).le
  · rw [hholds.target, Slots.other_other]
    exact hholds.read
  · rw [hholds.target]
    exact fun hread => lt_irrefl _ (hholds.older m hread)

def firstManifest : ManifestRecord := ⟨1, 1, 1, 2, 0, 0, 0, 1, Octets.zero 16, Octets.zero 16⟩

/-- The second publication stops after eighty bytes, and the store is opened again. -/
theorem newest_after_torn : ∃ p : Publisher, Relation.ReflTransGen Step (create firstManifest) p ∧
    ∃ m m', p.slots.newest = .ok m ∧ p.published.head? = some m ∧
      (∀ x ∈ p.published, x.manifestGeneration ≤ m.manifestGeneration) ∧
      readManifest (p.slots.get p.slots.target.other) = some m ∧
      readManifest (p.slots.get p.slots.target) ≠ some m ∧
      p.slots.newest = .ok m' ∧ m.manifestGeneration ≤ m'.manifestGeneration := by
  have htorn : Step (create firstManifest) _ :=
    .interrupted (m := { firstManifest with manifestGeneration := 2 }) rfl rfl
      (Written.of_take _ _ (k := 80) (by decide))
  obtain ⟨m, h, -⟩ := (sound_create (m := firstManifest) (by decide)).step htorn
  obtain ⟨slot, hholds⟩ := h.holds
  have hsteps := (Relation.ReflTransGen.single htorn).tail (.reopen hholds.newest)
  exact ⟨_, hsteps, newest_of_steps firstManifest rfl _ _ hsteps .refl⟩

end Publisher

/-! ### The store's view of the slots -/

section View

variable (view : ManifestRecord → Manifest)
  (hview : ∀ r, (view r).manifestGeneration = r.manifestGeneration.toNat)

include hview

end View

end CarolinaDB.Storage
