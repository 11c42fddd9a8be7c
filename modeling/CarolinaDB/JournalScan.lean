import CarolinaDB.Journal

/-!
# What a scan of the journal finds

The files of a journal hold the frames appended to them, one after the other, with
increasing sequence numbers. A scan returns the frames up to the first bytes that
are not a frame.
-/
namespace CarolinaDB.Storage

/-- The bytes of frames one after the other. -/
def encodeFrames (fs : List JournalFrame) : Bytes := fs.flatMap JournalFrame.encode

@[simp] lemma encodeFrames_nil : encodeFrames [] = [] := rfl

@[simp] lemma encodeFrames_append (fs gs : List JournalFrame) :
    encodeFrames (fs ++ gs) = encodeFrames fs ++ encodeFrames gs := by
  simp [encodeFrames]

@[simp] lemma encodeFrames_cons (f : JournalFrame) (fs : List JournalFrame) :
    encodeFrames (f :: fs) = f.encode ++ encodeFrames fs := by
  simp [encodeFrames]

/-- The frames of a segment. -/
abbrev Contents := ℕ × List JournalFrame

def segmentOf (c : Contents) : Segment := ⟨c.1, encodeFrames c.2⟩

/-- All frames can be decoded, and their numbers increase from above `m`. -/
def InSequence : ℕ → List JournalFrame → Prop
  | _, [] => True
  | m, f :: fs => f.Fits maxJournalPayload ∧ m < f.lsn.toNat ∧ InSequence f.lsn.toNat fs

/-- The highest number after some frames. -/
def lastLsn : ℕ → List JournalFrame → ℕ
  | m, [] => m
  | _, f :: fs => lastLsn f.lsn.toNat fs

lemma inSequence_append {m : ℕ} {fs gs : List JournalFrame} :
    InSequence m (fs ++ gs) ↔ InSequence m fs ∧ InSequence (lastLsn m fs) gs := by
  induction fs generalizing m with
  | nil => simp [InSequence, lastLsn]
  | cons f fs ih => simp [InSequence, lastLsn, ih, and_assoc]

lemma lastLsn_append (m : ℕ) (fs gs : List JournalFrame) :
    lastLsn m (fs ++ gs) = lastLsn (lastLsn m fs) gs := by
  induction fs generalizing m with
  | nil => rfl
  | cons f fs ih => exact ih f.lsn.toNat

lemma InSequence.mono {m m' : ℕ} {fs : List JournalFrame} (h : InSequence m fs) (hm : m' ≤ m) :
    InSequence m' fs := by
  cases fs with
  | nil => trivial
  | cons f fs => exact ⟨h.1, hm.trans_lt h.2.1, h.2.2⟩

/-- Frames may be left out of a sequence. -/
lemma InSequence.sublist {m : ℕ} {fs gs : List JournalFrame} (h : InSequence m gs)
    (hs : fs.Sublist gs) : InSequence m fs ∧ lastLsn m fs ≤ lastLsn m gs := by
  induction hs generalizing m with
  | slnil => exact ⟨trivial, le_rfl⟩
  | @cons fs gs g hs ih =>
    obtain ⟨hfs, hle⟩ := ih (h.2.2.mono h.2.1.le)
    refine ⟨hfs, hle.trans ?_⟩
    rw [lastLsn]
    cases gs with
    | nil => exact h.2.1.le
    | cons g' gs => exact le_rfl
  | cons_cons g hs ih =>
    obtain ⟨hfs, hle⟩ := ih h.2.2
    exact ⟨⟨h.1, h.2.1, hfs⟩, hle⟩

lemma Directory.insertSegment_of_lt {s : Segment} {l : List Segment}
    (h : ∀ t ∈ l, t.number < s.number) : Directory.insertSegment s l = l ++ [s] := by
  induction l with
  | nil => rfl
  | cons t l ih =>
    have ht := h t List.mem_cons_self
    rw [Directory.insertSegment, if_neg (by omega), if_pos ht,
      ih fun u hu => h u (List.mem_cons_of_mem _ hu), List.cons_append]

namespace Journal

/-- The frames a scan reports for a segment, with their offsets. -/
def located (seg : ℕ) : ℕ → List JournalFrame → List ScannedFrame
  | _, [] => []
  | off, f :: fs => ⟨seg, off, f⟩ :: located seg (off + f.totalLen) fs

/-- A scan goes over frames one by one and on to what follows them. -/
theorem scanSegment_append (seg : ℕ) (isLast : Bool) {m : ℕ} {fs : List JournalFrame}
    (h : InSequence m fs) (fuel off : ℕ) (rest : Bytes) :
    scanSegment seg isLast (fuel + fs.length) off m (encodeFrames fs ++ rest) =
      (scanSegment seg isLast fuel (off + (encodeFrames fs).length) (lastLsn m fs) rest).map
        fun scan => { scan with frames := located seg off fs ++ scan.frames } := by
  induction fs generalizing m off with
  | nil =>
    simp only [List.length_nil, Nat.add_zero, encodeFrames_nil, List.nil_append, lastLsn, located]
    cases scanSegment seg isLast fuel off m rest <;> rfl
  | cons f fs ih =>
    obtain ⟨hfits, hlsn, hrest⟩ := h
    have hne : f.encode ++ (encodeFrames fs ++ rest) ≠ [] := by
      intro he
      have := congrArg List.length he
      simp [JournalFrame.totalLen, frameHeaderLen] at this
    rw [List.length_cons, ← Nat.add_assoc, encodeFrames_cons, List.append_assoc, scanSegment,
      if_neg hne, JournalFrame.decode_encode hfits]
    dsimp only
    rw [if_neg (by omega), List.drop_left' (JournalFrame.length_encode f), ih hrest]
    simp only [lastLsn, located, List.length_append, JournalFrame.length_encode, Nat.add_assoc]
    cases scanSegment seg isLast fuel (off + (f.totalLen + (encodeFrames fs).length))
      (lastLsn f.lsn.toNat fs) rest <;> rfl

lemma length_le_encodeFrames (fs : List JournalFrame) : fs.length ≤ (encodeFrames fs).length := by
  induction fs with
  | nil => simp
  | cons f fs ih =>
    simp [JournalFrame.totalLen, frameHeaderLen]
    omega

/-- The scan of a whole segment. -/
theorem scanSegment_whole (seg : ℕ) (isLast : Bool) {m : ℕ} {fs : List JournalFrame}
    (h : InSequence m fs) (rest : Bytes) :
    scanSegment seg isLast ((encodeFrames fs ++ rest).length + 1) 0 m (encodeFrames fs ++ rest) =
      (scanSegment seg isLast ((encodeFrames fs).length - fs.length + rest.length + 1)
        (encodeFrames fs).length (lastLsn m fs) rest).map
        fun scan => { scan with frames := located seg 0 fs ++ scan.frames } := by
  have hlen := length_le_encodeFrames fs
  have hfuel : (encodeFrames fs ++ rest).length + 1 =
      ((encodeFrames fs).length - fs.length + rest.length + 1) + fs.length := by
    rw [List.length_append]
    omega
  rw [hfuel, scanSegment_append seg isLast h, Nat.zero_add]

lemma scanSegment_nil (seg : ℕ) (isLast : Bool) (fuel off m : ℕ) :
    scanSegment seg isLast fuel off m [] = .ok ⟨[], m, off⟩ := by
  cases fuel with
  | zero => rfl
  | succ fuel => rw [scanSegment, if_pos rfl]

/-- Frames and nothing else: all of them are found and the file stays as it is. -/
lemma scanSegment_frames (seg : ℕ) (isLast : Bool) {m : ℕ} {fs : List JournalFrame}
    (h : InSequence m fs) :
    scanSegment seg isLast ((encodeFrames fs).length + 1) 0 m (encodeFrames fs) =
      .ok ⟨located seg 0 fs, lastLsn m fs, (encodeFrames fs).length⟩ := by
  have hscan := scanSegment_whole seg isLast h []
  rw [List.append_nil] at hscan
  rw [hscan, scanSegment_nil]
  simp [Except.map]

lemma scanSegments_append (last : Option ℕ) (m : ℕ) (l l' : List Segment) :
    scanSegments last m (l ++ l') = (do
      let (frames, m', kept) ← scanSegments last m l
      let (frames', m'', kept') ← scanSegments last m' l'
      .ok (frames ++ frames', m'', kept ++ kept')) := by
  induction l generalizing m with
  | nil =>
    rw [List.nil_append, scanSegments, CoreResult.ok_bind]
    dsimp only
    cases scanSegments last m l' <;> rfl
  | cons s l ih =>
    rw [List.cons_append, scanSegments, scanSegments]
    cases scanSegment s.number (last = some s.number) (s.bytes.length + 1) 0 m s.bytes with
    | error e => rfl
    | ok scan =>
      simp only [CoreResult.ok_bind, ih]
      cases scanSegments last scan.maxLsn l with
      | error e => rfl
      | ok r =>
        simp only [CoreResult.ok_bind]
        cases scanSegments last r.2.1 l' <;> simp

/-- The frames of several segments. -/
def framesOf (cs : List Contents) : List JournalFrame := cs.flatMap Prod.snd

@[simp] lemma framesOf_nil : framesOf [] = [] := rfl

@[simp] lemma framesOf_cons (c : Contents) (cs : List Contents) :
    framesOf (c :: cs) = c.2 ++ framesOf cs := by
  simp [framesOf]

@[simp] lemma framesOf_append (cs cs' : List Contents) :
    framesOf (cs ++ cs') = framesOf cs ++ framesOf cs' := by
  simp [framesOf]

/-- The frames of several segments as a scan reports them. -/
def locatedAll (cs : List Contents) : List ScannedFrame := cs.flatMap fun c => located c.1 0 c.2

theorem scanSegments_contents (last : Option ℕ) {m : ℕ} {cs : List Contents}
    (h : InSequence m (framesOf cs)) :
    scanSegments last m (cs.map segmentOf) =
      .ok (locatedAll cs, lastLsn m (framesOf cs), cs.map segmentOf) := by
  induction cs generalizing m with
  | nil => rfl
  | cons c cs ih =>
    rw [framesOf_cons] at h
    obtain ⟨hc, hcs⟩ := inSequence_append.mp h
    rw [List.map_cons, scanSegments]
    simp only [segmentOf, scanSegment_frames c.1 _ hc, CoreResult.ok_bind]
    simp [ih hcs, locatedAll, lastLsn_append]

/-- The files of a journal hold these frames, numbered below the next one, and the last file is
the current one. -/
structure Holds (j : Journal) (cs : List Contents) : Prop where
  segments : j.directory.segments = cs.map segmentOf
  sequence : InSequence 0 (framesOf cs)
  lastLsn_lt : lastLsn 0 (framesOf cs) < j.nextLsn
  current : cs.getLast?.map Prod.fst = some j.currentSegment

/-- What appends, rolls and reclaims make of a new journal. -/
inductive Written (segmentBytes : ℕ) : Journal → Prop
  | create {j : Journal} {frames : List ScannedFrame}
      (h : Journal.open .empty 1 segmentBytes = .ok (j, frames)) : Written segmentBytes j
  | append {j j' : Journal} {kind : JournalRecordKind} {txnId : TxnId} {payload : Bytes} {lsn : ℕ}
      (hj : Written segmentBytes j) (h : j.append kind txnId payload = .ok (lsn, j')) :
      Written segmentBytes j'
  | sync {j : Journal} (hj : Written segmentBytes j) : Written segmentBytes j.sync
  | reclaim {j : Journal} (hj : Written segmentBytes j) (keepFrom : ℕ) :
      Written segmentBytes (j.reclaimSegmentsBelow keepFrom)

section Holds
variable {j : Journal} {cs : List Contents}

/-- All but the last segment, and the frames of the last one. -/
lemma Holds.split (h : j.Holds cs) : ∃ cs' fs, cs = cs' ++ [(j.currentSegment, fs)] := by
  obtain ⟨c, hc, hnum⟩ := Option.map_eq_some_iff.mp h.current
  obtain ⟨cs', rfl⟩ := List.getLast?_eq_some_iff.mp hc
  exact ⟨cs', c.2, by rw [← hnum]⟩

lemma Holds.number_lt (h : j.Holds cs) {cs' : List Contents} {fs : List JournalFrame}
    (hcs : cs = cs' ++ [(j.currentSegment, fs)]) : ∀ c ∈ cs', c.1 < j.currentSegment := by
  intro c hc
  have hsorted := j.directory.sorted
  rw [h.segments, hcs, List.map_append, List.pairwise_append] at hsorted
  exact hsorted.2.2 (segmentOf c) (List.mem_map_of_mem hc) (segmentOf (j.currentSegment, fs))
    (by simp)

lemma Holds.roll (h : j.Holds cs) : j.rollSegment.Holds (cs ++ [(j.currentSegment + 1, [])]) := by
  obtain ⟨cs', fs, hcs⟩ := h.split
  refine ⟨?_, by simpa using h.sequence, by simpa [rollSegment] using h.lastLsn_lt,
    by simp [rollSegment]⟩
  change Directory.insertSegment _ j.directory.segments = _
  rw [Directory.insertSegment_of_lt, h.segments, List.map_append]
  · rfl
  · intro t ht
    rw [h.segments, List.mem_map] at ht
    obtain ⟨c, hc, rfl⟩ := ht
    rw [hcs, List.mem_append, List.mem_singleton] at hc
    rcases hc with hc | rfl
    · exact Nat.lt_succ_of_lt (h.number_lt hcs c hc)
    · exact Nat.lt_succ_self _

/-- A frame at the end of the current file. -/
lemma Holds.push (h : j.Holds cs) {cs' : List Contents} {fs : List JournalFrame}
    (hcs : cs = cs' ++ [(j.currentSegment, fs)]) {f : JournalFrame}
    (hf : f.Fits maxJournalPayload) (hlsn : f.lsn.toNat = j.nextLsn) :
    (j.writeFrame f).Holds (cs' ++ [(j.currentSegment, fs ++ [f])]) := by
  subst hcs
  have hframes : framesOf (cs' ++ [(j.currentSegment, fs ++ [f])]) =
      framesOf (cs' ++ [(j.currentSegment, fs)]) ++ [f] := by
    simp
  have hlt := h.lastLsn_lt
  refine ⟨?_, ?_, ?_, by simp [writeFrame]⟩
  · have hother : ∀ c ∈ cs', (if (segmentOf c).number = j.currentSegment then
        (⟨j.currentSegment, (segmentOf c).bytes ++ f.encode⟩ : Segment) else segmentOf c) =
          segmentOf c := by
      intro c hc
      exact if_neg (h.number_lt rfl c hc).ne
    simp only [writeFrame, Directory.update, h.segments, List.map_append, List.map_map, List.map_cons,
      List.map_nil]
    congr 1
    · exact List.map_congr_left hother
    · simp [segmentOf]
  · rw [hframes, inSequence_append]
    exact ⟨h.sequence, hf, hlsn ▸ hlt, trivial⟩
  · rw [hframes, lastLsn_append]
    change f.lsn.toNat < j.nextLsn + 1
    omega

/-- Rolling over to a new file, or not, leaves the frames as they are. -/
lemma Holds.ready (h : j.Holds cs) : ∃ cs₁,
    (if j.segmentBytes ≤ j.fileLen then j.rollSegment else j).Holds cs₁ ∧
      framesOf cs₁ = framesOf cs ∧
      (if j.segmentBytes ≤ j.fileLen then j.rollSegment else j).nextLsn = j.nextLsn := by
  split_ifs
  · exact ⟨_, h.roll, by simp, rfl⟩
  · exact ⟨cs, h, rfl, rfl⟩

/-- An append adds its frame to the last file. -/
theorem Holds.append (h : j.Holds cs) {kind : JournalRecordKind} {txnId : TxnId} {payload : Bytes}
    {lsn : ℕ} {j' : Journal} (happ : j.append kind txnId payload = .ok (lsn, j')) :
    lsn = j.nextLsn ∧ j'.nextLsn = j.nextLsn + 1 ∧ ∃ cs', j'.Holds cs' ∧ framesOf cs' =
      framesOf cs ++ [⟨kind, 0, UInt64.ofNat j.nextLsn, txnId, payload⟩] := by
  unfold Journal.append at happ
  by_cases hlen : maxJournalPayload < payload.length
  · simp [hlen] at happ
  by_cases hlsn : 2 ^ 64 ≤ j.nextLsn + 1
  · rw [if_neg hlen, if_pos hlsn] at happ
    cases happ
  rw [if_neg hlen, if_neg hlsn] at happ
  obtain ⟨cs₁, hcs₁, hframes, hnext⟩ := h.ready
  generalize (if j.segmentBytes ≤ j.fileLen then j.rollSegment else j) = j₁ at happ hcs₁ hnext
  obtain ⟨rfl, rfl⟩ := Prod.mk.inj (Except.ok.inj happ)
  obtain ⟨cs', fs, rfl⟩ := hcs₁.split
  rw [hnext]
  refine ⟨rfl, by simp [writeFrame, hnext], _, hcs₁.push rfl ⟨not_lt.mp hlen, ?_⟩ ?_, ?_⟩
  · rw [maxJournalPayload] at hlen
    simp only [JournalFrame.totalLen, frameHeaderLen, frameTrailerLen]
    omega
  · rw [hnext]
    exact UInt64.toNat_ofNat_of_lt' (by simp [UInt64.size]; omega)
  · rw [← hframes]
    simp

lemma Holds.reclaim (h : j.Holds cs) (keepFrom : ℕ) : (j.reclaimSegmentsBelow keepFrom).Holds
    (cs.filter fun c => keepFrom ≤ c.1 ∨ c.1 = j.currentSegment) := by
  have hsub : (framesOf (cs.filter fun c => keepFrom ≤ c.1 ∨ c.1 = j.currentSegment)).Sublist
      (framesOf cs) := List.filter_sublist.flatMap _
  obtain ⟨hseq, hle⟩ := h.sequence.sublist hsub
  refine ⟨?_, hseq, hle.trans_lt h.lastLsn_lt, ?_⟩
  · simp only [reclaimSegmentsBelow, Directory.keep, h.segments, List.filter_map]
    rfl
  · obtain ⟨cs', fs, rfl⟩ := h.split
    simp [reclaimSegmentsBelow, List.filter_append]

end Holds

/-- Every journal made by appends, rolls and reclaims holds the frames appended to it and not
reclaimed. -/
theorem Written.holds {segmentBytes : ℕ} {j : Journal} (h : Written segmentBytes j) :
    ∃ cs, j.Holds cs := by
  induction h with
  | create h =>
    obtain ⟨rfl, -⟩ := Prod.mk.inj (Except.ok.inj h)
    exact ⟨[(1, [])], rfl, trivial, Nat.one_pos, rfl⟩
  | append _ happ ih =>
    obtain ⟨cs, hcs⟩ := ih
    obtain ⟨-, -, cs', hj, -⟩ := hcs.append happ
    exact ⟨cs', hj⟩
  | sync _ ih =>
    obtain ⟨cs, hcs⟩ := ih
    exact ⟨cs, hcs.segments, hcs.sequence, hcs.lastLsn_lt, hcs.current⟩
  | reclaim _ keepFrom ih =>
    obtain ⟨cs, hcs⟩ := ih
    exact ⟨_, hcs.reclaim keepFrom⟩

end Journal

end CarolinaDB.Storage
