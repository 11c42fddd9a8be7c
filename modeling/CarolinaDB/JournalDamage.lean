import CarolinaDB.JournalScan

/-!
# Damage to one frame

Whether bytes that are not a frame count as a torn tail is decided from the length
they declare. A damaged frame in the middle of the last segment is therefore refused
only if what is left of it still declares the length of a frame that ends before
other written bytes.
-/
namespace CarolinaDB.Storage

/-- The bytes pass for a frame that was being written when the process stopped: a header of
zeroes, or a declared length that runs past the end of the file, is not repeated before that
point, or has only zeroes behind it. -/
def LooksTorn (b : Bytes) : Prop :=
  (∀ x ∈ slice b 0 frameHeaderLen, x = 0) ∨
    frameHeaderLen + frameTrailerLen ≤ numberAt b 8 4 ∧
      (b.length < numberAt b 8 4 ∨ numberAt b (numberAt b 8 4 - 4) 4 ≠ numberAt b 8 4 ∨
        ∀ x ∈ b.drop (numberAt b 8 4), x = 0)

instance (b : Bytes) : Decidable (LooksTorn b) := by
  unfold LooksTorn
  infer_instance

section Decode
variable {b : Bytes}

lemma isTailFrame_iff (hlen : frameHeaderLen ≤ b.length) : isTailFrame b = true ↔
    frameHeaderLen + frameTrailerLen ≤ numberAt b 8 4 ∧
      (b.length < numberAt b 8 4 ∨ numberAt b (numberAt b 8 4 - 4) 4 ≠ numberAt b 8 4 ∨
        ∀ x ∈ b.drop (numberAt b 8 4), x = 0) := by
  rw [isTailFrame, if_neg (not_lt.mpr hlen)]
  dsimp only
  split_ifs with hsmall hpast
  · simp only [false_iff, not_and_or]
    exact Or.inl (not_le.mpr hsmall)
  · simp [hpast, not_lt.mp hsmall]
  · simp [hpast, not_lt.mp hsmall]

/-- Incomplete frames look torn, and a header of zeroes is taken for an incomplete frame. -/
lemma decode_eq_none (hlen : frameHeaderLen ≤ b.length) :
    (JournalFrame.decode b maxJournalPayload = .ok none → LooksTorn b) ∧
      ((∀ x ∈ slice b 0 frameHeaderLen, x = 0) →
        JournalFrame.decode b maxJournalPayload = .ok none) := by
  have hzero : (slice b 0 frameHeaderLen).all (· = 0) = true ↔
      ∀ x ∈ slice b 0 frameHeaderLen, x = 0 := by simp
  constructor
  · intro h
    rw [JournalFrame.decode, if_neg (not_lt.mpr hlen)] at h
    split_ifs at h with hmagic hz hversion
    · exact Or.inl (hzero.mp hz)
    dsimp only at h
    split_ifs at h with hlens hshort
    · rw [not_or, not_not] at hlens
      exact Or.inr ⟨by omega, Or.inl hshort⟩
    · obtain ⟨x, -, hx⟩ := CoreResult.map_eq_ok h
      simp at hx
  · intro h
    have hmagic : slice b 0 4 ≠ journalMagic := by
      intro he
      have hmem : (0x43 : UInt8) ∈ slice b 0 4 := by
        rw [he]
        decide
      have hmem' : (0x43 : UInt8) ∈ slice b 0 frameHeaderLen := by
        rw [slice, List.drop_zero] at hmem ⊢
        exact (List.take_sublist_take_left (by decide)).subset hmem
      exact absurd (h _ hmem') (by decide)
    rw [JournalFrame.decode, if_neg (not_lt.mpr hlen), if_pos hmagic, if_pos (hzero.mpr h)]

end Decode

namespace Journal

/-- Bytes that are not a frame end the scan or fail it. -/
lemma scanSegment_damaged (seg : ℕ) (isLast : Bool) (fuel off m : ℕ) {b : Bytes}
    (hlen : frameHeaderLen ≤ b.length)
    (hbad : ∀ x, JournalFrame.decode b maxJournalPayload ≠ .ok (some x)) :
    (isLast = true ∧ LooksTorn b → scanSegment seg isLast (fuel + 1) off m b = .ok ⟨[], m, off⟩) ∧
      (¬ (isLast = true ∧ LooksTorn b) → ∃ e, scanSegment seg isLast (fuel + 1) off m b = .error e ∧
        e.code = .corruption) := by
  have hne : b ≠ [] := by
    rintro rfl
    simp [frameHeaderLen] at hlen
  rw [scanSegment, if_neg hne]
  cases hd : JournalFrame.decode b maxJournalPayload with
  | ok r =>
    cases r with
    | some x => exact absurd hd (hbad x)
    | none =>
      have htorn := (decode_eq_none hlen).1 hd
      cases isLast with
      | true => simp [htorn]
      | false => exact ⟨by simp, fun _ => ⟨_, rfl, rfl⟩⟩
  | error e =>
    have htorn : LooksTorn b ↔ isTailFrame b = true := by
      rw [isTailFrame_iff hlen, LooksTorn, or_iff_right_iff_imp]
      intro h
      rw [(decode_eq_none hlen).2 h] at hd
      cases hd
    simp only [htorn]
    constructor
    · rintro ⟨rfl, h⟩
      simp [h]
    · intro h
      rw [← Bool.and_eq_true, Bool.not_eq_true] at h
      simp [h, CoreError.new]

/-- The files of a journal with other bytes in place of one frame. -/
def damage (j : Journal) (n : ℕ) (before : List JournalFrame) (d : Bytes)
    (after : List JournalFrame) : Directory :=
  j.directory.update n fun _ => encodeFrames before ++ (d ++ encodeFrames after)

section Damage
variable {j : Journal} {pre post : List Contents} {n : ℕ} {before after : List JournalFrame}
  {f : JournalFrame} {d : Bytes}

lemma Holds.number_ne (h : j.Holds (pre ++ (n, before ++ f :: after) :: post)) :
    (∀ c ∈ pre, c.1 < n) ∧ ∀ c ∈ post, n < c.1 := by
  have hsorted := j.directory.sorted
  rw [h.segments, List.map_append, List.map_cons, List.pairwise_append, List.pairwise_cons] at hsorted
  exact ⟨fun c hc => hsorted.2.2 (segmentOf c) (List.mem_map_of_mem hc) _ List.mem_cons_self,
    fun c hc => hsorted.2.1.1 (segmentOf c) (List.mem_map_of_mem hc)⟩

/-- Only the damaged file changes. -/
lemma Holds.damage_segments (h : j.Holds (pre ++ (n, before ++ f :: after) :: post)) :
    (j.damage n before d after).segments = pre.map segmentOf ++
      ⟨n, encodeFrames before ++ (d ++ encodeFrames after)⟩ :: post.map segmentOf := by
  obtain ⟨hpre, hpost⟩ := h.number_ne
  simp only [damage, Directory.update, h.segments, List.map_append, List.map_cons, List.map_map]
  congr 1
  · exact List.map_congr_left fun c hc => if_neg (hpre c hc).ne
  · rw [if_pos (show (segmentOf (n, before ++ f :: after)).number = n from rfl)]
    congr 1
    exact List.map_congr_left fun c hc => if_neg (hpost c hc).ne'

lemma Holds.damage_last (h : j.Holds (pre ++ (n, before ++ f :: after) :: post)) :
    (j.damage n before d after).last = some n ↔ post = [] := by
  obtain ⟨-, hpost⟩ := h.number_ne
  rw [Directory.last, h.damage_segments]
  constructor
  · intro hlast
    by_contra hne
    obtain ⟨c, hc⟩ := List.getLast?_isSome.mpr hne |> Option.isSome_iff_exists.mp
    have hmem := List.mem_of_getLast? hc
    rw [List.getLast?_append_of_ne_nil _ (by simp)] at hlast
    rw [List.getLast?_cons_of_ne_nil (by simpa using hne), List.getLast?_map, hc] at hlast
    simp only [Option.map_some, segmentOf, Option.some.injEq] at hlast
    exact (hpost c hmem).ne' hlast
  · rintro rfl
    simp

/-- Opening a damaged journal fails unless the damage passes for a torn tail of the last file. -/
theorem Holds.open_damage (h : j.Holds (pre ++ (n, before ++ f :: after) :: post)) {start : ℕ}
    (hstart : start ≤ n) (hlen : d.length = f.totalLen)
    (hbad : ∀ x, JournalFrame.decode (d ++ encodeFrames after) maxJournalPayload ≠ .ok (some x))
    (segmentBytes : ℕ) :
    (post = [] ∧ LooksTorn (d ++ encodeFrames after) →
      ∃ r, Journal.open (j.damage n before d after) start segmentBytes = .ok r) ∧
    (¬ (post = [] ∧ LooksTorn (d ++ encodeFrames after)) →
      ∃ e, Journal.open (j.damage n before d after) start segmentBytes = .error e ∧
        e.code = .corruption) := by
  obtain ⟨-, hpost⟩ := h.number_ne
  have hlast := h.damage_last (d := d)
  have hseg := h.damage_segments (d := d)
  generalize j.damage n before d after = dir at hlast hseg ⊢
  have hlong : frameHeaderLen ≤ (d ++ encodeFrames after).length := by
    rw [List.length_append, hlen, JournalFrame.totalLen]
    omega
  -- the frames before the damage that are scanned at all are still in sequence
  have hseq := h.sequence
  rw [framesOf_append, framesOf_cons, List.append_assoc, ← List.append_assoc,
    inSequence_append] at hseq
  have hsub : (framesOf (pre.filter fun c => start ≤ c.1) ++ before).Sublist (framesOf pre ++ before) :=
    (List.filter_sublist.flatMap _).append_right _
  obtain ⟨hpre, hbefore⟩ := inSequence_append.mp (hseq.1.sublist hsub).1
  have hfilter : dir.segments.filter (fun s => start ≤ s.number) =
      (pre.filter fun c => start ≤ c.1).map segmentOf ++
        ⟨n, encodeFrames before ++ (d ++ encodeFrames after)⟩ :: post.map segmentOf := by
    have hkept : (post.map segmentOf).filter (fun s => start ≤ s.number) = post.map segmentOf := by
      refine List.filter_eq_self.mpr fun s hs => ?_
      obtain ⟨c, hc, rfl⟩ := List.mem_map.mp hs
      exact decide_eq_true (hstart.trans (hpost c hc).le)
    rw [hseg, List.filter_append, List.filter_cons_of_pos (by simpa using hstart), hkept,
      List.filter_map]
    rfl
  have hscan := scanSegment_damaged n (decide (dir.last = some n))
    ((encodeFrames before).length - before.length + (d ++ encodeFrames after).length)
    (encodeFrames before).length
    (lastLsn (lastLsn 0 (framesOf (pre.filter fun c => start ≤ c.1))) before) hlong hbad
  have hcond : decide (dir.last = some n) = true ↔ post = [] := decide_eq_true_iff.trans hlast
  rw [hcond] at hscan
  rw [Journal.open, hfilter, scanSegments_append, scanSegments_contents _ hpre]
  simp only [CoreResult.ok_bind, scanSegments, scanSegment_whole n _ hbefore]
  constructor
  · rintro ⟨rfl, htorn⟩
    rw [hscan.1 ⟨rfl, htorn⟩]
    exact ⟨_, rfl⟩
  · intro hnot
    obtain ⟨e, he, hcode⟩ := hscan.2 hnot
    rw [he]
    exact ⟨e, rfl, hcode⟩

end Damage

/-- Damage is refused. In every journal made by appends, rolls and reclaims, replace the bytes of
one frame, in a file that is scanned, by others that are no frame. Opening the journal then fails
with a corruption error, or the frame was the last one of the last file, exactly if one of the
following holds: the file is not the last one, the frame is the last one of its file, or its
remains do not pass for a torn frame. -/
theorem journal_damage_refused {segmentBytes : ℕ} {j : Journal} (hj : Written segmentBytes j) :
    (∃ cs, j.Holds cs) ∧
      ∀ pre n before f after post, j.Holds (pre ++ (n, before ++ f :: after) :: post) →
      ∀ start, start ≤ n → ∀ d : Bytes, d.length = f.encode.length →
      (∀ x, JournalFrame.decode (d ++ encodeFrames after) maxJournalPayload ≠ .ok (some x)) →
      ((after = [] ∧ post = [] ∨
          ∃ e, Journal.open (j.damage n before d after) start segmentBytes = .error e ∧
            e.code = .corruption) ↔
        (post ≠ [] ∨ after = [] ∨ ¬ LooksTorn (d ++ encodeFrames after))) := by
  refine ⟨hj.holds, ?_⟩
  intro pre n before f after post hcs start hstart d hlen hbad
  obtain ⟨hok, herr⟩ := hcs.open_damage hstart (by simpa using hlen) hbad segmentBytes
  constructor
  · rintro (⟨ha, -⟩ | ⟨e, he, -⟩)
    · exact Or.inr (Or.inl ha)
    · by_contra hnot
      rw [not_or, not_or, not_not, not_not] at hnot
      obtain ⟨r, hr⟩ := hok ⟨hnot.1, hnot.2.2⟩
      rw [he] at hr
      cases hr
  · intro hcond
    by_cases htorn : post = [] ∧ LooksTorn (d ++ encodeFrames after)
    · rcases hcond with h | h | h
      · exact absurd htorn.1 h
      · exact Or.inl ⟨h, htorn.1⟩
      · exact absurd htorn.2 h
    · exact Or.inr (herr htorn)

/-- The frame a checkpoint starts with, with an empty payload. -/
def beginFrame (lsn : UInt64) : JournalFrame := ⟨.checkpointBegin, 0, lsn, Octets.zero 32, []⟩

/-- The bytes of a frame with another number in its trailer. -/
def wrongTrailer (f : JournalFrame) : Bytes := f.encode.dropLast ++ [1]

/-- A new journal with files of a thousand bytes. -/
def newJournal : Journal := ⟨Directory.empty.touch 1, 1000, 1, 1, 0, 0⟩

def twoFrames : Journal := (newJournal.writeFrame (beginFrame 1)).writeFrame (beginFrame 2)

lemma written_twoFrames : Written 1000 twoFrames := by
  have hone : newJournal.append .checkpointBegin (Octets.zero 32) [] =
      .ok (1, newJournal.writeFrame (beginFrame 1)) := rfl
  have htwo : (newJournal.writeFrame (beginFrame 1)).append .checkpointBegin (Octets.zero 32) [] =
      .ok (2, twoFrames) := by
    have hlen : ¬ 1000 ≤ (newJournal.writeFrame (beginFrame 1)).fileLen := by decide
    exact congrArg (fun j : Journal => Except.ok (j.nextLsn, j.writeFrame
      ⟨.checkpointBegin, 0, UInt64.ofNat j.nextLsn, Octets.zero 32, []⟩)) (if_neg hlen)
  exact Written.append (Written.append (Written.create rfl) hone) htwo

lemma holds_twoFrames : twoFrames.Holds [(1, [beginFrame 1, beginFrame 2])] := by
  have hnew : newJournal.Holds [(1, [])] := ⟨rfl, trivial, Nat.one_pos, rfl⟩
  have hfits (lsn : UInt64) : (beginFrame lsn).Fits maxJournalPayload := by
    constructor
    · simp [beginFrame]
    · simp [beginFrame, JournalFrame.totalLen, frameHeaderLen, frameTrailerLen]
  have hnone : [(1, [])] = ([] : List Contents) ++ [(1, [])] := rfl
  have hone := hnew.push hnone (hfits 1) rfl
  exact hone.push rfl (hfits 2) rfl

/-- The bytes of a frame with another version number in its header. -/
def wrongVersion (f : JournalFrame) : Bytes := f.encode.set 4 0

set_option maxRecDepth 100000 in
theorem journal_damage_refused_twoFrames :
    ∃ e, Journal.open (twoFrames.damage 1 [] (wrongVersion (beginFrame 1)) [beginFrame 2]) 1 1000 =
      .error e ∧ e.code = .corruption := by
  have hdecode : JournalFrame.decode (wrongVersion (beginFrame 1) ++ encodeFrames [beginFrame 2])
      maxJournalPayload = .error (.new .unsupportedFormat "journal format 0") := by
    decide
  have hcond : ¬ LooksTorn (wrongVersion (beginFrame 1) ++ encodeFrames [beginFrame 2]) := by
    decide
  have hiff := (journal_damage_refused written_twoFrames).2 [] 1 [] (beginFrame 1) [beginFrame 2] []
    holds_twoFrames 1 le_rfl (wrongVersion (beginFrame 1)) (by decide) (fun x hx => by
      rw [hdecode] at hx
      cases hx)
  exact (hiff.mpr (Or.inr (Or.inr hcond))).resolve_left (by simp)

set_option maxRecDepth 100000 in
/-- A wrong trailer in the first of two frames passes for a torn tail: opening the journal
succeeds, finds no frame and cuts the file to nothing, the second frame included. -/
theorem damaged_trailer_drops_frames :
    Written 1000 twoFrames ∧ twoFrames.Holds [(1, [] ++ beginFrame 1 :: [beginFrame 2])] ∧
      (wrongTrailer (beginFrame 1)).length = (beginFrame 1).encode.length ∧
      (∀ x, JournalFrame.decode (wrongTrailer (beginFrame 1) ++ encodeFrames [beginFrame 2])
        maxJournalPayload ≠ .ok (some x)) ∧
      ∃ j frames, Journal.open (twoFrames.damage 1 [] (wrongTrailer (beginFrame 1)) [beginFrame 2])
        1 1000 = .ok (j, frames) ∧ frames = [] ∧ j.directory.segments = [⟨1, []⟩] := by
  have hopen : (Journal.open
      (twoFrames.damage 1 [] (wrongTrailer (beginFrame 1)) [beginFrame 2]) 1 1000).map
        (fun r => (r.2, r.1.directory.segments)) = .ok ([], [⟨1, []⟩]) := by
    decide
  have hdecode : JournalFrame.decode (wrongTrailer (beginFrame 1) ++ encodeFrames [beginFrame 2])
      maxJournalPayload = .error (.new .checksumMismatch "journal frame checksum mismatch") := by
    decide
  obtain ⟨⟨j, frames⟩, hj, heq⟩ := CoreResult.map_eq_ok hopen
  obtain ⟨rfl, hseg⟩ := Prod.mk.inj heq
  refine ⟨written_twoFrames, holds_twoFrames, by decide, fun x hx => ?_, j, [], hj, rfl, hseg⟩
  rw [hdecode] at hx
  cases hx

end Journal

end CarolinaDB.Storage
