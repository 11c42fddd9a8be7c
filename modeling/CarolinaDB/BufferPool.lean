import CarolinaDB.PageHeader
import CarolinaDB.PositionMap

/-!
# The buffer pool

Frames hold pages, and a map tells the frame of a page. A clean frame that nobody has pinned is
reused for another page, found by the hand of a clock; a dirty frame stays until it is flushed or
moved to a new page id.
-/
namespace CarolinaDB.Storage

/-! ### Page files -/

/-- The bytes in the place of every page; fewer than a page behind the end of the file. -/
abbrev PageFile := UInt64 → Bytes

/-- A read returns the page, or the error of the operating system. -/
def readPage (file : PageFile) (id : UInt64) : Option CoreError → CoreResult PageBytes
  | some err => .error err
  | none =>
    if h : (file id).length = pageSize then .ok ⟨file id, h⟩
    else .error (corrupt ("page " ++ toString id ++ ": short read (" ++
      toString (file id).length ++ " bytes)"))

/-- How a write of a page ends. A torn one leaves some bytes behind. -/
inductive PageWrite
  | whole
  | refused (err : CoreError)
  | torn (err : CoreError) (left : Bytes)

def writePage (file : PageFile) (id : UInt64) (src : PageBytes) :
    PageWrite → CoreResult Unit × PageFile
  | .whole => (.ok (), Function.update file id src.val)
  | .refused err => (.error err, file)
  | .torn err left => (.error err, Function.update file id left)

/-! ### Frames -/

structure Frame where
  pageId : UInt64
  dirty : Bool
  pageLsn : UInt64
  pin : ℕ
  referenced : Bool
  bytes : PageBytes

namespace Frame

/-- The frame of a page that was just read or made. -/
def placed (pageId : UInt64) (bytes : PageBytes) : Frame :=
  ⟨pageId, false, ((PageHeader.read bytes pageId).toOption.map PageHeader.pageLsn).getD 0, 0, true,
    bytes⟩

/-- The page in a frame. -/
def page (f : Frame) : UInt64 × Bool × PageBytes := (f.pageId, f.dirty, f.bytes)

/-- A clean frame that nobody has pinned may be dropped. -/
def droppable (f : Frame) : Bool := f.pin = 0 ∧ f.dirty = false

def markDirty (pageLsn : UInt64) (f : Frame) : Frame :=
  { f with dirty := true, pageLsn := max f.pageLsn pageLsn }

/-- The header that is written with a flush. -/
def flushHeader (f : Frame) : PageHeader :=
  { (PageHeader.read f.bytes f.pageId).toOption.getD (.new .leaf f.pageId) with
    pageLsn := f.pageLsn }

/-- The bytes of a flush: the LSN of the frame goes into the header. -/
def flushed (f : Frame) : PageBytes := f.flushHeader.write f.bytes

end Frame

structure BufferPool where
  frames : List Frame
  map : FiniteMap UInt64 ℕ
  clock : ℕ
  capacity : ℕ

namespace BufferPool

def new (capacity : ℕ) : BufferPool := ⟨[], ∅, 0, max capacity 8⟩

def contains (p : BufferPool) (id : UInt64) : Bool := p.map[id]?.isSome

lemma contains_eq_false {p : BufferPool} {id : UInt64} : p.contains id = false ↔ p.map[id]? = none := by
  rw [contains, Option.isSome_eq_false_iff, Option.isNone_iff_eq_none]

lemma contains_eq_true {p : BufferPool} {id : UInt64} :
    p.contains id = true ↔ ∃ i, p.map[id]? = some i :=
  Option.isSome_iff_exists

/-- Change the frame at an index, which has to exist. -/
def onFrame (p : BufferPool) (i : ℕ) (change : Frame → Frame) : CoreResult Unit × BufferPool :=
  if i < p.frames.length then (.ok (), { p with frames := p.frames.modify i change })
  else (.error .panicked, p)

/-- Move the hand of the clock. -/
def advance (p : BufferPool) : BufferPool := { p with clock := (p.clock + 1) % p.frames.length }

/-- Forget that the frame at the hand was referenced. -/
def spare (p : BufferPool) (f : Frame) : BufferPool :=
  { p with frames := p.frames.set p.clock { f with referenced := false } }

/-- Passes of the clock hand: a referenced frame is spared once. -/
def evictLoop : ℕ → BufferPool → CoreResult (Option ℕ) × BufferPool
  | 0, p => (.ok none, p)
  | passes+1, p =>
    match p.frames[p.clock]? with
    | none => (.error .panicked, p)
    | some f =>
      if f.droppable then
        if f.referenced then evictLoop passes (p.spare f).advance
        else (.ok (some p.clock), p.advance)
      else evictLoop passes p.advance

def evictOne (p : BufferPool) : CoreResult (Option ℕ) × BufferPool :=
  evictLoop (2 * p.frames.length + 1) p

def push (p : BufferPool) (f : Frame) : CoreResult ℕ × BufferPool :=
  (.ok p.frames.length,
    { p with frames := p.frames ++ [f], map := p.map.insert f.pageId p.frames.length })

def place (p : BufferPool) (id : UInt64) (bytes : PageBytes) : CoreResult ℕ × BufferPool :=
  if p.frames.length < p.capacity then p.push (.placed id bytes)
  else
    match p.evictOne with
    | (.error err, p) => (.error err, p)
    | (.ok (some i), p) =>
      match p.frames[i]? with
      | none => (.error .panicked, p)
      | some victim =>
        (.ok i, { p with
          frames := p.frames.set i (.placed id bytes)
          map := (p.map.erase victim.pageId).insert id i })
    | (.ok none, p) =>
      -- only dirty or pinned frames remain: grow past the capacity, up to a limit
      if min (p.capacity * 16) u64Max ≤ p.frames.length then
        (.error (.new .resourceLimit
          "buffer pool overshoot limit reached; checkpoint policy is misconfigured"), p)
      else p.push (.placed id bytes)

def fetch (p : BufferPool) (file : PageFile) (fault : Option CoreError) (id : UInt64) :
    CoreResult ℕ × BufferPool :=
  match p.map[id]? with
  | some i =>
    match p.onFrame i fun f => { f with referenced := true } with
    | (.error err, p) => (.error err, p)
    | (.ok _, p) => (.ok i, p)
  | none =>
    match readPage file id fault with
    | .error err => (.error err, p)
    | .ok bytes =>
      match PageHeader.read bytes id with
      | .error err => (.error err, p)
      | .ok _ => p.place id bytes

/-- The page of a new id: a header in front of zeroes. -/
def newPage (id : UInt64) (pageType : PageType) (pageLsn : UInt64) : PageBytes :=
  { PageHeader.new pageType id with pageLsn := pageLsn }.write (Octets.zero pageSize)

def insertNew (p : BufferPool) (id : UInt64) (pageType : PageType) (pageLsn : UInt64) :
    CoreResult ℕ × BufferPool :=
  match p.place id (newPage id pageType pageLsn) with
  | (.error err, p) => (.error err, p)
  | (.ok i, p) =>
    match p.onFrame i fun f => { f with dirty := true, pageLsn := pageLsn } with
    | (.error err, p) => (.error err, p)
    | (.ok _, p) => (.ok i, p)

/-- Keep a frame when the pool shrinks, or drop it. -/
def keepFrame (capacity : ℕ) (keep : List Frame) (f : Frame) : List Frame :=
  if (f.dirty ∨ 0 < f.pin ∨ keep.length < capacity) ∧
      ¬ (f.pin = 0 ∧ f.dirty = false ∧ capacity ≤ keep.length) then keep ++ [f]
  else keep

def kept (capacity : ℕ) (frames : List Frame) : List Frame := frames.foldl (keepFrame capacity) []

def shrinkToCapacity (p : BufferPool) : BufferPool :=
  if p.frames.length ≤ p.capacity then p
  else { p with
    frames := kept p.capacity p.frames
    map := numberFrom 0 ((kept p.capacity p.frames).map Frame.pageId) ∅
    clock := 0 }

/-- Update the LSN of every dirty frame that still has the unwritten sentinel. -/
def stampDirtyLsn (p : BufferPool) (lsn : UInt64) : BufferPool :=
  { p with frames := p.frames.map fun f =>
      if f.dirty ∧ f.pageLsn.toNat = u64Max then { f with pageLsn := lsn } else f }

/-- The page now lives at `newId`, clean, with the given bytes. -/
def rekey (p : BufferPool) (oldId newId : UInt64) (bytes : PageBytes) : CoreResult Unit × BufferPool :=
  match p.map[oldId]? with
  | none => (.ok (), p)
  | some i =>
    match p.frames[i]? with
    | none => (.error .panicked, { p with map := p.map.erase oldId })
    | some f =>
      (.ok (), { p with
        frames := p.frames.set i { f with pageId := newId, dirty := false, bytes := bytes }
        map := (p.map.erase oldId).insert newId i })

/-! ### The clock -/

section Clock
variable {p q : BufferPool} {passes : ℕ}

/-- The pools hold the same pages in the same places. -/
structure Same (p q : BufferPool) : Prop where
  pages : q.frames.map Frame.page = p.frames.map Frame.page
  map : q.map = p.map
  capacity : q.capacity = p.capacity

lemma Same.refl (p : BufferPool) : Same p p := ⟨rfl, rfl, rfl⟩

lemma Same.trans {o : BufferPool} (h : Same o p) (h' : Same p q) : Same o q :=
  ⟨h'.pages.trans h.pages, h'.map.trans h.map, h'.capacity.trans h.capacity⟩

lemma Same.length (h : Same p q) : q.frames.length = p.frames.length := by
  simpa using congrArg List.length h.pages

lemma same_advance (p : BufferPool) : Same p p.advance := ⟨rfl, rfl, rfl⟩

lemma same_spare {f : Frame} (hf : p.frames[p.clock]? = some f) : Same p (p.spare f) := by
  refine ⟨List.ext_getElem? fun i => ?_, rfl, rfl⟩
  rw [spare, List.getElem?_map, List.getElem?_map, List.getElem?_set]
  split_ifs with hi hlt
  · subst hi
    rw [hf]
    rfl
  · rw [← hi, List.getElem?_eq_none (not_lt.mp hlt)]
  · rfl

lemma advance_lt (h : p.clock < p.frames.length) : p.advance.clock < p.advance.frames.length :=
  Nat.mod_lt _ (Nat.zero_lt_of_lt h)

/-- The clock changes no page, and stops at a frame that may be dropped if it stops. -/
lemma evictLoop_spec (passes : ℕ) (h : p.clock < p.frames.length) :
    ∃ r q, evictLoop passes p = (.ok r, q) ∧ Same p q ∧ q.clock < q.frames.length ∧
      ∀ i, r = some i → ∃ f, q.frames[i]? = some f ∧ f.droppable := by
  induction passes generalizing p with
  | zero => exact ⟨none, p, rfl, .refl p, h, by simp⟩
  | succ passes ih =>
    have hget : p.frames[p.clock]? = some p.frames[p.clock] := List.getElem?_eq_getElem h
    rw [evictLoop]
    simp only [hget]
    split_ifs with hdrop href
    · have hsame := same_spare hget
      obtain ⟨r, q, hloop, hsame', hrest⟩ :=
        ih (advance_lt (p := p.spare p.frames[p.clock]) (by rw [hsame.length]; exact h))
      exact ⟨r, q, hloop, (hsame.trans (same_advance _)).trans hsame', hrest⟩
    · exact ⟨some p.clock, _, rfl, same_advance p, advance_lt h,
        fun i hi => ⟨_, Option.some.inj hi ▸ hget, hdrop⟩⟩
    · obtain ⟨r, q, hloop, hsame, hrest⟩ := ih (advance_lt h)
      exact ⟨r, q, hloop, (same_advance p).trans hsame, hrest⟩

/-- How far the frame is ahead of the hand. -/
def ahead (p : BufferPool) (j : ℕ) : ℕ :=
  if p.clock ≤ j then j - p.clock else j + p.frames.length - p.clock

lemma ahead_advance (h : p.clock < p.frames.length) {j : ℕ} (hj : j < p.frames.length) :
    p.advance.ahead j + 1 = if p.clock = j then p.frames.length else p.ahead j := by
  have hclock : p.advance.clock = if p.clock + 1 = p.frames.length then 0 else p.clock + 1 := by
    split_ifs with hlast
    · rw [advance, hlast]
      exact Nat.mod_self _
    · exact Nat.mod_eq_of_lt (by omega)
  have hlength : p.advance.frames.length = p.frames.length := rfl
  rw [ahead, ahead, hclock, hlength]
  split_ifs <;> omega

/-- A frame that may be dropped is dropped when the hand gets to it for the second time, if no other
one is dropped before. -/
lemma evictLoop_isSome (h : p.clock < p.frames.length) {j : ℕ} {f : Frame}
    (hf : p.frames[j]? = some f) (hdrop : f.droppable)
    (hpasses : p.ahead j + (if f.referenced then p.frames.length else 0) < passes) :
    ∃ i q, evictLoop passes p = (.ok (some i), q) := by
  induction passes generalizing p f with
  | zero => exact absurd hpasses (Nat.not_lt_zero _)
  | succ passes ih =>
    obtain ⟨g, hget⟩ : ∃ g, p.frames[p.clock]? = some g := ⟨_, List.getElem?_eq_getElem h⟩
    have hj : j < p.frames.length := (List.getElem?_eq_some_iff.mp hf).1
    have hspare : (p.spare g).frames.length = p.frames.length := List.length_set
    have hahead := ahead_advance h hj
    have hahead' : (p.spare g).advance.ahead j + 1 = _ := ahead_advance (hspare ▸ h) (hspare ▸ hj)
    have hframes : (p.spare g).advance.frames[j]? = if p.clock = j then
        some { g with referenced := false } else some f := by
      change (p.frames.set p.clock _)[j]? = _
      rw [List.getElem?_set, hf, if_pos h]
    have hclock : (p.spare g).clock = p.clock := rfl
    rw [hclock] at hahead'
    rw [evictLoop, hget]
    by_cases hhand : p.clock = j
    · -- the frame is at the hand: it is dropped, or unreferenced from now on
      obtain rfl : g = f := by
        rw [hhand, hf] at hget
        exact (Option.some.inj hget).symm
      rw [if_pos hhand] at hahead' hframes
      simp only [if_pos hdrop]
      split_ifs with href
      · refine ih (advance_lt (hspare ▸ h)) hframes hdrop ?_
        rw [if_pos href] at hpasses
        simp only [Bool.false_eq_true, if_false]
        omega
      · exact ⟨_, _, rfl⟩
    · rw [if_neg hhand] at hahead hahead' hframes
      have hsame : (p.spare g).ahead j = p.ahead j := by
        rw [ahead, ahead, hspare]
        rfl
      dsimp only
      split_ifs with hother href
      · refine ih (advance_lt (hspare ▸ h)) hframes hdrop ?_
        change _ + (if _ then (p.spare g).frames.length else 0) < _
        rw [hspare]
        omega
      · exact ⟨_, _, rfl⟩
      · refine ih (advance_lt h) hf hdrop ?_
        change _ + (if _ then p.frames.length else 0) < _
        omega

/-- No frame is found only if none may be dropped. -/
lemma evictOne_none (h : p.clock < p.frames.length) (hnone : p.evictOne = (.ok none, q)) :
    ∀ f ∈ p.frames, f.droppable = false := by
  intro f hf
  obtain ⟨j, hj⟩ := List.mem_iff_getElem?.mp hf
  by_contra hdrop
  have hahead : p.ahead j < p.frames.length := by
    have := (List.getElem?_eq_some_iff.mp hj).1
    rw [ahead]
    split_ifs <;> omega
  obtain ⟨i, q', hsome⟩ := evictLoop_isSome h hj (by simpa using hdrop)
    (show p.ahead j + (if f.referenced then p.frames.length else 0) < 2 * p.frames.length + 1 by
      split_ifs <;> omega)
  rw [evictOne, hsome] at hnone
  simp at hnone

end Clock

/-! ### Soundness -/

/-- The map tells the frame of every page in the pool, and the hand points to a frame. -/
structure Sound (p : BufferPool) : Prop where
  positions : Positions p.map (p.frames.map Frame.pageId)
  clock : p.clock < p.frames.length ∨ p.clock = 0
  capacity : 0 < p.capacity

section Sound
variable {p q : BufferPool} {id : UInt64} {bytes : PageBytes}

lemma sound_new (capacity : ℕ) : (new capacity).Sound :=
  ⟨Positions.empty, Or.inr rfl, lt_max_of_lt_right (by norm_num)⟩

lemma Same.pageIds (h : Same p q) : q.frames.map Frame.pageId = p.frames.map Frame.pageId := by
  simpa [List.map_map, Function.comp_def, Frame.page] using congrArg (List.map Prod.fst) h.pages

/-- A page of one pool is one of the other. -/
lemma Same.exists_page (h : Same p q) {f : Frame} (hf : f ∈ q.frames) :
    ∃ g ∈ p.frames, g.page = f.page := by
  have := List.mem_map_of_mem (f := Frame.page) hf
  rw [h.pages, List.mem_map] at this
  exact this

lemma Same.symm (h : Same p q) : Same q p := ⟨h.pages.symm, h.map.symm, h.capacity.symm⟩

lemma Same.sound (h : Same p q) (hclock : q.clock < q.frames.length ∨ q.clock = 0) (hp : p.Sound) :
    q.Sound := by
  refine ⟨?_, hclock, h.capacity ▸ hp.capacity⟩
  rw [h.map, h.pageIds]
  exact hp.positions

lemma Sound.get_iff (hp : p.Sound) {i : ℕ} :
    p.map[id]? = some i ↔ ∃ f, p.frames[i]? = some f ∧ f.pageId = id := by
  rw [hp.positions id i, List.getElem?_map, Option.map_eq_some_iff]

lemma Sound.none_iff (hp : p.Sound) : p.map[id]? = none ↔ ∀ f ∈ p.frames, f.pageId ≠ id := by
  rw [hp.positions.not_mem_iff, List.mem_map]
  simp

/-- Two frames never hold one page. -/
lemma Sound.inj (hp : p.Sound) {i j : ℕ} {f g : Frame} (hf : p.frames[i]? = some f)
    (hg : p.frames[j]? = some g) (hid : f.pageId = g.pageId) : i = j := by
  have hi := hp.get_iff.mpr ⟨f, hf, hid⟩
  have hj := hp.get_iff.mpr ⟨g, hg, rfl⟩
  rw [hi] at hj
  exact Option.some.inj hj

/-- A frame is given to a page that is not in the pool, or to the one it holds. -/
lemma Sound.give (hp : p.Sound) {i : ℕ} {f g : Frame} (hf : p.frames[i]? = some f)
    (hg : g.pageId = f.pageId ∨ ∀ h ∈ p.frames, h.pageId ≠ g.pageId) :
    Sound { p with frames := p.frames.set i g, map := (p.map.erase f.pageId).insert g.pageId i } := by
  refine ⟨?_, ?_, hp.capacity⟩
  · have hi : (p.frames.map Frame.pageId)[i]? = some f.pageId := by simp [hf]
    have := hp.positions.set hi (b := g.pageId) (hg.imp_right fun h => by simpa using h)
    simpa [List.map_set] using this
  · simpa using hp.clock

/-- The pool `q` gets the frame `g` at the place `i`: behind the others, or in the place of a clean
one. -/
inductive Gets (q : BufferPool) (g : Frame) : ℕ → BufferPool → Prop
  | grown : Gets q g q.frames.length
      { q with frames := q.frames ++ [g], map := q.map.insert g.pageId q.frames.length }
  | reused {i : ℕ} {f : Frame} (hf : q.frames[i]? = some f) (hclean : f.dirty = false) :
      Gets q g i { q with
        frames := q.frames.set i g
        map := (q.map.erase f.pageId).insert g.pageId i }

namespace Gets
variable {g : Frame} {i : ℕ}

lemma frame (h : Gets p g i q) : q.frames[i]? = some g := by
  cases h with
  | grown => simp
  | reused hf _ => exact List.getElem?_set_self (List.getElem?_eq_some_iff.mp hf).1

lemma sound (h : Gets p g i q) (hp : p.Sound) (hnew : ∀ f ∈ p.frames, f.pageId ≠ g.pageId) :
    q.Sound := by
  cases h with
  | grown =>
    refine ⟨?_, ?_, hp.capacity⟩
    · have := hp.positions.push (a := g.pageId) (by simpa using hnew)
      simpa using this
    · rcases hp.clock with h | h
      · exact Or.inl (h.trans (by simp))
      · exact Or.inr h
  | reused hf _ => exact hp.give hf (Or.inr hnew)

/-- The frames are the old ones and the new one. -/
lemma mem (h : Gets p g i q) {f : Frame} (hf : f ∈ q.frames) : f = g ∨ f ∈ p.frames := by
  cases h with
  | grown => simpa [or_comm] using hf
  | reused => exact (List.mem_or_eq_of_mem_set hf).symm

/-- A frame that is missing was clean. -/
lemma mem_or_clean (h : Gets p g i q) {f : Frame} (hf : f ∈ p.frames) :
    f ∈ q.frames ∨ f.dirty = false := by
  cases h with
  | grown => exact Or.inl (List.mem_append_left _ hf)
  | @reused _ victim hvictim hclean =>
    obtain ⟨j, hj⟩ := List.mem_iff_getElem?.mp hf
    by_cases hij : i = j
    · subst hij
      rw [hvictim, Option.some.injEq] at hj
      exact Or.inr (hj ▸ hclean)
    · exact Or.inl (List.mem_of_getElem? ((List.getElem?_set_ne hij).trans hj))

lemma length_le (h : Gets p g i q) : q.frames.length ≤ p.frames.length + 1 := by
  cases h <;> simp

lemma capacity (h : Gets p g i q) : q.capacity = p.capacity := by
  cases h <;> rfl

/-- The new frame is changed right after it was given away. -/
lemma onFrame (h : Gets p g i q) (change : Frame → Frame) (hid : (change g).pageId = g.pageId) :
    ∃ q', q.onFrame i change = (.ok (), q') ∧ Gets p (change g) i q' := by
  have hlt : i < q.frames.length := (List.getElem?_eq_some_iff.mp h.frame).1
  refine ⟨_, if_pos hlt, ?_⟩
  cases h with
  | grown =>
    have hframes : (p.frames ++ [g]).modify p.frames.length change = p.frames ++ [change g] := by
      simp [List.modify_eq_set_getElem?]
    rw [hframes, ← hid]
    exact .grown
  | reused hf hclean =>
    have hframes : (p.frames.set i g).modify i change = p.frames.set i (change g) := by
      have hlt' := (List.getElem?_eq_some_iff.mp hf).1
      simp [List.modify_eq_set_getElem?, hlt']
    rw [hframes, ← hid]
    exact .reused hf hclean

end Gets

/-- The page is in the pool and was not written to the file. -/
def Dirty (p : BufferPool) (id : UInt64) : Prop := ∃ f ∈ p.frames, f.pageId = id ∧ f.dirty = true

lemma Same.dirty (h : Same p q) (hd : p.Dirty id) : q.Dirty id := by
  obtain ⟨f, hf, hid, hdirty⟩ := hd
  obtain ⟨g, hg, hpage⟩ := h.symm.exists_page hf
  simp only [Frame.page, Prod.mk.injEq] at hpage
  exact ⟨g, hg, hpage.1.trans hid, hpage.2.1.trans hdirty⟩

lemma Gets.dirty {g : Frame} {i : ℕ} (h : Gets p g i q) (hd : p.Dirty id) : q.Dirty id := by
  obtain ⟨f, hf, hid, hdirty⟩ := hd
  rcases h.mem_or_clean hf with hmem | hclean
  · exact ⟨f, hmem, hid, hdirty⟩
  · rw [hdirty] at hclean
    cases hclean

/-- A page is placed, or the pool is full of pages that may not be dropped. -/
lemma place_cases (hp : p.Sound) (id : UInt64) (bytes : PageBytes) : ∃ q, Same p q ∧ q.Sound ∧
    ((∃ i p', p.place id bytes = (.ok i, p') ∧ Gets q (.placed id bytes) i p') ∨
      ∃ err, p.place id bytes = (.error err, q) ∧ err.code = .resourceLimit ∧
        min (p.capacity * 16) u64Max ≤ p.frames.length ∧ ∀ f ∈ p.frames, f.droppable = false) := by
  rw [place]
  split_ifs with hroom
  · exact ⟨p, .refl p, hp, Or.inl ⟨_, _, rfl, .grown⟩⟩
  have hclock : p.clock < p.frames.length := by
    have := hp.capacity
    rcases hp.clock with h | h
    · exact h
    · omega
  obtain ⟨r, q, hevict, hsame, hclock', hvictim⟩ :=
    evictLoop_spec (2 * p.frames.length + 1) hclock
  have hone : p.evictOne = (.ok r, q) := hevict
  refine ⟨q, hsame, hsame.sound (Or.inl hclock') hp, ?_⟩
  rw [hone]
  cases r with
  | some i =>
    obtain ⟨f, hf, hdrop⟩ := hvictim i rfl
    have hclean : f.dirty = false := by
      simp only [Frame.droppable, decide_eq_true_eq] at hdrop
      exact hdrop.2
    refine Or.inl ⟨i, _, ?_, .reused hf hclean⟩
    simp only [hf]
    rfl
  | none =>
    dsimp only
    split_ifs with hfull
    · rw [hsame.capacity, hsame.length] at hfull
      exact Or.inr ⟨_, rfl, rfl, hfull, evictOne_none hclock hone⟩
    · exact Or.inl ⟨_, _, rfl, .grown⟩

lemma insertNew_cases (hp : p.Sound) (id : UInt64) (pageType : PageType) (pageLsn : UInt64) :
    ∃ q, Same p q ∧ q.Sound ∧
      ((∃ i p', p.insertNew id pageType pageLsn = (.ok i, p') ∧
        Gets q { Frame.placed id (newPage id pageType pageLsn) with
          dirty := true, pageLsn := pageLsn } i p') ∨
      ∃ err, p.insertNew id pageType pageLsn = (.error err, q) ∧
        min (p.capacity * 16) u64Max ≤ p.frames.length) := by
  obtain ⟨q, hsame, hq, ⟨i, p', hplace, hgets⟩ | ⟨err, hplace, -, hfull, -⟩⟩ :=
    place_cases hp id (newPage id pageType pageLsn)
  · obtain ⟨p'', hmark, hgets'⟩ := hgets.onFrame
      (fun f => { f with dirty := true, pageLsn := pageLsn }) rfl
    refine ⟨q, hsame, hq, Or.inl ⟨i, p'', ?_, hgets'⟩⟩
    rw [insertNew, hplace]
    simp only [hmark]
  · refine ⟨q, hsame, hq, Or.inr ⟨err, ?_, hfull⟩⟩
    rw [insertNew, hplace]

/-- A change that keeps the page of a frame keeps the pages of the pool. -/
lemma same_onFrame (p : BufferPool) (i : ℕ) {change : Frame → Frame}
    (h : ∀ f, (change f).page = f.page) : Same p (p.onFrame i change).2 := by
  rw [onFrame]
  split_ifs
  · refine ⟨List.ext_getElem? fun j => ?_, rfl, rfl⟩
    simp only [List.getElem?_map, List.getElem?_modify]
    cases p.frames[j]? with
    | none => rfl
    | some f =>
      by_cases hij : i = j
      · simp [hij, h]
      · simp [hij]
  · exact .refl p

lemma sound_onFrame (hp : p.Sound) (i : ℕ) {change : Frame → Frame}
    (h : ∀ f, (change f).pageId = f.pageId) : (p.onFrame i change).2.Sound := by
  rw [onFrame]
  split_ifs
  · refine ⟨?_, by simpa using hp.clock, hp.capacity⟩
    have hids : (p.frames.modify i change).map Frame.pageId = p.frames.map Frame.pageId := by
      refine List.ext_getElem? fun j => ?_
      simp only [List.getElem?_map, List.getElem?_modify]
      cases p.frames[j]? with
      | none => rfl
      | some f =>
        by_cases hij : i = j
        · simp [hij, h]
        · simp [hij]
    rw [hids]
    exact hp.positions
  · exact hp

lemma onFrame_eq {i : ℕ} {f : Frame} (hf : p.frames[i]? = some f) (change : Frame → Frame) :
    p.onFrame i change = (.ok (), { p with frames := p.frames.set i (change f) }) := by
  have hlt : i < p.frames.length := (List.getElem?_eq_some_iff.mp hf).1
  rw [onFrame, if_pos hlt, List.modify_eq_set_getElem?, hf]
  rfl

lemma fetch_resident (hp : p.Sound) (file : PageFile) (fault : Option CoreError) {i : ℕ}
    (hi : p.map[id]? = some i) : p.fetch file fault id =
      (.ok i, (p.onFrame i fun f => { f with referenced := true }).2) := by
  obtain ⟨f, hf, -⟩ := hp.get_iff.mp hi
  have hlt : i < p.frames.length := (List.getElem?_eq_some_iff.mp hf).1
  simp only [fetch, hi, onFrame, if_pos hlt]

/-- Frames that may not be dropped stay, in their order. -/
lemma kept_spec (capacity : ℕ) (frames : List Frame) :
    (kept capacity frames).Sublist frames ∧
      ∀ f ∈ frames, f.droppable = false → f ∈ kept capacity frames := by
  induction frames using List.reverseRecOn with
  | nil => simp [kept]
  | append_singleton frames f ih =>
    have hstep : kept capacity (frames ++ [f]) = keepFrame capacity (kept capacity frames) f :=
      List.foldl_append
    obtain ⟨hsub, hmem⟩ := ih
    rw [hstep, keepFrame]
    split_ifs with hkeep
    · refine ⟨hsub.append (List.Sublist.refl [f]), fun g hg hdrop => ?_⟩
      rcases List.mem_append.mp hg with hg | hg
      · exact List.mem_append_left _ (hmem g hg hdrop)
      · exact List.mem_append_right _ hg
    · refine ⟨hsub.trans (List.sublist_append_left _ _), fun g hg hdrop => ?_⟩
      rcases List.mem_append.mp hg with hg | hg
      · exact hmem g hg hdrop
      · -- the frame was dropped, so it may be
        obtain rfl := List.mem_singleton.mp hg
        exfalso
        simp only [Frame.droppable, decide_eq_false_iff_not] at hdrop
        have hpin : g.dirty = true ∨ 0 < g.pin := by
          by_contra hnot
          simp only [not_or, not_lt, Nat.le_zero, Bool.not_eq_true] at hnot
          exact hdrop ⟨hnot.2, hnot.1⟩
        refine hkeep ⟨hpin.imp_right Or.inl, fun h => hdrop ⟨h.1, h.2.1⟩⟩

end Sound

end BufferPool

/-- The pool and the file below it. -/
structure Paging where
  pool : BufferPool
  file : PageFile

namespace Paging

def flushFrame (s : Paging) (i : ℕ) (write : PageWrite) : CoreResult Unit × Paging :=
  match s.pool.frames[i]? with
  | none => (.error .panicked, s)
  | some f =>
    match writePage s.file f.pageId f.flushed write with
    | (.error err, file) =>
      (.error err, ⟨{ s.pool with frames := s.pool.frames.set i { f with bytes := f.flushed } }, file⟩)
    | (.ok _, file) =>
      (.ok (), ⟨{ s.pool with
        frames := s.pool.frames.set i { f with bytes := f.flushed, dirty := false } }, file⟩)

/-- Flush the dirty frames at the given indices whose LSN is durable, and count them. -/
def flushEach (durableLsn : UInt64) (writes : ℕ → PageWrite) : List ℕ → Paging → CoreResult ℕ × Paging
  | [], s => (.ok 0, s)
  | i :: is, s =>
    if s.pool.frames[i]?.any fun f => f.dirty ∧ f.pageLsn ≤ durableLsn then
      match s.flushFrame i (writes i) with
      | (.error err, s) => (.error err, s)
      | (.ok _, s) =>
        match flushEach durableLsn writes is s with
        | (.error err, s) => (.error err, s)
        | (.ok n, s) => (.ok (n + 1), s)
    else flushEach durableLsn writes is s

def flushDirtyUpTo (s : Paging) (durableLsn : UInt64) (writes : ℕ → PageWrite) :
    CoreResult ℕ × Paging :=
  flushEach durableLsn writes (List.range s.pool.frames.length) s

def flushPage (s : Paging) (id durableLsn : UInt64) (write : PageWrite) : CoreResult Unit × Paging :=
  match s.pool.map[id]? with
  | none => (.ok (), s)
  | some i =>
    match s.pool.frames[i]? with
    | none => (.error .panicked, s)
    | some f =>
      if f.dirty then
        if durableLsn < f.pageLsn then
          (.error (.new .internal "WAL-before-page violation refused"), s)
        else s.flushFrame i write
      else (.ok (), s)

end Paging

end CarolinaDB.Storage
