import CarolinaDB.BufferPool

/-!
# Runs of the buffer pool

What was last written to a page is what a fetch returns, from the pool or from the file, as long as
new pages get ids that are not in the pool and a page is moved only to where it was written.
-/
namespace CarolinaDB.Storage

/-- A header without the LSN, which a flush replaces, and the bytes behind it. -/
abbrev PageContent := PageHeader × Bytes

/-- What a page holds, if its header can be read. -/
def content (id : UInt64) (page : PageBytes) : Option PageContent :=
  (PageHeader.read page id).toOption.map fun h =>
    ({ h with pageLsn := 0 }, page.val.drop pageHeaderLen)

def onFile (file : PageFile) (id : UInt64) : Option PageContent :=
  (readPage file id none).toOption.bind (content id)

section Content
variable {file file' : PageFile} {id : UInt64} {page : PageBytes} {c : PageContent}

lemma onFile_congr (h : file' id = file id) : onFile file' id = onFile file id := by
  rw [onFile, onFile, readPage, readPage]
  simp only [h]

lemma onFile_of_eq (h : file id = page.val) : onFile file id = content id page := by
  have hread : readPage file id none = .ok page := by
    rw [readPage, dif_pos (by rw [h]; exact page.2)]
    exact congrArg Except.ok (Subtype.ext h)
  rw [onFile, hread]
  rfl

lemma content_eq_some : content id page = some c ↔ ∃ h, PageHeader.read page id = .ok h ∧
    c = ({ h with pageLsn := 0 }, page.val.drop pageHeaderLen) := by
  rw [content, Option.map_eq_some_iff]
  cases PageHeader.read page id with
  | error err => simp [Except.toOption]
  | ok h => simp [Except.toOption, eq_comm]

/-- A page with a promised content is read without an error. -/
lemma read_of_onFile (h : onFile file id = some c) : ∃ page header, readPage file id none = .ok page ∧
    PageHeader.read page id = .ok header ∧ content id page = some c := by
  rw [onFile, Option.bind_eq_some_iff] at h
  obtain ⟨page, hpage, hcontent⟩ := h
  obtain ⟨header, hheader, -⟩ := content_eq_some.mp hcontent
  refine ⟨page, header, ?_, hheader, hcontent⟩
  cases hread : readPage file id none with
  | error err => simp [hread, Except.toOption] at hpage
  | ok page' =>
    rw [hread] at hpage
    exact congrArg Except.ok (Option.some.inj hpage)

variable (f : Frame)

omit f in
lemma bounded_new (pageType : PageType) (id : UInt64) : (PageHeader.new pageType id).Bounded := by
  change ¬ (64 < 64 ∨ 8192 < 8192 ∨ (8192 : UInt16) < 64)
  decide

/-- The header of a flush is one that can be read. -/
lemma flushHeader_spec : f.flushHeader.pageId = f.pageId ∧ f.flushHeader.Bounded ∧
    f.flushHeader.pageLsn = f.pageLsn := by
  rw [Frame.flushHeader]
  cases hread : PageHeader.read f.bytes f.pageId with
  | error err => exact ⟨rfl, bounded_new .leaf f.pageId, rfl⟩
  | ok h =>
    obtain ⟨hid, hb, -⟩ := PageHeader.of_read_eq_ok hread
    exact ⟨hid, hb, rfl⟩

lemma read_flushed : PageHeader.read f.flushed f.pageId = .ok f.flushHeader := by
  obtain ⟨hid, hb, -⟩ := flushHeader_spec f
  rw [Frame.flushed, ← hid]
  exact PageHeader.read_write _ _ hb

/-- A flush keeps what the page holds. -/
lemma content_flushed (h : content f.pageId f.bytes = some c) : content f.pageId f.flushed = some c := by
  obtain ⟨header, hread, rfl⟩ := content_eq_some.mp h
  refine content_eq_some.mpr ⟨_, read_flushed f, ?_⟩
  rw [Frame.flushed, PageHeader.drop_write, Frame.flushHeader, hread]
  rfl

/-- Flushing a page again writes the same bytes. -/
lemma flushed_flushed : { f with bytes := f.flushed }.flushed = f.flushed := by
  have hheader : { f with bytes := f.flushed }.flushHeader = f.flushHeader := by
    have hread : PageHeader.read { f with bytes := f.flushed }.bytes f.pageId = .ok f.flushHeader :=
      read_flushed f
    rw [Frame.flushHeader, hread]
    exact congrArg (fun lsn => { f.flushHeader with pageLsn := lsn }) (flushHeader_spec f).2.2.symm
  refine Subtype.ext ?_
  rw [Frame.flushed, hheader]
  change f.flushHeader.under (f.flushed.val.drop pageHeaderLen) = _
  rw [Frame.flushed, PageHeader.drop_write]
  rfl

end Content

/-- What a flush does to the frames: a clean one stays as it is, a dirty one is clean if its page is
on file, and dirty otherwise. -/
structure Flushes (s s' : Paging) : Prop where
  map : s'.pool.map = s.pool.map
  clock : s'.pool.clock = s.pool.clock
  capacity : s'.pool.capacity = s.pool.capacity
  length : s'.pool.frames.length = s.pool.frames.length
  clean : ∀ (i : ℕ) (f : Frame), s.pool.frames[i]? = some f → f.dirty = false →
    s'.pool.frames[i]? = some f ∧ s'.file f.pageId = s.file f.pageId
  dirty : ∀ (i : ℕ) (f : Frame), s.pool.frames[i]? = some f → f.dirty = true →
    ∃ f' : Frame, s'.pool.frames[i]? = some f' ∧ f'.pageId = f.pageId ∧ (f'.bytes = f.bytes ∨ f'.bytes = f.flushed) ∧
    (f'.dirty = true ∧ f'.flushed = f.flushed ∨
      f'.dirty = false ∧ f'.bytes = f.flushed ∧ s'.file f.pageId = f.flushed.val)
  absent : ∀ id, (∀ f ∈ s.pool.frames, f.pageId ≠ id) → s'.file id = s.file id

namespace Flushes
variable {s s' s'' : Paging}

lemma refl (s : Paging) : Flushes s s :=
  ⟨rfl, rfl, rfl, rfl, fun _ _ hf _ => ⟨hf, rfl⟩,
    fun _ f hf hd => ⟨f, hf, rfl, Or.inl rfl, Or.inl ⟨hd, rfl⟩⟩, fun _ _ => rfl⟩

/-- A frame keeps its page. -/
lemma frame (h : Flushes s s') {i : ℕ} {f : Frame} (hf : s.pool.frames[i]? = some f) :
    ∃ f', s'.pool.frames[i]? = some f' ∧ f'.pageId = f.pageId := by
  cases hd : f.dirty with
  | false => exact ⟨f, (h.clean i f hf hd).1, rfl⟩
  | true =>
    obtain ⟨f', hf', hid, -⟩ := h.dirty i f hf hd
    exact ⟨f', hf', hid⟩

lemma pageIds (h : Flushes s s') :
    s'.pool.frames.map Frame.pageId = s.pool.frames.map Frame.pageId := by
  refine List.ext_getElem? fun i => ?_
  rw [List.getElem?_map, List.getElem?_map]
  cases hf : s.pool.frames[i]? with
  | none =>
    rw [List.getElem?_eq_none_iff, ← h.length, ← List.getElem?_eq_none_iff] at hf
    rw [hf]
  | some f =>
    obtain ⟨f', hf', hid⟩ := h.frame hf
    rw [hf', Option.map_some, Option.map_some, hid]

lemma mem_pageIds (h : Flushes s s') {id : UInt64} :
    (∀ f ∈ s'.pool.frames, f.pageId ≠ id) ↔ ∀ f ∈ s.pool.frames, f.pageId ≠ id := by
  have hiff (l : List Frame) : (∀ f ∈ l, f.pageId ≠ id) ↔ id ∉ l.map Frame.pageId := by simp
  rw [hiff, hiff, h.pageIds]

lemma sound (h : Flushes s s') (hs : s.pool.Sound) : s'.pool.Sound := by
  refine ⟨?_, ?_, h.capacity ▸ hs.capacity⟩
  · rw [h.map, h.pageIds]
    exact hs.positions
  · rw [h.clock, h.length]
    exact hs.clock

lemma trans (h : Flushes s s') (h' : Flushes s' s'') : Flushes s s'' := by
  refine ⟨h'.map.trans h.map, h'.clock.trans h.clock, h'.capacity.trans h.capacity,
    h'.length.trans h.length, fun i f hf hd => ?_, fun i f hf hd => ?_, fun id hid => ?_⟩
  · obtain ⟨hf', hfile⟩ := h.clean i f hf hd
    obtain ⟨hf'', hfile'⟩ := h'.clean i f hf' hd
    exact ⟨hf'', hfile'.trans hfile⟩
  · obtain ⟨f', hf', hid, hbytes, ⟨hd', hflushed⟩ | ⟨hd', hbytes', hfile⟩⟩ := h.dirty i f hf hd
    · obtain ⟨f'', hf'', hid', hbytes', hrest⟩ := h'.dirty i f' hf' hd'
      rw [hflushed] at hbytes' hrest
      refine ⟨f'', hf'', hid'.trans hid, ?_, by rwa [hid] at hrest⟩
      rcases hbytes' with hbytes' | hbytes'
      · rw [hbytes']
        exact hbytes
      · exact Or.inr hbytes'
    · obtain ⟨hf'', hfile'⟩ := h'.clean i f' hf' hd'
      rw [hid] at hfile'
      exact ⟨f', hf'', hid, hbytes, Or.inr ⟨hd', hbytes', hfile'.trans hfile⟩⟩
  · exact (h'.absent id (h.mem_pageIds.mpr hid)).trans (h.absent id hid)

end Flushes

section Flush
variable {s : Paging}

/-- A dirty frame is written to the file, or a write of it fails. -/
lemma flushes_set (hs : s.pool.Sound) {i : ℕ} {f : Frame} (hf : s.pool.frames[i]? = some f)
    (hdirty : f.dirty = true) (f' : Frame) (file : PageFile) (hid : f'.pageId = f.pageId)
    (hbytes : f'.bytes = f.flushed) (hfile : ∀ id ≠ f.pageId, file id = s.file id)
    (hend : f'.dirty = true ∧ f'.flushed = f.flushed ∨
      f'.dirty = false ∧ file f.pageId = f.flushed.val) :
    Flushes s ⟨{ s.pool with frames := s.pool.frames.set i f' }, file⟩ := by
  have hlt : i < s.pool.frames.length := (List.getElem?_eq_some_iff.mp hf).1
  refine ⟨rfl, rfl, rfl, List.length_set, fun j g hg hd => ?_, fun j g hg hd => ?_, fun id habsent => ?_⟩
  · have hij : i ≠ j := by
      rintro rfl
      rw [hf, Option.some.injEq] at hg
      rw [hg, hd] at hdirty
      cases hdirty
    refine ⟨(List.getElem?_set_ne hij).trans hg, hfile _ fun hsame => hij ?_⟩
    exact hs.inj hf hg hsame.symm
  · by_cases hij : i = j
    · subst hij
      obtain rfl : f = g := Option.some.inj (hf.symm.trans hg)
      refine ⟨f', List.getElem?_set_self hlt, hid, Or.inr hbytes, ?_⟩
      rcases hend with hend | ⟨hclean, hwritten⟩
      · exact Or.inl hend
      · exact Or.inr ⟨hclean, hbytes, hwritten⟩
    · exact ⟨g, (List.getElem?_set_ne hij).trans hg, rfl, Or.inl rfl, Or.inl ⟨hd, rfl⟩⟩
  · exact hfile id fun h => habsent f (List.mem_of_getElem? hf) h.symm

lemma flushes_flushFrame (hs : s.pool.Sound) {i : ℕ} {f : Frame} (hf : s.pool.frames[i]? = some f)
    (hdirty : f.dirty = true) (write : PageWrite) : Flushes s (s.flushFrame i write).2 := by
  rw [Paging.flushFrame, hf]
  cases write with
  | whole =>
    exact flushes_set hs hf hdirty { f with bytes := f.flushed, dirty := false } _ rfl rfl
      (fun id hid => Function.update_of_ne hid _ _) (Or.inr ⟨rfl, Function.update_self _ _ _⟩)
  | refused err =>
    exact flushes_set hs hf hdirty { f with bytes := f.flushed } _ rfl rfl (fun _ _ => rfl)
      (Or.inl ⟨hdirty, flushed_flushed f⟩)
  | torn err left =>
    exact flushes_set hs hf hdirty { f with bytes := f.flushed } _ rfl rfl
      (fun id hid => Function.update_of_ne hid _ _) (Or.inl ⟨hdirty, flushed_flushed f⟩)

lemma flushes_flushEach {durableLsn : UInt64} {writes : ℕ → PageWrite} (is : List ℕ)
    (hs : s.pool.Sound) : Flushes s (Paging.flushEach durableLsn writes is s).2 := by
  induction is generalizing s with
  | nil => exact .refl s
  | cons i is ih =>
    rw [Paging.flushEach]
    split_ifs with hdue
    · obtain ⟨f, hf, hdirty⟩ : ∃ f, s.pool.frames[i]? = some f ∧ f.dirty = true := by
        cases hf : s.pool.frames[i]? with
        | none => simp [hf] at hdue
        | some f =>
          simp only [hf, Option.any_some, decide_eq_true_eq] at hdue
          exact ⟨f, rfl, hdue.1⟩
      have hstep := flushes_flushFrame hs hf hdirty (writes i)
      rcases hrun : s.flushFrame i (writes i) with ⟨err | u, s'⟩
      · rw [hrun] at hstep
        exact hstep
      · rw [hrun] at hstep
        have hrest := ih (hstep.sound hs)
        rcases hrun' : Paging.flushEach durableLsn writes is s' with ⟨err | n, s''⟩
        · rw [hrun'] at hrest
          simp only [hrun']
          exact hstep.trans hrest
        · rw [hrun'] at hrest
          simp only [hrun']
          exact hstep.trans hrest
    · exact ih hs

lemma flushes_flushPage (hs : s.pool.Sound) (id durableLsn : UInt64) (write : PageWrite) :
    Flushes s (s.flushPage id durableLsn write).2 := by
  rw [Paging.flushPage]
  cases hi : s.pool.map[id]? with
  | none => exact .refl s
  | some i =>
    obtain ⟨f, hf, -⟩ := hs.get_iff.mp hi
    simp only [hf]
    split_ifs with hdirty hlsn
    · exact .refl s
    · exact flushes_flushFrame hs hf hdirty write
    · exact .refl s

end Flush

/-! ### What a page holds -/

/-- The page holds `c`: in the pool, and on file unless the frame is dirty; or on file only. -/
structure HoldsPage (s : Paging) (id : UInt64) (c : PageContent) : Prop where
  resident : ∀ f ∈ s.pool.frames, f.pageId = id →
    content id f.bytes = some c ∧ (f.dirty = false → onFile s.file id = some c)
  absent : (∀ f ∈ s.pool.frames, f.pageId ≠ id) → onFile s.file id = some c

section Holds
variable {s s' : Paging} {p q : BufferPool} {file : PageFile} {id : UInt64} {c : PageContent}

/-- The frame of a page decides what it holds. -/
lemma holds_of_frame (hs : s.pool.Sound) {i : ℕ} {f : Frame} (hf : s.pool.frames[i]? = some f)
    (hcontent : content f.pageId f.bytes = some c)
    (hclean : f.dirty = false → onFile s.file f.pageId = some c) : HoldsPage s f.pageId c := by
  refine ⟨fun g hg hid => ?_, fun habsent => ?_⟩
  · obtain ⟨j, hj⟩ := List.mem_iff_getElem?.mp hg
    obtain rfl := hs.inj hj hf hid
    obtain rfl : f = g := Option.some.inj (hf.symm.trans hj)
    exact ⟨hcontent, hclean⟩
  · exact absurd rfl (habsent f (List.mem_of_getElem? hf))

lemma HoldsPage.frame (h : HoldsPage s id c) {i : ℕ} (hs : s.pool.Sound) (hi : s.pool.map[id]? = some i) :
    ∃ f, s.pool.frames[i]? = some f ∧ f.pageId = id ∧ content id f.bytes = some c := by
  obtain ⟨f, hf, hid⟩ := hs.get_iff.mp hi
  exact ⟨f, hf, hid, (h.resident f (List.mem_of_getElem? hf) hid).1⟩

/-- A fetch returns the frame of the page, with what the page holds. Without a fault it fails only for
a page that is not in the pool, when no frame may be dropped and the pool has grown to its limit. -/
lemma HoldsPage.fetch_cases (h : HoldsPage s id c) (hs : s.pool.Sound) (fault : Option CoreError) :
    (∃ i q, s.pool.fetch s.file fault id = (.ok i, q) ∧ (∀ x, s.pool.Dirty x → q.Dirty x) ∧
      ∃ f, q.frames[i]? = some f ∧ f.pageId = id ∧ content id f.bytes = some c) ∨
    s.pool.map[id]? = none ∧ ∃ err q, s.pool.fetch s.file fault id = (.error err, q) ∧
      (fault = none → err.code = .resourceLimit ∧ (∀ f ∈ s.pool.frames, f.droppable = false) ∧
        min (s.pool.capacity * 16) u64Max ≤ s.pool.frames.length) := by
  cases hi : s.pool.map[id]? with
  | some i =>
    obtain ⟨f, hf, hid, hcontent⟩ := h.frame hs hi
    refine Or.inl ⟨i, _, BufferPool.fetch_resident hs s.file fault hi,
      fun x hx => ?_, { f with referenced := true }, ?_⟩
    · exact BufferPool.Same.dirty (BufferPool.same_onFrame s.pool i fun _ => rfl) hx
    · rw [BufferPool.onFrame_eq hf]
      exact ⟨List.getElem?_set_self (List.getElem?_eq_some_iff.mp hf).1, hid, hcontent⟩
  | none =>
    cases fault with
    | some err => exact Or.inr ⟨rfl, err, s.pool, by simp only [BufferPool.fetch, hi, readPage], by simp⟩
    | none =>
      obtain ⟨page, header, hpage, hheader, hcontent⟩ :=
        read_of_onFile (h.absent (hs.none_iff.mp hi))
      have hfetch : s.pool.fetch s.file none id = s.pool.place id page := by
        simp only [BufferPool.fetch, hi, hpage, hheader]
      obtain ⟨q, hsame, -, ⟨i, p', hplace, hgets⟩ | ⟨err, hplace, hcode, hfull, hdropped⟩⟩ :=
        BufferPool.place_cases hs id page
      · exact Or.inl ⟨i, p', hfetch.trans hplace, fun x hx => hgets.dirty (hsame.dirty hx), _,
          hgets.frame, rfl, hcontent⟩
      · exact Or.inr ⟨rfl, err, q, hfetch.trans hplace, fun _ => ⟨hcode, hdropped, hfull⟩⟩

/-- Frames are dropped only if they are clean, and no other frame gets the page. -/
lemma HoldsPage.of_mem (h : HoldsPage s id c) (hfile : s'.file id = s.file id)
    (hmem : ∀ f ∈ s'.pool.frames, f.pageId = id → ∃ g ∈ s.pool.frames, g.page = f.page)
    (hdropped : ∀ f ∈ s.pool.frames, f.pageId = id → f.dirty = true →
      ∃ g ∈ s'.pool.frames, g.pageId = id) : HoldsPage s' id c := by
  have honFile := onFile_congr hfile
  refine ⟨fun f hf hid => ?_, fun habsent => ?_⟩
  · obtain ⟨g, hg, hpage⟩ := hmem f hf hid
    simp only [Frame.page, Prod.mk.injEq] at hpage
    obtain ⟨hcontent, hclean⟩ := h.resident g hg (hpage.1.trans hid)
    rw [honFile, ← hpage.2.1, ← hpage.2.2]
    exact ⟨hcontent, hclean⟩
  · rw [honFile]
    by_cases hres : ∀ f ∈ s.pool.frames, f.pageId ≠ id
    · exact h.absent hres
    · push Not at hres
      obtain ⟨f, hf, hid⟩ := hres
      refine (h.resident f hf hid).2 ?_
      by_contra hdirty
      obtain ⟨g, hg, hgid⟩ := hdropped f hf hid (by simpa using hdirty)
      exact habsent g hg hgid

lemma HoldsPage.same (h : HoldsPage ⟨p, file⟩ id c) (hsame : BufferPool.Same p q) : HoldsPage ⟨q, file⟩ id c := by
  refine h.of_mem rfl (fun f hf _ => hsame.exists_page hf) fun f hf hid _ => ?_
  obtain ⟨g, hg, hpage⟩ := hsame.symm.exists_page hf
  exact ⟨g, hg, (congrArg Prod.fst hpage).trans hid⟩

lemma HoldsPage.flushes (h : HoldsPage s id c) (hs : s.pool.Sound) (hflush : Flushes s s') : HoldsPage s' id c := by
  by_cases hres : ∀ f ∈ s.pool.frames, f.pageId ≠ id
  · refine ⟨fun f hf hid => absurd hid (hflush.mem_pageIds.mpr hres f hf), fun _ => ?_⟩
    rw [onFile_congr (hflush.absent id hres)]
    exact h.absent hres
  push Not at hres
  obtain ⟨f, hf, rfl⟩ := hres
  obtain ⟨i, hi⟩ := List.mem_iff_getElem?.mp hf
  obtain ⟨hcontent, hclean⟩ := h.resident f hf rfl
  cases hd : f.dirty with
  | false =>
    obtain ⟨hi', hfile⟩ := hflush.clean i f hi hd
    refine holds_of_frame (hflush.sound hs) hi' hcontent fun _ => ?_
    rw [onFile_congr hfile]
    exact hclean hd
  | true =>
    obtain ⟨f', hi', hid, hbytes, hend⟩ := hflush.dirty i f hi hd
    have hcontent' : content f'.pageId f'.bytes = some c := by
      rw [hid]
      rcases hbytes with hbytes | hbytes
      · rw [hbytes]
        exact hcontent
      · rw [hbytes]
        exact content_flushed f hcontent
    rw [← hid]
    refine holds_of_frame (hflush.sound hs) hi' hcontent' fun hd' => ?_
    rcases hend with ⟨hd'', -⟩ | ⟨-, hflushed, hfile⟩
    · rw [hd'] at hd''
      cases hd''
    · rw [hid, onFile_of_eq hfile]
      exact content_flushed f hcontent

/-- Another page got a frame. -/
lemma HoldsPage.gets (h : HoldsPage ⟨p, file⟩ id c) {g : Frame} {i : ℕ} (hgets : BufferPool.Gets p g i q)
    (hid : g.pageId ≠ id) : HoldsPage ⟨q, file⟩ id c := by
  refine h.of_mem rfl (fun f hf hfid => ?_) fun f hf hfid hdirty => ?_
  · rcases hgets.mem hf with rfl | hf
    · exact absurd hfid hid
    · exact ⟨f, hf, rfl⟩
  · rcases hgets.mem_or_clean hf with hf | hclean
    · exact ⟨f, hf, hfid⟩
    · rw [hclean] at hdirty
      cases hdirty

/-- Another page got the frame of another page. -/
lemma HoldsPage.set (h : HoldsPage ⟨p, file⟩ id c) {i : ℕ} {f g : Frame} (hf : p.frames[i]? = some f)
    (hfid : f.pageId ≠ id) (hgid : g.pageId ≠ id) (m : FiniteMap UInt64 ℕ) :
    HoldsPage ⟨{ p with frames := p.frames.set i g, map := m }, file⟩ id c := by
  refine h.of_mem rfl (fun f' hf' hid => ?_) fun f' hf' hid _ => ?_
  · rcases List.mem_or_eq_of_mem_set hf' with hmem | rfl
    · exact ⟨f', hmem, rfl⟩
    · exact absurd hid hgid
  · obtain ⟨j, hj⟩ := List.mem_iff_getElem?.mp hf'
    have hij : i ≠ j := by
      rintro rfl
      rw [hf, Option.some.injEq] at hj
      exact hfid (hj ▸ hid)
    exact ⟨f', List.mem_of_getElem? ((List.getElem?_set_ne hij).trans hj), hid⟩

end Holds

/-! ### Calls -/

inductive PagingCall
  | fetch (id : UInt64) (fault : Option CoreError)
  | insertNew (id : UInt64) (pageType : PageType) (pageLsn : UInt64)
  /-- The owner writes to a frame and marks it dirty. -/
  | write (i : ℕ) (bytes : PageBytes) (pageLsn : UInt64)
  | pin (i : ℕ)
  | unpin (i : ℕ)
  | flushDirtyUpTo (durableLsn : UInt64) (outcomes : ℕ → PageWrite)
  | flushPage (id durableLsn : UInt64) (outcome : PageWrite)
  | stampDirtyLsn (lsn : UInt64)
  | shrinkToCapacity
  | rekey (oldId newId : UInt64) (bytes : PageBytes)
  /-- The owner writes a page to the file, not through the pool. -/
  | writePage (id : UInt64) (src : PageBytes) (outcome : PageWrite)

namespace PagingCall

/-- The call, with the frame index or the count that it returns. -/
def run (s : Paging) : PagingCall → CoreResult (Option ℕ) × Paging
  | fetch id fault =>
    let r := s.pool.fetch s.file fault id
    (r.1.map some, ⟨r.2, s.file⟩)
  | insertNew id pageType pageLsn =>
    let r := s.pool.insertNew id pageType pageLsn
    (r.1.map some, ⟨r.2, s.file⟩)
  | write i bytes pageLsn =>
    let r := s.pool.onFrame i fun f => { f with bytes := bytes }.markDirty pageLsn
    (r.1.map fun _ => none, ⟨r.2, s.file⟩)
  | pin i =>
    let r := s.pool.onFrame i fun f => { f with pin := f.pin + 1 }
    (r.1.map fun _ => none, ⟨r.2, s.file⟩)
  | unpin i =>
    let r := s.pool.onFrame i fun f => { f with pin := f.pin - 1 }
    (r.1.map fun _ => none, ⟨r.2, s.file⟩)
  | flushDirtyUpTo durableLsn outcomes =>
    let r := s.flushDirtyUpTo durableLsn outcomes
    (r.1.map some, r.2)
  | flushPage id durableLsn outcome =>
    let r := s.flushPage id durableLsn outcome
    (r.1.map fun _ => none, r.2)
  | stampDirtyLsn lsn => (.ok none, ⟨s.pool.stampDirtyLsn lsn, s.file⟩)
  | shrinkToCapacity => (.ok none, ⟨s.pool.shrinkToCapacity, s.file⟩)
  | rekey oldId newId bytes =>
    let r := s.pool.rekey oldId newId bytes
    (r.1.map fun _ => none, ⟨r.2, s.file⟩)
  | writePage id src outcome =>
    let r := Storage.writePage s.file id src outcome
    (r.1.map fun _ => none, ⟨s.pool, r.2⟩)

/-- What the owner of the pool has to see to: a new page gets an id that is not in the pool, a page
moves to an id that is not and where it was written, and a page in the pool is written to the file
only while it is dirty. -/
def Proper (s : Paging) : PagingCall → Prop
  | insertNew id _ _ => s.pool.contains id = false
  | rekey oldId newId bytes => s.pool.contains oldId = true →
      (newId = oldId ∨ s.pool.contains newId = false) ∧ s.file newId = bytes.val
  | writePage id _ _ => ∀ f ∈ s.pool.frames, f.pageId = id → f.dirty = true
  | _ => True

/-- The page that a call moves away or declares to be on file. -/
def moves : PagingCall → Option UInt64
  | rekey oldId _ _ => some oldId
  | _ => none

end PagingCall

/-- What was last written to every page, where that is known. -/
abbrev PageContents := UInt64 → Option PageContent

/-- What a call writes. -/
def PageContents.after (w : PageContents) (s : Paging) : PagingCall → PageContents
  | .insertNew id pageType pageLsn =>
    match (s.pool.insertNew id pageType pageLsn).1 with
    | .ok _ => Function.update w id (content id (BufferPool.newPage id pageType pageLsn))
    | .error _ => w
  | .write i bytes _ =>
    match s.pool.frames[i]? with
    | some f => Function.update w f.pageId (content f.pageId bytes)
    | none => w
  | .rekey oldId newId bytes =>
    -- nothing is said of the page that was left
    if s.pool.contains oldId then
      Function.update (Function.update w oldId none) newId (content newId bytes)
    else w
  | .writePage id src outcome =>
    if s.pool.contains id then w
    else
      match outcome with
      | .whole => Function.update w id (content id src)
      | .refused _ => w
      | .torn _ _ => Function.update w id none
  | _ => w

/-- A call keeps the pool sound, every dirty frame it does not write or move, and what was written. -/
structure PagingStep (moved : Option UInt64) (s s' : Paging) (w w' : PageContents) : Prop where
  sound : s'.pool.Sound
  keeps : ∀ f ∈ s.pool.frames, f.dirty = true →
    (∃ f' ∈ s'.pool.frames, f'.pageId = f.pageId ∧ f'.dirty = true) ∨
      s'.file f.pageId = f.flushed.val ∨ moved = some f.pageId
  holds : (∀ id c, w id = some c → HoldsPage s id c) → ∀ id c, w' id = some c → HoldsPage s' id c

section Step
variable {s s' : Paging} {p q : BufferPool} {file : PageFile} {w : PageContents}

/-- What holds whichever page moved. -/
lemma PagingStep.moved {w' : PageContents} (h : PagingStep none s s' w w') (id : Option UInt64) : PagingStep id s s' w w' :=
  ⟨h.sound, fun f hf hd => (h.keeps f hf hd).imp_right fun h => Or.inl (h.resolve_right (by simp)),
    h.holds⟩

lemma step_same (hq : q.Sound) (hsame : BufferPool.Same p q) : PagingStep none ⟨p, file⟩ ⟨q, file⟩ w w := by
  exact ⟨hq, fun f hf hdirty => Or.inl (hsame.dirty ⟨f, hf, rfl, hdirty⟩),
    fun hw id c hid => (hw id c hid).same hsame⟩

lemma step_flushes (hs : s.pool.Sound) (hflush : Flushes s s') : PagingStep none s s' w w := by
  refine ⟨hflush.sound hs, fun f hf hdirty => ?_, fun hw id c hid => (hw id c hid).flushes hs hflush⟩
  obtain ⟨i, hi⟩ := List.mem_iff_getElem?.mp hf
  obtain ⟨f', hf', hid, -, ⟨hdirty', -⟩ | ⟨-, -, hfile⟩⟩ := hflush.dirty i f hi hdirty
  · exact Or.inl ⟨f', List.mem_of_getElem? hf', hid, hdirty'⟩
  · exact Or.inr (Or.inl hfile)

/-- A page that is not in the pool gets a frame. -/
lemma step_gets (hsame : BufferPool.Same p q) (hq : q.Sound) {g : Frame} {i : ℕ} {p' : BufferPool}
    (hgets : BufferPool.Gets q g i p') (hnew : ∀ f ∈ p.frames, f.pageId ≠ g.pageId) {w' : PageContents}
    (hother : ∀ id ≠ g.pageId, w' id = w id)
    (hpage : ∀ c, (∀ c', w g.pageId = some c' → HoldsPage ⟨p, file⟩ g.pageId c') →
      w' g.pageId = some c → content g.pageId g.bytes = some c ∧
        (g.dirty = false → onFile file g.pageId = some c)) :
    PagingStep none ⟨p, file⟩ ⟨p', file⟩ w w' := by
  have hnew' : ∀ f ∈ q.frames, f.pageId ≠ g.pageId := by
    intro f hf
    obtain ⟨f', hf', hpage'⟩ := hsame.exists_page hf
    exact fun hid => hnew f' hf' ((congrArg Prod.fst hpage').trans hid)
  have hsound := hgets.sound hq hnew'
  refine ⟨hsound, fun f hf hdirty => ?_, fun hw id c hid => ?_⟩
  · exact Or.inl (hgets.dirty (hsame.dirty ⟨f, hf, rfl, hdirty⟩))
  · by_cases hg : id = g.pageId
    · subst hg
      obtain ⟨hcontent, hclean⟩ := hpage c (hw _) hid
      exact holds_of_frame (s := ⟨p', file⟩) hsound hgets.frame hcontent hclean
    · rw [hother id hg] at hid
      exact ((hw id c hid).same hsame).gets hgets (Ne.symm hg)

lemma step_fetch (hs : s.pool.Sound) (id : UInt64) (fault : Option CoreError) :
    PagingStep none s ((PagingCall.fetch id fault).run s).2 w w := by
  cases hi : s.pool.map[id]? with
  | some i =>
    simp only [PagingCall.run, BufferPool.fetch_resident hs s.file fault hi]
    exact step_same (BufferPool.sound_onFrame hs i fun _ => rfl)
      (BufferPool.same_onFrame s.pool i fun _ => rfl)
  | none =>
    have habsent := hs.none_iff.mp hi
    simp only [PagingCall.run, BufferPool.fetch, hi]
    cases hread : readPage s.file id fault with
    | error err => exact step_same hs (.refl _)
    | ok bytes =>
      cases hheader : PageHeader.read bytes id with
      | error err =>
        simp only [hheader]
        exact step_same hs (.refl _)
      | ok header =>
        simp only [hheader]
        obtain ⟨q, hsame, hq, ⟨i, p', hplace, hgets⟩ | ⟨err, hplace, -⟩⟩ :=
          BufferPool.place_cases hs id bytes
        · simp only [hplace]
          refine step_gets hsame hq hgets habsent (fun _ _ => rfl) fun c hholds hw => ?_
          -- what the page holds is on file, and was read
          have honFile : onFile s.file id = some c := (hholds c hw).absent habsent
          have hfault : fault = none := by
            cases fault with
            | none => rfl
            | some err => cases hread
          have hcontent : content id bytes = some c := by
            rw [onFile, ← hfault, hread] at honFile
            exact honFile
          exact ⟨hcontent, fun _ => honFile⟩
        · simp only [hplace]
          exact step_same hq hsame

lemma step_insertNew (hs : s.pool.Sound) {id : UInt64} {pageType : PageType} {pageLsn : UInt64}
    (hproper : (PagingCall.insertNew id pageType pageLsn).Proper s) :
    PagingStep none s ((PagingCall.insertNew id pageType pageLsn).run s).2 w
      (w.after s (.insertNew id pageType pageLsn)) := by
  have habsent : ∀ f ∈ s.pool.frames, f.pageId ≠ id :=
    hs.none_iff.mp (BufferPool.contains_eq_false.mp hproper)
  simp only [PagingCall.run, PageContents.after]
  obtain ⟨q, hsame, hq, ⟨i, p', hinsert, hgets⟩ | ⟨err, hinsert, -⟩⟩ :=
    BufferPool.insertNew_cases hs id pageType pageLsn
  · simp only [hinsert]
    refine step_gets hsame hq hgets habsent (fun _ hid => Function.update_of_ne hid _ _)
      fun c _ hw => ⟨?_, fun hclean => by cases hclean⟩
    exact (Function.update_self id (content id _) w).symm.trans hw
  · simp only [hinsert]
    exact step_same hq hsame

/-- The frame of a page is given to another page, or written to. -/
lemma step_set {i : ℕ} {f : Frame} (hf : s.pool.frames[i]? = some f) (g : Frame)
    (m : FiniteMap UInt64 ℕ)
    (hsound : BufferPool.Sound { s.pool with frames := s.pool.frames.set i g, map := m })
    {w' : PageContents} (hother : ∀ id ≠ f.pageId, id ≠ g.pageId → w' id = w id)
    (hleft : f.pageId ≠ g.pageId → w' f.pageId = none)
    (hpage : ∀ c, w' g.pageId = some c → content g.pageId g.bytes = some c ∧
      (g.dirty = false → onFile s.file g.pageId = some c))
    {moved : Option UInt64} (hmoved : g.pageId = f.pageId ∧ g.dirty = true ∨ moved = some f.pageId) :
    PagingStep moved s ⟨{ s.pool with frames := s.pool.frames.set i g, map := m }, s.file⟩ w w' := by
  have hlt : i < s.pool.frames.length := (List.getElem?_eq_some_iff.mp hf).1
  refine ⟨hsound, fun f' hf' hdirty => ?_, fun hw id c hid => ?_⟩
  · obtain ⟨j, hj⟩ := List.mem_iff_getElem?.mp hf'
    by_cases hij : i = j
    · subst hij
      obtain rfl : f = f' := Option.some.inj (hf.symm.trans hj)
      rcases hmoved with ⟨hsame, hg⟩ | hmoved
      · exact Or.inl ⟨g, List.mem_of_getElem? (List.getElem?_set_self hlt), hsame, hg⟩
      · exact Or.inr (Or.inr hmoved)
    · exact Or.inl ⟨f', List.mem_of_getElem? ((List.getElem?_set_ne hij).trans hj), rfl, hdirty⟩
  · by_cases hg : id = g.pageId
    · subst hg
      obtain ⟨hcontent, hclean⟩ := hpage c hid
      exact holds_of_frame (s := ⟨_, s.file⟩) hsound (List.getElem?_set_self hlt) hcontent hclean
    · by_cases hf' : id = f.pageId
      · subst hf'
        rw [hleft hg] at hid
        cases hid
      · rw [hother id hf' hg] at hid
        exact (hw id c hid).set hf (Ne.symm hf') (Ne.symm hg) m

lemma step_write (hs : s.pool.Sound) (i : ℕ) (bytes : PageBytes) (pageLsn : UInt64) :
    PagingStep none s ((PagingCall.write i bytes pageLsn).run s).2 w
      (w.after s (.write i bytes pageLsn)) := by
  have hsound : ((PagingCall.write i bytes pageLsn).run s).2.pool.Sound :=
    BufferPool.sound_onFrame hs i fun _ => rfl
  simp only [PagingCall.run, PageContents.after] at hsound ⊢
  cases hf : s.pool.frames[i]? with
  | none =>
    rw [BufferPool.onFrame, if_neg (by simpa using hf)]
    exact step_same hs (.refl _)
  | some f =>
    rw [BufferPool.onFrame_eq hf] at hsound ⊢
    refine step_set hf _ s.pool.map hsound (fun id hid _ => Function.update_of_ne hid _ _)
      (fun hne => absurd rfl hne) (fun c hc => ⟨?_, fun hclean => by cases hclean⟩) (Or.inl ⟨rfl, rfl⟩)
    exact (Function.update_self f.pageId (content f.pageId bytes) w).symm.trans hc

lemma step_rekey (hs : s.pool.Sound) {oldId newId : UInt64} {bytes : PageBytes}
    (hproper : (PagingCall.rekey oldId newId bytes).Proper s) :
    PagingStep (some oldId) s ((PagingCall.rekey oldId newId bytes).run s).2 w
      (w.after s (.rekey oldId newId bytes)) := by
  simp only [PagingCall.run, PageContents.after, BufferPool.rekey]
  cases hi : s.pool.map[oldId]? with
  | none =>
    rw [if_neg (by simp [BufferPool.contains_eq_true, hi])]
    exact (step_same hs (.refl _)).moved _
  | some i =>
    obtain ⟨f, hf, rfl⟩ := hs.get_iff.mp hi
    have hresident : s.pool.contains f.pageId = true := BufferPool.contains_eq_true.mpr ⟨i, hi⟩
    obtain ⟨hnew, hfile⟩ := hproper hresident
    simp only [hf]
    rw [if_pos hresident]
    refine step_set hf { f with pageId := newId, dirty := false, bytes := bytes } _ ?_ ?_ ?_ ?_
      (Or.inr rfl)
    · refine hs.give (g := { f with pageId := newId, dirty := false, bytes := bytes }) hf ?_
      exact hnew.imp_right fun h => hs.none_iff.mp (BufferPool.contains_eq_false.mp h)
    · intro id hid hid'
      exact (Function.update_of_ne hid' _ _).trans (Function.update_of_ne hid _ _)
    · intro hne
      exact (Function.update_of_ne hne _ _).trans (Function.update_self _ _ _)
    · intro c hc
      have hcontent : content newId bytes = some c := (Function.update_self newId _ _).symm.trans hc
      exact ⟨hcontent, fun _ => (onFile_of_eq hfile).trans hcontent⟩

lemma step_shrinkToCapacity (hs : s.pool.Sound) :
    PagingStep none s (PagingCall.shrinkToCapacity.run s).2 w w := by
  simp only [PagingCall.run, BufferPool.shrinkToCapacity]
  split_ifs with hroom
  · exact step_same hs (.refl _)
  obtain ⟨hsub, hkept⟩ := BufferPool.kept_spec s.pool.capacity s.pool.frames
  have hdirty : ∀ f ∈ s.pool.frames, f.dirty = true → f ∈ BufferPool.kept s.pool.capacity s.pool.frames :=
    fun f hf hd => hkept f hf (by simp [Frame.droppable, hd])
  refine ⟨⟨?_, Or.inr rfl, hs.capacity⟩, fun f hf hd => ?_, fun hw id c hid => ?_⟩
  · exact positions_numberFrom (hs.positions.nodup.sublist (hsub.map _))
  · exact Or.inl ⟨f, hdirty f hf hd, rfl, hd⟩
  · exact (hw id c hid).of_mem rfl (fun f hf _ => ⟨f, hsub.subset hf, rfl⟩)
      fun f hf hfid hd => ⟨f, hdirty f hf hd, hfid⟩

lemma step_writePage (hs : s.pool.Sound) {id : UInt64} {src : PageBytes} {outcome : PageWrite}
    (hproper : (PagingCall.writePage id src outcome).Proper s) :
    PagingStep none s ((PagingCall.writePage id src outcome).run s).2 w
      (w.after s (.writePage id src outcome)) := by
  have hother : ∀ id' ≠ id, (writePage s.file id src outcome).2 id' = s.file id' := by
    intro id' hid
    cases outcome with
    | whole => exact Function.update_of_ne hid _ _
    | refused err => rfl
    | torn err left => exact Function.update_of_ne hid _ _
  have hafter : ∀ id' ≠ id, w.after s (.writePage id src outcome) id' = w id' := by
    intro id' hid
    simp only [PageContents.after]
    split_ifs
    · rfl
    · cases outcome with
      | whole => exact Function.update_of_ne hid _ _
      | refused err => rfl
      | torn err left => exact Function.update_of_ne hid _ _
  refine ⟨hs, fun f hf hd => Or.inl ⟨f, hf, rfl, hd⟩, fun hw id' c hid => ?_⟩
  by_cases hid' : id' = id
  · subst hid'
    simp only [PageContents.after] at hid
    split_ifs at hid with hres
    · -- the page in the pool is dirty, so the file does not matter
      obtain ⟨i, hi⟩ := BufferPool.contains_eq_true.mp hres
      obtain ⟨f, hf, hfid, hcontent⟩ := (hw id' c hid).frame hs hi
      have hmem := List.mem_of_getElem? hf
      rw [← hfid] at hcontent ⊢
      refine holds_of_frame (s := ((PagingCall.writePage f.pageId src outcome).run s).2) hs hf hcontent
        fun hclean => ?_
      rw [hproper f hmem hfid] at hclean
      cases hclean
    · have habsent := hs.none_iff.mp (BufferPool.contains_eq_false.mp (by simpa using hres))
      refine ⟨fun f hf hfid => absurd hfid (habsent f hf), fun _ => ?_⟩
      cases outcome with
      | whole =>
        have hcontent : content id' src = some c := (Function.update_self id' _ w).symm.trans hid
        exact (onFile_of_eq (Function.update_self id' _ s.file)).trans hcontent
      | refused err => exact (hw id' c hid).absent habsent
      | torn err left => cases (Function.update_self id' none w).symm.trans hid
  · rw [hafter id' hid'] at hid
    exact (hw id' c hid).of_mem (hother id' hid') (fun f hf _ => ⟨f, hf, rfl⟩)
      fun f hf hfid _ => ⟨f, hf, hfid⟩

/-- Every call is a step, if the owner of the pool sees to what is asked of it. -/
theorem step_run (hs : s.pool.Sound) (call : PagingCall) (hproper : call.Proper s) :
    PagingStep call.moves s (call.run s).2 w (w.after s call) := by
  cases call with
  | fetch id fault => exact step_fetch hs id fault
  | insertNew id pageType pageLsn => exact step_insertNew hs hproper
  | write i bytes pageLsn => exact step_write hs i bytes pageLsn
  | pin i =>
    exact step_same (BufferPool.sound_onFrame hs i fun _ => rfl)
      (BufferPool.same_onFrame s.pool i fun _ => rfl)
  | unpin i =>
    exact step_same (BufferPool.sound_onFrame hs i fun _ => rfl)
      (BufferPool.same_onFrame s.pool i fun _ => rfl)
  | flushDirtyUpTo durableLsn outcomes => exact step_flushes hs (flushes_flushEach _ hs)
  | flushPage id durableLsn outcome => exact step_flushes hs (flushes_flushPage hs id durableLsn outcome)
  | stampDirtyLsn lsn =>
    have hsame : BufferPool.Same s.pool (s.pool.stampDirtyLsn lsn) := by
      refine ⟨?_, rfl, rfl⟩
      rw [BufferPool.stampDirtyLsn, List.map_map]
      refine List.map_congr_left fun f _ => ?_
      simp only [Function.comp_apply]
      split_ifs <;> rfl
    exact step_same (hsame.sound (by rw [hsame.length]; exact hs.clock) hs) hsame
  | shrinkToCapacity => exact step_shrinkToCapacity hs
  | rekey oldId newId bytes => exact step_rekey hs hproper
  | writePage id src outcome => exact step_writePage hs hproper

end Step

/-! ### Runs -/

/-- The states of a pool over a page file, with what was last written to every page. -/
inductive PagingRun (capacity : ℕ) (file : PageFile) : Paging → PageContents → Prop
  | start : PagingRun capacity file ⟨.new capacity, file⟩ (onFile file)
  | call {s : Paging} {w : PageContents} (call : PagingCall) (h : PagingRun capacity file s w)
      (hproper : call.Proper s) : PagingRun capacity file (call.run s).2 (w.after s call)

section Runs
variable {capacity : ℕ} {file : PageFile} {s : Paging} {w : PageContents}

lemma PagingRun.invariant (h : PagingRun capacity file s w) :
    s.pool.Sound ∧ ∀ id c, w id = some c → HoldsPage s id c := by
  induction h with
  | start =>
    refine ⟨BufferPool.sound_new capacity, fun id c hid => ⟨fun f hf => ?_, fun _ => hid⟩⟩
    simp [BufferPool.new] at hf
  | @call s w call h hproper ih =>
    have hstep := step_run (w := w) ih.1 call hproper
    exact ⟨hstep.sound, hstep.holds ih.2⟩

/-- A pool of the least capacity over an empty file. -/
def emptyPaging : Paging := ⟨.new 8, fun _ => []⟩

/-- A page with nothing in it. -/
def emptyPage : PagingCall := .insertNew 1 .leaf 0

end Runs

end CarolinaDB.Storage
