import CarolinaDB.BTreeCurrent

/-!
# Inserting small entries succeeds

An insert fails if a page cannot be split into two halves that fit. With entries
up to a third of a page and short keys, both halves fit at every level.
-/
namespace CarolinaDB.Storage

open PageTree

variable {V : Type} [ByteLen V] {n : ℕ} {e : LeafEntry V} {lo hi : Bound Pos}

/-- The bytes of records of these lengths with their slots. -/
def slotBytes (lens : List ℕ) : ℕ := lens.sum + lens.length * 4

/-- What a page holds behind its header. -/
def pageRoom : ℕ := pageSize - pageHeaderLen

lemma fitPage_iff {lens : List ℕ} : fitPage lens ↔ slotBytes lens ≤ pageRoom := by
  rw [fitPage, decide_eq_true_iff, slotBytes, pageRoom, pageHeaderLen, pageSize]
  omega

@[simp] lemma slotBytes_nil : slotBytes [] = 0 := rfl

@[simp] lemma slotBytes_cons (l : ℕ) (ls : List ℕ) :
    slotBytes (l :: ls) = l + 4 + slotBytes ls := by
  simp only [slotBytes, List.sum_cons, List.length_cons]
  omega

lemma slotBytes_append (ls ms : List ℕ) : slotBytes (ls ++ ms) = slotBytes ls + slotBytes ms := by
  simp only [slotBytes, List.sum_append, List.length_append]
  omega

lemma slotBytes_eq_sum (ls : List ℕ) : slotBytes ls = (ls.map (· + 4)).sum := by
  induction ls with
  | nil => rfl
  | cons l ls ih => rw [slotBytes_cons, ih, List.map_cons, List.sum_cons]

lemma slotBytes_le {ls : List ℕ} {b : ℕ} (h : ∀ l ∈ ls, l + 4 ≤ b) : slotBytes ls ≤ ls.length * b := by
  induction ls with
  | nil => simp
  | cons l ls ih =>
    have hl := h l (List.mem_cons_self ..)
    have hls := ih fun m hm => h m (List.mem_cons_of_mem _ hm)
    rw [slotBytes_cons, List.length_cons, Nat.succ_mul]
    omega

lemma le_slotBytes {ls : List ℕ} {b : ℕ} (h : ∀ l ∈ ls, b ≤ l + 4) : ls.length * b ≤ slotBytes ls := by
  induction ls with
  | nil => simp
  | cons l ls ih =>
    have hl := h l (List.mem_cons_self ..)
    have hls := ih fun m hm => h m (List.mem_cons_of_mem _ hm)
    rw [slotBytes_cons, List.length_cons, Nat.succ_mul]
    omega

section Leaf

/-- Longest record, with its slot, that always fits a half of a split leaf. -/
def maxSmallRecord : ℕ := 2710

/-- The half is reached at this record and not before. -/
lemma halfIndex_spec {half acc i j : ℕ} {lens : List ℕ} (hacc : acc < half)
    (h : halfIndex half acc i lens = some j) :
    ∃ d, j = i + d ∧ d < lens.length ∧ acc + slotBytes (lens.take d) < half ∧
      half ≤ acc + slotBytes (lens.take (d + 1)) := by
  induction lens generalizing acc i with
  | nil => cases h
  | cons l ls ih =>
    rw [halfIndex] at h
    split_ifs at h with hreach
    · exact ⟨0, by simpa using h.symm, by simp, by simpa using hacc, by simpa using hreach⟩
    · obtain ⟨d, hj, hd, hlo, hhi⟩ := ih (by omega) h
      refine ⟨d + 1, by omega, by simpa using hd, ?_, ?_⟩
      · rw [List.take_succ_cons, slotBytes_cons]
        omega
      · rw [List.take_succ_cons, slotBytes_cons]
        omega

/-- Both halves of a leaf that is too full by one small record fit. -/
lemma split_fits {lens : List ℕ} (hfull : pageRoom < slotBytes lens)
    (hroom : slotBytes lens ≤ pageRoom + maxSmallRecord) (hsmall : ∀ l ∈ lens, l + 4 ≤ maxSmallRecord) :
    slotBytes (lens.take (splitPoint lens)) ≤ pageRoom ∧
      slotBytes (lens.drop (splitPoint lens)) ≤ pageRoom ∧ splitPoint lens < lens.length := by
  have hlen : 3 ≤ lens.length := by
    have := slotBytes_le hsmall
    simp only [maxSmallRecord, pageRoom, pageSize, pageHeaderLen] at *
    omega
  have htotal (k : ℕ) : slotBytes (lens.take k) + slotBytes (lens.drop k) = slotBytes lens := by
    rw [← slotBytes_append, List.take_append_drop]
  have hhalf : halfIndex (slotBytes lens / 2) 0 0 lens ≠ none :=
    halfIndex_ne_none (by rintro rfl; simp at hlen) (by rw [← slotBytes_eq_sum]; omega)
  obtain ⟨j, hj⟩ := Option.ne_none_iff_exists'.mp hhalf
  have hpos : 0 < slotBytes lens / 2 := by
    simp only [pageRoom, pageSize, pageHeaderLen] at hfull
    omega
  obtain ⟨d, hd, hdlen, hlo, hhi⟩ := halfIndex_spec hpos hj
  have hpoint : splitPoint lens = max (min (j + 1) (lens.length - 1)) 1 := by
    rw [splitPoint, ← slotBytes_eq_sum, hj]
  have hget : slotBytes (lens.take (d + 1)) ≤ slotBytes (lens.take d) + maxSmallRecord := by
    rw [List.take_succ_eq_append_getElem hdlen, slotBytes_append]
    have := hsmall lens[d] (List.getElem_mem hdlen)
    simp only [slotBytes_cons, slotBytes_nil]
    omega
  have hsum := htotal (d + 1)
  have hsum' := htotal d
  rcases Nat.lt_or_ge (d + 1) lens.length with hlt | hge
  · have hk : splitPoint lens = d + 1 := by rw [hpoint]; omega
    rw [hk]
    simp only [maxSmallRecord, pageRoom, pageSize, pageHeaderLen] at *
    omega
  · -- the last record stays behind
    have hk : splitPoint lens = d := by rw [hpoint]; omega
    have hlast : lens.take (d + 1) = lens := List.take_of_length_le hge
    rw [hlast] at hget
    rw [hk]
    simp only [maxSmallRecord, pageRoom, pageSize, pageHeaderLen] at *
    omega

lemma rewriteOrSplit_ok {es records : List (LeafEntry V)} (hgrown : Grown e es records)
    (hfit : fitPage (es.map LeafEntry.encodedLen))
    (hsmall : ∀ x ∈ records, x.encodedLen + 4 ≤ maxSmallRecord) :
    ∃ out, rewriteOrSplit records = .ok out := by
  rw [rewriteOrSplit]
  split_ifs with hwhole
  · exact ⟨_, rfl⟩
  rw [fitPage_iff, not_le] at hwhole
  rw [fitPage_iff] at hfit
  have hroom : slotBytes (records.map LeafEntry.encodedLen) ≤ pageRoom + maxSmallRecord := by
    obtain ⟨l, r, rfl, rfl⟩ := hgrown
    have he := hsmall e (by simp)
    simp only [List.map_append, List.map_cons, slotBytes_append, slotBytes_cons] at hfit ⊢
    omega
  obtain ⟨hleft, hright, hlt⟩ := split_fits hwhole hroom fun l hl => by
    obtain ⟨x, hx, rfl⟩ := List.mem_map.mp hl
    exact hsmall x hx
  dsimp only
  rw [← List.map_take] at hleft
  rw [← List.map_drop] at hright
  split
  · rename_i hnil
    rw [List.drop_eq_nil_iff] at hnil
    rw [List.length_map] at hlt
    omega
  · rename_i x rest hdrop
    rw [hdrop] at hright
    rw [if_neg (not_not.mpr (fitPage_iff.mpr hleft)), if_neg (not_not.mpr (fitPage_iff.mpr hright))]
    exact ⟨_, rfl⟩

end Leaf

section Inner

/-- Longest key whose separators always let an inner page be split in the middle. -/
def maxSmallKey : ℕ := 404

/-- Both halves of an inner page that is too full by one short separator fit. -/
lemma middle_fits {lens : List ℕ} {k : ℕ} (hk : k = lens.length / 2)
    (hfull : pageRoom < slotBytes lens) (hroom : slotBytes lens ≤ pageRoom + (22 + maxSmallKey))
    (hsmall : ∀ l ∈ lens, 18 ≤ l ∧ l ≤ 18 + maxSmallKey) :
    slotBytes (lens.take k) ≤ pageRoom ∧ 22 + slotBytes (lens.drop (k + 1)) ≤ pageRoom ∧
      k < lens.length := by
  have hupper : ∀ l ∈ lens, l + 4 ≤ 426 := fun l hl => by
    have := (hsmall l hl).2
    simp only [maxSmallKey] at this
    omega
  have hlower : ∀ l ∈ lens, 22 ≤ l + 4 := fun l hl => by
    have := (hsmall l hl).1
    omega
  have hlen : 3 ≤ lens.length := by
    have := slotBytes_le hupper
    simp only [pageRoom, pageSize, pageHeaderLen] at hfull
    omega
  have hklen : k < lens.length := by omega
  have hleft := slotBytes_le fun l (hl : l ∈ lens.take k) => hupper l (List.mem_of_mem_take hl)
  have hleft' := le_slotBytes fun l (hl : l ∈ lens.take k) => hlower l (List.mem_of_mem_take hl)
  have hright := slotBytes_le fun l (hl : l ∈ lens.drop (k + 1)) =>
    hupper l (List.mem_of_mem_drop hl)
  have hright' := le_slotBytes fun l (hl : l ∈ lens.drop (k + 1)) =>
    hlower l (List.mem_of_mem_drop hl)
  have hmid := hlower lens[k] (List.getElem_mem hklen)
  have htotal : slotBytes (lens.take k) + (lens[k] + 4 + slotBytes (lens.drop (k + 1))) =
      slotBytes lens := by
    rw [← slotBytes_cons, List.getElem_cons_drop, ← slotBytes_append, List.take_append_drop]
  rw [List.length_take, min_eq_left hklen.le] at hleft hleft'
  rw [List.length_drop] at hright hright'
  simp only [maxSmallKey, pageRoom, pageSize, pageHeaderLen] at *
  refine ⟨?_, ?_, hklen⟩ <;> omega

/-- A key short enough for a separator. -/
def SmallSep (s : Pos) : Prop := (ofLex s).1.length ≤ maxSmallKey

omit [ByteLen V] in
lemma insertSeparator_ok {l r : List (Pos × TreePage V n)} {c : Pos × TreePage V n} {sep : Pos}
    {left right : TreePage V n}
    (hfit : fitPage ((l ++ c :: r).map fun c => separatorLen c.1))
    (hsmall : ∀ d ∈ l ++ c :: r, SmallSep d.1) (hsep : SmallSep sep) :
    ∃ out, insertSeparator (l ++ (c.1, left) :: r) l.length sep right = .ok out := by
  have hrecords : (l ++ (c.1, left) :: (sep, right) :: r).map (fun c => separatorLen c.1) =
      l.map (fun c => separatorLen c.1) ++
        separatorLen c.1 :: separatorLen sep :: r.map (fun c => separatorLen c.1) := by
    simp
  rw [insertSeparator, insertIdx_hole]
  by_cases hwhole : fitPage
      ((l ++ (c.1, left) :: (sep, right) :: r).map fun c => separatorLen c.1) = true
  · exact ⟨_, if_pos hwhole⟩
  rw [if_neg hwhole]
  rw [fitPage_iff, not_le] at hwhole
  rw [fitPage_iff] at hfit
  have hroom : slotBytes ((l ++ (c.1, left) :: (sep, right) :: r).map fun c => separatorLen c.1) ≤
      pageRoom + (22 + maxSmallKey) := by
    have hs : separatorLen sep ≤ 18 + maxSmallKey := Nat.add_le_add_left hsep 18
    rw [hrecords]
    simp only [List.map_append, List.map_cons, slotBytes_append, slotBytes_cons] at hfit ⊢
    omega
  have hall : ∀ x ∈ (l ++ (c.1, left) :: (sep, right) :: r).map (fun c => separatorLen c.1),
      18 ≤ x ∧ x ≤ 18 + maxSmallKey := by
    intro x hx
    obtain ⟨d, hd, rfl⟩ := List.mem_map.mp hx
    refine ⟨Nat.le_add_right _ _, Nat.add_le_add_left ?_ 18⟩
    simp only [List.mem_append, List.mem_cons] at hd
    rcases hd with hd | rfl | rfl | hd
    · exact hsmall d (by simp [hd])
    · exact hsmall c (by simp)
    · exact hsep
    · exact hsmall d (by simp [hd])
  obtain ⟨hleft, hright, hlt⟩ := middle_fits (by rw [List.length_map]) hwhole hroom hall
  rw [← List.map_take] at hleft
  rw [← List.map_drop] at hright
  dsimp only
  split
  · rename_i hnil
    rw [List.drop_eq_nil_iff] at hnil
    rw [List.length_map] at hlt
    omega
  · rename_i m rest hdrop
    have hrest : List.drop ((l ++ (c.1, left) :: (sep, right) :: r).length / 2 + 1)
        (l ++ (c.1, left) :: (sep, right) :: r) = rest := by
      rw [← List.drop_drop, hdrop]
      rfl
    rw [hrest] at hright
    have hfirst : separatorLen leftmost + 4 = 22 := rfl
    rw [if_neg (not_not.mpr (fitPage_iff.mpr hleft)), if_neg (not_not.mpr (fitPage_iff.mpr (by
      rw [List.map_cons, slotBytes_cons, hfirst]
      exact hright)))]
    exact ⟨_, rfl⟩

end Inner

/-- An entry that takes up to a third of a page, with a short key. -/
def SmallEntry (e : LeafEntry V) : Prop :=
  e.encodedLen + 4 ≤ maxSmallRecord ∧ e.key.length ≤ maxSmallKey

instance (e : LeafEntry V) : Decidable (SmallEntry e) :=
  inferInstanceAs (Decidable (e.encodedLen + 4 ≤ maxSmallRecord ∧ e.key.length ≤ maxSmallKey))

lemma smallSep_of_smallEntry (e : LeafEntry V) (h : SmallEntry e) : SmallSep e.pos := h.2

lemma smallSep_leftmost : SmallSep leftmost := Nat.zero_le _

lemma separatorLen_le_of_smallSep (s : Pos) (h : SmallSep s) : separatorLen s ≤ 18 + maxKeyLen :=
  Nat.add_le_add_left (h.trans (by decide)) 18

/-- A small entry can be inserted where all others are small. -/
theorem insertInto_ok (he : SmallEntry e) {p : TreePage V n} (h : InOrder lo hi p)
    (hp : Packed SmallEntry SmallSep p) (hlo : lo ≤ Bound.of e.pos) (hhi : Bound.of e.pos < hi) :
    ∃ out, insertInto e p = .ok out := by
  induction n generalizing lo hi with
  | zero =>
    rw [insertInto]
    split
    · exact ⟨_, rfl⟩
    · rename_i records hplace
      have hgrown := (placeIn_eq_some h.2.1 hplace).1
      refine rewriteOrSplit_ok hgrown hp.1 fun x hx => ?_
      rcases hgrown.mem_iff.mp hx with rfl | hx
      · exact he.1
      · exact (hp.2 x hx).1
  | succ n ih =>
    obtain ⟨l, c, r, a, b, rfl, hidx, ha, hb, hc, -, -, -⟩ := h.2.route hlo hhi
    obtain ⟨-, hfit, hcs⟩ := hp
    have hcp := (hcs c (by simp)).2.2
    obtain ⟨out, hout⟩ := ih hc hcp ha hb
    have hget : (l ++ c :: r)[l.length]? = some c := by simp
    have hset (d : Pos × TreePage V n) : (l ++ c :: r).set l.length d = l ++ d :: r := by simp
    rw [insertInto, ← hidx, hget]
    simp only [hset, hout]
    cases out with
    | kept => exact ⟨_, rfl⟩
    | written q => exact ⟨_, rfl⟩
    | split left sep right =>
      have hpacked := insertInto_packed smallSep_of_smallEntry smallSep_leftmost
        separatorLen_le_of_smallSep he hc hcp ha hb hout
      exact insertSeparator_ok hfit (fun d hd => (hcs d hd).1) hpacked.1

namespace BTree
variable {t t' : BTree V}

/-- Every entry and separator of the tree is small. -/
def Small (t : BTree V) : Prop := Packed SmallEntry SmallSep t.root

lemma small_create : (create : BTree V).Small := ⟨rfl, by simp [create]⟩

lemma Small.install {he : EntryBound e} {b : Bool} (hs : t.Small) (hsmall : SmallEntry e)
    (h : t.install e he = .ok (b, t')) : t'.Small := by
  have hpacked {out : Outcome V t.height} (hins : insertInto e t.root = .ok out) :=
    insertInto_packed smallSep_of_smallEntry smallSep_leftmost separatorLen_le_of_smallSep hsmall
      t.ordered hs bot_le Bound.of_lt_top hins
  unfold BTree.install at h
  split at h
  · cases h
  · rw [← (Prod.mk.inj (Except.ok.inj h)).2]
    exact hs
  · rename_i p hins
    rw [← (Prod.mk.inj (Except.ok.inj h)).2]
    exact hpacked hins
  · rename_i left sep right hins
    obtain ⟨hsep, hleft, hright⟩ := hpacked hins
    rw [← (Prod.mk.inj (Except.ok.inj h)).2]
    refine ⟨le_rfl, ?_, fun c hc => ?_⟩
    · have hlen := separatorLen_le_of_smallSep sep hsep
      rw [fitPage_iff]
      simp only [List.map_cons, List.map_nil, slotBytes_cons, slotBytes_nil, pageRoom, pageSize,
        pageHeaderLen, maxKeyLen] at hlen ⊢
      simp only [separatorLen, leftmost, position] at hlen ⊢
      simp
      omega
    · simp only [List.mem_cons, List.not_mem_nil, or_false] at hc
      rcases hc with rfl | rfl
      · exact ⟨smallSep_leftmost, hleft⟩
      · exact ⟨hsep, hright⟩

section Insert
variable {key : Bytes} {seq : UInt64} {txnId : TxnId} {flags : UInt8} {metadata : Bytes} {value : V}

/-- A small entry can be inserted in a tree of small entries, which it stays. -/
theorem insertVersion_ok (h : t.height < 64) (hs : t.Small) (hv : byteLen value ≤ maxValueLen)
    (hsmall : SmallEntry (newEntry key seq txnId flags metadata value)) :
    ∃ b t', t.insertVersion key seq txnId flags metadata value = .ok (b, t') ∧ t'.Small := by
  have hk : key.length ≤ maxKeyLen := by
    have := hsmall.2
    rw [newEntry_key] at this
    exact this.trans (by decide)
  by_cases hsome : (t.versions key seq.toNat).isSome
  · exact ⟨false, t, insertVersion_of_isSome h hk hv hsome, hs⟩
  obtain ⟨path, -, -, -, hpath, -⟩ := descend_eq h (position key seq.toNat)
  have hfind : (if maxInlineValue < byteLen value then t.findVersion key seq else .ok false) =
      .ok false := by
    rw [findVersion_eq h]
    simp [hsome]
  rw [insertVersion, dif_neg (not_lt.mpr hk), if_neg (not_lt.mpr hv), hfind, hpath]
  dsimp only
  obtain ⟨out, hout⟩ := insertInto_ok hsmall t.ordered hs bot_le Bound.of_lt_top
  have hinstall (he : EntryBound (newEntry key seq txnId flags metadata value)) :
      ∃ b t', t.install (newEntry key seq txnId flags metadata value) he = .ok (b, t') := by
    unfold install
    split
    · rename_i err hins
      rw [hout] at hins
      cases hins
    · exact ⟨_, _, rfl⟩
    · exact ⟨_, _, rfl⟩
    · exact ⟨_, _, rfl⟩
  obtain ⟨b, t', ht'⟩ := hinstall (entryBound_newEntry key seq txnId flags metadata value hk)
  exact ⟨b, t', ht', hs.install hsmall ht'⟩

end Insert

lemma Small.run {c : InsertCall V} {b : Bool} (h : t.height < 64) (hs : t.Small)
    (hc : SmallEntry c.entry) (hrun : c.run t = .ok (b, t')) : t'.Small := by
  have hv : byteLen c.value ≤ maxValueLen := by
    by_contra hlong
    have hk : ¬ maxKeyLen < c.key.length := by
      have := hc.2
      rw [InsertCall.entry, newEntry_key, maxSmallKey] at this
      rw [maxKeyLen]
      omega
    rw [InsertCall.run, insertVersion, dif_neg hk, if_pos (not_le.mp hlong)] at hrun
    cases hrun
  obtain ⟨b', t'', hok, hsmall⟩ : ∃ b' t'', c.run t = .ok (b', t'') ∧ t''.Small :=
    insertVersion_ok h hs hv hc
  rw [hrun, Except.ok.injEq, Prod.mk.injEq] at hok
  exact hok.2 ▸ hsmall

lemma Small.runAll {cs : List (InsertCall V)} (hlen : t.entries.length + cs.length < 2 ^ 64)
    (hs : t.Small) (hcs : ∀ c ∈ cs, SmallEntry c.entry) (hrun : InsertCall.runAll cs t = .ok t') :
    t'.Small := by
  induction cs generalizing t with
  | nil =>
    rw [InsertCall.runAll, Except.ok.injEq] at hrun
    exact hrun ▸ hs
  | cons c cs ih =>
    rw [InsertCall.runAll] at hrun
    rcases hc : c.run t with err | ⟨b, t₁⟩
    · rw [hc] at hrun
      cases hrun
    · rw [hc] at hrun
      have hone : InsertCall.runAll [c] t = .ok t₁ := by simp [InsertCall.runAll, hc]
      have hcount := (InsertCall.runAll_spec hone).2.1
      simp only [List.length_cons, List.length_nil] at hcount hlen
      have hsmall := hs.run (height_lt (by omega)) (hcs c (List.mem_cons_self ..)) hc
      exact ih (by omega) hsmall (fun x hx => hcs x (List.mem_cons_of_mem c hx)) hrun

end BTree

/-- A version with a long key and the longest value that is kept in its leaf. -/
def wideVersion (first : UInt8) (keyLen : ℕ) : InsertCall Bytes :=
  ⟨first :: List.replicate (keyLen - 1) 0, 1, Octets.zero 32, 0, [], List.replicate maxInlineValue 0⟩

end CarolinaDB.Storage
