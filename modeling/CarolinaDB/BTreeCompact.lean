import CarolinaDB.BTreeRefinement

/-!
# Reclaiming versions

A checkpoint rewrites the leaves it visits. Of each key a rewritten leaf keeps the
versions above the horizon and the newest one at or below it, so reads from the
horizon on do not notice.
-/
namespace CarolinaDB

namespace PageTree
variable {P α β γ : Type} {n : ℕ}

/-- Change every leaf; the path of child indices to a leaf says which one it is. -/
def mapLeaves (f : List ℕ → List α → List α) : {n : ℕ} → Page P α n → Page P α n
  | 0, es => f [] es
  | _+1, cs => List.mapIdx (fun i c => (c.1, mapLeaves (fun path => f (i :: path)) c.2)) cs

/-- The leaves after the change, one for one. -/
lemma leaves_mapLeaves (f : List ℕ → List α → List α) (p : Page P α n) :
    List.Forall₂ (fun es es' => ∃ path, es' = f path es) (leaves p) (leaves (mapLeaves f p)) := by
  induction n generalizing f with
  | zero => exact List.Forall₂.cons ⟨[], rfl⟩ List.Forall₂.nil
  | succ n ih =>
    have hmap (cs : List (P × Page P α n)) (g : ℕ → List ℕ → List α → List α) :
        List.Forall₂ (fun es es' => ∃ i path, es' = g i path es)
          (leaves (n := n+1) cs)
          (leaves (n := n+1) (cs.mapIdx fun i c => (c.1, mapLeaves (g i) c.2))) := by
      induction cs generalizing g with
      | nil => exact List.Forall₂.nil
      | cons c cs ihcs =>
        rw [List.mapIdx_cons]
        refine List.rel_append ?_ ?_
        · exact (ih (g 0) c.2).imp fun es es' h => ⟨0, h⟩
        · refine (ihcs fun i => g (i + 1)).imp ?_
          rintro es es' ⟨i, h⟩
          exact ⟨i + 1, h⟩
    refine (hmap p fun i path => f (i :: path)).imp ?_
    rintro es es' ⟨i, path, h⟩
    exact ⟨i :: path, h⟩

lemma Chain.mapIdx {Q : Bound P → Bound P → β → Prop} {R : Bound P → Bound P → γ → Prop}
    {lo hi : Bound P} {cs : List (P × β)} (h : Chain Q lo hi cs) (g : ℕ → β → γ)
    (hg : ∀ i a b c, Q a b c → R a b (g i c)) :
    Chain R lo hi (cs.mapIdx fun i c => (c.1, g i c.2)) := by
  induction cs generalizing lo g with
  | nil => exact h
  | cons c cs ih =>
    cases cs with
    | nil => exact hg 0 _ _ _ h
    | cons d cs =>
      have hrest := ih h.2 (fun i => g (i + 1)) fun i => hg (i + 1)
      rw [List.mapIdx_cons] at hrest ⊢
      rw [List.mapIdx_cons]
      exact ⟨hg 0 _ _ _ h.1, hrest⟩

lemma mem_leaves_mapLeaves (f : List ℕ → List α → List α) {p : Page P α n} {es : List α}
    (h : es ∈ leaves p) : ∃ path, f path es ∈ leaves (mapLeaves f p) := by
  have hleaves := leaves_mapLeaves f p
  obtain ⟨i, hi, rfl⟩ := List.getElem_of_mem h
  have hi' := hi
  rw [hleaves.length_eq] at hi'
  obtain ⟨path, hpath⟩ := hleaves.get hi hi'
  exact ⟨path, hpath ▸ List.get_mem _ _⟩

/-- Leaves that keep an entry leave the tree with one. -/
lemma entries_mapLeaves_ne_nil {f : List ℕ → List α → List α} {p : Page P α n}
    (hf : ∀ path es, es ≠ [] → f path es ≠ []) (h : entries p ≠ []) :
    entries (mapLeaves f p) ≠ [] := by
  rw [entries, ne_eq, List.flatten_eq_nil_iff] at h ⊢
  intro hnil
  refine h fun es hes => ?_
  obtain ⟨path, hpath⟩ := mem_leaves_mapLeaves f hes
  by_contra hne
  exact hf path es hne (hnil _ hpath)

/-- Leaves that only lose entries leave the tree ordered. -/
lemma Ordered.mapLeaves [LinearOrder P] {first : P} {pos : α → P} {lo hi : Bound P} {p : Page P α n}
    (h : Ordered first pos lo hi p) {f : List ℕ → List α → List α}
    (hf : ∀ path es, (f path es).Sublist es) : Ordered first pos lo hi (mapLeaves f p) := by
  induction n generalizing lo hi f with
  | zero =>
    obtain ⟨hlt, hsorted, hmem⟩ := h
    exact ⟨hlt, hsorted.sublist (hf [] p), fun e he => hmem e ((hf [] p).subset he)⟩
  | succ n ih =>
    refine ⟨?_, h.2.mapIdx (fun i c => PageTree.mapLeaves (fun path => f (i :: path)) c)
      fun i a b c hc => ih hc fun path es => hf (i :: path) es⟩
    have hhead := h.1
    cases p with
    | nil => exact hhead
    | cons c cs =>
      rw [PageTree.mapLeaves, List.mapIdx_cons]
      exact hhead

end PageTree

namespace Storage

open PageTree

variable {V : Type}

/-- The entries of a leaf that stay. Entries are ordered by key, newest first; `below` is the key
of which a version at or below the horizon was kept. -/
def compactVersions (horizon : ℕ) : Option Bytes → List (LeafEntry V) → List (LeafEntry V)
  | _, [] => []
  | below, e :: es =>
    if horizon < e.seq then e :: compactVersions horizon below es
    else if below = some e.key then compactVersions horizon below es
    else e :: compactVersions horizon (some e.key) es

section Compact
variable {horizon : ℕ} {es : List (LeafEntry V)}

lemma compactVersions_sublist (below : Option Bytes) :
    (compactVersions horizon below es).Sublist es := by
  induction es generalizing below with
  | nil => exact List.Sublist.slnil
  | cons e es ih =>
    rw [compactVersions]
    split_ifs
    · exact (ih below).cons_cons e
    · exact (ih below).cons e
    · exact (ih _).cons_cons e

/-- An entry goes only if a newer one of its key, not above the horizon, stays. -/
lemma compactVersions_dropped (hs : es.Pairwise fun a b => a.pos < b.pos) {below : Option Bytes}
    {e : LeafEntry V} (he : e ∈ es) :
    e ∈ compactVersions horizon below es ∨ e.seq ≤ horizon ∧ below = some e.key ∨
      ∃ x ∈ compactVersions horizon below es, x.key = e.key ∧ e.seq < x.seq ∧ x.seq ≤ horizon := by
  induction es generalizing below with
  | nil => simp at he
  | cons y es ih =>
    obtain ⟨hy, hs'⟩ := List.pairwise_cons.mp hs
    rw [compactVersions]
    split_ifs with hnew hbelow
    · rcases List.mem_cons.mp he with rfl | he
      · exact Or.inl (List.mem_cons_self ..)
      · rcases ih hs' he with h | h | ⟨x, hx, h⟩
        · exact Or.inl (List.mem_cons_of_mem _ h)
        · exact Or.inr (Or.inl h)
        · exact Or.inr (Or.inr ⟨x, List.mem_cons_of_mem _ hx, h⟩)
    · rcases List.mem_cons.mp he with rfl | he
      · exact Or.inr (Or.inl ⟨not_lt.mp hnew, hbelow⟩)
      · exact ih hs' he
    · rcases List.mem_cons.mp he with rfl | he
      · exact Or.inl (List.mem_cons_self ..)
      · rcases @ih hs' (some y.key) he with h | ⟨-, hkey⟩ | ⟨x, hx, h⟩
        · exact Or.inl (List.mem_cons_of_mem _ h)
        · -- the kept entry of the key comes first, so it is the newer one
          have hkey' : y.key = e.key := Option.some.inj hkey
          have hlt : e.seq < y.seq := by
            rcases position_lt.mp (hy e he) with hlt | ⟨-, hlt⟩
            · exact absurd hlt (hkey' ▸ lt_irrefl _)
            · exact hlt
          exact Or.inr (Or.inr ⟨y, List.mem_cons_self .., hkey', hlt, not_lt.mp hnew⟩)
        · exact Or.inr (Or.inr ⟨x, List.mem_cons_of_mem _ hx, h⟩)

end Compact

/-- A leaf is rewritten if something goes and something stays. -/
def compactLeaf (horizon : ℕ) (es : List (LeafEntry V)) : List (LeafEntry V) :=
  let kept := compactVersions horizon none es
  if kept.length < es.length ∧ kept ≠ [] then kept else es

lemma compactLeaf_sublist (horizon : ℕ) (es : List (LeafEntry V)) :
    (compactLeaf horizon es).Sublist es := by
  simp only [compactLeaf]
  split_ifs
  · exact compactVersions_sublist none
  · exact List.Sublist.refl es

lemma compactLeaf_ne_nil {horizon : ℕ} {es : List (LeafEntry V)} (h : es ≠ []) :
    compactLeaf horizon es ≠ [] := by
  simp only [compactLeaf]
  split_ifs with hkept
  · exact hkept.2
  · exact h

/-- One leaf of a checkpoint: a leaf that is not visited, and every leaf when nothing is to be
reclaimed, stays as it is. -/
def persistLeaf (gcHorizon : Option ℕ) (visited : Bool) (es : List (LeafEntry V)) :
    List (LeafEntry V) :=
  match gcHorizon, visited with
  | some horizon, true => compactLeaf horizon es
  | _, _ => es

section Persist
variable {gcHorizon : Option ℕ} {es : List (LeafEntry V)}

lemma persistLeaf_sublist (visited : Bool) : (persistLeaf gcHorizon visited es).Sublist es := by
  unfold persistLeaf
  split
  · exact compactLeaf_sublist _ es
  · exact List.Sublist.refl es

lemma persistLeaf_ne_nil (visited : Bool) (h : es ≠ []) : persistLeaf gcHorizon visited es ≠ [] := by
  unfold persistLeaf
  split
  · exact compactLeaf_ne_nil h
  · exact h

lemma persistLeaf_dropped (visited : Bool) (hs : es.Pairwise fun a b => a.pos < b.pos)
    {e : LeafEntry V} (he : e ∈ es) :
    e ∈ persistLeaf gcHorizon visited es ∨ ∃ horizon, gcHorizon = some horizon ∧
      ∃ x ∈ persistLeaf gcHorizon visited es, x.key = e.key ∧ e.seq < x.seq ∧ x.seq ≤ horizon := by
  unfold persistLeaf
  split
  · rename_i horizon
    simp only [compactLeaf]
    split_ifs
    · have hdropped : e ∈ compactVersions horizon none es ∨ _ ∨ _ := compactVersions_dropped hs he
      rcases hdropped with h | ⟨-, h⟩ | h
      · exact Or.inl h
      · cases h
      · exact Or.inr ⟨horizon, rfl, h⟩
    · exact Or.inl he
  · exact Or.inl he

end Persist

variable [ByteLen V] {n : ℕ}

lemma fitPage_sublist {l l' : List ℕ} (h : l'.Sublist l) (hl : fitPage l) : fitPage l' := by
  have hsum := h.sum_le_sum fun _ _ => Nat.zero_le _
  have hlen := h.length_le
  simp only [fitPage, decide_eq_true_eq] at hl ⊢
  omega

lemma Packed.mapLeaves {onEntry : LeafEntry V → Prop} {onSep : Pos → Prop} {p : TreePage V n}
    (h : Packed onEntry onSep p) {f : List ℕ → List (LeafEntry V) → List (LeafEntry V)}
    (hsub : ∀ path es, (f path es).Sublist es) (hne : ∀ path es, es ≠ [] → f path es ≠ []) :
    Packed onEntry onSep (mapLeaves f p) := by
  induction n generalizing f with
  | zero =>
    exact ⟨fitPage_sublist ((hsub [] p).map _) h.1, fun e he => h.2 e ((hsub [] p).subset he)⟩
  | succ n ih =>
    obtain ⟨htwo, hfit, hchild⟩ := h
    have hseps : List.map (fun c => separatorLen c.1) (PageTree.mapLeaves f p) =
        List.map (fun c => separatorLen c.1) p := by
      refine List.ext_getElem? fun i => ?_
      simp only [PageTree.mapLeaves, List.getElem?_map, List.getElem?_mapIdx, Option.map_map]
      rfl
    refine ⟨?_, hseps ▸ hfit, fun c hc => ?_⟩
    · rw [PageTree.mapLeaves, List.length_mapIdx]
      exact htwo
    · obtain ⟨i, hi, rfl⟩ := List.mem_mapIdx.mp hc
      obtain ⟨hsep, hentries, hpacked⟩ := hchild _ (List.getElem_mem hi)
      exact ⟨hsep, entries_mapLeaves_ne_nil (fun path => hne (i :: path)) hentries,
        ih hpacked (fun path => hsub (i :: path)) fun path => hne (i :: path)⟩

namespace BTree

/-- The tree a checkpoint writes. -/
def persistWithGc (t : BTree V) (gcHorizon : Option ℕ) (visited : List ℕ → Bool) : BTree V where
  height := t.height
  root := mapLeaves (fun path => persistLeaf gcHorizon (visited path)) t.root
  ordered := t.ordered.mapLeaves fun path _ => persistLeaf_sublist (visited path)
  packed := t.packed.mapLeaves (fun path _ => persistLeaf_sublist (visited path))
    fun path _ => persistLeaf_ne_nil (visited path)

variable {t : BTree V} {gcHorizon : Option ℕ} {visited : List ℕ → Bool}

lemma entries_persistWithGc_sublist : (t.persistWithGc gcHorizon visited).entries.Sublist t.entries := by
  have hflatten {ls ls' : List (List (LeafEntry V))}
      (h : List.Forall₂ (fun es es' => es'.Sublist es) ls ls') : ls'.flatten.Sublist ls.flatten := by
    induction h with
    | nil => exact List.Sublist.slnil
    | cons h _ ih => exact h.append ih
  refine hflatten ((leaves_mapLeaves _ t.root).imp ?_)
  rintro es es' ⟨path, rfl⟩
  exact persistLeaf_sublist (visited path)

lemma entries_persistWithGc_dropped {e : LeafEntry V} (he : e ∈ t.entries) :
    e ∈ (t.persistWithGc gcHorizon visited).entries ∨ ∃ horizon, gcHorizon = some horizon ∧
      ∃ x ∈ (t.persistWithGc gcHorizon visited).entries,
        x.key = e.key ∧ e.seq < x.seq ∧ x.seq ≤ horizon := by
  have hsorted := (List.pairwise_flatten.mp t.sorted_entries).1
  obtain ⟨es, hes, he⟩ := List.mem_flatten.mp he
  obtain ⟨path, hpath⟩ :=
    mem_leaves_mapLeaves (fun path => persistLeaf gcHorizon (visited path)) hes
  have hmem {x : LeafEntry V} (hx : x ∈ persistLeaf gcHorizon (visited path) es) :
      x ∈ (t.persistWithGc gcHorizon visited).entries :=
    List.mem_flatten.mpr ⟨_, hpath, hx⟩
  rcases persistLeaf_dropped (visited path) (hsorted es hes) he with h | ⟨horizon, hh, x, hx, h⟩
  · exact Or.inl (hmem h)
  · exact Or.inr ⟨horizon, hh, x, hmem hx, h⟩

lemma versions_persistWithGc_subset {k : Bytes} {s : ℕ} {e : LeafEntry V}
    (h : (t.persistWithGc gcHorizon visited).versions k s = some e) : t.versions k s = some e := by
  obtain ⟨hmem, hk, hs⟩ := versions_eq_some_iff.mp h
  exact versions_eq_some_iff.mpr ⟨entries_persistWithGc_sublist.subset hmem, hk, hs⟩

/-- Reads from the horizon on see what they saw before. -/
theorem versions_persistWithGc (horizon : ℕ) (h : ∀ h ∈ gcHorizon, h ≤ horizon) :
    Versions.AgreeFrom horizon t.versions (t.persistWithGc gcHorizon visited).versions := by
  refine Versions.agreeFrom_of_dropped (fun k s e he => versions_persistWithGc_subset he)
    fun k s e he => ?_
  · obtain ⟨hmem, rfl, rfl⟩ := versions_eq_some_iff.mp he
    rcases entries_persistWithGc_dropped hmem with
      hkept | ⟨g, hg, x, hx, hk, hlt, hle⟩
    · exact Or.inl (versions_eq_some_iff.mpr ⟨hkept, rfl, rfl⟩)
    · exact Or.inr ⟨x.seq, x, hlt, hle.trans (h g hg), versions_eq_some_iff.mpr ⟨hx, hk, rfl⟩⟩

end BTree

end Storage

end CarolinaDB
