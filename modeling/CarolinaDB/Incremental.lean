import Mathlib

/-!
# Readers of a stream that arrives in pieces

A reader keeps the input it has not used. One pass over it gives an item, refuses the input, or
waits for more. What a pass decides does not change when more input arrives, so what a reader
makes of a stream is a matter of the stream alone. A call that hands over one piece of input and
fails gives no items, not even those it had read before it failed.
-/
namespace CarolinaDB.Incremental

/-- What one pass over the input comes to. -/
inductive Front (ρ ι ε : Type)
  | wait
  | refuse (e : ε) (r : ρ)
  | item (i : ι) (r : ρ)

/-- A reader whose decisions stand whatever input follows. -/
structure Reader (ρ β ι ε : Type) where
  push : ρ → List β → ρ
  pass : ρ → Front ρ ι ε
  size : ρ → ℕ
  push_nil : ∀ r, push r [] = r
  push_append : ∀ r a b, push (push r a) b = push r (a ++ b)
  pass_item : ∀ {r i r'} b, pass r = .item i r' → pass (push r b) = .item i (push r' b)
  pass_refuse : ∀ {r e r'} b, pass r = .refuse e r' → pass (push r b) = .refuse e (push r' b)
  size_lt : ∀ {r i r'}, pass r = .item i r' → size r' < size r

variable {ρ β ι ε : Type}

namespace Reader

/-- The passes a reader can make on its input: the items, and the refusal if it ends in one. -/
def passes (R : Reader ρ β ι ε) : ℕ → ρ → List ι × Option ε × ρ
  | 0, r => ([], none, r)
  | n + 1, r =>
    match R.pass r with
    | .wait => ([], none, r)
    | .refuse e r' => ([], some e, r')
    | .item i r' => (i :: (R.passes n r').1, (R.passes n r').2)

def drain (R : Reader ρ β ι ε) (r : ρ) : List ι × Option ε × ρ := R.passes (R.size r + 1) r

/-- Feeding a stream piece by piece, up to the first call that fails. -/
def feeds (R : Reader ρ β ι ε) : ρ → List (List β) → List ι × Option ε
  | _, [] => ([], none)
  | r, c :: cs =>
    match R.drain (R.push r c) with
    | (is, none, r') => (is ++ (R.feeds r' cs).1, (R.feeds r' cs).2)
    | (_, some e, _) => ([], some e)

end Reader

/-- A reader gives these items, then waits or refuses. -/
inductive Drains (R : Reader ρ β ι ε) : ρ → List ι → Option ε → ρ → Prop
  | wait {r : ρ} (h : R.pass r = .wait) : Drains R r [] none r
  | refuse {r r' : ρ} {e : ε} (h : R.pass r = .refuse e r') : Drains R r [] (some e) r'
  | item {r r' s : ρ} {i : ι} {is : List ι} {o : Option ε} (h : R.pass r = .item i r')
      (hrest : Drains R r' is o s) : Drains R r (i :: is) o s

variable {R : Reader ρ β ι ε} {r s t : ρ} {is js : List ι} {o : Option ε}

lemma drains_passes {n : ℕ} (hn : R.size r < n) :
    Drains R r (R.passes n r).1 (R.passes n r).2.1 (R.passes n r).2.2 := by
  induction n generalizing r with
  | zero => omega
  | succ n ih =>
    rw [Reader.passes]
    cases h : R.pass r with
    | wait => exact .wait h
    | refuse e r' => exact .refuse h
    | item i r' =>
      have hlt := R.size_lt h
      exact .item h (ih (by omega))

lemma drains_drain (R : Reader ρ β ι ε) (r : ρ) :
    Drains R r (R.drain r).1 (R.drain r).2.1 (R.drain r).2.2 :=
  drains_passes (Nat.lt_succ_self _)

lemma Drains.eq_drain (h : Drains R r is o s) : R.drain r = (is, o, s) := by
  have hunique : ∀ {js o' t}, Drains R r js o' t → js = is ∧ o' = o ∧ t = s := by
    induction h with
    | wait hp =>
      intro js o' t h'
      cases h' <;> simp_all
    | refuse hp =>
      intro js o' t h'
      cases h' <;> simp_all
    | item hp _ ih =>
      intro js o' t h'
      cases h' with
      | wait hp' => simp_all
      | refuse hp' => simp_all
      | item hp' hrest' =>
        rw [hp] at hp'
        obtain ⟨rfl, rfl⟩ := Front.item.inj hp'
        obtain ⟨rfl, rfl, rfl⟩ := ih hrest'
        exact ⟨rfl, rfl, rfl⟩
  obtain ⟨h1, h2, h3⟩ := hunique (drains_drain R r)
  rw [← h1, ← h2, ← h3]

/-- More input after a wait is read from where the reader stands. -/
lemma Drains.push_of_none {b : List β} (h : Drains R r is none s)
    (hmore : Drains R (R.push s b) js o t) : Drains R (R.push r b) (is ++ js) o t := by
  generalize hnone : (none : Option ε) = o' at h
  induction h with
  | wait _ => exact hmore
  | refuse _ => cases hnone
  | item hp _ ih => exact .item (R.pass_item b hp) (ih hmore hnone)

/-- More input after a refusal changes nothing. -/
lemma Drains.push_of_some {b : List β} {e : ε} (h : Drains R r is (some e) s) :
    Drains R (R.push r b) is (some e) (R.push s b) := by
  generalize hsome : some e = o' at h
  induction h with
  | wait _ => cases hsome
  | refuse hp =>
    obtain rfl := Option.some.inj hsome
    exact .refuse (R.pass_refuse b hp)
  | item hp _ ih => exact .item (R.pass_item b hp) (ih hsome)

lemma Drains.pass_wait (h : Drains R r is none s) : R.pass s = .wait := by
  generalize hnone : (none : Option ε) = o' at h
  induction h with
  | wait hp => exact hp
  | refuse _ => cases hnone
  | item _ _ ih => exact ih hnone

namespace Reader

/-- Some call completes items and is refused after them. -/
def Drops (R : Reader ρ β ι ε) (r : ρ) (cs : List (List β)) : Prop :=
  ∃ before c after, cs = before ++ c :: after ∧
    (R.drain (R.push r before.flatten)).2.1 = none ∧
    (R.drain (R.push r (before.flatten ++ c))).2.1 ≠ none ∧
    (R.drain (R.push r (before.flatten ++ c))).1 ≠ (R.drain (R.push r before.flatten)).1

/-- Feeding in pieces fails as the stream does, and gives the items of the stream exactly when no
call drops any. -/
theorem feeds_eq_drain_iff (hr : R.pass r = .wait) (cs : List (List β)) :
    (R.feeds r cs).2 = (R.drain (R.push r cs.flatten)).2.1 ∧
      ((R.feeds r cs).1 = (R.drain (R.push r cs.flatten)).1 ↔ ¬ R.Drops r cs) := by
  induction cs generalizing r with
  | nil =>
    have hd : R.drain (R.push r []) = ([], none, r) := by
      rw [R.push_nil]
      exact (Drains.wait hr).eq_drain
    simp [feeds, hd, Drops]
  | cons c cs ih =>
    have hstart : R.drain (R.push r []) = ([], none, r) := by
      rw [R.push_nil]
      exact (Drains.wait hr).eq_drain
    have hc := drains_drain R (R.push r c)
    rw [List.flatten_cons, feeds]
    generalize R.drain (R.push r c) = d at hc
    obtain ⟨is, o, r'⟩ := d
    cases o with
    | none =>
      -- the call is not refused, so the rest is fed to the reader it leaves behind
      have hrest : ∀ b, R.drain (R.push r (c ++ b)) =
          (is ++ (R.drain (R.push r' b)).1, (R.drain (R.push r' b)).2) := by
        intro b
        rw [← R.push_append]
        exact (hc.push_of_none (drains_drain R (R.push r' b))).eq_drain
      obtain ⟨herr, hitems⟩ := ih hc.pass_wait
      rw [hrest]
      refine ⟨herr, ?_⟩
      rw [List.append_cancel_left_eq, hitems, not_iff_not]
      constructor
      · rintro ⟨before, c', after, hcs, hnone, hsome, hne⟩
        refine ⟨c :: before, c', after, by rw [hcs]; rfl, ?_⟩
        rw [List.flatten_cons, List.append_assoc, hrest, hrest]
        exact ⟨hnone, hsome, fun h => hne (List.append_cancel_left h)⟩
      · rintro ⟨before, c', after, hcs, hnone, hsome, hne⟩
        cases before with
        | nil =>
          obtain ⟨rfl, rfl⟩ := List.cons.inj hcs
          have hwait := hrest []
          rw [R.push_nil, (Drains.wait hc.pass_wait).eq_drain, List.append_nil] at hwait
          simp [hwait] at hsome
        | cons b before =>
          obtain ⟨rfl, rfl⟩ := List.cons.inj hcs
          rw [List.flatten_cons, List.append_assoc, hrest] at hsome
          rw [List.flatten_cons, List.append_assoc, hrest, hrest] at hne
          rw [List.flatten_cons, hrest] at hnone
          exact ⟨before, c', after, rfl, hnone, hsome, fun h => hne (by rw [h])⟩
    | some e =>
      have hrest : ∀ b, ∃ t, R.drain (R.push r (c ++ b)) = (is, some e, t) := by
        intro b
        rw [← R.push_append]
        exact ⟨_, hc.push_of_some.eq_drain⟩
      obtain ⟨t, ht⟩ := hrest cs.flatten
      rw [ht]
      refine ⟨rfl, ?_⟩
      constructor
      · rintro hnil ⟨before, c', after, hcs, hnone, hsome, hne⟩
        cases before with
        | nil =>
          obtain ⟨rfl, rfl⟩ := List.cons.inj hcs
          obtain ⟨t', ht'⟩ := hrest []
          rw [List.append_nil] at ht'
          rw [List.flatten_nil, List.nil_append, ht', hstart] at hne
          exact hne hnil.symm
        | cons b before =>
          obtain ⟨rfl, rfl⟩ := List.cons.inj hcs
          obtain ⟨t', ht'⟩ := hrest before.flatten
          rw [List.flatten_cons, ht'] at hnone
          cases hnone
      · intro hdrops
        by_contra hne
        obtain ⟨t', ht'⟩ := hrest []
        rw [List.append_nil] at ht'
        refine hdrops ⟨[], c, cs, rfl, ?_⟩
        rw [List.flatten_nil, List.nil_append, hstart, ht']
        exact ⟨rfl, by simp, fun h => hne h.symm⟩

/-- A stream that is not refused is given whole, however it is cut. -/
lemma feeds_of_drains (hr : R.pass r = .wait) {cs : List (List β)}
    (h : Drains R (R.push r cs.flatten) is none s) : R.feeds r cs = (is, none) := by
  obtain ⟨herr, hitems⟩ := feeds_eq_drain_iff hr cs
  rw [h.eq_drain] at herr hitems
  refine Prod.ext (hitems.mpr ?_) herr
  intro hdrops
  obtain ⟨before, c, after, rfl, -, hsome, -⟩ := hdrops
  obtain ⟨e, he⟩ := Option.ne_none_iff_exists'.mp hsome
  have hrefused := drains_drain R (R.push r (before.flatten ++ c))
  rw [he] at hrefused
  have hall := (hrefused.push_of_some (b := after.flatten)).eq_drain
  rw [R.push_append, List.append_assoc, ← List.flatten_cons, ← List.flatten_append,
    h.eq_drain] at hall
  simp at hall

end Reader

end CarolinaDB.Incremental
