import Mathlib

/-!
# Attempts

Computations that change a state and may fail on the way; what was written before
a failure stays. `Attempt.bind_cases` takes a sequence apart; `Ends` has the rules for
attempts that succeed, `Leaves` those for what holds however an attempt ends, and `Within`
those that say which errors there are.
-/
namespace CarolinaDB

abbrev Attempt (σ ε : Type) := ExceptT ε (StateM σ)

namespace Attempt

variable {σ ε α β : Type}

@[simp] lemma pure_run (a : α) (s : σ) : (pure a : Attempt σ ε α) s = (.ok a, s) := rfl

@[simp] lemma throw_run (e : ε) (s : σ) : (throw e : Attempt σ ε α) s = (.error e, s) := rfl

@[simp] lemma get_run (s : σ) : (get : Attempt σ ε σ) s = (.ok s, s) := rfl

@[simp] lemma set_run (s s' : σ) : (set s' : Attempt σ ε PUnit) s = (.ok ⟨⟩, s') := rfl

@[simp] lemma modify_run (f : σ → σ) (s : σ) :
    (modify f : Attempt σ ε PUnit) s = (.ok ⟨⟩, f s) := rfl

@[simp] lemma liftM_run (x : Except ε α) (s : σ) :
    (liftM x : Attempt σ ε α) s = (x, s) := rfl

/-- Two ends of an attempt are the same if their results and their states are. -/
@[simp] lemma end_eq_iff {r r' : Except ε α} {s s' : σ} :
    @Eq (Id (Except ε α × σ)) (r, s) (r', s') ↔ r = r' ∧ s = s' :=
  Prod.ext_iff

lemma bind_run (x : Attempt σ ε α) (f : α → Attempt σ ε β) (s : σ) :
    (x >>= f) s = match x s with
      | (.ok a, s') => f a s'
      | (.error e, s') => (.error e, s') := by
  have hrun : (x >>= f) s = ExceptT.bindCont f (x s).1 (x s).2 := rfl
  rw [hrun]
  rcases x s with ⟨e | a, s'⟩ <;> rfl

@[simp] lemma get_bind_run (f : σ → Attempt σ ε β) (s : σ) : (get >>= f) s = f s s := rfl

@[simp] lemma liftM_ok_bind_run (a : α) (f : α → Attempt σ ε β) (s : σ) :
    ((liftM (Except.ok a : Except ε α) : Attempt σ ε α) >>= f) s = f a s := rfl

@[simp] lemma liftM_error_bind_run (e : ε) (f : α → Attempt σ ε β) (s : σ) :
    ((liftM (Except.error e : Except ε α) : Attempt σ ε α) >>= f) s = (.error e, s) := rfl

variable {x : Attempt σ ε α} {f : α → Attempt σ ε β} {s s'' : σ}

/-- A sequence stops at its first part, or goes on from where that one ends. -/
lemma bind_cases {r : Except ε β} (h : (x >>= f) s = (r, s'')) :
    (∃ e, x s = (.error e, s'') ∧ r = .error e) ∨
      ∃ a s', x s = (.ok a, s') ∧ f a s' = (r, s'') := by
  rw [bind_run] at h
  rcases hx : x s with ⟨e | a, s'⟩
  · rw [hx] at h
    obtain ⟨rfl, rfl⟩ := Prod.mk.inj h
    exact Or.inl ⟨e, rfl, rfl⟩
  · rw [hx] at h
    exact Or.inr ⟨a, s', rfl, h⟩

/-- A check that fails leaves the state as it is. -/
lemma liftM_bind_cases {y : Except ε α} {r : Except ε β}
    (h : ((liftM y : Attempt σ ε α) >>= f) s = (r, s'')) :
    (∃ e, y = .error e ∧ r = .error e ∧ s'' = s) ∨ ∃ a, y = .ok a ∧ f a s = (r, s'') := by
  cases y with
  | error e =>
    rw [liftM_error_bind_run, end_eq_iff] at h
    exact Or.inl ⟨e, rfl, h.1.symm, h.2.symm⟩
  | ok a => exact Or.inr ⟨a, rfl, h⟩

lemma bind_eq_ok {b : β} (h : (x >>= f) s = (.ok b, s'')) :
    ∃ a s', x s = (.ok a, s') ∧ f a s' = (.ok b, s'') := by
  rcases bind_cases h with ⟨e, -, he⟩ | h
  · cases he
  · exact h

lemma bind_of_ok {a : α} {s' : σ} (h : x s = (.ok a, s')) : (x >>= f) s = f a s' := by
  rw [bind_run, h]

lemma bind_congr_run {g : α → Attempt σ ε β} (h : ∀ a s', x s = (.ok a, s') → f a s' = g a s') :
    (x >>= f) s = (x >>= g) s := by
  rw [bind_run, bind_run]
  rcases hx : x s with ⟨e | a, s'⟩
  · rfl
  · exact h a s' hx

/-- The attempt succeeds, and its result and the state it leaves meet the postcondition. -/
def Ends (x : Attempt σ ε α) (s : σ) (Q : α → σ → Prop) : Prop := ∃ a s', x s = (.ok a, s') ∧ Q a s'

namespace Ends
variable {Q : β → σ → Prop} {R : α → σ → Prop}

lemma pure {a : α} (h : R a s) : Ends (Pure.pure a : Attempt σ ε α) s R := ⟨a, s, rfl, h⟩

lemma bind (h : Ends x s R) (hf : ∀ a s', R a s' → Ends (f a) s' Q) : Ends (x >>= f) s Q := by
  obtain ⟨a, s', hx, hr⟩ := h
  obtain ⟨b, s'', hb, hq⟩ := hf a s' hr
  exact ⟨b, s'', by rw [bind_of_ok hx, hb], hq⟩

lemma get_bind {f : σ → Attempt σ ε β} (h : Ends (f s) s Q) : Ends (get >>= f) s Q := h

lemma set_bind {s' : σ} {f : PUnit → Attempt σ ε β} (h : Ends (f ⟨⟩) s' Q) :
    Ends (set s' >>= f) s Q := h

lemma modify_bind {g : σ → σ} {f : PUnit → Attempt σ ε β} (h : Ends (f ⟨⟩) (g s) Q) :
    Ends (modify g >>= f) s Q := h

lemma liftM_bind {y : Except ε α} {a : α} (hy : y = .ok a) (h : Ends (f a) s Q) :
    Ends ((liftM y : Attempt σ ε α) >>= f) s Q := by
  subst hy
  exact h

end Ends

/-- However the attempt ends, the state it leaves meets the condition. -/
def Leaves (x : Attempt σ ε α) (s : σ) (Q : σ → Prop) : Prop := Q (x s).2

namespace Leaves
variable {P Q R : σ → Prop}

lemma pure {a : α} (h : Q s) : Leaves (Pure.pure a : Attempt σ ε α) s Q := h

lemma throw {e : ε} (h : Q s) : Leaves (MonadExcept.throw e : Attempt σ ε α) s Q := h

lemma mono (h : Leaves x s R) (himp : ∀ s', R s' → Q s') : Leaves x s Q := himp _ h

/-- What the first part leaves is enough, whether it fails or the second part goes on. -/
lemma bind (h : Leaves x s R) (herror : ∀ s', R s' → Q s')
    (hf : ∀ a s', R s' → Leaves (f a) s' Q) : Leaves (x >>= f) s Q := by
  unfold Leaves at h ⊢
  rw [bind_run]
  rcases hx : x s with ⟨e | a, s'⟩
  · rw [hx] at h
    exact herror s' h
  · rw [hx] at h
    exact hf a s' h

lemma seq (h : Leaves x s Q) (hf : ∀ a s', Q s' → Leaves (f a) s' Q) : Leaves (x >>= f) s Q :=
  h.bind (fun _ hs => hs) hf

lemma get_bind {f : σ → Attempt σ ε β} (h : Leaves (f s) s Q) : Leaves (get >>= f) s Q := h

lemma liftM_bind {y : Except ε α} (herror : Q s) (h : ∀ a, y = .ok a → Leaves (f a) s Q) :
    Leaves ((liftM y : Attempt σ ε α) >>= f) s Q := by
  cases y with
  | error e => exact herror
  | ok a => exact h a rfl

lemma bind_of_ok {a : α} {s' : σ} (hx : x s = (.ok a, s')) (h : Leaves (f a) s' Q) :
    Leaves (x >>= f) s Q := by
  rw [Leaves, Attempt.bind_of_ok hx]
  exact h

lemma liftM_ok_bind {y : Except ε α} {a : α} (hy : y = .ok a) (h : Leaves (f a) s Q) :
    Leaves ((liftM y : Attempt σ ε α) >>= f) s Q := by
  subst hy
  exact h

end Leaves

/-- If the attempt succeeds, its result and the state it leaves meet the postcondition; it fails
only with errors that meet the other condition. -/
def Within (x : Attempt σ ε α) (s : σ) (Q : α → σ → Prop) (E : ε → Prop) : Prop :=
  (∀ a s', x s = (.ok a, s') → Q a s') ∧ ∀ e s', x s = (.error e, s') → E e

namespace Within
variable {Q : β → σ → Prop} {R : α → σ → Prop} {E F : ε → Prop}

lemma of_ends (h : Ends x s R) : Within x s R E := by
  obtain ⟨a, s', hx, hr⟩ := h
  refine ⟨fun b s'' hb => ?_, fun e s'' he => ?_⟩
  · rw [hx, end_eq_iff, Except.ok.injEq] at hb
    exact hb.1 ▸ hb.2 ▸ hr
  · rw [hx, end_eq_iff] at he
    cases he.1

lemma mono (h : Within x s R F) {R' : α → σ → Prop} (himp : ∀ a s', R a s' → R' a s')
    (herror : ∀ e, F e → E e) : Within x s R' E :=
  ⟨fun a s' hx => himp a s' (h.1 a s' hx), fun e s' hx => herror e (h.2 e s' hx)⟩

lemma bind (h : Within x s R E) (hf : ∀ a s', R a s' → Within (f a) s' Q E) :
    Within (x >>= f) s Q E := by
  refine ⟨fun b s'' hb => ?_, fun e s'' he => ?_⟩
  · obtain ⟨a, s', ha, hb⟩ := bind_eq_ok hb
    exact (hf a s' (h.1 a s' ha)).1 b s'' hb
  · rcases bind_cases he with ⟨e', he', hee⟩ | ⟨a, s', ha, he⟩
    · exact Except.error.inj hee ▸ h.2 e' s'' he'
    · exact (hf a s' (h.1 a s' ha)).2 e s'' he

lemma get_bind {f : σ → Attempt σ ε β} (h : Within (f s) s Q E) : Within (get >>= f) s Q E := h

lemma liftM_bind {y : Except ε α} {a : α} (hy : y = .ok a) (h : Within (f a) s Q E) :
    Within ((liftM y : Attempt σ ε α) >>= f) s Q E := by
  subst hy
  exact h

lemma congr {y : Attempt σ ε α} (h : x s = y s) (hy : Within y s R E) : Within x s R E := by
  rw [Within, h]
  exact hy

/-- If success needs a condition under which the attempt fails only with certain errors, then it
fails only with them exactly under this condition, or where one of them stops it. -/
lemma errors_iff {P : Prop} (h : Within x s (fun _ _ => P) fun e => P → E e) :
    (∀ e s', x s = (.error e, s') → E e) ↔ P ∨ ∃ e s', x s = (.error e, s') ∧ E e := by
  constructor
  · intro hall
    rcases hx : x s with ⟨e | a, s'⟩
    · exact Or.inr ⟨e, s', rfl, hall e s' hx⟩
    · exact Or.inl (h.1 a s' hx)
  · rintro (hp | ⟨e, s', hx, he⟩) e' s'' hx'
    · exact h.2 e' s'' hx' hp
    · rw [hx, end_eq_iff, Except.error.injEq] at hx'
      exact hx'.1 ▸ he

end Within

end Attempt

end CarolinaDB
