import Mathlib

/-!
# Guarded loops

A loop that gives up after a fixed number of passes, with the rule for it: what
an invariant says of its result, and how many passes it takes to get there.
-/
namespace CarolinaDB.Loop

variable {σ β : Type}

/-- Run `step` until it produces a result, for `guard` passes at most. -/
def loop (step : σ → σ ⊕ β) : ℕ → σ → Option β
  | 0, _ => none
  | guard+1, s =>
    match step s with
    | .inl s' => loop step guard s'
    | .inr b => some b

/-- `Inv k s` promises that at most `k` passes follow the next one. A pass that is not the last one
lowers `k`; the last one establishes `Post`. -/
theorem loop_spec {step : σ → σ ⊕ β} {Inv : ℕ → σ → Prop} {Q : β → Prop}
    (hstep : ∀ k s, Inv k s → (∃ b, step s = .inr b ∧ Q b) ∨
      ∃ k' s', k' < k ∧ step s = .inl s' ∧ Inv k' s')
    {k : ℕ} {s : σ} (hs : Inv k s) (guard : ℕ) :
    (∀ b, loop step guard s = some b → Q b) ∧ (k < guard → (loop step guard s).isSome) := by
  induction guard generalizing k s with
  | zero => exact ⟨by simp [loop], by omega⟩
  | succ guard ih =>
    rw [loop]
    rcases hstep k s hs with ⟨b, hb, hpost⟩ | ⟨k', s', hlt, hs', hinv⟩
    · simp only [hb]
      refine ⟨fun b' hb' => ?_, by simp⟩
      rw [Option.some.injEq] at hb'
      exact hb' ▸ hpost
    · simp only [hs']
      exact ⟨(ih hinv).1, fun hk => (ih hinv).2 (by omega)⟩

/-- Passes that are known to continue are counted off the guard. -/
lemma loop_steps {step : σ → σ ⊕ β} {st : ℕ → σ} {k : ℕ} (h : ∀ i < k, step (st i) = .inl (st (i + 1)))
    (guard : ℕ) : loop step (k + guard) (st 0) = loop step guard (st k) := by
  induction k generalizing guard with
  | zero => rw [Nat.zero_add]
  | succ k ih =>
    rw [Nat.add_assoc, Nat.add_comm 1, ih (fun i hi => h i (hi.trans k.lt_succ_self)), loop,
      h k k.lt_succ_self]

end CarolinaDB.Loop
