import Mathlib.Tactic.Common

/-!
# While loops that are counted

`while cond { body }` over a state `σ`, where condition and body may fail with `ε` and the body may
leave the enclosing function with a result `ρ`.  `run` executes at most as many iterations as its
budget allows and reports how many it took, so termination and a bound on the iterations are one
statement about it.

`exists_run` is the rule for total correctness: an invariant under which nothing fails and a variant
that every iteration decreases.
-/

/-- `while cond { body }`: the body either goes on with a new state or returns from the function
around it. -/
structure WhileLoop (ε σ ρ : Type*) where
  cond : σ → Except ε Bool
  body : σ → Except ε (σ ⊕ ρ)

namespace WhileLoop

variable {ε σ ρ : Type*} (L : WhileLoop ε σ ρ)

/-- The iterations made and how the loop ended: in a failure, in the state in which the condition
was false, or in a result that the body returned.  `none` if the budget does not last. -/
def run : ℕ → σ → Option (ℕ × Except ε (σ ⊕ ρ))
  | budget, s =>
      match L.cond s with
      | .error e => some (0, .error e)
      | .ok false => some (0, .ok (.inl s))
      | .ok true =>
          match budget with
          | 0 => none
          | budget + 1 =>
              match L.body s with
              | .error e => some (1, .error e)
              | .ok (.inr r) => some (1, .ok (.inr r))
              | .ok (.inl s') => (run budget s').map fun out => (out.1 + 1, out.2)

variable {L}

lemma run_of_not_cond {s : σ} (h : L.cond s = .ok false) (budget : ℕ) :
    L.run budget s = some (0, .ok (.inl s)) := by
  unfold run
  rw [h]

lemma run_of_return {s : σ} {r : ρ} (hcond : L.cond s = .ok true)
    (hbody : L.body s = .ok (.inr r)) (budget : ℕ) :
    L.run (budget + 1) s = some (1, .ok (.inr r)) := by
  unfold run
  rw [hcond]
  dsimp only
  rw [hbody]

lemma run_of_iterate {s s' : σ} (hcond : L.cond s = .ok true) (hbody : L.body s = .ok (.inl s'))
    (budget : ℕ) :
    L.run (budget + 1) s = (L.run budget s').map fun out => (out.1 + 1, out.2) := by
  conv_lhs => unfold run
  rw [hcond]
  dsimp only
  rw [hbody]

/-- What the rule asks of an iteration: it does not fail, it keeps the invariant and decreases the
variant, or it returns what it should. -/
def Iterates (I : σ → Prop) (V : σ → ℕ) (Q : ρ → Prop) (s : σ) : Except ε (σ ⊕ ρ) → Prop
  | .error _ => False
  | .ok (.inl s') => I s' ∧ V s' < V s
  | .ok (.inr r) => Q r

/-- The state the loop was left in meets the invariant and the negated condition, and what the
iterations spent is off the variant; a result comes one iteration later at most. -/
def Ends (L : WhileLoop ε σ ρ) (I : σ → Prop) (V : σ → ℕ) (Q : ρ → Prop) (s : σ) (n : ℕ) :
    σ ⊕ ρ → Prop
  | .inl s' => I s' ∧ L.cond s' = .ok false ∧ n + V s' ≤ V s
  | .inr r => Q r ∧ n ≤ V s + 1

/-- Total correctness: the loop ends, whatever the budget exceeds the iterations by. -/
theorem exists_run {I : σ → Prop} {V : σ → ℕ} {Q : ρ → Prop}
    (hcond : ∀ s, I s → ∃ b, L.cond s = .ok b)
    (hbody : ∀ s, I s → L.cond s = .ok true → Iterates I V Q s (L.body s)) {s : σ} (hs : I s) :
    ∃ n out, Ends L I V Q s n out ∧ ∀ extra, L.run (n + extra) s = some (n, .ok out) := by
  induction hv : V s using Nat.strongRecOn generalizing s with
  | ind v ih =>
      obtain ⟨b, hb⟩ := hcond s hs
      cases b with
      | false =>
          refine ⟨0, .inl s, ⟨hs, hb, by simp⟩, fun extra => ?_⟩
          rw [run_of_not_cond hb]
      | true =>
          have hiter := hbody s hs hb
          cases hout : L.body s with
          | error e =>
              rw [hout] at hiter
              exact hiter.elim
          | ok out =>
              rw [hout] at hiter
              cases out with
              | inr r =>
                  refine ⟨1, .inr r, ⟨hiter, by omega⟩, fun extra => ?_⟩
                  rw [Nat.add_comm, run_of_return hb hout]
              | inl s' =>
                  obtain ⟨hs', hlt⟩ := hiter
                  obtain ⟨n, out, hends, hrun⟩ := ih (V s') (hv ▸ hlt) hs' rfl
                  refine ⟨n + 1, out, ?_, fun extra => ?_⟩
                  · cases out with
                    | inl t =>
                        obtain ⟨ht, hfalse, hle⟩ := hends
                        exact ⟨ht, hfalse, by omega⟩
                    | inr r =>
                        obtain ⟨hr, hle⟩ := hends
                        exact ⟨hr, by omega⟩
                  · rw [Nat.add_right_comm, run_of_iterate hb hout, hrun]
                    rfl

end WhileLoop
