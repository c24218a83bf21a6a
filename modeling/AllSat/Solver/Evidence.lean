import AllSat.Oracle

namespace AllSat

inductive Evidence (f : Formula) where
  | model (τ : Nat → Bool) (holds : f.Holds τ)
  | refutation (fails : ∀ τ, ¬ f.Holds τ)

namespace Evidence

variable {f : Formula}

def verdict : Evidence f → Verdict
  | .model τ _ => .satisfiable (f.vars.map fun v => ⟨v, τ v⟩)
  | .refutation _ => .unsatisfiable

theorem verdict_eq_unsatisfiable_iff {e : Evidence f} :
    e.verdict = .unsatisfiable ↔ ∀ τ, ¬ f.Holds τ := by
  cases e with
  | model τ h => exact iff_of_false (by simp [verdict]) fun hn => hn τ h
  | refutation h => exact iff_of_true rfl h

theorem of_verdict_eq_satisfiable {e : Evidence f} {answer : List (Literal Nat)}
    (h : e.verdict = .satisfiable answer) :
    ∃ τ, f.Holds τ ∧ answer = f.vars.map fun v => ⟨v, τ v⟩ := by
  cases e with
  | model τ hτ =>
      cases h
      exact ⟨τ, hτ, rfl⟩
  | refutation => simp [verdict] at h

end Evidence

end AllSat
