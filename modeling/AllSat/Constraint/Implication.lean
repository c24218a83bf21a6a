import AllSat.Clause

namespace AllSat.Clause

def implies (a b : Literal String) : Clause := (unit a.negate).or b

theorem holds_implies {τ : String → Bool} {a b : Literal String} :
    (implies a b).Holds τ ↔ (a.Holds τ → b.Holds τ) := by
  simp only [implies, holds_or, holds_unit, Literal.holds_negate]
  exact Decidable.imp_iff_not_or.symm

def excludes (a b : Literal String) : Clause := implies a b.negate

theorem holds_excludes {τ : String → Bool} {a b : Literal String} :
    (excludes a b).Holds τ ↔ ¬ (a.Holds τ ∧ b.Holds τ) := by
  simp [excludes, holds_implies, Literal.holds_negate]

end AllSat.Clause
