import AllSat.Dimacs.Signed

namespace AllSat.Literal

def value (l : Literal Nat) : Int := if l.positive then (l.atom : Int) else -(l.atom : Int)

theorem ofSigned?_eq_some_iff {k : Int} {l : Literal Nat} :
    ofSigned? k = some l ↔ l.atom ≠ 0 ∧ k = l.value := by
  obtain ⟨v, positive⟩ := l
  unfold ofSigned?
  split
  · rename_i hpos
    cases positive <;> simp [pos, value] <;> omega
  · split
    · rename_i hneg
      cases positive <;> simp [neg, value] <;> omega
    · rename_i hle hge
      cases positive <;> simp [value] <;> omega

def Fits (l : Literal Nat) : Prop :=
  (1 ≤ l.atom ∧ l.atom ≤ Word.half - 1) ∨ (l.positive = false ∧ l.atom = Word.half)

theorem fits_of_lt {l : Literal Nat} (hpos : 1 ≤ l.atom) (hlt : l.atom < Word.half) : l.Fits :=
  .inl ⟨hpos, Nat.le_pred_of_lt hlt⟩

theorem fits_iff {l : Literal Nat} :
    l.Fits ↔ l.atom ≠ 0 ∧ -Word.half ≤ l.value ∧ l.value < Word.half := by
  obtain ⟨v, positive⟩ := l
  cases positive <;> simp [Fits, value, Word.half_eq] <;> omega

theorem toSigned_of_fits {l : Literal Nat} (h : l.Fits) : l.toSigned = l.value :=
  Word.wrap_of_bounds (fits_iff.1 h).2.1 (fits_iff.1 h).2.2

end AllSat.Literal
