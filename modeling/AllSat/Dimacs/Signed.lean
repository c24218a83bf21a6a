import AllSat.Literal
import AllSat.Word

namespace AllSat.Literal

def toSigned (l : Literal Nat) : Int :=
  Word.wrap (if l.positive then (l.atom : Int) else -(l.atom : Int))

def ofSigned? (k : Int) : Option (Literal Nat) :=
  if 0 < k then some (.pos k.natAbs)
  else if k < 0 then some (.neg k.natAbs)
  else none

theorem ofSigned?_eq_none_iff {k : Int} : ofSigned? k = none ↔ k = 0 := by
  unfold ofSigned?
  split
  · exact iff_of_false (by simp) (by omega)
  · split
    · exact iff_of_false (by simp) (by omega)
    · exact iff_of_true rfl (by omega)

end AllSat.Literal
