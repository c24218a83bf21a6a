import AllSat.Cnf
import AllSat.Constraint.Implication

namespace AllSat.ExactlyOne

def pairs {α : Type} : List α → List (α × α)
  | [] => []
  | x :: xs => xs.map (x, ·) ++ pairs xs

theorem two_mul_length_pairs {α : Type} (xs : List α) :
    2 * (pairs xs).length = xs.length * (xs.length - 1) := by
  induction xs with
  | nil => rfl
  | cons x xs ih =>
      cases xs with
      | nil => rfl
      | cons y ys =>
          simp only [pairs, List.length_append, List.length_map, List.length_cons,
            Nat.add_sub_cancel, Nat.mul_add] at ih ⊢
          have hsucc := Nat.add_one_mul (ys.length + 1) ys.length
          omega

def Holds (τ : String → Bool) (group : List (Literal String)) : Prop :=
  (group.filter fun l => decide (l.Holds τ)).length = 1

instance (τ : String → Bool) (group : List (Literal String)) : Decidable (Holds τ group) :=
  inferInstanceAs (Decidable (_ = _))

def encode (group : List (Literal String)) : Except Error Cnf :=
  match Clause.ofLiterals? group, Distinct.firstRepeat (group.map Literal.atom) with
  | none, _ => .error .emptyGroup
  | some _, some name => .error (.duplicateLiteral name)
  | some atLeastOne, none =>
      .ok ⟨atLeastOne :: (pairs group).map fun p => Clause.excludes p.1 p.2⟩

theorem encode_nil : encode [] = .error .emptyGroup := rfl

end AllSat.ExactlyOne
