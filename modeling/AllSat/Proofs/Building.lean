import AllSat.Constraint.Basic
import AllSat.Proofs.ClauseLists
import AllSat.Proofs.Expansion
import AllSat.Proofs.GridEncoding

namespace AllSat

theorem Constraint.holds_of_encode {c : Constraint} {g : Cnf} (h : c.encode = .ok g)
    {τ : String → Bool} : g.Holds τ ↔ c.Holds τ := by
  cases c with
  | clauses lists => exact Cnf.holds_of_ofLists h
  | unit l =>
      cases h
      exact List.forall_mem_singleton.trans Clause.holds_unit
  | implies a b =>
      cases h
      exact List.forall_mem_singleton.trans Clause.holds_implies
  | oneOf group => exact ExactlyOne.holds_of_encode h
  | dnf terms => exact Dnf.holds_of_encode h
  | grid g => exact Grid.holds_of_encode h

namespace Cnf

example : (empty.addAll [.oneOf [], .implies (.pos "a") (.neg "a"),
    .oneOf [.pos "b", .neg "b"]]).conjunction = [[.neg "a"]] := by decide

end Cnf

end AllSat
