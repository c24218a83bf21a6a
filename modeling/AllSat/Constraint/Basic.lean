import AllSat.Constraint.Dnf
import AllSat.Constraint.Grid

namespace AllSat

inductive Constraint : Type 1 where
  | clauses (lists : List (List (Literal String)))
  | unit (l : Literal String)
  | implies (a b : Literal String)
  | oneOf (group : List (Literal String))
  | dnf (terms : List (List (Literal String)))
  | grid {S V : Type} (g : Grid S V)

namespace Constraint

def Holds (τ : String → Bool) : Constraint → Prop
  | clauses lists => Conjunction.Holds τ lists
  | unit l => l.Holds τ
  | implies a b => a.Holds τ → b.Holds τ
  | oneOf group => ExactlyOne.Holds τ group
  | dnf terms => Dnf.Holds τ terms
  | grid g => g.Holds τ

def encode : Constraint → Except Error Cnf
  | clauses lists => Cnf.ofLists lists
  | unit l => .ok ⟨[Clause.unit l]⟩
  | implies a b => .ok ⟨[Clause.implies a b]⟩
  | oneOf group => ExactlyOne.encode group
  | dnf terms => Dnf.encode terms
  | grid g => g.encode

end Constraint

namespace Cnf

def add (f : Cnf) (c : Constraint) : Option Error × Cnf :=
  match c.encode with
  | .ok g => (none, f ++ g)
  | .error e => (some e, f)

theorem add_of_ok {f g : Cnf} {c : Constraint} (h : c.encode = .ok g) :
    f.add c = (none, f ++ g) := by
  simp [add, h]

theorem add_of_error {f : Cnf} {c : Constraint} {e : Error} (h : c.encode = .error e) :
    f.add c = (some e, f) := by
  simp [add, h]

def addAll (f : Cnf) (cs : List Constraint) : Cnf := cs.foldl (fun g c => (g.add c).2) f

end Cnf

end AllSat
