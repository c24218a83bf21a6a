import AllSat.Cnf
import AllSat.Formula
import AllSat.Model
import AllSat.NameTable

namespace AllSat

namespace Cnf

def numbered (f : Cnf) (t : NameTable) : Formula × NameTable :=
  let t' := t.insertAll (Conjunction.atoms f.conjunction)
  (⟨f.conjunction.map (List.map (Literal.map t'.number))⟩, t')

end Cnf

namespace NameTable

def resolveLiteral (t : NameTable) (l : Literal Nat) : Except Error (Literal String) :=
  (t.resolve l.atom).map fun name => ⟨name, l.positive⟩

def model (t : NameTable) (answer : List (Literal Nat)) : Except Error Model :=
  (answer.mapM t.resolveLiteral).map fun ls =>
    .ofNames ((ls.filter Literal.positive).map Literal.atom)

end NameTable

namespace Formula

def named (f : Formula) : Except Error Cnf :=
  Cnf.ofLists (f.clauses.map (List.map (Literal.map Nat.repr)))

end Formula

end AllSat
