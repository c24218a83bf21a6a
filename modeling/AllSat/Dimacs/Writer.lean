import AllSat.Dimacs.Signed
import AllSat.Formula

namespace AllSat.Dimacs

def writeClause (c : Disjunction Nat) : String :=
  String.join (c.map fun l => l.toSigned.repr ++ " ") ++ "0\n"

def writeHeader (varCount clauseCount : Nat) : String :=
  "p cnf " ++ varCount.repr ++ " " ++ clauseCount.repr ++ "\n"

def write (f : Formula) (varCount : Nat) : String :=
  writeHeader varCount f.clauses.length ++ String.join (f.clauses.map writeClause)

end AllSat.Dimacs
