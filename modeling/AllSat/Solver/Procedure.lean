import AllSat.Dimacs.Signed
import AllSat.Solver.Learning

namespace AllSat

/-- A decision procedure for clauses of signed numbers: whether they can all be true, or why it
could not tell, and after that the numbers that make them true. -/
structure Procedure where
  decides : List (List Int) → Except String Bool
  model? : List (List Int) → Option (List Int)

namespace Procedure

def submitted (f : Formula) : List (List Int) := f.clauses.map (List.map Literal.toSigned)

def solve (p : Procedure) (f : Formula) : Except Error Verdict :=
  match p.decides (submitted f) with
  | .error reason => .error (.oracleFailed reason)
  | .ok false => .ok .unsatisfiable
  | .ok true =>
    match p.model? (submitted f) with
    | none => .error (.oracleFailed "satisfiable without a model")
    | some model => .ok (.satisfiable (model.filterMap Literal.ofSigned?))

def oracle (p : Procedure) : Oracle Unit := ⟨fun memory f => (p.solve f, memory)⟩

def received (clauses : List (List Int)) : Formula :=
  ⟨clauses.map (List.filterMap Literal.ofSigned?)⟩

def learning : Procedure where
  decides clauses :=
    match Learning.solve (received clauses) with
    | .satisfiable _ => .ok true
    | .unsatisfiable => .ok false
  model? clauses :=
    match Learning.solve (received clauses) with
    | .satisfiable answer => some (answer.map Literal.toSigned)
    | .unsatisfiable => none

end Procedure

end AllSat
