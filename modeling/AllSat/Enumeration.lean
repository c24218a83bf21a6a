import AllSat.Enumerator
import AllSat.Solver.Learning

namespace AllSat

def collect : List (Except Error Model) → Except Error (List Model)
  | [] => .ok []
  | .error cause :: _ => .error cause
  | .ok m :: items => (collect items).map (m :: ·)

theorem collect_map_ok (ms : List Model) : collect (ms.map .ok) = .ok ms := by
  induction ms with
  | nil => rfl
  | cons m ms ih => simp only [List.map_cons, collect, ih, Except.map]

/-- Every model of a conjunction. There is no answer when the oracle goes on past the calls that an
oracle with true answers can take. -/
def solveAllWith {σ : Type} (o : Oracle σ) (memory : σ) (f : Cnf) :
    Option (Except Error (List Model)) :=
  let session := Enumerator.start o memory f
  (session.drain session.callBound).map fun drained => collect drained.1

def solveAll (f : Cnf) : Except Error (List Model) :=
  let session := Enumerator.start Learning.oracle () f
  collect (session.take session.callBound).1

end AllSat
