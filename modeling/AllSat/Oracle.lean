import AllSat.Error
import AllSat.Formula

namespace AllSat

inductive Verdict where
  | satisfiable (answer : List (Literal Nat))
  | unsatisfiable
deriving DecidableEq

structure Oracle (σ : Type) where
  solve : σ → Formula → Except Error Verdict × σ

namespace Oracle

def ofFunction (verdict : Formula → Verdict) : Oracle Unit :=
  ⟨fun memory f => (.ok (verdict f), memory)⟩

def scripted : Oracle (List (Except Error Verdict)) :=
  ⟨fun
    | [], _ => (.ok .unsatisfiable, [])
    | reply :: later, _ => (reply, later)⟩

def recording {σ : Type} (o : Oracle σ) : Oracle (σ × List Formula) :=
  ⟨fun memory f =>
    let reply := o.solve memory.1 f
    (reply.1, reply.2, memory.2 ++ [f])⟩

end Oracle

end AllSat
