import AllSat.Numbering
import AllSat.Oracle

namespace AllSat

structure Enumerator (σ : Type) where
  oracle : Oracle σ
  memory : σ
  table : NameTable
  working : Formula
  finished : Bool
  calls : Nat

namespace Enumerator

variable {σ : Type}

def start (o : Oracle σ) (memory : σ) (f : Cnf) : Enumerator σ :=
  let numbered := f.numbered .empty
  ⟨o, memory, numbered.2, numbered.1, false, 0⟩

def asked (e : Enumerator σ) (memory : σ) : Enumerator σ :=
  { e with memory := memory, calls := e.calls + 1 }

def finish (e : Enumerator σ) : Enumerator σ := { e with finished := true }

def block (e : Enumerator σ) (answer : List (Literal Nat)) : Enumerator σ :=
  { e with working := e.working.push (Disjunction.blocking answer) }

/-- An answer is blocked only after all its ids have been read. The empty answer leaves nothing to
block, and no other model can follow it. -/
def accept (e : Enumerator σ) (answer : List (Literal Nat)) :
    Option (Except Error Model) × Enumerator σ :=
  match e.table.model answer with
  | .error cause => (some (.error cause), e.finish)
  | .ok m => (some (.ok m), if answer = [] then e.finish else e.block answer)

def next (e : Enumerator σ) : Option (Except Error Model) × Enumerator σ :=
  if e.finished then (none, e)
  else
    let reply := e.oracle.solve e.memory e.working
    match reply.1 with
    | .error cause => (some (.error cause), (e.asked reply.2).finish)
    | .ok .unsatisfiable => (none, (e.asked reply.2).finish)
    | .ok (.satisfiable answer) => (e.asked reply.2).accept answer

theorem accept_of_error {e : Enumerator σ} {answer : List (Literal Nat)} {cause : Error}
    (h : e.table.model answer = .error cause) :
    e.accept answer = (some (.error cause), e.finish) := by
  simp [accept, h]

theorem accept_nil (e : Enumerator σ) : e.accept [] = (some (.ok .empty), e.finish) := rfl

theorem accept_of_model {e : Enumerator σ} {answer : List (Literal Nat)} {m : Model}
    (h : e.table.model answer = .ok m) (hne : answer ≠ []) :
    e.accept answer = (some (.ok m), e.block answer) := by
  simp [accept, h, hne]

theorem next_of_finished {e : Enumerator σ} (h : e.finished = true) : e.next = (none, e) := by
  simp [next, h]

theorem next_of_failure {e : Enumerator σ} {cause : Error} {memory : σ} (h : e.finished = false)
    (hreply : e.oracle.solve e.memory e.working = (.error cause, memory)) :
    e.next = (some (.error cause), (e.asked memory).finish) := by
  simp [next, h, hreply]

theorem next_of_unsatisfiable {e : Enumerator σ} {memory : σ} (h : e.finished = false)
    (hreply : e.oracle.solve e.memory e.working = (.ok .unsatisfiable, memory)) :
    e.next = (none, (e.asked memory).finish) := by
  simp [next, h, hreply]

theorem next_of_satisfiable {e : Enumerator σ} {memory : σ} {answer : List (Literal Nat)}
    (h : e.finished = false)
    (hreply : e.oracle.solve e.memory e.working = (.ok (.satisfiable answer), memory)) :
    e.next = (e.asked memory).accept answer := by
  simp [next, h, hreply]

def take : Nat → Enumerator σ → List (Except Error Model) × Enumerator σ
  | 0, e => ([], e)
  | n + 1, e =>
    match e.next with
    | (none, e') => ([], e')
    | (some item, e') =>
      let later := take n e'
      (item :: later.1, later.2)

theorem take_of_finished {e : Enumerator σ} (h : e.finished = true) (n : Nat) :
    e.take n = ([], e) := by
  cases n with
  | zero => rfl
  | succ n => simp [take, next_of_finished h]

theorem length_take_le (n : Nat) (e : Enumerator σ) : (e.take n).1.length ≤ n := by
  induction n generalizing e with
  | zero => simp [take]
  | succ n ih =>
      cases hnext : e.next with
      | mk item e' =>
          cases item with
          | none => simp [take, hnext]
          | some item => simpa [take, hnext] using ih e'

def drain (bound : Nat) (e : Enumerator σ) : Option (List (Except Error Model) × Enumerator σ) :=
  let taken := e.take bound
  if taken.2.finished then some taken else none

/-- Enough for every oracle whose answers satisfy the formula it was given: each one excludes an
assignment of the names, and one last call finds nothing left. -/
def callBound (e : Enumerator σ) : Nat := Nat.pow 2 e.table.size + 1

end Enumerator

end AllSat
