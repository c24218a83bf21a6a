import AllSat.Solver.Conflict
import AllSat.Solver.Counting

namespace AllSat.Learning

inductive Outcome (Admitted : (Nat → Bool) → Prop) where
  | refuted (fails : ∀ σ, ¬ Admitted σ)
  | candidate (σ : Nat → Bool)
  | undecided

def patience : Nat := 200

def run {Admitted : (Nat → Bool) → Prop} (places : Nat) : Nat → Search Admitted → Outcome Admitted
  | 0, _ => .undecided
  | n + 1, s =>
    let s := s.propagate (places + 1)
    match s.conflict with
    | some c =>
      let explained := (s.promote c.codes).explain (s.trail.size + 1) c
      if h : explained.1.codes = [] then .refuted (Consequence.refutes h)
      else
        let s := explained.2
        run places n (s.learn (s.shorten explained.1.codes explained.1))
    | none =>
      if patience < s.conflicts then run places n s.restart
      else match s.favourite? places none with
        | none => .candidate s.valuation
        | some v => run places n (s.choose v)

def Admitted (vs : Array Nat) (f : Formula) (σ : Nat → Bool) : Prop := f.Holds (σ ∘ place vs)

theorem not_holds_of_not_admitted {f : Formula} (h : ∀ σ, ¬ Admitted f.vars.toArray f σ)
    (τ : Nat → Bool) : ¬ f.Holds τ := by
  intro hτ
  refine h (fun i => τ (f.vars.toArray.getD i 0)) ((Formula.holds_congr fun v hv => ?_).2 hτ)
  simp only [Function.comp_apply]
  rw [getD_place (by simpa using hv)]

def given (vs : Array Nat) (f : Formula) : List (Consequence (Admitted vs f)) :=
  f.clauses.attach.map fun c => .ofClause (place vs) c.1 fun _ hσ => hσ c.1 c.2

def rounds : Nat := 1000000000

def evidence (f : Formula) : Evidence f :=
  let vs := f.vars.toArray
  match run vs.size rounds (Search.start vs.size (given vs f)) with
  | .refuted fails => .refutation (not_holds_of_not_admitted fails)
  | .candidate σ =>
    if h : f.Holds fun v => σ (place vs v) then .model _ h else Counting.evidence f
  | .undecided => Counting.evidence f

def solve (f : Formula) : Verdict := (evidence f).verdict

theorem solve_eq_unsatisfiable_iff {f : Formula} :
    solve f = .unsatisfiable ↔ ∀ τ, ¬ f.Holds τ :=
  Evidence.verdict_eq_unsatisfiable_iff

theorem of_solve_eq_satisfiable {f : Formula} {answer : List (Literal Nat)}
    (h : solve f = .satisfiable answer) :
    ∃ τ, f.Holds τ ∧ answer = f.vars.map fun v => ⟨v, τ v⟩ :=
  Evidence.of_verdict_eq_satisfiable h

def oracle : Oracle Unit := .ofFunction solve

end AllSat.Learning
