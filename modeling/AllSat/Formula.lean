import AllSat.Ascending
import AllSat.Disjunction

namespace AllSat

structure Formula where
  clauses : Conjunction Nat
deriving DecidableEq

namespace Formula

def push (f : Formula) (c : Disjunction Nat) : Formula := ⟨f.clauses ++ [c]⟩

def Holds (τ : Nat → Bool) (f : Formula) : Prop := Conjunction.Holds τ f.clauses

instance (τ : Nat → Bool) (f : Formula) : Decidable (f.Holds τ) :=
  inferInstanceAs (Decidable (Conjunction.Holds τ f.clauses))

theorem holds_push {τ : Nat → Bool} {f : Formula} {c : Disjunction Nat} :
    (f.push c).Holds τ ↔ f.Holds τ ∧ Disjunction.Holds τ c := by
  simp [Holds, push, Conjunction.holds_append, Conjunction.holds_cons, Conjunction.holds_nil]

def vars (f : Formula) : List Nat :=
  f.clauses.foldr (fun c vs => c.foldr (fun l vs => Ascending.add l.atom vs) vs) []

theorem vars_eq (f : Formula) : f.vars = Ascending.ofList (Conjunction.atoms f.clauses) := by
  simp [vars, Ascending.ofList, Conjunction.atoms, List.foldr_flatMap, List.foldr_map]

theorem pairwise_vars (f : Formula) : f.vars.Pairwise (· < ·) :=
  vars_eq f ▸ Ascending.pairwise_ofList Nat.lt_trans (fun h hne => by omega) _

theorem nodup_vars (f : Formula) : f.vars.Nodup :=
  (pairwise_vars f).imp fun h => Nat.ne_of_lt h

theorem mem_vars {f : Formula} {v : Nat} :
    v ∈ f.vars ↔ ∃ c ∈ f.clauses, ∃ l ∈ c, l.atom = v := by
  rw [vars_eq, Ascending.mem_ofList, Conjunction.mem_atoms]

theorem holds_congr {τ σ : Nat → Bool} {f : Formula} (h : ∀ v ∈ f.vars, τ v = σ v) :
    f.Holds τ ↔ f.Holds σ :=
  Conjunction.holds_congr fun v hv => h v (mem_vars.2 (Conjunction.mem_atoms.1 hv))

def text (f : Formula) : String := Conjunction.text Nat.repr f.clauses

end Formula

end AllSat
