import AllSat.Clause

namespace AllSat

structure Cnf where
  clauses : List Clause
deriving DecidableEq

namespace Cnf

def empty : Cnf := ⟨[]⟩

instance : Append Cnf := ⟨fun f g => ⟨f.clauses ++ g.clauses⟩⟩

@[simp] theorem clauses_append (f g : Cnf) : (f ++ g).clauses = f.clauses ++ g.clauses := rfl

@[simp] theorem clauses_empty : empty.clauses = [] := rfl

def ofLists (lists : List (List (Literal String))) : Except Error Cnf :=
  (lists.mapM Clause.ofLiterals).map Cnf.mk

def conjunction (f : Cnf) : Conjunction String := f.clauses.map Clause.literals

def Holds (τ : String → Bool) (f : Cnf) : Prop := ∀ c ∈ f.clauses, c.Holds τ

instance (τ : String → Bool) (f : Cnf) : Decidable (f.Holds τ) :=
  inferInstanceAs (Decidable (∀ c ∈ f.clauses, c.Holds τ))

theorem holds_empty (τ : String → Bool) : empty.Holds τ := by
  simp [Holds]

theorem holds_append {τ : String → Bool} {f g : Cnf} :
    (f ++ g).Holds τ ↔ f.Holds τ ∧ g.Holds τ := by
  simp [Holds, or_imp, forall_and]

theorem holds_iff_conjunction {τ : String → Bool} {f : Cnf} :
    f.Holds τ ↔ Conjunction.Holds τ f.conjunction := by
  simp [Holds, Clause.Holds, Conjunction.Holds, conjunction]

def names (f : Cnf) : List String := (Conjunction.atoms f.conjunction).eraseDups

theorem mem_names {f : Cnf} {name : String} :
    name ∈ f.names ↔ ∃ c ∈ f.clauses, ∃ l ∈ c.literals, l.atom = name := by
  simp only [names, conjunction, List.mem_eraseDups, Conjunction.mem_atoms, List.mem_map]
  constructor
  · rintro ⟨_, ⟨c, hc, rfl⟩, l, hl, rfl⟩
    exact ⟨c, hc, l, hl, rfl⟩
  · rintro ⟨c, hc, l, hl, rfl⟩
    exact ⟨_, ⟨c, hc, rfl⟩, l, hl, rfl⟩

theorem mem_names_append {f g : Cnf} {name : String} :
    name ∈ (f ++ g).names ↔ name ∈ f.names ∨ name ∈ g.names := by
  simp [mem_names, or_and_right, exists_or]

def text (f : Cnf) : String := Conjunction.text id f.conjunction

end Cnf

end AllSat
