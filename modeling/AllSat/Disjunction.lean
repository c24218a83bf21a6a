import AllSat.Literal

namespace AllSat

abbrev Disjunction (α : Type) := List (Literal α)

abbrev Conjunction (α : Type) := List (Disjunction α)

namespace Disjunction

variable {α β : Type}

def Holds (τ : α → Bool) (c : Disjunction α) : Prop := ∃ l ∈ c, l.Holds τ

instance (τ : α → Bool) (c : Disjunction α) : Decidable (Holds τ c) :=
  inferInstanceAs (Decidable (∃ l ∈ c, l.Holds τ))

theorem not_holds_nil (τ : α → Bool) : ¬ Holds τ [] := by
  simp [Holds]

theorem holds_cons {τ : α → Bool} {l : Literal α} {c : Disjunction α} :
    Holds τ (l :: c) ↔ l.Holds τ ∨ Holds τ c := by
  simp [Holds]

theorem holds_map {f : α → β} {τ : β → Bool} {c : Disjunction α} :
    Holds τ (c.map (Literal.map f)) ↔ Holds (τ ∘ f) c := by
  induction c with
  | nil => simp [Holds]
  | cons l c ih => simp only [List.map_cons, holds_cons, ih, Literal.holds_map]

def blocking (answer : List (Literal α)) : Disjunction α := answer.map Literal.negate

theorem holds_blocking {τ : α → Bool} {answer : List (Literal α)} :
    Holds τ (blocking answer) ↔ ¬ ∀ l ∈ answer, l.Holds τ := by
  induction answer with
  | nil => simp [Holds, blocking]
  | cons l answer ih =>
      simp only [blocking, List.map_cons, holds_cons, Literal.holds_negate, List.forall_mem_cons,
        Classical.not_and_iff_not_or_not] at ih ⊢
      rw [ih]

def text (name : α → String) (c : Disjunction α) : String :=
  " | ".intercalate (c.map (Literal.text name))

def grouped (name : α → String) (c : Disjunction α) : String :=
  if 1 < c.length then "(" ++ text name c ++ ")" else text name c

end Disjunction

namespace Conjunction

variable {α β : Type}

def Holds (τ : α → Bool) (cs : Conjunction α) : Prop := ∀ c ∈ cs, Disjunction.Holds τ c

instance (τ : α → Bool) (cs : Conjunction α) : Decidable (Holds τ cs) :=
  inferInstanceAs (Decidable (∀ c ∈ cs, Disjunction.Holds τ c))

theorem holds_nil (τ : α → Bool) : Holds τ [] := by
  simp [Holds]

theorem holds_cons {τ : α → Bool} {c : Disjunction α} {cs : Conjunction α} :
    Holds τ (c :: cs) ↔ Disjunction.Holds τ c ∧ Holds τ cs := by
  simp [Holds]

theorem holds_append {τ : α → Bool} {cs ds : Conjunction α} :
    Holds τ (cs ++ ds) ↔ Holds τ cs ∧ Holds τ ds := by
  simp [Holds, or_imp, forall_and]

theorem holds_map {f : α → β} {τ : β → Bool} {cs : Conjunction α} :
    Holds τ (cs.map (List.map (Literal.map f))) ↔ Holds (τ ∘ f) cs := by
  simp [Holds, Disjunction.holds_map]

def atoms (cs : Conjunction α) : List α := cs.flatMap (List.map Literal.atom)

theorem mem_atoms {a : α} {cs : Conjunction α} :
    a ∈ atoms cs ↔ ∃ c ∈ cs, ∃ l ∈ c, l.atom = a := by
  simp [atoms]

theorem atoms_map (f : α → β) (cs : Conjunction α) :
    atoms (cs.map (List.map (Literal.map f))) = (atoms cs).map f := by
  simp [atoms, List.flatMap_map, List.map_flatMap, Function.comp_def]

theorem holds_congr {τ σ : α → Bool} {cs : Conjunction α}
    (h : ∀ a ∈ atoms cs, τ a = σ a) : Holds τ cs ↔ Holds σ cs := by
  have hclause : ∀ c ∈ cs, (Disjunction.Holds τ c ↔ Disjunction.Holds σ c) := by
    intro c hc
    refine exists_congr fun l => and_congr_right fun hl => ?_
    simp [Literal.Holds, h l.atom (mem_atoms.2 ⟨c, hc, l, hl, rfl⟩)]
  exact forall_congr' fun c => forall_congr' fun hc => hclause c hc

def text (name : α → String) (cs : Conjunction α) : String :=
  " & ".intercalate (cs.map (Disjunction.grouped name))

end Conjunction

end AllSat
