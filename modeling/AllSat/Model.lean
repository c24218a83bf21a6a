import AllSat.Ascending

namespace AllSat

theorem string_lt_of_not_lt {a b : String} (h : ¬ a < b) (hne : a ≠ b) : b < a := by
  by_cases hlt : b < a
  · exact hlt
  · exact absurd (String.le_antisymm hlt h) hne

structure Model where
  names : List String
  ascending : names.Pairwise (· < ·)
deriving DecidableEq

namespace Model

def empty : Model := ⟨[], .nil⟩

def ofNames (names : List String) : Model :=
  ⟨Ascending.ofList names, Ascending.pairwise_ofList String.lt_trans string_lt_of_not_lt names⟩

def size (m : Model) : Nat := m.names.length

def contains (m : Model) (name : String) : Bool := decide (name ∈ m.names)

theorem contains_ofNames {names : List String} {name : String} :
    (ofNames names).contains name = true ↔ name ∈ names := by
  simp [contains, ofNames, Ascending.mem_ofList]

theorem contains_iff {m : Model} {name : String} : m.contains name = true ↔ name ∈ m.names := by
  simp [contains]

theorem ext {m n : Model} (h : ∀ name, m.contains name = n.contains name) : m = n := by
  cases m with
  | mk xs hx =>
    cases n with
    | mk ys hy =>
      have hxy : xs = ys := Ascending.eq_of_mem_iff String.lt_irrefl String.lt_trans hx hy
        fun z => by simpa [contains] using h z
      subst hxy
      rfl

def text (m : Model) : String := "\n".intercalate m.names

end Model

end AllSat
