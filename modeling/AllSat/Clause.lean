import AllSat.Disjunction
import AllSat.Distinct
import AllSat.Error

namespace AllSat

structure Clause where
  literals : Disjunction String
  nonempty : literals ≠ []
  distinct : literals.Nodup
deriving DecidableEq

namespace Clause

theorem ext {c d : Clause} (h : c.literals = d.literals) : c = d := by
  cases c
  cases d
  cases h
  rfl

def unit (l : Literal String) : Clause := ⟨[l], by simp, by simp⟩

def ofLiterals? (ls : List (Literal String)) : Option Clause :=
  if h : ls = [] then none
  else some ⟨ls.eraseDups, mt Distinct.eraseDups_eq_nil_iff.1 h, Distinct.nodup_eraseDups ls⟩

theorem ofLiterals?_eq_none_iff {ls : List (Literal String)} : ofLiterals? ls = none ↔ ls = [] := by
  by_cases h : ls = [] <;> simp [ofLiterals?, h]

theorem literals_of_ofLiterals? {ls : List (Literal String)} {c : Clause}
    (h : ofLiterals? ls = some c) : c.literals = ls.eraseDups := by
  by_cases hls : ls = []
  · simp [ofLiterals?, hls] at h
  · simp only [ofLiterals?, hls, dite_false, Option.some.injEq] at h
    rw [← h]

def ofLiterals (ls : List (Literal String)) : Except Error Clause :=
  match ofLiterals? ls with
  | none => .error .emptyClause
  | some c => .ok c

def or (c : Clause) (l : Literal String) : Clause :=
  if h : l ∈ c.literals then c
  else
    { literals := c.literals ++ [l]
      nonempty := by simp
      distinct := Distinct.nodup_concat c.distinct h }

theorem mem_literals_or {c : Clause} {l m : Literal String} :
    m ∈ (c.or l).literals ↔ m ∈ c.literals ∨ m = l := by
  by_cases h : l ∈ c.literals
  · simp only [or, h, dite_true]
    exact (or_iff_left_of_imp fun he => he ▸ h).symm
  · simp [or, h]

def contains (c : Clause) (l : Literal String) : Bool := decide (l ∈ c.literals)

theorem contains_iff {c : Clause} {l : Literal String} : c.contains l = true ↔ l ∈ c.literals := by
  simp [contains]

def Holds (τ : String → Bool) (c : Clause) : Prop := Disjunction.Holds τ c.literals

instance (τ : String → Bool) (c : Clause) : Decidable (c.Holds τ) :=
  inferInstanceAs (Decidable (Disjunction.Holds τ c.literals))

theorem holds_unit {τ : String → Bool} {l : Literal String} : (unit l).Holds τ ↔ l.Holds τ := by
  simp [Holds, unit, Disjunction.Holds]

theorem holds_or {τ : String → Bool} {c : Clause} {l : Literal String} :
    (c.or l).Holds τ ↔ c.Holds τ ∨ l.Holds τ := by
  simp [Holds, Disjunction.Holds, mem_literals_or, or_and_right, exists_or]

theorem holds_of_ofLiterals? {τ : String → Bool} {ls : List (Literal String)} {c : Clause}
    (h : ofLiterals? ls = some c) : c.Holds τ ↔ Disjunction.Holds τ ls := by
  simp [Holds, Disjunction.Holds, literals_of_ofLiterals? h]

def text (c : Clause) : String := Disjunction.text id c.literals

end Clause

end AllSat
