namespace AllSat

structure Literal (α : Type) where
  atom : α
  positive : Bool
deriving DecidableEq

namespace Literal

variable {α β : Type}

def pos (a : α) : Literal α := ⟨a, true⟩

def neg (a : α) : Literal α := ⟨a, false⟩

def negate (l : Literal α) : Literal α := ⟨l.atom, !l.positive⟩

@[simp] theorem atom_negate (l : Literal α) : l.negate.atom = l.atom := rfl

@[simp] theorem positive_negate (l : Literal α) : l.negate.positive = !l.positive := rfl

theorem negate_ne (l : Literal α) : l.negate ≠ l := by
  intro h
  have := congrArg positive h
  cases hp : l.positive <;> simp [hp] at this

def map (f : α → β) (l : Literal α) : Literal β := ⟨f l.atom, l.positive⟩

@[simp] theorem atom_map (f : α → β) (l : Literal α) : (l.map f).atom = f l.atom := rfl

@[simp] theorem positive_map (f : α → β) (l : Literal α) : (l.map f).positive = l.positive := rfl

@[simp] theorem map_negate (f : α → β) (l : Literal α) : l.negate.map f = (l.map f).negate := rfl

def Holds (τ : α → Bool) (l : Literal α) : Prop := τ l.atom = l.positive

instance (τ : α → Bool) (l : Literal α) : Decidable (l.Holds τ) :=
  inferInstanceAs (Decidable (_ = _))

theorem holds_pos {τ : α → Bool} {a : α} : (pos a).Holds τ ↔ τ a = true := Iff.rfl

theorem holds_neg {τ : α → Bool} {a : α} : (neg a).Holds τ ↔ τ a = false := Iff.rfl

theorem holds_negate {τ : α → Bool} {l : Literal α} : l.negate.Holds τ ↔ ¬ l.Holds τ := by
  simp only [Holds, atom_negate, positive_negate]
  cases τ l.atom <;> cases l.positive <;> simp

theorem holds_map {f : α → β} {τ : β → Bool} {l : Literal α} :
    (l.map f).Holds τ ↔ l.Holds (τ ∘ f) := Iff.rfl

def text (name : α → String) (l : Literal α) : String :=
  if l.positive then name l.atom else "!" ++ name l.atom

def before (l m : Literal String) : Bool :=
  decide (l.atom < m.atom) || (decide (l.atom = m.atom) && (!l.positive || m.positive))

end Literal

end AllSat
