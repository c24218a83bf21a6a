import AllSat.Constraint.ExactlyOne

namespace AllSat

structure Grid (S V : Type) where
  subjects : List S
  values : List V
  name : S → V → String

namespace Grid

variable {S V : Type}

def literal (g : Grid S V) (s : S) (v : V) : Literal String := .pos (g.name s v)

def row (g : Grid S V) (s : S) : List (Literal String) := g.values.map (g.literal s)

def column (g : Grid S V) (v : V) : List (Literal String) := g.subjects.map (g.literal · v)

def groups (g : Grid S V) : List (List (Literal String)) :=
  g.subjects.map g.row ++ g.values.map g.column

def Holds (τ : String → Bool) (g : Grid S V) : Prop :=
  ∀ group ∈ g.groups, ExactlyOne.Holds τ group

instance (τ : String → Bool) (g : Grid S V) : Decidable (g.Holds τ) :=
  inferInstanceAs (Decidable (∀ group ∈ g.groups, ExactlyOne.Holds τ group))

def encode (g : Grid S V) : Except Error Cnf :=
  (g.groups.mapM ExactlyOne.encode).map fun parts => parts.foldr (· ++ ·) Cnf.empty

end Grid

end AllSat
