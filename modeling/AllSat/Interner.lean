import AllSat.Numbering

namespace AllSat

/-- Ids by name, the latest entry first, and names by their ids, of which the first is one. -/
structure Interner where
  ids : List (String × Nat)
  names : Array String

namespace Interner

def empty : Interner := ⟨[], #[]⟩

def size (i : Interner) : Nat := i.names.size

def get? (i : Interner) (name : String) : Option Nat := i.ids.lookup name

theorem get?_cons (ids : List (String × Nat)) (names : Array String) (name other : String)
    (id : Nat) :
    get? ⟨(name, id) :: ids, names⟩ other = if other = name then some id else ids.lookup other := by
  by_cases h : other = name
  · simp [get?, h]
  · have hne : (other == name) = false := by simpa using h
    simp [get?, List.lookup_cons, h, hne]

def intern (i : Interner) (name : String) : Nat × Interner :=
  match i.get? name with
  | some id => (id, i)
  | none =>
    let names := i.names.push name
    (names.size, ⟨(name, names.size) :: i.ids, names⟩)

theorem intern_of_some {i : Interner} {name : String} {id : Nat} (h : i.get? name = some id) :
    i.intern name = (id, i) := by
  simp [intern, h]

theorem intern_of_none {i : Interner} {name : String} (h : i.get? name = none) :
    i.intern name = (i.size + 1, ⟨(name, i.size + 1) :: i.ids, i.names.push name⟩) := by
  simp [intern, h, size]

def resolve (i : Interner) : Nat → Except Error String
  | 0 => .error (.unknownVariable 0)
  | k + 1 =>
    match i.names[k]? with
    | none => .error (.unknownVariable (k + 1))
    | some name => .ok name

def encodeClause (i : Interner) : Disjunction String → Disjunction Nat × Interner
  | [] => ([], i)
  | l :: c =>
    let first := i.intern l.atom
    let later := encodeClause first.2 c
    (⟨first.1, l.positive⟩ :: later.1, later.2)

def encodeClauses (i : Interner) : Conjunction String → Conjunction Nat × Interner
  | [] => ([], i)
  | c :: cs =>
    let first := i.encodeClause c
    let later := encodeClauses first.2 cs
    (first.1 :: later.1, later.2)

def encode (i : Interner) (f : Cnf) : Formula × Interner :=
  let encoded := i.encodeClauses f.conjunction
  (⟨encoded.1⟩, encoded.2)

def resolveLiteral (i : Interner) (l : Literal Nat) : Except Error (Literal String) :=
  (i.resolve l.atom).map fun name => ⟨name, l.positive⟩

def decode (i : Interner) (answer : List (Literal Nat)) : Except Error Model :=
  (answer.mapM i.resolveLiteral).map fun ls =>
    .ofNames ((ls.filter Literal.positive).map Literal.atom)

end Interner

end AllSat
