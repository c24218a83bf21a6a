import AllSat.Distinct
import AllSat.Error

namespace AllSat

structure NameTable where
  names : List String
  distinct : names.Nodup

namespace NameTable

def empty : NameTable := ⟨[], .nil⟩

def size (t : NameTable) : Nat := t.names.length

theorem ext {t u : NameTable} (h : t.names = u.names) : t = u := by
  cases t
  cases u
  cases h
  rfl

def insert (t : NameTable) (name : String) : NameTable :=
  if h : name ∈ t.names then t
  else ⟨t.names ++ [name], Distinct.nodup_concat t.distinct h⟩

theorem insert_of_mem {t : NameTable} {name : String} (h : name ∈ t.names) : t.insert name = t := by
  simp [insert, h]

theorem names_insert_of_not_mem {t : NameTable} {name : String} (h : name ∉ t.names) :
    (t.insert name).names = t.names ++ [name] := by
  simp [insert, h]

theorem mem_names_insert {t : NameTable} {name other : String} :
    other ∈ (t.insert name).names ↔ other ∈ t.names ∨ other = name := by
  by_cases h : name ∈ t.names
  · rw [insert_of_mem h]
    exact (or_iff_left_of_imp fun he => he ▸ h).symm
  · simp [names_insert_of_not_mem h]

theorem prefix_insert (t : NameTable) (name : String) : t.names <+: (t.insert name).names := by
  by_cases h : name ∈ t.names
  · exact (insert_of_mem h).symm ▸ List.prefix_rfl
  · rw [names_insert_of_not_mem h]
    exact List.prefix_append ..

def insertAll (t : NameTable) (names : List String) : NameTable := names.foldl insert t

theorem mem_names_insertAll {t : NameTable} {names : List String} {name : String} :
    name ∈ (t.insertAll names).names ↔ name ∈ t.names ∨ name ∈ names := by
  induction names generalizing t with
  | nil => simp [insertAll]
  | cons other names ih =>
      have hstep := @ih (t.insert other)
      simp only [insertAll, List.foldl_cons] at hstep ⊢
      rw [hstep, mem_names_insert, List.mem_cons, or_assoc]

theorem prefix_insertAll (t : NameTable) (names : List String) :
    t.names <+: (t.insertAll names).names := by
  induction names generalizing t with
  | nil => exact List.prefix_rfl
  | cons name names ih => exact (prefix_insert t name).trans (ih (t.insert name))

def number (t : NameTable) (name : String) : Nat := t.names.idxOf name + 1

def intern (t : NameTable) (name : String) : Nat × NameTable :=
  ((t.insert name).number name, t.insert name)

def id? (t : NameTable) (name : String) : Option Nat :=
  if name ∈ t.names then some (t.number name) else none

def resolve (t : NameTable) : Nat → Except Error String
  | 0 => .error (.unknownVariable 0)
  | i + 1 =>
    match t.names[i]? with
    | none => .error (.unknownVariable (i + 1))
    | some name => .ok name

theorem resolve_number {t : NameTable} {name : String} (h : name ∈ t.names) :
    t.resolve (t.number name) = .ok name := by
  have hlt := List.idxOf_lt_length_iff.2 h
  simp [number, resolve, List.getElem?_eq_getElem hlt]

theorem resolve_of_prefix {t u : NameTable} (h : t.names <+: u.names) {id : Nat} {name : String}
    (hid : t.resolve id = .ok name) : u.resolve id = .ok name := by
  obtain ⟨more, hmore⟩ := h
  cases id with
  | zero => simp [resolve] at hid
  | succ i =>
      cases hi : t.names[i]? with
      | none => simp [resolve, hi] at hid
      | some other =>
          have hlt : i < t.names.length := (List.getElem?_eq_some_iff.1 hi).1
          have hu : u.names[i]? = some other := by
            rw [← hmore, List.getElem?_append_left hlt, hi]
          simpa [resolve, hi, hu] using hid

end NameTable

end AllSat
