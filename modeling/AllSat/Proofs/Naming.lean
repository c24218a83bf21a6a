import AllSat.Numbering
import AllSat.Proofs.FirstOccurrences
import Mathlib.Data.List.Nodup

namespace AllSat

namespace NameTable

def name (t : NameTable) (id : Nat) : String := t.names.getD (id - 1) ""

def Known (t : NameTable) (id : Nat) : Prop := 1 ≤ id ∧ id ≤ t.size

theorem known_number {t : NameTable} {name : String} (h : name ∈ t.names) :
    t.Known (t.number name) := by
  have hlt := List.idxOf_lt_length_iff.2 h
  simp only [Known, number, size]
  omega

theorem name_number {t : NameTable} {name : String} (h : name ∈ t.names) :
    t.name (t.number name) = name := by
  have hlt := List.idxOf_lt_length_iff.2 h
  simp [NameTable.name, number, List.getD_eq_getElem?_getD, List.getElem?_eq_getElem hlt]

theorem name_mem {t : NameTable} {id : Nat} (h : t.Known id) : t.name id ∈ t.names := by
  obtain ⟨hpos, hle⟩ := h
  have hlt : id - 1 < t.names.length := by
    simp only [size] at hle
    omega
  simp only [name, List.getD_eq_getElem?_getD, List.getElem?_eq_getElem hlt, Option.getD_some]
  exact List.getElem_mem hlt

theorem number_name {t : NameTable} {id : Nat} (h : t.Known id) : t.number (t.name id) = id := by
  obtain ⟨hpos, hle⟩ := h
  have hlt : id - 1 < t.names.length := by
    simp only [size] at hle
    omega
  simp only [name, number, List.getD_eq_getElem?_getD, List.getElem?_eq_getElem hlt,
    Option.getD_some]
  rw [t.distinct.idxOf_getElem (id - 1) hlt]
  omega

theorem resolve_of_known {t : NameTable} {id : Nat} (h : t.Known id) :
    t.resolve id = .ok (t.name id) := by
  have hresolve := resolve_number (name_mem h)
  rwa [number_name h] at hresolve

theorem resolve_of_not_known {t : NameTable} {id : Nat} (h : ¬ t.Known id) :
    t.resolve id = .error (.unknownVariable id) := by
  cases id with
  | zero => rfl
  | succ i =>
      have hle : t.names.length ≤ i := by
        simp only [Known, size] at h
        omega
      simp [resolve, List.getElem?_eq_none hle]

theorem resolveLiteral_of_known {t : NameTable} {l : Literal Nat} (h : t.Known l.atom) :
    t.resolveLiteral l = .ok (l.map t.name) := by
  simp [resolveLiteral, resolve_of_known h, Except.map, Literal.map]

theorem mapM_resolveLiteral_of_known {t : NameTable} {answer : List (Literal Nat)}
    (h : ∀ l ∈ answer, t.Known l.atom) :
    answer.mapM t.resolveLiteral = .ok (answer.map (Literal.map t.name)) := by
  induction answer with
  | nil => rfl
  | cons l answer ih =>
      have hl := resolveLiteral_of_known (h l (by simp))
      have hrest := ih fun m hm => h m (by simp [hm])
      rw [List.mapM_cons, hl, hrest]
      rfl

def reading (t : NameTable) (answer : List (Literal Nat)) : Model :=
  .ofNames ((answer.filter Literal.positive).map fun l => t.name l.atom)

theorem model_of_known {t : NameTable} {answer : List (Literal Nat)}
    (h : ∀ l ∈ answer, t.Known l.atom) : t.model answer = .ok (t.reading answer) := by
  rw [model, mapM_resolveLiteral_of_known h]
  simp [Except.map, reading, List.filter_map, Function.comp_def]

theorem contains_reading {t : NameTable} {answer : List (Literal Nat)} {name : String}
    (h : ∀ l ∈ answer, t.Known l.atom) :
    (t.reading answer).contains name = true ↔
      name ∈ t.names ∧ .pos (t.number name) ∈ answer := by
  simp only [reading, Model.contains_ofNames, List.mem_map, List.mem_filter]
  constructor
  · rintro ⟨l, ⟨hl, hpos⟩, rfl⟩
    have hnumber : Literal.pos (t.number (t.name l.atom)) = l := by
      rw [number_name (h l hl)]
      cases l with
      | mk id p =>
          cases hpos
          rfl
    exact ⟨name_mem (h l hl), hnumber.symm ▸ hl⟩
  · rintro ⟨hname, hmem⟩
    exact ⟨_, ⟨hmem, rfl⟩, name_number hname⟩

theorem model_of_not_known {t : NameTable} {before after : List (Literal Nat)} {l : Literal Nat}
    (hbefore : ∀ m ∈ before, t.Known m.atom) (hl : ¬ t.Known l.atom) :
    t.model (before ++ l :: after) = .error (.unknownVariable l.atom) := by
  have hfail : t.resolveLiteral l = .error (.unknownVariable l.atom) := by
    simp [resolveLiteral, resolve_of_not_known hl, Except.map]
  rw [model, List.mapM_append, mapM_resolveLiteral_of_known hbefore, List.mapM_cons, hfail]
  rfl

theorem names_insert (t : NameTable) (name : String) :
    (t.insert name).names = Distinct.keep t.names name := by
  by_cases h : name ∈ t.names
  · rw [insert_of_mem h, Distinct.keep, if_pos h]
  · rw [names_insert_of_not_mem h, Distinct.keep, if_neg h]

theorem names_insertAll (t : NameTable) (names : List String) :
    (t.insertAll names).names = (t.names ++ names).eraseDups := by
  rw [← Distinct.foldl_keep t.distinct]
  exact (List.foldl_hom NameTable.names fun t name => (names_insert t name).symm).symm

end NameTable

namespace Cnf

@[simp] theorem names_numbered (f : Cnf) : (f.numbered .empty).2.names = f.names := by
  simp [numbered, NameTable.names_insertAll, NameTable.empty, names]

theorem size_numbered (f : Cnf) : (f.numbered .empty).2.size = f.names.length := by
  rw [NameTable.size, names_numbered]

theorem mem_vars_numbered {f : Cnf} {v : Nat} :
    v ∈ (f.numbered .empty).1.vars ↔ (f.numbered .empty).2.Known v := by
  constructor
  · intro h
    obtain ⟨_, hnumbered, l, hl, rfl⟩ := Formula.mem_vars.1 h
    obtain ⟨c, hc, rfl⟩ := List.mem_map.1 hnumbered
    obtain ⟨m, hm, rfl⟩ := List.mem_map.1 hl
    refine NameTable.known_number (NameTable.mem_names_insertAll.2 (.inr ?_))
    exact Conjunction.mem_atoms.2 ⟨c, hc, m, hm, rfl⟩
  · intro h
    have hname := NameTable.name_mem h
    rw [names_numbered, names, List.mem_eraseDups, Conjunction.mem_atoms] at hname
    obtain ⟨c, hc, l, hl, hatom⟩ := hname
    refine Formula.mem_vars.2 ⟨_, List.mem_map_of_mem hc, _, List.mem_map_of_mem hl, ?_⟩
    exact (congrArg (f.numbered .empty).2.number hatom).trans (NameTable.number_name h)

theorem holds_numbered {f : Cnf} {τ : Nat → Bool} :
    (f.numbered .empty).1.Holds τ ↔ f.Holds (τ ∘ (f.numbered .empty).2.number) := by
  rw [holds_iff_conjunction]
  exact Conjunction.holds_map

theorem holds_congr {f : Cnf} {τ σ : String → Bool} (h : ∀ name ∈ f.names, τ name = σ name) :
    f.Holds τ ↔ f.Holds σ := by
  rw [holds_iff_conjunction, holds_iff_conjunction]
  apply Conjunction.holds_congr
  intro name hname
  apply h
  simpa [names] using hname

theorem holds_numbered_name {f : Cnf} {τ : String → Bool} :
    (f.numbered .empty).1.Holds (τ ∘ (f.numbered .empty).2.name) ↔ f.Holds τ := by
  rw [holds_numbered]
  apply holds_congr
  intro name hname
  have hmem : name ∈ (f.numbered .empty).2.names := by rwa [names_numbered]
  simp only [Function.comp_apply, NameTable.name_number hmem]

end Cnf

end AllSat
