import AllSat.Constraint.Basic
import AllSat.Proofs.Checked
import AllSat.Proofs.FirstOccurrences
import Mathlib.Data.List.Nodup
import Mathlib.Logic.Embedding.Basic

namespace AllSat

section Lists

variable {α β : Type} [DecidableEq α] [DecidableEq β] {k : α → β}

theorem Distinct.firstRepeatAfter_map (hk : Function.Injective k) (seen xs : List α) :
    firstRepeatAfter (seen.map k) (xs.map k) = (firstRepeatAfter seen xs).map k := by
  induction xs generalizing seen with
  | nil => rfl
  | cons x xs ih =>
      have hseen : k x ∈ seen.map k ↔ x ∈ seen := List.mem_map_of_injective hk
      rw [List.map_cons, firstRepeatAfter, firstRepeatAfter]
      by_cases hx : x ∈ seen
      · rw [if_pos (hseen.2 hx), if_pos hx, Option.map_some]
      · rw [if_neg (mt hseen.1 hx), if_neg hx, ← ih, List.map_cons]

theorem Distinct.firstRepeat_map (hk : Function.Injective k) (xs : List α) :
    firstRepeat (xs.map k) = (firstRepeat xs).map k :=
  firstRepeatAfter_map hk [] xs

end Lists

theorem Literal.map_injective {α β : Type} {k : α → β} (hk : Function.Injective k) :
    Function.Injective (Literal.map k) := by
  rintro ⟨a, p⟩ ⟨b, q⟩ h
  obtain ⟨hatom, hpositive⟩ := Literal.mk.inj h
  exact congr (congrArg Literal.mk (hk hatom)) hpositive

variable (r : String ↪ String)

def Error.rename : Error → Error
  | .duplicateLiteral name => .duplicateLiteral (r name)
  | cause => cause

def renameResult {α β : Type} (k : α → β) : Except Error α → Except Error β
  | .error cause => .error (cause.rename r)
  | .ok a => .ok (k a)

theorem mapM_map_of_renameResult {α α' β β' : Type} {k : α → Except Error β}
    {k' : α' → Except Error β'} {h : α → α'} {m : β → β'}
    (hk : ∀ x, k' (h x) = renameResult r m (k x)) (xs : List α) :
    (xs.map h).mapM k' = renameResult r (List.map m) (xs.mapM k) := by
  induction xs with
  | nil => rfl
  | cons x xs ih =>
      have hx := hk x
      cases hkx : k x with
      | error cause =>
          rw [hkx] at hx
          rw [List.map_cons, mapM_cons_of_error hx, mapM_cons_of_error hkx]
          rfl
      | ok y =>
          rw [hkx] at hx
          rw [List.map_cons, mapM_cons_of_ok hx, mapM_cons_of_ok hkx, ih]
          cases xs.mapM k <;> rfl

namespace Clause

def rename (c : Clause) : Clause where
  literals := c.literals.map (Literal.map r)
  nonempty := mt List.map_eq_nil_iff.1 c.nonempty
  distinct := c.distinct.map (Literal.map_injective r.injective)

theorem ofLiterals?_rename (ls : List (Literal String)) :
    ofLiterals? (ls.map (Literal.map r)) = (ofLiterals? ls).map (rename r) := by
  by_cases hls : ls = []
  · subst hls
    rfl
  · have hmap : ls.map (Literal.map r) ≠ [] := mt List.map_eq_nil_iff.1 hls
    simp only [ofLiterals?, hls, hmap, dite_false, Option.map_some, Option.some.injEq]
    exact Clause.ext (eraseDups_map (Literal.map_injective r.injective) ls)

theorem ofLiterals_rename (ls : List (Literal String)) :
    ofLiterals (ls.map (Literal.map r)) = renameResult r (rename r) (ofLiterals ls) := by
  rw [ofLiterals, ofLiterals, ofLiterals?_rename]
  cases ofLiterals? ls <;> rfl

theorem unit_rename (l : Literal String) : unit (l.map r) = (unit l).rename r := rfl

theorem or_rename (c : Clause) (l : Literal String) :
    (c.rename r).or (l.map r) = (c.or l).rename r := by
  have hmem : l.map r ∈ (c.rename r).literals ↔ l ∈ c.literals :=
    List.mem_map_of_injective (Literal.map_injective r.injective)
  by_cases hl : l ∈ c.literals
  · simp only [or, hl, hmem.2 hl, dite_true]
  · have hl' : l.map r ∉ (c.rename r).literals := mt hmem.1 hl
    apply Clause.ext
    simp only [or, hl, hl', dite_false]
    simp [rename]

theorem implies_rename (a b : Literal String) :
    implies (a.map r) (b.map r) = (implies a b).rename r := by
  rw [implies, implies, ← or_rename, ← unit_rename, Literal.map_negate]

theorem excludes_rename (a b : Literal String) :
    excludes (a.map r) (b.map r) = (excludes a b).rename r := by
  rw [excludes, excludes, ← implies_rename, Literal.map_negate]

end Clause

namespace Cnf

def rename (f : Cnf) : Cnf := ⟨f.clauses.map (Clause.rename r)⟩

theorem rename_append (f g : Cnf) : (f ++ g).rename r = f.rename r ++ g.rename r :=
  congrArg Cnf.mk List.map_append

theorem rename_foldr (parts : List Cnf) :
    (parts.map (rename r)).foldr (· ++ ·) empty = (parts.foldr (· ++ ·) empty).rename r := by
  induction parts with
  | nil => rfl
  | cons f parts ih => rw [List.map_cons, List.foldr_cons, List.foldr_cons, ih, rename_append]

theorem ofLists_rename (lists : List (List (Literal String))) :
    ofLists (lists.map (List.map (Literal.map r))) = renameResult r (rename r) (ofLists lists) := by
  rw [ofLists, ofLists, mapM_map_of_renameResult r (Clause.ofLiterals_rename r)]
  cases lists.mapM Clause.ofLiterals <;> rfl

end Cnf

theorem ExactlyOne.pairs_map {α β : Type} (k : α → β) (xs : List α) :
    pairs (xs.map k) = (pairs xs).map (Prod.map k k) := by
  induction xs with
  | nil => rfl
  | cons x xs ih => simp [pairs, ih, Function.comp_def]

theorem ExactlyOne.encode_rename (group : List (Literal String)) :
    encode (group.map (Literal.map r)) = renameResult r (Cnf.rename r) (encode group) := by
  have hatoms : (group.map (Literal.map r)).map Literal.atom = (group.map Literal.atom).map r := by
    simp [Function.comp_def]
  have hpairs : ((pairs (group.map (Literal.map r))).map fun p => Clause.excludes p.1 p.2) =
      ((pairs group).map fun p => Clause.excludes p.1 p.2).map (Clause.rename r) := by
    rw [pairs_map, List.map_map, List.map_map]
    exact List.map_congr_left fun p _ => Clause.excludes_rename r p.1 p.2
  rw [encode, encode, hatoms, Distinct.firstRepeat_map r.injective, Clause.ofLiterals?_rename,
    hpairs]
  cases Clause.ofLiterals? group with
  | none => rfl
  | some c => cases Distinct.firstRepeat (group.map Literal.atom) <;> rfl

namespace Dnf

theorem choices_map {α β : Type} (k : α → β) (lists : List (List α)) :
    choices (lists.map (List.map k)) = (choices lists).map (List.map k) := by
  induction lists with
  | nil => rfl
  | cons xs rest ih =>
      simp [choices, ih, List.flatMap_map, List.map_flatMap, Function.comp_def]

theorem choiceCount_map {α β : Type} (k : α → β) (lists : List (List α)) :
    choiceCount (lists.map (List.map k)) = choiceCount lists := by
  rw [← length_choices, choices_map, List.length_map, length_choices]

theorem encode_rename (terms : List (List (Literal String))) :
    encode (terms.map (List.map (Literal.map r))) =
      renameResult r (Cnf.rename r) (encode terms) := by
  have hnil : [] ∈ terms.map (List.map (Literal.map r)) ↔ [] ∈ terms := by simp
  have hclauses : ((choices terms).map (List.map (Literal.map r))).filterMap Clause.ofLiterals? =
      ((choices terms).filterMap Clause.ofLiterals?).map (Clause.rename r) := by
    rw [List.filterMap_map, List.map_filterMap]
    exact List.filterMap_congr fun choice _ => Clause.ofLiterals?_rename r choice
  simp only [encode, List.map_eq_nil_iff, hnil, choiceCount_map, choices_map, hclauses]
  split
  · rfl
  · split
    · rfl
    · split <;> rfl

end Dnf

namespace Grid

variable {S V : Type}

def rename (g : Grid S V) : Grid S V := ⟨g.subjects, g.values, fun s v => r (g.name s v)⟩

theorem groups_rename (g : Grid S V) :
    (g.rename r).groups = g.groups.map (List.map (Literal.map r)) := by
  simp only [groups, List.map_append, List.map_map, Function.comp_def, row, column]
  rfl

theorem encode_rename (g : Grid S V) :
    (g.rename r).encode = renameResult r (Cnf.rename r) g.encode := by
  rw [encode, encode, groups_rename, mapM_map_of_renameResult r (ExactlyOne.encode_rename r)]
  cases g.groups.mapM ExactlyOne.encode with
  | error cause => rfl
  | ok parts => exact congrArg Except.ok (Cnf.rename_foldr r parts)

end Grid

namespace Constraint

def rename : Constraint → Constraint
  | clauses lists => clauses (lists.map (List.map (Literal.map r)))
  | unit l => unit (l.map r)
  | implies a b => implies (a.map r) (b.map r)
  | oneOf group => oneOf (group.map (Literal.map r))
  | dnf terms => dnf (terms.map (List.map (Literal.map r)))
  | grid g => grid (g.rename r)

theorem encode_rename (c : Constraint) :
    (c.rename r).encode = renameResult r (Cnf.rename r) c.encode := by
  cases c with
  | clauses lists => exact Cnf.ofLists_rename r lists
  | unit l => rfl
  | implies a b =>
      rw [rename, encode, Clause.implies_rename]
      rfl
  | oneOf group => exact ExactlyOne.encode_rename r group
  | dnf terms => exact Dnf.encode_rename r terms
  | grid g => exact Grid.encode_rename r g

end Constraint

namespace Cnf

theorem add_rename (f : Cnf) (c : Constraint) :
    (f.rename r).add (c.rename r) = ((f.add c).1.map (Error.rename r), (f.add c).2.rename r) := by
  have hencode := Constraint.encode_rename r c
  cases hc : c.encode with
  | error cause =>
      rw [hc] at hencode
      rw [add_of_error hencode, add_of_error hc, Option.map_some]
  | ok g =>
      rw [hc] at hencode
      rw [add_of_ok hencode, add_of_ok hc, Option.map_none, rename_append]

theorem addAll_rename (f : Cnf) (cs : List Constraint) :
    (f.rename r).addAll (cs.map (Constraint.rename r)) = (f.addAll cs).rename r := by
  induction cs generalizing f with
  | nil => rfl
  | cons c cs ih =>
      have hstep := ih (f.add c).2
      simp only [addAll, List.map_cons, List.foldl_cons] at hstep ⊢
      rw [add_rename, hstep]

end Cnf

end AllSat
