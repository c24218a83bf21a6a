import AllSat.Constraint.Grid
import AllSat.Proofs.Checked
import AllSat.Proofs.ExactlyOneGroups
import Mathlib.Logic.Equiv.Fin.Basic

namespace AllSat

theorem existsUnique_iff_equiv {α β : Type} {R : α → β → Prop} :
    (∀ a, ∃! b, R a b) ∧ (∀ b, ∃! a, R a b) ↔ ∃ π : α ≃ β, ∀ a b, R a b ↔ π a = b := by
  constructor
  · rintro ⟨hrows, hcolumns⟩
    choose p hp hp' using hrows
    choose q hq hq' using hcolumns
    refine ⟨⟨p, q, fun a => (hq' _ a (hp a)).symm, fun b => (hp' _ b (hq b)).symm⟩, fun a b => ?_⟩
    exact ⟨fun h => (hp' a b h).symm, fun h => h ▸ hp a⟩
  · rintro ⟨π, hπ⟩
    simp only [hπ]
    exact ⟨fun a => ⟨π a, rfl, fun b h => h.symm⟩,
      fun b => ⟨π.symm b, π.apply_symm_apply b, fun a h => (π.symm_apply_eq.2 h.symm).symm⟩⟩

namespace ExactlyOne

variable {groups : List (List (Literal String))} {parts : List Cnf}

theorem holds_all_iff (h : List.Forall₂ (fun group f => encode group = .ok f) groups parts)
    {τ : String → Bool} :
    (parts.foldr (· ++ ·) Cnf.empty).Holds τ ↔ ∀ group ∈ groups, Holds τ group := by
  induction h with
  | nil => simp [Cnf.holds_empty]
  | cons hencode _ ih =>
      rw [List.foldr_cons, Cnf.holds_append, holds_of_encode hencode, ih, List.forall_mem_cons]

theorem mem_names_all_iff (h : List.Forall₂ (fun group f => encode group = .ok f) groups parts)
    {name : String} :
    name ∈ (parts.foldr (· ++ ·) Cnf.empty).names ↔
      ∃ group ∈ groups, ∃ l ∈ group, l.atom = name := by
  induction h with
  | nil => simp [Cnf.mem_names]
  | cons hencode _ ih =>
      rw [List.foldr_cons, Cnf.mem_names_append, mem_names_of_encode hencode, ih,
        List.exists_mem_cons_iff]

theorem length_clauses_all (h : List.Forall₂ (fun group f => encode group = .ok f) groups parts)
    {k : Nat} (hk : ∀ group ∈ groups, group.length = k) (rest : Cnf) :
    (parts.foldr (· ++ ·) rest).clauses.length =
      groups.length * (1 + k * (k - 1) / 2) + rest.clauses.length := by
  induction h with
  | nil => simp
  | cons hencode _ ih =>
      obtain ⟨hfirst, hlater⟩ := List.forall_mem_cons.1 hk
      rw [List.foldr_cons, Cnf.clauses_append, List.length_append,
        length_clauses_of_encode hencode, hfirst, ih hlater, List.length_cons, Nat.succ_mul]
      omega

end ExactlyOne

namespace Grid

variable {S V : Type} {g : Grid S V} {f : Cnf} {τ : String → Bool}

def cell (g : Grid S V) (i : Fin g.subjects.length) (j : Fin g.values.length) : String :=
  g.name g.subjects[i] g.values[j]

theorem holds_row_iff {i : Fin g.subjects.length} :
    ExactlyOne.Holds τ (g.row g.subjects[i]) ↔ ∃! j, τ (g.cell i j) = true :=
  ExactlyOne.holds_map_iff_existsUnique

theorem holds_column_iff {j : Fin g.values.length} :
    ExactlyOne.Holds τ (g.column g.values[j]) ↔ ∃! i, τ (g.cell i j) = true :=
  ExactlyOne.holds_map_iff_existsUnique

theorem holds_iff_equiv :
    g.Holds τ ↔
      ∃ π : Fin g.subjects.length ≃ Fin g.values.length,
        ∀ i j, τ (g.cell i j) = true ↔ π i = j := by
  rw [← existsUnique_iff_equiv, Holds, groups, List.forall_mem_append, List.forall_mem_map,
    List.forall_mem_map, List.forall_mem_iff_get, List.forall_mem_iff_get]
  exact and_congr (forall_congr' fun _ => holds_row_iff) (forall_congr' fun _ => holds_column_iff)

theorem forall₂_of_encode (h : g.encode = .ok f) :
    ∃ parts, List.Forall₂ (fun group part => ExactlyOne.encode group = .ok part) g.groups parts ∧
      parts.foldr (· ++ ·) Cnf.empty = f := by
  obtain ⟨parts, hparts, hf⟩ := exists_of_map_eq_ok h
  exact ⟨parts, mapM_eq_ok_iff.1 hparts, hf⟩

theorem holds_of_encode (h : g.encode = .ok f) : f.Holds τ ↔ g.Holds τ := by
  obtain ⟨parts, hparts, rfl⟩ := forall₂_of_encode h
  exact ExactlyOne.holds_all_iff hparts

theorem exists_cell {s : S} {v : V} (hs : s ∈ g.subjects) (hv : v ∈ g.values) :
    ∃ i j, g.cell i j = g.name s v := by
  obtain ⟨i, rfl⟩ := List.get_of_mem hs
  obtain ⟨j, rfl⟩ := List.get_of_mem hv
  exact ⟨i, j, rfl⟩

theorem mem_names_of_encode (h : g.encode = .ok f) {name : String} :
    name ∈ f.names ↔ ∃ i j, g.cell i j = name := by
  obtain ⟨parts, hparts, rfl⟩ := forall₂_of_encode h
  rw [ExactlyOne.mem_names_all_iff hparts]
  constructor
  · rintro ⟨group, hgroup, l, hl, rfl⟩
    rcases List.mem_append.1 hgroup with hrow | hcolumn
    · obtain ⟨s, hs, rfl⟩ := List.mem_map.1 hrow
      obtain ⟨v, hv, rfl⟩ := List.mem_map.1 hl
      exact exists_cell hs hv
    · obtain ⟨v, hv, rfl⟩ := List.mem_map.1 hcolumn
      obtain ⟨s, hs, rfl⟩ := List.mem_map.1 hl
      exact exists_cell hs hv
  · rintro ⟨i, j, rfl⟩
    exact ⟨_, List.mem_append_left _ (List.mem_map_of_mem (List.getElem_mem i.isLt)), _,
      List.mem_map_of_mem (List.getElem_mem j.isLt), rfl⟩

theorem sides_cases (g : Grid S V) :
    g.subjects = [] ∧ g.values = [] ∨ g.subjects ≠ [] ∧ g.values ≠ [] ∨
      ¬ (g.subjects = [] ↔ g.values = []) := by
  cases g.subjects <;> cases g.values <;> simp

theorem encode_of_nil (hsubjects : g.subjects = []) (hvalues : g.values = []) :
    g.encode = .ok .empty := by
  rw [encode, groups, hsubjects, hvalues]
  rfl

theorem encode_of_one_side (h : ¬ (g.subjects = [] ↔ g.values = [])) :
    g.encode = .error .emptyGroup := by
  obtain ⟨subjects, values, name⟩ := g
  cases subjects with
  | nil =>
      cases values with
      | nil => exact absurd (iff_of_true rfl rfl) h
      | cons v values =>
          exact congrArg (Except.map _) (mapM_cons_of_error ExactlyOne.encode_nil _)
  | cons s subjects =>
      cases values with
      | nil => exact congrArg (Except.map _) (mapM_cons_of_error ExactlyOne.encode_nil _)
      | cons v values => exact absurd (iff_of_false (by simp) (by simp)) h

def transpose (g : Grid S V) : Grid V S := ⟨g.values, g.subjects, fun v s => g.name s v⟩

def RowsDistinct (g : Grid S V) : Prop := ∀ s ∈ g.subjects, (g.values.map (g.name s)).Nodup

def RowFault (g : Grid S V) (name : String) : Prop :=
  ∃ before s after, g.subjects = before ++ s :: after ∧
    (∀ t ∈ before, (g.values.map (g.name t)).Nodup) ∧
    Distinct.FirstRepeat (g.values.map (g.name s)) name

inductive Fault (g : Grid S V) : Error → Prop
  | lopsided : ¬ (g.subjects = [] ↔ g.values = []) → Fault g .emptyGroup
  | row {name} : g.RowFault name → Fault g (.duplicateLiteral name)
  | column {name} : g.RowsDistinct → g.transpose.RowFault name → Fault g (.duplicateLiteral name)

theorem groups_eq (g : Grid S V) :
    g.groups = g.subjects.map g.row ++ g.transpose.subjects.map g.transpose.row := rfl

theorem atoms_row (g : Grid S V) (s : S) :
    (g.row s).map Literal.atom = g.values.map (g.name s) := by
  rw [row, List.map_map]
  rfl

theorem row_ne_nil (hne : g.values ≠ []) (s : S) : g.row s ≠ [] := mt List.map_eq_nil_iff.1 hne

theorem exists_encode_row_iff (hne : g.values ≠ []) {s : S} :
    (∃ part, ExactlyOne.encode (g.row s) = .ok part) ↔ (g.values.map (g.name s)).Nodup := by
  rw [ExactlyOne.exists_encode_iff, atoms_row, and_iff_right (row_ne_nil hne s)]

theorem encode_row_eq_error_iff (hne : g.values ≠ []) {s : S} {cause : Error} :
    ExactlyOne.encode (g.row s) = .error cause ↔
      ∃ name, Distinct.FirstRepeat (g.values.map (g.name s)) name ∧
        cause = .duplicateLiteral name := by
  rw [ExactlyOne.encode_eq_error_iff, atoms_row]
  exact or_iff_right fun h => row_ne_nil hne s h.1

theorem exists_encode_rows_iff (hne : g.values ≠ []) :
    (∃ parts, (g.subjects.map g.row).mapM ExactlyOne.encode = .ok parts) ↔ g.RowsDistinct := by
  have hrows : (∀ group ∈ g.subjects.map g.row, ∃ part, ExactlyOne.encode group = .ok part) ↔
      g.RowsDistinct := by
    rw [List.forall_mem_map]
    exact forall₂_congr fun s _ => exists_encode_row_iff hne
  rw [← hrows]
  exact ⟨fun ⟨_, h⟩ => exists_of_mapM_eq_ok h, exists_mapM_eq_ok⟩

theorem encode_rows_eq_error_iff (hne : g.values ≠ []) {cause : Error} :
    (g.subjects.map g.row).mapM ExactlyOne.encode = .error cause ↔
      ∃ name, g.RowFault name ∧ cause = .duplicateLiteral name := by
  rw [List.mapM_map, mapM_eq_error_iff]
  constructor
  · rintro ⟨before, s, after, hsplit, hbefore, hs⟩
    obtain ⟨name, hname, rfl⟩ := (encode_row_eq_error_iff hne).1 hs
    exact ⟨name, ⟨before, s, after, hsplit,
      fun t ht => (exists_encode_row_iff hne).1 (hbefore t ht), hname⟩, rfl⟩
  · rintro ⟨name, ⟨before, s, after, hsplit, hbefore, hname⟩, rfl⟩
    exact ⟨before, s, after, hsplit, fun t ht => (exists_encode_row_iff hne).2 (hbefore t ht),
      (encode_row_eq_error_iff hne).2 ⟨name, hname, rfl⟩⟩

theorem RowFault.values_ne_nil {name : String} (h : g.RowFault name) : g.values ≠ [] := by
  obtain ⟨-, s, -, -, -, before, after, hname, -⟩ := h
  intro hnil
  simp [hnil] at hname

theorem RowFault.subjects_ne_nil {name : String} (h : g.RowFault name) : g.subjects ≠ [] := by
  obtain ⟨before, s, after, hsplit, -⟩ := h
  simp [hsplit]

theorem encode_eq_error_iff_of_ne_nil (hsubjects : g.subjects ≠ []) (hvalues : g.values ≠ [])
    {cause : Error} :
    g.encode = .error cause ↔
      (∃ name, g.RowFault name ∧ cause = .duplicateLiteral name) ∨
        g.RowsDistinct ∧ ∃ name, g.transpose.RowFault name ∧ cause = .duplicateLiteral name := by
  have hcolumns : g.transpose.values ≠ [] := hsubjects
  rw [encode, map_eq_error_iff, groups_eq, mapM_append_eq_error_iff,
    encode_rows_eq_error_iff hvalues, exists_encode_rows_iff hvalues,
    encode_rows_eq_error_iff hcolumns]

theorem encode_eq_error_iff {cause : Error} : g.encode = .error cause ↔ g.Fault cause := by
  rcases g.sides_cases with ⟨hsubjects, hvalues⟩ | ⟨hsubjects, hvalues⟩ | hlopsided
  · rw [encode_of_nil hsubjects hvalues]
    refine iff_of_false (by simp) fun hfault => ?_
    cases hfault with
    | lopsided h => exact h (iff_of_true hsubjects hvalues)
    | row h => exact h.values_ne_nil hvalues
    | column _ h => exact h.values_ne_nil hsubjects
  · rw [encode_eq_error_iff_of_ne_nil hsubjects hvalues]
    constructor
    · rintro (⟨name, h, rfl⟩ | ⟨hrows, name, h, rfl⟩)
      · exact .row h
      · exact .column hrows h
    · intro hfault
      cases hfault with
      | lopsided h => exact absurd (iff_of_false hsubjects hvalues) h
      | row h => exact .inl ⟨_, h, rfl⟩
      | column hrows h => exact .inr ⟨hrows, _, h, rfl⟩
  · rw [encode_of_one_side hlopsided]
    constructor
    · rintro ⟨⟩
      exact .lopsided hlopsided
    · intro hfault
      cases hfault with
      | lopsided _ => rfl
      | row h => exact absurd (iff_of_false h.subjects_ne_nil h.values_ne_nil) hlopsided
      | column _ h => exact absurd (iff_of_false h.values_ne_nil h.subjects_ne_nil) hlopsided

theorem exists_encode_iff_of_ne_nil (hsubjects : g.subjects ≠ []) (hvalues : g.values ≠ []) :
    (∃ f, g.encode = .ok f) ↔ g.RowsDistinct ∧ g.transpose.RowsDistinct := by
  have hcolumns : g.transpose.values ≠ [] := hsubjects
  rw [← exists_encode_rows_iff hvalues, ← exists_encode_rows_iff hcolumns]
  constructor
  · rintro ⟨f, hf⟩
    obtain ⟨parts, hparts, -⟩ := exists_of_map_eq_ok hf
    rw [groups_eq, mapM_append_eq_ok_iff] at hparts
    obtain ⟨rows, columns, hrows, hcols, -⟩ := hparts
    exact ⟨⟨rows, hrows⟩, ⟨columns, hcols⟩⟩
  · rintro ⟨⟨rows, hrows⟩, ⟨columns, hcols⟩⟩
    have hparts : g.groups.mapM ExactlyOne.encode = .ok (rows ++ columns) :=
      mapM_append_eq_ok_iff.2 ⟨rows, columns, hrows, hcols, rfl⟩
    exact ⟨_, congrArg (Except.map _) hparts⟩

theorem exists_encode_iff :
    (∃ f, g.encode = .ok f) ↔
      g.subjects = [] ∧ g.values = [] ∨
        g.subjects ≠ [] ∧ g.values ≠ [] ∧ g.RowsDistinct ∧ g.transpose.RowsDistinct := by
  rcases g.sides_cases with ⟨hsubjects, hvalues⟩ | ⟨hsubjects, hvalues⟩ | hlopsided
  · exact iff_of_true ⟨_, encode_of_nil hsubjects hvalues⟩ (.inl ⟨hsubjects, hvalues⟩)
  · simp [exists_encode_iff_of_ne_nil hsubjects hvalues, hsubjects, hvalues]
  · refine iff_of_false (by simp [encode_of_one_side hlopsided]) ?_
    rintro (⟨hsubjects, hvalues⟩ | ⟨hsubjects, hvalues, -⟩)
    · exact hlopsided (iff_of_true hsubjects hvalues)
    · exact hlopsided (iff_of_false hsubjects hvalues)

theorem length_clauses_of_encode (h : g.encode = .ok f) :
    f.clauses.length =
      g.subjects.length * (1 + g.values.length * (g.values.length - 1) / 2) +
        g.values.length * (1 + g.subjects.length * (g.subjects.length - 1) / 2) := by
  obtain ⟨parts, hparts, rfl⟩ := exists_of_map_eq_ok h
  rw [groups_eq, mapM_append_eq_ok_iff] at hparts
  obtain ⟨rows, columns, hrows, hcolumns, rfl⟩ := hparts
  have hrow : ∀ group ∈ g.subjects.map g.row, group.length = g.values.length := by
    simp [row]
  have hcolumn : ∀ group ∈ g.transpose.subjects.map g.transpose.row,
      group.length = g.subjects.length := by
    simp [row, transpose]
  rw [List.foldr_append, ExactlyOne.length_clauses_all (mapM_eq_ok_iff.1 hrows) hrow,
    ExactlyOne.length_clauses_all (mapM_eq_ok_iff.1 hcolumns) hcolumn, List.length_map,
    List.length_map, Cnf.clauses_empty]
  rfl

theorem not_holds_of_length_ne (h : g.subjects.length ≠ g.values.length) (τ : String → Bool) :
    ¬ g.Holds τ := by
  intro hτ
  obtain ⟨π, -⟩ := holds_iff_equiv.1 hτ
  exact h (Fin.equiv_iff_eq.1 ⟨π⟩)

/-- A grid can be stated if its sides are both empty, or neither is and no row or column has a name
twice. Names that meet across rows and columns are no fault: what is stated is about places, and it
is a one-to-one match of the subjects' with the values'. -/
theorem encode_grid (g : Grid S V) :
    ((∃ f, g.encode = .ok f) ↔
      g.subjects = [] ∧ g.values = [] ∨
        g.subjects ≠ [] ∧ g.values ≠ [] ∧
          (∀ s ∈ g.subjects, (g.values.map fun v => g.name s v).Nodup) ∧
          ∀ v ∈ g.values, (g.subjects.map fun s => g.name s v).Nodup) ∧
    (∀ cause, g.encode = .error cause ↔ g.Fault cause) ∧
    ∀ f, g.encode = .ok f →
      f.clauses.length =
        g.subjects.length * (1 + g.values.length * (g.values.length - 1) / 2) +
          g.values.length * (1 + g.subjects.length * (g.subjects.length - 1) / 2) ∧
      (∀ τ, f.Holds τ ↔ ∃ π : Fin g.subjects.length ≃ Fin g.values.length,
        ∀ i j, τ (g.cell i j) = true ↔ π i = j) ∧
      (g.subjects.length ≠ g.values.length → ∀ τ, ¬ f.Holds τ) := by
  refine ⟨exists_encode_iff, fun cause => encode_eq_error_iff, fun f hf =>
    ⟨length_clauses_of_encode hf, fun τ => ?_, fun hsides τ => ?_⟩⟩
  · rw [holds_of_encode hf]
    exact holds_iff_equiv
  · rw [holds_of_encode hf]
    exact not_holds_of_length_ne hsides τ

def sumGrid : Grid Nat Nat := ⟨[0, 1], [0, 1], fun s v => (s + v).repr⟩

theorem sum_grid_encoded :
    ∃ f, sumGrid.encode = .ok f ∧ f.clauses.length = 8 ∧ f.Holds (· = "1") ∧
      ¬ f.Holds fun _ => true := by
  obtain ⟨hok, -, hmeaning⟩ := encode_grid sumGrid
  obtain ⟨f, hf⟩ := hok.2 (.inr (by decide))
  obtain ⟨hlength, hholds, -⟩ := hmeaning f hf
  refine ⟨f, hf, hlength, (hholds _).2 ⟨(Equiv.swap 0 1 : Fin 2 ≃ Fin 2), by decide⟩, fun h => ?_⟩
  obtain ⟨π, hπ⟩ := (hholds _).1 h
  have hfirst : π (0 : Fin 2) = (0 : Fin 2) := (hπ _ _).1 rfl
  have hsecond : π (0 : Fin 2) = (1 : Fin 2) := (hπ _ _).1 rfl
  exact Fin.zero_ne_one (hfirst.symm.trans hsecond)

end Grid

end AllSat
