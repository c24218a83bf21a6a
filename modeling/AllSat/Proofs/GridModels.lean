import AllSat.Proofs.GridEncoding
import AllSat.Proofs.ModelLists
import Mathlib.Data.Fintype.Perm
import Mathlib.Data.List.OfFn

namespace AllSat.Grid

variable {S V : Type} {g : Grid S V} {f : Cnf}

def CellsDistinct (g : Grid S V) : Prop :=
  ∀ i j i' j', g.cell i j = g.cell i' j' → i = i' ∧ j = j'

theorem CellsDistinct.rowsDistinct (h : g.CellsDistinct) : g.RowsDistinct := by
  intro s hs
  obtain ⟨i, rfl⟩ := List.get_of_mem hs
  have hcells : g.values.map (g.name (g.subjects.get i)) = List.ofFn (g.cell i) :=
    (List.ofFn_getElem_eq_map g.values fun v => g.name (g.subjects.get i) v).symm
  rw [hcells, List.nodup_ofFn]
  exact fun j j' hj => (h i j i j' hj).2

theorem CellsDistinct.transpose (h : g.CellsDistinct) : g.transpose.CellsDistinct :=
  fun j i j' i' hcell => (h i j i' j' hcell).symm

theorem encode_of_distinct (h : g.CellsDistinct) (hsides : g.subjects = [] ↔ g.values = []) :
    ∃ f, g.encode = .ok f := by
  rw [exists_encode_iff]
  rcases g.sides_cases with hnil | ⟨hsubjects, hvalues⟩ | hlopsided
  · exact .inl hnil
  · exact .inr ⟨hsubjects, hvalues, h.rowsDistinct, h.transpose.rowsDistinct⟩
  · exact absurd hsides hlopsided

def arrangement (g : Grid S V) (π : Fin g.subjects.length ≃ Fin g.values.length) : Model :=
  .ofNames (List.ofFn fun i => g.cell i (π i))

theorem contains_arrangement {π : Fin g.subjects.length ≃ Fin g.values.length} {name : String} :
    (g.arrangement π).contains name = true ↔ ∃ i, g.cell i (π i) = name := by
  rw [arrangement, Model.contains_ofNames, List.mem_ofFn']
  rfl

section Distinct

variable (hcells : g.CellsDistinct)
include hcells

theorem contains_cell {π : Fin g.subjects.length ≃ Fin g.values.length} {i : Fin g.subjects.length}
    {j : Fin g.values.length} : (g.arrangement π).contains (g.cell i j) = true ↔ π i = j := by
  rw [contains_arrangement]
  constructor
  · rintro ⟨i', hi'⟩
    obtain ⟨rfl, rfl⟩ := hcells _ _ _ _ hi'
    rfl
  · rintro rfl
    exact ⟨i, rfl⟩

theorem arrangement_injective : Function.Injective g.arrangement := by
  intro π ρ h
  ext i : 1
  have hcell := (contains_cell hcells).2 (rfl : π i = π i)
  rw [h, contains_cell hcells] at hcell
  exact hcell.symm

theorem isModel_iff (hf : g.encode = .ok f) {m : Model} :
    f.IsModel m ↔ ∃ π, m = g.arrangement π := by
  constructor
  · intro hm
    obtain ⟨π, hπ⟩ := holds_iff_equiv.1 ((holds_of_encode hf).1 hm.holds)
    refine ⟨π, Model.eq_of_contains_iff fun name => ?_⟩
    rw [contains_arrangement]
    constructor
    · intro hname
      obtain ⟨i, j, rfl⟩ := (mem_names_of_encode hf).1 (hm.within name hname)
      exact ⟨i, by rw [(hπ i j).1 hname]⟩
    · rintro ⟨i, rfl⟩
      exact (hπ i _).2 rfl
  · rintro ⟨π, rfl⟩
    refine ⟨fun name hname => ?_, (holds_of_encode hf).2 (holds_iff_equiv.2 ⟨π, ?_⟩)⟩
    · obtain ⟨i, hi⟩ := contains_arrangement.1 hname
      exact (mem_names_of_encode hf).2 ⟨i, _, hi⟩
    · exact fun i j => contains_cell hcells

theorem size_arrangement (π : Fin g.subjects.length ≃ Fin g.values.length) :
    (g.arrangement π).size = g.subjects.length := by
  have hnodup : (List.ofFn fun i => g.cell i (π i)).Nodup :=
    List.nodup_ofFn.2 fun i j hij => (hcells _ _ _ _ hij).1
  have hperm : (g.arrangement π).names.Perm (List.ofFn fun i => g.cell i (π i)) :=
    (List.perm_ext_iff_of_nodup (Model.nodup_names _) hnodup).2 fun name => Ascending.mem_ofList
  rw [Model.size, hperm.length_eq, List.length_ofFn]

theorem perm_arrangements (hf : g.encode = .ok f) {models : List Model}
    (hlist : f.ModelList models) :
    models.Perm ((Finset.univ : Finset (Fin g.subjects.length ≃ Fin g.values.length)).toList.map
      g.arrangement) := by
  have hnodup := (Finset.nodup_toList Finset.univ).map (arrangement_injective hcells)
  rw [List.perm_ext_iff_of_nodup hlist.nodup hnodup]
  intro m
  rw [hlist.mem_iff, isModel_iff hcells hf, List.mem_map]
  simp [eq_comm]

theorem length_models (hf : g.encode = .ok f) {models : List Model} (hlist : f.ModelList models)
    (hsides : g.subjects.length = g.values.length) :
    models.length = g.subjects.length.factorial := by
  rw [(perm_arrangements hcells hf hlist).length_eq, List.length_map, Finset.length_toList,
    Finset.card_univ, Fintype.card_equiv (finCongr hsides), Fintype.card_fin]

theorem models_eq_nil (hf : g.encode = .ok f) {models : List Model} (hlist : f.ModelList models)
    (hsides : g.subjects.length ≠ g.values.length) : models = [] := by
  refine List.eq_nil_iff_forall_not_mem.2 fun m hm => ?_
  obtain ⟨π, -⟩ := (isModel_iff hcells hf).1 ((hlist.mem_iff m).1 hm)
  exact hsides (by simpa using Fintype.card_congr π)

end Distinct

/-- A grid with two sides can be stated if both sides are empty or none is. Its models are then the
ways to give every subject a value of its own, of which there are none if one side is longer. -/
theorem solveAllWith_grid (g : Grid S V) (hcells : g.CellsDistinct) :
    ((¬ (g.subjects = [] ↔ g.values = [])) → g.encode = .error .emptyGroup) ∧
      ((g.subjects = [] ↔ g.values = []) → ∃ f, g.encode = .ok f ∧
        ∀ (σ : Type) (o : Oracle σ) (memory : σ),
          (Enumerator.start o memory f).Answered Exchange.Complete →
          ∃ models, solveAllWith o memory f = some (.ok models) ∧ models.Nodup ∧
            (∀ m, m ∈ models ↔ ∃! π, m = g.arrangement π) ∧
            (g.subjects.length = g.values.length →
              models.length = g.subjects.length.factorial) ∧
            (g.subjects.length ≠ g.values.length → models = [])) ∧
      ∀ π, (g.arrangement π).size = g.subjects.length ∧
        ∀ name, (g.arrangement π).contains name = true ↔ ∃ i, g.cell i (π i) = name := by
  refine ⟨encode_of_one_side, fun hsides => ?_, fun π =>
    ⟨size_arrangement hcells π, fun name => contains_arrangement⟩⟩
  obtain ⟨f, hf⟩ := encode_of_distinct hcells hsides
  refine ⟨f, hf, fun σ o memory hcomplete => ?_⟩
  obtain ⟨models, hsolve, hlist⟩ := Enumerator.exists_modelList hcomplete
  refine ⟨models, hsolve, hlist.nodup, fun m => ?_, length_models hcells hf hlist,
    models_eq_nil hcells hf hlist⟩
  rw [hlist.mem_iff, isModel_iff hcells hf]
  constructor
  · rintro ⟨π, rfl⟩
    exact ⟨π, rfl, fun ρ hρ => arrangement_injective hcells hρ.symm⟩
  · exact ExistsUnique.exists

def squareGrid : Grid Nat Nat := ⟨[0, 1, 2], [0, 1, 2], fun s v => s.repr ++ "=" ++ v.repr⟩

theorem square_grid_solved :
    squareGrid.CellsDistinct ∧
      ∃ f, squareGrid.encode = .ok f ∧
        ∃ models, solveAllWith Learning.oracle () f = some (.ok models) ∧ models.length = 6 := by
  have hcells : squareGrid.CellsDistinct := by
    simp only [CellsDistinct, cell, squareGrid]
    decide
  obtain ⟨-, hencode, -⟩ := solveAllWith_grid squareGrid hcells
  obtain ⟨f, hf, hsolve⟩ := hencode (iff_of_false (by decide) (by decide))
  obtain ⟨models, hmodels, -, -, hlength, -⟩ :=
    hsolve Unit Learning.oracle () (Enumerator.answered_of_always Learning.always_complete)
  exact ⟨hcells, f, hf, models, hmodels, hlength rfl⟩

end AllSat.Grid
