import AllSat.Solver.Evidence
import AllSat.Solver.Place

namespace AllSat.Counting

def set (τ : Nat → Bool) (l : Literal Nat) : Nat → Bool :=
  fun v => if v = l.atom then l.positive else τ v

def valuation (model : List (Literal Nat)) : Nat → Bool := model.foldl set fun _ => false

theorem foldl_set_of_not_mem {model : List (Literal Nat)} {σ : Nat → Bool} {v : Nat}
    (h : v ∉ model.map Literal.atom) : model.foldl set σ v = σ v := by
  induction model generalizing σ with
  | nil => rfl
  | cons l model ih =>
      simp only [List.map_cons, List.mem_cons, not_or] at h
      rw [List.foldl_cons, ih h.2, set, if_neg h.1]

theorem valuation_of_mem {model : List (Literal Nat)} {l : Literal Nat}
    (hd : (model.map Literal.atom).Nodup) (h : l ∈ model) :
    valuation model l.atom = l.positive := by
  suffices hfold : ∀ σ, model.foldl set σ l.atom = l.positive from hfold _
  induction model with
  | nil => simp at h
  | cons m model ih =>
      intro σ
      have hd' := List.nodup_cons.1 hd
      cases List.mem_cons.1 h with
      | inl he =>
          subst he
          rw [List.foldl_cons, foldl_set_of_not_mem hd'.1, set, if_pos rfl]
      | inr hm => exact ih hd'.2 hm _

def satisfies (f : Formula) (model : List (Literal Nat)) : Bool :=
  decide (f.Holds (valuation model))

theorem satisfies_iff {f : Formula} {model : List (Literal Nat)} :
    satisfies f model = true ↔ f.Holds (valuation model) := by
  simp [satisfies]

def assignments : List Nat → List (List (Literal Nat))
  | [] => [[]]
  | v :: vs => (assignments vs).flatMap fun rest => [.pos v :: rest, .neg v :: rest]

theorem mem_assignments {vs : List Nat} {model : List (Literal Nat)} :
    model ∈ assignments vs ↔ model.map Literal.atom = vs := by
  induction vs generalizing model with
  | nil => simp [assignments]
  | cons v vs ih =>
      simp only [assignments, List.mem_flatMap, List.mem_cons, List.not_mem_nil, or_false, ih]
      constructor
      · rintro ⟨rest, hrest, rfl | rfl⟩ <;> simp [hrest, Literal.pos, Literal.neg]
      · intro h
        cases model with
        | nil => simp at h
        | cons l rest =>
            simp only [List.map_cons, List.cons.injEq] at h
            cases l with
            | mk a p => cases p <;> exact ⟨rest, h.2, by simp [← h.1, Literal.pos, Literal.neg]⟩

def valueIn (vs : Array Nat) (model : List (Literal Nat)) (v : Nat) : Bool :=
  match model[place vs v]? with
  | some l => l.positive
  | none => false

theorem valueIn_eq {vs : List Nat} {model : List (Literal Nat)} {v : Nat} (hd : vs.Nodup)
    (hm : model ∈ assignments vs) (hv : v ∈ vs) :
    valueIn vs.toArray model v = valuation model v := by
  have hmap := mem_assignments.1 hm
  have hplace := getElem?_place (List.mem_toArray.2 hv)
  rw [List.getElem?_toArray, ← hmap, List.getElem?_map] at hplace
  obtain ⟨l, hl, hatom⟩ := Option.map_eq_some_iff.1 hplace
  rw [hmap] at hl
  have hvalue := valuation_of_mem (hmap.symm ▸ hd) (List.mem_of_getElem? hl)
  rw [hatom] at hvalue
  simp [valueIn, hl, hvalue]

def admits (vs : Array Nat) (f : Formula) (model : List (Literal Nat)) : Bool :=
  decide (f.Holds (valueIn vs model))

theorem admits_eq {f : Formula} {model : List (Literal Nat)} (h : model ∈ assignments f.vars) :
    admits f.vars.toArray f model = satisfies f model :=
  decide_eq_decide.2
    (Formula.holds_congr fun _ hv => valueIn_eq (Formula.nodup_vars f) h hv)

def allModels (f : Formula) : List (List (Literal Nat)) :=
  let vars := f.vars
  let vs := vars.toArray
  (assignments vars).filter (admits vs f)

theorem allModels_eq (f : Formula) : allModels f = (assignments f.vars).filter (satisfies f) :=
  List.filter_congr fun _ h => admits_eq h

theorem exists_mem_assignments {f : Formula} {τ : Nat → Bool} (h : f.Holds τ) :
    ∃ model ∈ assignments f.vars, satisfies f model = true := by
  let literal := fun v => (⟨v, τ v⟩ : Literal Nat)
  have hmap : (f.vars.map literal).map Literal.atom = f.vars := by simp [literal, Function.comp_def]
  refine ⟨_, mem_assignments.2 hmap, satisfies_iff.2 ((Formula.holds_congr fun v hv => ?_).2 h)⟩
  exact valuation_of_mem (hmap.symm ▸ f.nodup_vars) (List.mem_map_of_mem hv : literal v ∈ _)

def first? (f : Formula) : Option (List (Literal Nat)) :=
  let vars := f.vars
  let vs := vars.toArray
  (assignments vars).find? (admits vs f)

theorem first?_eq (f : Formula) : first? f = (allModels f).head? :=
  (List.head?_filter ..).symm

theorem holds_of_first? {f : Formula} {model : List (Literal Nat)} (h : first? f = some model) :
    f.Holds (valueIn f.vars.toArray model) := by
  have hfound := List.find?_some h
  exact of_decide_eq_true hfound

theorem not_holds_of_first? {f : Formula} (h : first? f = none) (τ : Nat → Bool) : ¬ f.Holds τ := by
  intro hτ
  obtain ⟨model, hmem, hsat⟩ := exists_mem_assignments hτ
  exact List.find?_eq_none.1 h model hmem ((admits_eq hmem).trans hsat)

def evidence (f : Formula) : Evidence f :=
  match h : first? f with
  | some model => .model (valueIn f.vars.toArray model) (holds_of_first? h)
  | none => .refutation (not_holds_of_first? h)

def solve (f : Formula) : Verdict :=
  match first? f with
  | none => .unsatisfiable
  | some model => .satisfiable model

def oracle : Oracle Unit := .ofFunction solve

end AllSat.Counting
