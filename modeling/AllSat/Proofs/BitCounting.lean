import AllSat.Proofs.CountingOrder
import Mathlib.Data.List.Induction
import Mathlib.Data.Nat.Bitwise

namespace AllSat.Counting

def counted (vs : List Nat) (k : Nat) : List (Literal Nat) :=
  vs.mapIdx fun i v => if k &&& 1 <<< i = 0 then .pos v else .neg v

theorem and_shiftLeft_eq_zero_iff {k i : Nat} : k &&& 1 <<< i = 0 ↔ k.testBit i = false := by
  rw [Nat.one_shiftLeft, Nat.and_two_pow]
  cases k.testBit i <;> simp

theorem counted_cons (v : Nat) (vs : List Nat) (k : Nat) :
    counted (v :: vs) k = (if k % 2 = 0 then .pos v else .neg v) :: counted vs (k / 2) := by
  simp only [counted, List.mapIdx_cons, and_shiftLeft_eq_zero_iff, Nat.testBit_succ,
    Nat.testBit_zero, decide_eq_false_iff_not, Nat.mod_two_not_eq_one]

theorem counted_even (v : Nat) (vs : List Nat) (k : Nat) :
    counted (v :: vs) (2 * k) = .pos v :: counted vs k := by
  rw [counted_cons, if_pos (by omega), show 2 * k / 2 = k by omega]

theorem counted_odd (v : Nat) (vs : List Nat) (k : Nat) :
    counted (v :: vs) (2 * k + 1) = .neg v :: counted vs k := by
  rw [counted_cons, if_neg (by omega), show (2 * k + 1) / 2 = k by omega]

theorem map_range_two_mul {α : Type} (g : Nat → α) (n : Nat) :
    (List.range (2 * n)).map g = (List.range n).flatMap fun k => [g (2 * k), g (2 * k + 1)] := by
  induction n with
  | zero => rfl
  | succ n ih =>
      rw [show 2 * (n + 1) = 2 * n + 1 + 1 by omega, List.range_succ, List.range_succ,
        List.range_succ, List.map_append, List.map_append, ih, List.flatMap_append]
      simp

theorem assignments_eq_counted (vs : List Nat) :
    assignments vs = (List.range (2 ^ vs.length)).map (counted vs) := by
  induction vs with
  | nil => rfl
  | cons v vs ih =>
      rw [assignments, ih, List.flatMap_map, List.length_cons, Nat.pow_succ, Nat.mul_comm,
        map_range_two_mul]
      simp only [counted_even, counted_odd]

def Precedes (a b : List (Literal Nat)) : Prop :=
  ∃ v, .pos v ∈ a ∧ .neg v ∈ b ∧ ∀ l : Literal Nat, v < l.atom → (l ∈ a ↔ l ∈ b)

theorem mem_cons_iff_of_lt {l m : Literal Nat} {rest : List (Literal Nat)} (h : m.atom < l.atom) :
    l ∈ m :: rest ↔ l ∈ rest := by
  rw [List.mem_cons, or_iff_right]
  rintro rfl
  exact Nat.lt_irrefl _ h

theorem Precedes.cons {a b : List (Literal Nat)} {v : Nat} (h : Precedes a b)
    (hv : ∀ l ∈ a, v < l.atom) {l m : Literal Nat} (hl : l.atom = v) (hm : m.atom = v) :
    Precedes (l :: a) (m :: b) := by
  obtain ⟨w, hpos, hneg, habove⟩ := h
  have hvw : v < w := hv _ hpos
  refine ⟨w, .tail _ hpos, .tail _ hneg, fun n hn => ?_⟩
  rw [mem_cons_iff_of_lt (by omega), mem_cons_iff_of_lt (by omega)]
  exact habove n hn

theorem precedes_cons_self (v : Nat) (rest : List (Literal Nat)) :
    Precedes (.pos v :: rest) (.neg v :: rest) := by
  refine ⟨v, .head _, .head _, fun l hl => ?_⟩
  rw [mem_cons_iff_of_lt (show (Literal.pos v).atom < l.atom from hl),
    mem_cons_iff_of_lt (show (Literal.neg v).atom < l.atom from hl)]

theorem pairwise_assignments {vs : List Nat} (h : vs.Pairwise (· < ·)) :
    (assignments vs).Pairwise Precedes := by
  induction vs with
  | nil => exact List.pairwise_singleton _ _
  | cons v vs ih =>
      obtain ⟨hv, hvs⟩ := List.pairwise_cons.1 h
      rw [assignments, List.pairwise_flatMap]
      refine ⟨fun rest _ => List.pairwise_pair.2 (precedes_cons_self v rest), ?_⟩
      refine (ih hvs).imp_of_mem fun {a b} ha _ hab => ?_
      have habove : ∀ l ∈ a, v < l.atom := fun l hl =>
        hv _ (mem_assignments.1 ha ▸ List.mem_map_of_mem hl)
      simp only [List.mem_cons, List.not_mem_nil, or_false]
      rintro x (rfl | rfl) y (rfl | rfl) <;> exact hab.cons habove rfl rfl

def lastSign (model : List (Literal Nat)) (v : Nat) : Bool :=
  match model.findRev? fun l => l.atom = v with
  | some l => l.positive
  | none => false

theorem valuation_eq (model : List (Literal Nat)) : valuation model = lastSign model := by
  funext v
  induction model using List.reverseRecOn with
  | nil => rfl
  | append_singleton model l ih =>
      simp only [lastSign, List.findRev?_eq_find?_reverse, valuation] at ih ⊢
      rw [List.foldl_concat, set, List.reverse_concat, List.find?_cons]
      by_cases hv : v = l.atom
      · simp [hv]
      · simp only [hv, Ne.symm hv, decide_false, if_false]
        exact ih

theorem holds_valuation_iff_mem {model : List (Literal Nat)} {l : Literal Nat}
    (hd : (model.map Literal.atom).Nodup) (h : l.atom ∈ model.map Literal.atom) :
    l.Holds (valuation model) ↔ l ∈ model := by
  refine ⟨fun hholds => ?_, valuation_of_mem hd⟩
  obtain ⟨m, hm, hatom⟩ := List.mem_map.1 h
  have hsign : m.positive = l.positive := by
    rw [← valuation_of_mem hd hm, hatom]
    exact hholds
  cases l
  cases m
  cases hatom
  cases hsign
  exact hm

theorem mem_allModels_iff {f : Formula} {model : List (Literal Nat)} :
    model ∈ allModels f ↔
      model.map Literal.atom = f.vars ∧ ∀ c ∈ f.clauses, ∃ l ∈ c, l ∈ model := by
  rw [mem_allModels]
  refine and_congr_right fun hatoms => forall₂_congr fun c hc => exists_congr fun l =>
    and_congr_right fun hl => ?_
  have hnodup : (model.map Literal.atom).Nodup := hatoms ▸ f.nodup_vars
  exact holds_valuation_iff_mem hnodup (hatoms ▸ Formula.mem_vars.2 ⟨c, hc, l, hl, rfl⟩)

theorem solve_eq_satisfiable_iff {f : Formula} {model : List (Literal Nat)} :
    solve f = .satisfiable model ↔ (allModels f).head? = some model := by
  cases h : allModels f with
  | nil => simp [solve_of_nil h]
  | cons first rest => simp [solve_of_cons h]

theorem solve_eq_unsatisfiable_iff {f : Formula} :
    solve f = .unsatisfiable ↔ ∀ τ, ¬ f.Holds τ := by
  cases h : allModels f with
  | nil => exact iff_of_true (solve_of_nil h) (not_holds_of_nil h)
  | cons first rest =>
      have hfirst := (mem_allModels.1 (h ▸ .head _ : first ∈ allModels f)).2
      exact iff_of_false (by simp [solve_of_cons h]) fun hnone => hnone _ hfirst

/-- The models are found in the order of the numbers that stand for them. -/
theorem allModels_counted (f : Formula) :
    allModels f = ((List.range (2 ^ f.vars.length)).map (counted f.vars)).filter (satisfies f) ∧
      (∀ v, v ∈ f.vars ↔ ∃ c ∈ f.clauses, ∃ l ∈ c, l.atom = v) ∧ f.vars.Pairwise (· < ·) ∧
      (∀ model, model ∈ allModels f ↔
        model.map Literal.atom = f.vars ∧ ∀ c ∈ f.clauses, ∃ l ∈ c, l ∈ model) ∧
      (allModels f).Nodup ∧ (allModels f).Pairwise Precedes ∧
      (∀ model, solve f = .satisfiable model ↔ (allModels f).head? = some model) ∧
      (solve f = .unsatisfiable ↔ ∀ τ, ¬ f.Holds τ) ∧
      ∀ model, satisfies f model = true ↔ f.Holds (lastSign model) := by
  refine ⟨?_, fun v => Formula.mem_vars, f.pairwise_vars, fun model => mem_allModels_iff,
    nodup_allModels f, ?_, fun model => solve_eq_satisfiable_iff, solve_eq_unsatisfiable_iff,
    fun model => ?_⟩
  · rw [allModels_eq, assignments_eq_counted]
  · rw [allModels_eq]
    exact (pairwise_assignments f.pairwise_vars).filter _
  · rw [satisfies_iff, valuation_eq]

end AllSat.Counting
