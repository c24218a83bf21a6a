import AllSat.Proofs.CountingOrder
import AllSat.Proofs.SignedForm
import AllSat.Solver.Procedure

namespace AllSat

namespace Literal

theorem ofSigned?_toSigned {l : Literal Nat} (h : l.Fits) : ofSigned? l.toSigned = some l :=
  ofSigned?_eq_some_iff.2 ⟨(fits_iff.1 h).1, toSigned_of_fits h⟩

theorem natAbs_value (l : Literal Nat) : l.value.natAbs = l.atom := by
  unfold value
  split <;> omega

theorem natAbs_toSigned {l : Literal Nat} (h : l.Fits) : l.toSigned.natAbs = l.atom := by
  rw [toSigned_of_fits h, natAbs_value]

theorem decide_toSigned {l : Literal Nat} (h : l.Fits) : decide (0 < l.toSigned) = l.positive := by
  have hne := (fits_iff.1 h).1
  rw [toSigned_of_fits h, value]
  cases l.positive
  · simp
  · simp
    omega

def ofSigned (k : Int) : Literal Nat := ⟨k.natAbs, decide (0 < k)⟩

theorem value_ofSigned (k : Int) : (ofSigned k).value = k := by
  unfold value ofSigned
  by_cases h : 0 < k
  · simp only [h, decide_true, if_true]
    omega
  · simp only [h, decide_false, Bool.false_eq_true, if_false]
    omega

theorem ofSigned?_of_ne_zero {k : Int} (h : k ≠ 0) : ofSigned? k = some (ofSigned k) :=
  ofSigned?_eq_some_iff.2 ⟨Int.natAbs_ne_zero.2 h, (value_ofSigned k).symm⟩

theorem ofSigned_toSigned {l : Literal Nat} (h : l.Fits) : ofSigned l.toSigned = l := by
  rw [ofSigned, natAbs_toSigned h, decide_toSigned h]

theorem toSigned_ofSigned {k : Int} (h : (ofSigned k).Fits) : (ofSigned k).toSigned = k := by
  rw [toSigned_of_fits h, value_ofSigned]

end Literal

namespace Procedure

def Holds (τ : Nat → Bool) (clauses : List (List Int)) : Prop :=
  ∀ c ∈ clauses, ∃ k ∈ c, τ k.natAbs = decide (0 < k)

/-- The procedure tells whether the clauses can all be true, and if so it has one number for each
variable that occurs, and one in every clause among them. -/
structure CompleteOn (p : Procedure) (clauses : List (List Int)) : Prop where
  tells : ∃ b, p.decides clauses = .ok b ∧ (b = true ↔ ∃ τ, Holds τ clauses)
  model : p.decides clauses = .ok true → ∃ model, p.model? clauses = some model ∧
    (model.map Int.natAbs).Nodup ∧
    (∀ v, v ∈ model.map Int.natAbs ↔ ∃ c ∈ clauses, ∃ k ∈ c, k.natAbs = v) ∧
    ∀ c ∈ clauses, ∃ k ∈ c, k ∈ model

section Submitted

variable {f : Formula} (h : ∀ v ∈ f.vars, 1 ≤ v ∧ v < Word.half)

include h

theorem fits_of_mem_vars {l : Literal Nat} (hl : l.atom ∈ f.vars) : l.Fits :=
  Literal.fits_of_lt (h _ hl).1 (h _ hl).2

theorem fits_of_mem {c : Disjunction Nat} (hc : c ∈ f.clauses) {l : Literal Nat} (hl : l ∈ c) :
    l.Fits :=
  fits_of_mem_vars h (Formula.mem_vars.2 ⟨c, hc, l, hl, rfl⟩)

theorem received_submitted : received (submitted f) = f := by
  refine congrArg Formula.mk ?_
  rw [submitted, List.map_map]
  refine (List.map_congr_left fun c hc => ?_).trans (List.map_id _)
  rw [Function.comp_apply, List.filterMap_map]
  refine (List.filterMap_congr fun l hl => ?_).trans List.filterMap_some
  exact Literal.ofSigned?_toSigned (fits_of_mem h hc hl)

theorem holds_submitted {τ : Nat → Bool} : Holds τ (submitted f) ↔ f.Holds τ := by
  simp only [Holds, submitted, List.forall_mem_map]
  refine forall_congr' fun c => forall_congr' fun hc => ?_
  simp only [List.mem_map, exists_exists_and_eq_and]
  refine exists_congr fun l => and_congr_right fun hl => ?_
  rw [Literal.natAbs_toSigned (fits_of_mem h hc hl), Literal.decide_toSigned (fits_of_mem h hc hl)]
  rfl

theorem mem_submitted {v : Nat} :
    (∃ c ∈ submitted f, ∃ k ∈ c, k.natAbs = v) ↔ v ∈ f.vars := by
  rw [Formula.mem_vars]
  simp only [submitted, List.mem_map, exists_exists_and_eq_and]
  refine exists_congr fun c => and_congr_right fun hc => exists_congr fun l =>
    and_congr_right fun hl => ?_
  rw [Literal.natAbs_toSigned (fits_of_mem h hc hl)]

theorem totalModel_of_model {model : List Int} (hnodup : (model.map Int.natAbs).Nodup)
    (hvars : ∀ v, v ∈ model.map Int.natAbs ↔ ∃ c ∈ submitted f, ∃ k ∈ c, k.natAbs = v)
    (hhits : ∀ c ∈ submitted f, ∃ k ∈ c, k ∈ model) :
    f.TotalModel (model.map Literal.ofSigned) where
  atoms := by
    rw [List.map_map]
    exact (List.perm_ext_iff_of_nodup hnodup f.nodup_vars).2 fun v =>
      (hvars v).trans (mem_submitted h)
  hits := by
    intro c hc
    obtain ⟨k, hk, hmodel⟩ := hhits _ (List.mem_map_of_mem hc)
    obtain ⟨l, hl, rfl⟩ := List.mem_map.1 hk
    refine ⟨l, hl, List.mem_map.2 ⟨_, hmodel, ?_⟩⟩
    exact Literal.ofSigned_toSigned (fits_of_mem h hc hl)

theorem solve_cases {p : Procedure} (hp : p.CompleteOn (submitted f)) :
    (p.solve f = .ok .unsatisfiable ∧ ∀ τ, ¬ f.Holds τ) ∨
      ∃ model τ, p.model? (submitted f) = some model ∧ f.Holds τ ∧
        p.solve f = .ok (.satisfiable (model.map Literal.ofSigned)) ∧
        f.TotalModel (model.map Literal.ofSigned) := by
  obtain ⟨b, hb, hsatisfiable⟩ := hp.tells
  simp only [holds_submitted h] at hsatisfiable
  cases b with
  | false =>
      refine .inl ⟨by simp [solve, hb], fun τ hτ => ?_⟩
      cases hsatisfiable.2 ⟨τ, hτ⟩
  | true =>
      obtain ⟨τ, hτ⟩ := hsatisfiable.1 rfl
      obtain ⟨model, hmodel, hnodup, hvars, hhits⟩ := hp.model hb
      have htotal := totalModel_of_model h hnodup hvars hhits
      have hread : model.filterMap Literal.ofSigned? = model.map Literal.ofSigned := by
        rw [← List.filterMap_eq_map]
        refine List.filterMap_congr fun k hk => Literal.ofSigned?_of_ne_zero ?_
        have hvar := htotal.mem_atoms.1 ⟨_, List.mem_map_of_mem hk, rfl⟩
        exact Int.natAbs_ne_zero.1 (Nat.ne_of_gt (h _ hvar).1)
      exact .inr ⟨model, τ, hmodel, hτ, by simp [solve, hb, hmodel, hread], htotal⟩

theorem complete_of_completeOn {p : Procedure} (hp : p.CompleteOn (submitted f)) :
    Exchange.Complete ⟨f, p.solve f⟩ := by
  rcases solve_cases h hp with ⟨hreply, hfails⟩ | ⟨model, τ, -, hτ, hreply, htotal⟩
  · refine ⟨⟨_, hreply⟩, iff_of_true hreply hfails, fun answer hanswer => ?_⟩
    cases hreply.symm.trans hanswer
  · refine ⟨⟨_, hreply⟩, iff_of_false ?_ fun hfails => hfails τ hτ, fun answer hanswer => ?_⟩
    · simp [hreply]
    · cases hreply.symm.trans hanswer
      exact htotal

theorem completeOn_learning : learning.CompleteOn (submitted f) := by
  have hsat := Learning.solve_eq_unsatisfiable_iff (f := f)
  cases hsolve : Learning.solve f with
  | unsatisfiable =>
      have hdecides : learning.decides (submitted f) = .ok false := by
        simp [learning, received_submitted h, hsolve]
      refine ⟨⟨false, hdecides, ?_⟩, fun htrue => ?_⟩
      · simp only [holds_submitted h, Bool.false_eq_true, false_iff, not_exists]
        exact hsat.1 hsolve
      · cases hdecides.symm.trans htrue
  | satisfiable answer =>
      obtain ⟨τ, hτ, rfl⟩ := Learning.of_solve_eq_satisfiable hsolve
      have hdecides : learning.decides (submitted f) = .ok true := by
        simp [learning, received_submitted h, hsolve]
      have hmodel : learning.model? (submitted f) =
          some ((f.vars.map fun v => (⟨v, τ v⟩ : Literal Nat)).map Literal.toSigned) := by
        simp [learning, received_submitted h, hsolve]
      have hatoms : ((f.vars.map fun v => (⟨v, τ v⟩ : Literal Nat)).map Literal.toSigned).map
          Int.natAbs = f.vars := by
        rw [List.map_map, List.map_map]
        refine (List.map_congr_left fun v hv => ?_).trans (List.map_id _)
        exact Literal.natAbs_toSigned (fits_of_mem_vars (l := ⟨v, τ v⟩) h hv)
      refine ⟨⟨true, hdecides, iff_of_true rfl ⟨τ, (holds_submitted h).2 hτ⟩⟩,
        fun _ => ⟨_, hmodel, ?_, fun v => ?_, fun c hc => ?_⟩⟩
      · rw [hatoms]
        exact f.nodup_vars
      · rw [hatoms, mem_submitted h]
      · obtain ⟨d, hd, rfl⟩ := List.mem_map.1 hc
        obtain ⟨l, hl, hanswer⟩ := (Formula.totalModel_of_holds hτ).hits d hd
        exact ⟨_, List.mem_map_of_mem hl, List.mem_map_of_mem hanswer⟩

theorem solve_learning : learning.solve f = .ok (Learning.solve f) := by
  cases hsolve : Learning.solve f with
  | unsatisfiable => simp [solve, learning, received_submitted h, hsolve]
  | satisfiable answer =>
      obtain ⟨τ, hτ, rfl⟩ := Learning.of_solve_eq_satisfiable hsolve
      have hread : f.vars.filterMap (fun v => Literal.ofSigned? (Literal.mk v (τ v)).toSigned) =
          f.vars.map fun v => ⟨v, τ v⟩ := by
        rw [← List.filterMap_eq_map]
        exact List.filterMap_congr fun v hv =>
          Literal.ofSigned?_toSigned (fits_of_mem_vars (l := ⟨v, τ v⟩) h hv)
      simp [solve, learning, received_submitted h, hsolve, hread]

end Submitted

end Procedure

namespace Formula

structure DecidedBy (f : Formula) (n : Nat) (verdict : Verdict) : Prop where
  refutes : verdict = .unsatisfiable ↔ ∀ τ, ¬ f.Holds τ
  counted : verdict = .unsatisfiable ↔ Counting.solve f = .unsatisfiable
  answers : ∀ answer, verdict = .satisfiable answer →
    (answer.map Literal.atom).Perm (List.range' 1 n) ∧
      (∀ c ∈ f.clauses, ∃ l ∈ c, l ∈ answer) ∧ Counting.satisfies f answer = true

variable {f : Formula} {n : Nat}

theorem vars_perm_of_gapless
    (hvars : ∀ v, (∃ c ∈ f.clauses, ∃ l ∈ c, l.atom = v) ↔ 1 ≤ v ∧ v ≤ n) :
    f.vars.Perm (List.range' 1 n) := by
  refine (List.perm_ext_iff_of_nodup f.nodup_vars List.nodup_range').2 fun v => ?_
  rw [mem_vars, hvars, List.mem_range'_1]
  omega

theorem TotalModel.satisfies {answer : List (Literal Nat)} (h : f.TotalModel answer) :
    Counting.satisfies f answer = true := by
  have hnodup : (answer.map Literal.atom).Nodup := h.atoms.nodup_iff.2 f.nodup_vars
  rw [Counting.satisfies_iff]
  exact h.partialModel.holds fun l hl => Counting.valuation_of_mem hnodup hl

theorem decidedBy_of_complete
    (hvars : ∀ v, (∃ c ∈ f.clauses, ∃ l ∈ c, l.atom = v) ↔ 1 ≤ v ∧ v ≤ n) {verdict : Verdict}
    (h : Exchange.Complete ⟨f, .ok verdict⟩) : f.DecidedBy n verdict := by
  have hcounted : Exchange.Complete ⟨f, .ok (Counting.solve f)⟩ := Exchange.complete_of_counting rfl
  have hrefutes : verdict = .unsatisfiable ↔ ∀ τ, ¬ f.Holds τ := by
    rw [← h.refutes, Except.ok.injEq]
  refine ⟨hrefutes, ?_, fun answer hanswer => ?_⟩
  · rw [hrefutes, ← hcounted.refutes, Except.ok.injEq]
  · have htotal := h.answers answer (congrArg Except.ok hanswer)
    exact ⟨htotal.atoms.trans (vars_perm_of_gapless hvars), htotal.hits, htotal.satisfies⟩

end Formula

namespace Procedure

open Formula (DecidedBy)

/-- A formula over the variables from one to a last one is decided, by the learning search itself
and by any complete procedure that sees nothing but signed numbers: no literal is changed on the
way there or back. No memory holds so many variables that their numbers would leave the signed
word. -/
theorem solve_gapless (f : Formula) (n : Nat)
    (hvars : ∀ v, (∃ c ∈ f.clauses, ∃ l ∈ c, l.atom = v) ↔ 1 ≤ v ∧ v ≤ n) :
    (∃ verdict, Learning.oracle.solve () f = (.ok verdict, ()) ∧ f.DecidedBy n verdict) ∧
    (n < Word.half →
      (submitted f).map (List.filterMap Literal.ofSigned?) = f.clauses ∧
      learning.oracle.solve () f = Learning.oracle.solve () f ∧
      ∀ p : Procedure, p.CompleteOn (submitted f) →
        ∃ verdict, p.oracle.solve () f = (.ok verdict, ()) ∧ f.DecidedBy n verdict ∧
          ∀ answer, verdict = .satisfiable answer →
            p.model? (submitted f) = some (answer.map Literal.toSigned)) := by
  refine ⟨⟨_, rfl, Formula.decidedBy_of_complete hvars (Learning.always_complete () f)⟩,
    fun hn => ?_⟩
  have hword : ∀ v ∈ f.vars, 1 ≤ v ∧ v < Word.half := by
    intro v hv
    obtain ⟨hpos, hle⟩ := (hvars v).1 (Formula.mem_vars.1 hv)
    exact ⟨hpos, Nat.lt_of_le_of_lt hle hn⟩
  refine ⟨congrArg Formula.clauses (received_submitted hword),
    congrArg (·, ()) (solve_learning hword), fun p hp => ?_⟩
  have hcomplete := complete_of_completeOn hword hp
  rcases solve_cases hword hp with ⟨hreply, -⟩ | ⟨model, -, hmodel, -, hreply, htotal⟩
  · rw [hreply] at hcomplete
    refine ⟨_, congrArg (·, ()) hreply, Formula.decidedBy_of_complete hvars hcomplete, ?_⟩
    intro answer hanswer
    cases hanswer
  · rw [hreply] at hcomplete
    refine ⟨_, congrArg (·, ()) hreply, Formula.decidedBy_of_complete hvars hcomplete, ?_⟩
    rintro answer ⟨⟩
    rw [hmodel, List.map_map]
    refine congrArg some ((List.map_congr_left fun k hk => ?_).trans (List.map_id model)).symm
    refine Literal.toSigned_ofSigned (fits_of_mem_vars hword ?_)
    exact htotal.mem_atoms.1 ⟨_, List.mem_map_of_mem hk, rfl⟩

def repeatedPair : Formula := ⟨[[.pos 1, .neg 2, .pos 1], [.neg 1, .pos 1], [.pos 2]]⟩

theorem repeated_pair_decided :
    (∀ v, (∃ c ∈ repeatedPair.clauses, ∃ l ∈ c, l.atom = v) ↔ 1 ≤ v ∧ v ≤ 2) ∧
    submitted repeatedPair = [[1, -2, 1], [-1, 1], [2]] ∧
    learning.CompleteOn [[1, -2, 1], [-1, 1], [2]] ∧
    ∃ verdict, learning.oracle.solve () repeatedPair = (.ok verdict, ()) ∧
      repeatedPair.DecidedBy 2 verdict := by
  have hvars : ∀ v, (∃ c ∈ repeatedPair.clauses, ∃ l ∈ c, l.atom = v) ↔ 1 ≤ v ∧ v ≤ 2 := by
    intro v
    simp [repeatedPair, Literal.pos, Literal.neg]
    omega
  have hword : ∀ v ∈ repeatedPair.vars, 1 ≤ v ∧ v < Word.half := by decide
  have hsubmitted : submitted repeatedPair = [[1, -2, 1], [-1, 1], [2]] := by decide
  have hcomplete := completeOn_learning hword
  obtain ⟨-, hsigned⟩ := solve_gapless repeatedPair 2 hvars
  obtain ⟨verdict, hsolve, hdecided, -⟩ := (hsigned (by decide)).2.2 learning hcomplete
  exact ⟨hvars, hsubmitted, hsubmitted ▸ hcomplete, verdict, hsolve, hdecided⟩

end Procedure

end AllSat
