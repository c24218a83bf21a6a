import AllSat.Proofs.CompleteAnswers
import Mathlib.Data.List.Nodup

namespace AllSat

theorem eq_map_of_holds {answer : List (Literal Nat)} {τ : Nat → Bool}
    (h : ∀ l ∈ answer, l.Holds τ) :
    answer = (answer.map Literal.atom).map fun v => ⟨v, τ v⟩ := by
  rw [List.map_map]
  refine ((List.map_congr_left fun l hl => ?_).trans (List.map_id answer)).symm
  have hl : τ l.atom = l.positive := h l hl
  simp only [Function.comp_apply, hl, id]

theorem Formula.vars_block {g : Formula} {answer : List (Literal Nat)}
    (h : ∀ l ∈ answer, l.atom ∈ g.vars) : (g.push (Disjunction.blocking answer)).vars = g.vars := by
  refine Ascending.eq_of_mem_iff Nat.lt_irrefl Nat.lt_trans (pairwise_vars _) (pairwise_vars _) ?_
  intro v
  rw [mem_vars_block]
  refine or_iff_left_of_imp ?_
  rintro ⟨l, hl, rfl⟩
  exact h l hl

namespace Counting

theorem nodup_assignments (vs : List Nat) : (assignments vs).Nodup := by
  induction vs with
  | nil => simp [assignments]
  | cons v vs ih =>
      rw [assignments, List.nodup_flatMap]
      refine ⟨fun rest _ => by simp [Literal.pos, Literal.neg], ih.imp fun {rest rest'} hne => ?_⟩
      simpa [Function.onFun, Literal.pos, Literal.neg] using hne.symm

theorem mem_allModels {g : Formula} {model : List (Literal Nat)} :
    model ∈ allModels g ↔ model.map Literal.atom = g.vars ∧ g.Holds (valuation model) := by
  rw [allModels_eq, List.mem_filter, mem_assignments, satisfies_iff]

theorem nodup_allModels (g : Formula) : (allModels g).Nodup := by
  rw [allModels_eq]
  exact (nodup_assignments g.vars).filter _

theorem holds_valuation_iff {g : Formula} {model answer : List (Literal Nat)}
    (hmodel : model.map Literal.atom = g.vars) (hanswer : answer.map Literal.atom = g.vars) :
    (∀ l ∈ answer, l.Holds (valuation model)) ↔ model = answer := by
  have hself : ∀ l ∈ model, l.Holds (valuation model) :=
    fun l hl => valuation_of_mem (hmodel ▸ g.nodup_vars) hl
  constructor
  · intro h
    rw [eq_map_of_holds hself, eq_map_of_holds h, hmodel, hanswer]
  · rintro rfl
    exact hself

theorem satisfies_block {g : Formula} {model answer : List (Literal Nat)}
    (hmodel : model.map Literal.atom = g.vars) (hanswer : answer.map Literal.atom = g.vars) :
    satisfies (g.push (Disjunction.blocking answer)) model =
      (decide (model ≠ answer) && satisfies g model) := by
  rw [Bool.eq_iff_iff, Bool.and_eq_true, satisfies_iff, satisfies_iff, decide_eq_true_eq,
    Formula.holds_push, Disjunction.holds_blocking, holds_valuation_iff hmodel hanswer, and_comm]

theorem allModels_block {g : Formula} {answer : List (Literal Nat)}
    {rest : List (List (Literal Nat))} (h : allModels g = answer :: rest) :
    allModels (g.push (Disjunction.blocking answer)) = rest := by
  have hanswer : answer.map Literal.atom = g.vars := (mem_allModels.1 (h ▸ .head _)).1
  have hvars : (g.push (Disjunction.blocking answer)).vars = g.vars :=
    Formula.vars_block fun l hl => hanswer ▸ List.mem_map_of_mem hl
  have hnodup := nodup_allModels g
  rw [h, List.nodup_cons] at hnodup
  calc
    allModels (g.push (Disjunction.blocking answer))
      = (allModels g).filter (· ≠ answer) := by
        rw [allModels_eq, allModels_eq, hvars, List.filter_filter]
        exact List.filter_congr fun model hmodel =>
          satisfies_block (mem_assignments.1 hmodel) hanswer
    _ = rest.filter (· ≠ answer) := by rw [h, List.filter_cons_of_neg (by simp)]
    _ = rest := by
        refine List.filter_eq_self.2 fun model hmodel => ?_
        have hne : model ≠ answer := fun he => hnodup.1 (he ▸ hmodel)
        simpa using hne

theorem solve_of_nil {g : Formula} (h : allModels g = []) : solve g = .unsatisfiable := by
  simp [solve, first?_eq, h]

theorem solve_of_cons {g : Formula} {answer : List (Literal Nat)}
    {rest : List (List (Literal Nat))} (h : allModels g = answer :: rest) :
    solve g = .satisfiable answer := by
  simp [solve, first?_eq, h]

theorem not_holds_of_nil {g : Formula} (h : allModels g = []) (τ : Nat → Bool) : ¬ g.Holds τ :=
  not_holds_of_first? (by rw [first?_eq, h]; rfl) τ

theorem totalModel_of_mem {g : Formula} {answer : List (Literal Nat)} (h : answer ∈ allModels g) :
    g.TotalModel answer := by
  obtain ⟨hvars, hholds⟩ := mem_allModels.1 h
  have hself := (holds_valuation_iff hvars hvars).2 rfl
  rw [eq_map_of_holds hself, hvars]
  exact Formula.totalModel_of_holds hholds

end Counting

theorem Exchange.complete_of_counting {x : Exchange}
    (h : x.reply = .ok (Counting.solve x.asked)) : x.Complete := by
  cases hmodels : Counting.allModels x.asked with
  | nil =>
      rw [Counting.solve_of_nil hmodels] at h
      refine ⟨⟨_, h⟩, iff_of_true h (Counting.not_holds_of_nil hmodels), fun answer hanswer => ?_⟩
      rw [h] at hanswer
      cases hanswer
  | cons answer rest =>
      have hmem : answer ∈ Counting.allModels x.asked := hmodels ▸ .head _
      rw [Counting.solve_of_cons hmodels] at h
      refine ⟨⟨_, h⟩, iff_of_false (by simp [h]) fun hfails => ?_, fun other hother => ?_⟩
      · exact hfails _ (Counting.mem_allModels.1 hmem).2
      · rw [h] at hother
        cases hother
        exact Counting.totalModel_of_mem hmem

theorem Exchange.Accepts.exists_rest {t : NameTable} {g : Formula}
    {reply : Except Error Verdict} {answer : List (Literal Nat)}
    (h : Accepts t ⟨g, reply⟩ answer) (hreply : reply = .ok (Counting.solve g)) :
    ∃ rest, Counting.allModels g = answer :: rest := by
  have hsolve : Counting.solve g = .satisfiable answer := Except.ok.inj (hreply.symm.trans h.1)
  cases hmodels : Counting.allModels g with
  | nil => simp [Counting.solve_of_nil hmodels] at hsolve
  | cons first rest =>
      rw [Counting.solve_of_cons hmodels] at hsolve
      cases hsolve
      exact ⟨rest, rfl⟩

namespace Trace

variable {t : NameTable} {g g' : Formula} {xs : List Exchange} {finished : Bool}

theorem asked_of_counting (h : Trace t g xs g' finished)
    (hreplies : ∀ x ∈ xs, x.reply = .ok (Counting.solve x.asked)) {k : Nat} {x : Exchange}
    (hx : xs[k]? = some x) :
    x.asked = g.blockAll ((Counting.allModels g).take k) ∧
      Counting.allModels x.asked = (Counting.allModels g).drop k := by
  induction h generalizing k with
  | idle g => simp at hx
  | ended hends =>
      cases k with
      | zero =>
          cases hx
          simp
      | succ k => simp at hx
  | accepted hacc htrace ih =>
      cases k with
      | zero =>
          cases hx
          simp
      | succ k =>
          obtain ⟨hfirst, hlater⟩ := List.forall_mem_cons.1 hreplies
          obtain ⟨rest, hrest⟩ := hacc.exists_rest hfirst
          obtain ⟨hasked, hleft⟩ := ih hlater hx
          rw [Counting.allModels_block hrest] at hasked hleft
          rw [hrest, List.take_succ_cons, List.drop_succ_cons, Formula.blockAll_cons]
          exact ⟨hasked, hleft⟩

theorem answers_of_counting (h : Trace t g xs g' finished)
    (hreplies : ∀ x ∈ xs, x.reply = .ok (Counting.solve x.asked))
    (hknown : ∀ v ∈ g.vars, t.Known v) (hfinished : finished = true) :
    Exchange.answers xs = Counting.allModels g := by
  induction h with
  | idle g => cases hfinished
  | @ended g reply item hends =>
      have hreply : reply = .ok (Counting.solve g) := hreplies _ (.head _)
      have hsound := (Exchange.complete_of_counting (x := ⟨g, reply⟩) hreply).sound
      cases hmodels : Counting.allModels g with
      | nil =>
          rw [Counting.solve_of_nil hmodels] at hreply
          simp [Exchange.answers, Exchange.answer?, hreply]
      | cons answer rest =>
          rw [Counting.solve_of_cons hmodels] at hreply
          rcases hsound.exhausted_or_vacuous hknown hends with hnone | ⟨hempty, hclauses⟩
          · simp [hreply] at hnone
          · have hg : g = ⟨[]⟩ := congrArg Formula.mk hclauses
            subst hg
            have hreply : reply = .ok (.satisfiable []) := hempty
            rw [← hmodels, hreply]
            rfl
  | accepted hacc htrace ih =>
      obtain ⟨hfirst, hlater⟩ := List.forall_mem_cons.1 hreplies
      obtain ⟨rest, hrest⟩ := hacc.exists_rest hfirst
      rw [answers_cons hacc, ih hlater (hacc.known_block hknown) hfinished,
        Counting.allModels_block hrest, hrest]

end Trace

namespace Enumerator

theorem answered_counting (f : Cnf) :
    (start Counting.oracle () f).Answered fun x => x.reply = .ok (Counting.solve x.asked) :=
  answered_of_always fun _ _ => rfl

/-- The session yields what a single count through the assignments lists, in the same order: each
call is left with the models that the calls before it have not found. -/
theorem solveAllWith_counting (f : Cnf) :
    let numbered := f.numbered .empty
    let answers := Counting.allModels numbered.1
    ∃ models : List Model,
      solveAllWith Counting.oracle () f = some (.ok models) ∧
      answers.map numbered.2.model = models.map .ok ∧
      models.Nodup ∧
      ∀ (n k : Nat) (x : Exchange),
        ((start Counting.oracle () f).exchanges n)[k]? = some x →
        x.asked = ⟨numbered.1.clauses ++ (answers.take k).map Disjunction.blocking⟩ ∧
          Counting.allModels x.asked = answers.drop k := by
  intro numbered answers
  have hreplies := answered_counting f
  have hsound := hreplies.imp fun x hx => (Exchange.complete_of_counting hx).sound
  have hfinished := finished_after hsound (Nat.lt_succ_self _)
  have hanswers := (trace_start Counting.oracle () f _).answers_of_counting (hreplies _)
    (fun _ => Cnf.mem_vars_numbered.1) hfinished
  have hsolve := solveAllWith_of_sound hsound
  have hnodup := readings_nodup hsound (2 ^ f.names.length + 1)
  have hknown := known_of_mem_answers (n := 2 ^ f.names.length + 1) hsound
  rw [hanswers] at hsolve hnodup hknown
  refine ⟨_, hsolve, ?_, hnodup, fun n k x hx =>
    (trace_start Counting.oracle () f n).asked_of_counting (hreplies n) hx⟩
  rw [List.map_map]
  exact List.map_congr_left fun answer hanswer => NameTable.model_of_known (hknown answer hanswer)

end Enumerator

end AllSat
