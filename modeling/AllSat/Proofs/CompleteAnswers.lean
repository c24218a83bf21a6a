import AllSat.Enumeration
import AllSat.Proofs.PartialAnswers

namespace AllSat

theorem negate_not_mem_of_nodup {answer : List (Literal Nat)}
    (h : (answer.map Literal.atom).Nodup) : ∀ l ∈ answer, l.negate ∉ answer :=
  fun l hl hnegate => l.negate_ne (List.inj_on_of_nodup_map h hnegate hl rfl)

namespace Formula

structure TotalModel (g : Formula) (answer : List (Literal Nat)) : Prop where
  atoms : (answer.map Literal.atom).Perm g.vars
  hits : ∀ c ∈ g.clauses, ∃ l ∈ c, l ∈ answer

variable {g : Formula} {answer : List (Literal Nat)}

theorem TotalModel.mem_atoms (h : g.TotalModel answer) {v : Nat} :
    (∃ l ∈ answer, l.atom = v) ↔ v ∈ g.vars := by
  rw [← h.atoms.mem_iff, List.mem_map]

theorem TotalModel.partialModel (h : g.TotalModel answer) : g.PartialModel answer where
  consistent := negate_not_mem_of_nodup (h.atoms.nodup_iff.2 g.nodup_vars)
  mentioned := fun l hl => h.mem_atoms.1 ⟨l, hl, rfl⟩
  hits := h.hits

theorem totalModel_of_holds {τ : Nat → Bool} (h : g.Holds τ) :
    g.TotalModel (g.vars.map fun v => ⟨v, τ v⟩) where
  atoms := by simp [Function.comp_def]
  hits := by
    intro c hc
    obtain ⟨l, hl, hτ⟩ := h c hc
    refine ⟨l, hl, List.mem_map.2 ⟨l.atom, mem_vars.2 ⟨c, hc, l, hl, rfl⟩, ?_⟩⟩
    rw [hτ]

theorem mem_vars_blockAll {answers : List (List (Literal Nat))} {v : Nat} (h : v ∈ g.vars) :
    v ∈ (g.blockAll answers).vars := by
  obtain ⟨c, hc, l, hl, rfl⟩ := mem_vars.1 h
  exact mem_vars.2 ⟨c, List.mem_append_left _ hc, l, hl, rfl⟩

end Formula

structure Exchange.Complete (x : Exchange) : Prop where
  replies : ∃ verdict, x.reply = .ok verdict
  refutes : x.reply = .ok .unsatisfiable ↔ ∀ τ, ¬ x.asked.Holds τ
  answers : ∀ answer, x.reply = .ok (.satisfiable answer) → x.asked.TotalModel answer

theorem Exchange.Complete.sound {x : Exchange} (h : x.Complete) : x.Sound where
  replies := h.replies
  refutes := h.refutes.1
  answers := fun answer hreply => (h.answers answer hreply).partialModel

theorem Learning.always_complete : Learning.oracle.Always Exchange.Complete := by
  intro memory g
  refine ⟨⟨Learning.solve g, rfl⟩, ?_, ?_⟩
  · rw [← Learning.solve_eq_unsatisfiable_iff]
    exact ⟨Except.ok.inj, congrArg Except.ok⟩
  · intro answer hreply
    have hsolve : Learning.solve g = .satisfiable answer := Except.ok.inj hreply
    obtain ⟨τ, hτ, rfl⟩ := Learning.of_solve_eq_satisfiable hsolve
    exact Formula.totalModel_of_holds hτ

theorem contains_reading_of_total {t : NameTable} {answer : List (Literal Nat)}
    {τ : String → Bool} (hknown : ∀ l ∈ answer, t.Known l.atom)
    (htotal : ∀ v, t.Known v → ∃ l ∈ answer, l.atom = v)
    (hτ : ∀ l ∈ answer, l.Holds (τ ∘ t.name)) (name : String) :
    (t.reading answer).contains name = true ↔ name ∈ t.names ∧ τ name = true := by
  rw [NameTable.contains_reading hknown]
  apply and_congr_right
  intro hname
  constructor
  · intro hmem
    have hholds := hτ _ hmem
    rw [Literal.holds_pos] at hholds
    simpa [NameTable.name_number hname] using hholds
  · intro htrue
    obtain ⟨l, hl, hatom⟩ := htotal _ (NameTable.known_number hname)
    have hholds := hτ l hl
    simp only [Literal.Holds, Function.comp_apply, hatom, NameTable.name_number hname,
      htrue] at hholds
    cases l with
    | mk v positive =>
        cases hatom
        cases hholds
        exact hl

theorem holds_contains_reading {t : NameTable} {answer : List (Literal Nat)}
    (hknown : ∀ l ∈ answer, t.Known l.atom) (hconsistent : ∀ l ∈ answer, l.negate ∉ answer) :
    ∀ l ∈ answer, l.Holds ((t.reading answer).contains ∘ t.name) := by
  intro l hl
  have hcontains : (t.reading answer).contains (t.name l.atom) = true ↔ _ :=
    NameTable.contains_reading hknown
  rw [NameTable.number_name (hknown l hl)] at hcontains
  have hname := NameTable.name_mem (hknown l hl)
  cases l with
  | mk v positive =>
      cases positive with
      | true => exact hcontains.2 ⟨hname, hl⟩
      | false =>
          have habsent : ¬ (t.reading answer).contains (t.name v) = true :=
            fun htrue => hconsistent _ hl (hcontains.1 htrue).2
          exact Bool.eq_false_iff.2 habsent

namespace Enumerator

variable {σ : Type}

theorem Answered.imp {P Q : Exchange → Prop} {e : Enumerator σ} (h : e.Answered P)
    (himp : ∀ x, P x → Q x) : e.Answered Q :=
  fun n x hx => himp x (h n x hx)

theorem exists_mem_of_known {o : Oracle σ} {memory : σ} {f : Cnf} {n : Nat}
    (h : (start o memory f).Answered Exchange.Complete) {answer : List (Literal Nat)}
    (hanswer : answer ∈ Exchange.answers ((start o memory f).exchanges n)) {v : Nat}
    (hv : (f.numbered .empty).2.Known v) : ∃ l ∈ answer, l.atom = v := by
  obtain ⟨x, hx, hxanswer⟩ := Trace.mem_answers.1 hanswer
  obtain ⟨k, hk⟩ := List.getElem?_of_mem hx
  have hasked : v ∈ x.asked.vars := by
    rw [((trace_start o memory f n).asked_eq hk).2]
    exact Formula.mem_vars_blockAll (Cnf.mem_vars_numbered.2 hv)
  have hreply := Exchange.answer?_eq_some_iff.1 hxanswer
  exact ((h n x hx).answers answer hreply).mem_atoms.2 hasked

theorem mem_readings_iff {o : Oracle σ} {memory : σ} {f : Cnf} {n : Nat}
    (h : (start o memory f).Answered Exchange.Complete)
    (hfinished : ((start o memory f).after n).finished = true) {m : Model} :
    m ∈ (Exchange.answers ((start o memory f).exchanges n)).map (f.numbered .empty).2.reading ↔
      ∃ τ, f.Holds τ ∧ ∀ name, m.contains name = true ↔ name ∈ f.names ∧ τ name = true := by
  have hsound := h.imp fun _ => Exchange.Complete.sound
  have htrace := trace_start o memory f n
  have hknown := known_of_mem_answers (n := n) hsound
  constructor
  · intro hm
    obtain ⟨answer, hanswer, rfl⟩ := List.mem_map.1 hm
    have hholds := holds_contains_reading (hknown answer hanswer)
      (consistent_of_mem_answers hsound hanswer)
    refine ⟨((f.numbered .empty).2.reading answer).contains, ?_, ?_⟩
    · apply Cnf.holds_numbered_name.1
      intro c hc
      obtain ⟨l, hl, hmem⟩ := htrace.hits (hsound n) answer hanswer c hc
      exact ⟨l, hl, hholds l hmem⟩
    · intro name
      rw [← Cnf.names_numbered, iff_and_self]
      exact fun hname => ((NameTable.contains_reading (hknown answer hanswer)).1 hname).1
  · rintro ⟨τ, hτ, hm⟩
    obtain ⟨answer, hanswer, hholds⟩ := htrace.covered (hsound n)
      (fun _ => Cnf.mem_vars_numbered.1) hfinished (Cnf.holds_numbered_name.2 hτ)
    refine List.mem_map.2 ⟨answer, hanswer, ?_⟩
    apply Model.ext
    intro name
    rw [Bool.eq_iff_iff, contains_reading_of_total (hknown answer hanswer)
      (fun v => exists_mem_of_known h hanswer) hholds, hm name, Cnf.names_numbered]

theorem length_exchanges_of_finished {o : Oracle σ} {memory : σ} {f : Cnf} {n : Nat}
    (h : (start o memory f).Answered Exchange.Sound)
    (hfinished : ((start o memory f).after n).finished = true) :
    ((start o memory f).exchanges n).length =
      if f.clauses = [] then 1
      else (Exchange.answers ((start o memory f).exchanges n)).length + 1 := by
  have htrace := trace_start o memory f n
  have hclauses : (f.numbered .empty).1.clauses = [] ↔ f.clauses = [] := by
    simp [Cnf.numbered, Cnf.conjunction]
  split
  · rename_i hnil
    rw [hfinished] at htrace
    exact (htrace.answers_of_nil (h n) (hclauses.2 hnil)).1
  · rename_i hne
    exact htrace.length_of_ne_nil (h n) (fun _ => Cnf.mem_vars_numbered.1) hfinished
      (mt hclauses.1 hne)

theorem finished_of_length_answers_lt {o : Oracle σ} {memory : σ} {f : Cnf} {m n : Nat}
    (hm : ((start o memory f).after m).finished = true)
    (hn : (Exchange.answers ((start o memory f).exchanges m)).length < n) :
    ((start o memory f).after n).finished = true := by
  cases hopen : ((start o memory f).after n).finished with
  | true => rfl
  | false =>
      have htrace := trace_start o memory f n
      rw [hopen] at htrace
      have hlength := htrace.length_answers_of_open
      rw [length_exchanges_of_open hopen] at hlength
      have hprefix := ((exchanges_prefix_of_finished hm n).filterMap Exchange.answer?).length_le
      simp only [Exchange.answers] at hlength hn
      omega

theorem drain_of_length_answers_lt {o : Oracle σ} {memory : σ} {f : Cnf} {m n : Nat}
    (h : (start o memory f).Answered Exchange.Sound)
    (hm : ((start o memory f).after m).finished = true)
    (hn : (Exchange.answers ((start o memory f).exchanges m)).length < n) :
    (start o memory f).drain n =
      some (((Exchange.answers ((start o memory f).exchanges m)).map
        (f.numbered .empty).2.reading).map .ok, (start o memory f).after m) := by
  have hdone := finished_of_length_answers_lt hm hn
  have hitems := (trace_start o memory f m).filterMap_item? (h m) fun _ => Cnf.mem_vars_numbered.1
  rw [drain_of_finished hdone, exchanges_eq_of_finished hdone hm, after_eq_of_finished hdone hm]
  exact congrArg (fun items => some (items, _)) hitems

theorem solveAllWith_of_sound {o : Oracle σ} {memory : σ} {f : Cnf}
    (h : (start o memory f).Answered Exchange.Sound) :
    solveAllWith o memory f =
      some (.ok ((Exchange.answers ((start o memory f).exchanges (2 ^ f.names.length + 1))).map
        (f.numbered .empty).2.reading)) := by
  have hfinished := finished_after h (Nat.lt_succ_self _)
  have hlength := length_answers_le h (2 ^ f.names.length + 1)
  simp only [solveAllWith]
  rw [callBound_start, drain_of_length_answers_lt h hfinished (Nat.lt_succ_of_le hlength),
    Option.map_some, collect_map_ok]

/-- With complete answers each model is found once, by one call each and a last one that finds
nothing; the conjunction without clauses needs no last one. -/
theorem solveAllWith_of_complete (o : Oracle σ) (memory : σ) (f : Cnf)
    (h : (start o memory f).Answered Exchange.Complete) :
    ∃ (models : List Model) (e : Enumerator σ),
      solveAllWith o memory f = some (.ok models) ∧
      models.Nodup ∧
      (∀ m, m ∈ models ↔
        ∃ τ, f.Holds τ ∧ ∀ name, m.contains name = true ↔ name ∈ f.names ∧ τ name = true) ∧
      (∀ n, models.length + 1 ≤ n → (start o memory f).drain n = some (models.map .ok, e) ∧
        ((start o.recording (memory, []) f).after n).memory.2.length = e.calls) ∧
      e.calls = (if f.clauses = [] then 1 else models.length + 1) ∧
      (f.clauses = [] → models = [.empty]) := by
  have hsound := h.imp fun _ => Exchange.Complete.sound
  have hfinished := finished_after hsound (Nat.lt_succ_self _)
  have htrace := trace_start o memory f (2 ^ f.names.length + 1)
  let answers := Exchange.answers ((start o memory f).exchanges (2 ^ f.names.length + 1))
  let models := answers.map (f.numbered .empty).2.reading
  have hlength : models.length = answers.length := List.length_map _
  have hcalls := calls_after (2 ^ f.names.length + 1) (start o memory f)
  have hdrain : ∀ n, models.length + 1 ≤ n → (start o memory f).drain n =
      some (models.map .ok, (start o memory f).after (2 ^ f.names.length + 1)) :=
    fun n hn => drain_of_length_answers_lt hsound hfinished (hlength ▸ hn)
  refine ⟨models, _, ?_, readings_nodup hsound _, fun m => mem_readings_iff h hfinished,
    fun n hn => ⟨hdrain n hn, ?_⟩, ?_, ?_⟩
  · have hle : models.length ≤ 2 ^ f.names.length := hlength ▸ length_answers_le hsound _
    simp only [solveAllWith]
    rw [callBound_start, hdrain _ (Nat.succ_le_succ hle), Option.map_some, collect_map_ok]
  · have hdone := finished_of_length_answers_lt hfinished (hlength ▸ hn)
    rw [log_after, List.length_map, exchanges_eq_of_finished hdone hfinished, hcalls]
    exact (Nat.zero_add _).symm
  · rw [hcalls, length_exchanges_of_finished hsound hfinished, hlength]
    exact Nat.zero_add _
  · intro hnil
    have hbase : (f.numbered .empty).1.clauses = [] := by simp [Cnf.numbered, Cnf.conjunction, hnil]
    rw [hfinished] at htrace
    have hanswers : answers = [[]] := (htrace.answers_of_nil (hsound _) hbase).2
    simp only [models, hanswers]
    rfl

theorem either_name_solved :
    Learning.oracle.Always Exchange.Complete ∧
      ∃ models : List Model, solveAllWith Learning.oracle () eitherName = some (.ok models) ∧
        models.Nodup := by
  have halways := Learning.always_complete
  obtain ⟨models, -, hsolve, hnodup, -⟩ :=
    solveAllWith_of_complete Learning.oracle () eitherName (answered_of_always halways)
  exact ⟨halways, models, hsolve, hnodup⟩

end Enumerator

end AllSat
