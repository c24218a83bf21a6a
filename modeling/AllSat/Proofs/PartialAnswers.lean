import AllSat.Proofs.Transcript
import Mathlib.Data.Finset.Powerset

namespace AllSat

structure Formula.PartialModel (g : Formula) (answer : List (Literal Nat)) : Prop where
  consistent : ∀ l ∈ answer, l.negate ∉ answer
  mentioned : ∀ l ∈ answer, l.atom ∈ g.vars
  hits : ∀ c ∈ g.clauses, ∃ l ∈ c, l ∈ answer

theorem Formula.PartialModel.holds {g : Formula} {answer : List (Literal Nat)} {τ : Nat → Bool}
    (h : g.PartialModel answer) (hτ : ∀ l ∈ answer, l.Holds τ) : g.Holds τ := by
  intro c hc
  obtain ⟨l, hl, hmem⟩ := h.hits c hc
  exact ⟨l, hl, hτ l hmem⟩

structure Exchange.Sound (x : Exchange) : Prop where
  replies : ∃ verdict, x.reply = .ok verdict
  refutes : x.reply = .ok .unsatisfiable → ∀ τ, ¬ x.asked.Holds τ
  answers : ∀ answer, x.reply = .ok (.satisfiable answer) → x.asked.PartialModel answer

def Exchange.answers (xs : List Exchange) : List (List (Literal Nat)) :=
  xs.filterMap Exchange.answer?

theorem Exchange.Sound.partialModel {x : Exchange} {answer : List (Literal Nat)} (h : x.Sound)
    (hanswer : x.answer? = some answer) : x.asked.PartialModel answer :=
  h.answers answer (answer?_eq_some_iff.1 hanswer)

theorem Exchange.Sound.exhausted_or_vacuous {t : NameTable} {x : Exchange}
    {item : Option (Except Error Model)} (h : x.Sound) (hknown : ∀ v ∈ x.asked.vars, t.Known v)
    (hends : x.Ends t item) :
    x.reply = .ok .unsatisfiable ∨
      x.reply = .ok (.satisfiable []) ∧ x.asked.clauses = [] := by
  cases hends with
  | failure g cause =>
      obtain ⟨verdict, hreply⟩ := h.replies
      cases hreply
  | exhausted g => exact .inl rfl
  | unknown g hbefore hl =>
      have hmentioned := (h.answers _ rfl).mentioned _ (List.mem_append_right _ (.head _))
      exact absurd (hknown _ hmentioned) hl
  | vacuous g =>
      refine .inr ⟨rfl, List.eq_nil_iff_forall_not_mem.2 fun c hc => ?_⟩
      obtain ⟨l, -, hl⟩ := (h.answers [] rfl).hits c hc
      cases hl

def Conflict (a b : List (Literal Nat)) : Prop := ∃ l ∈ a, l.negate ∈ b

theorem Conflict.not_holds {a b : List (Literal Nat)} {τ : Nat → Bool} (h : Conflict a b)
    (ha : ∀ l ∈ a, l.Holds τ) : ¬ ∀ l ∈ b, l.Holds τ := by
  intro hb
  obtain ⟨l, hla, hlb⟩ := h
  exact Literal.holds_negate.1 (hb _ hlb) (ha l hla)

theorem index_eq_of_pairwise_conflict {answers : List (List (Literal Nat))} {τ : Nat → Bool}
    {i j : Nat} {a b : List (Literal Nat)} (h : answers.Pairwise Conflict)
    (hi : answers[i]? = some a) (hj : answers[j]? = some b) (ha : ∀ l ∈ a, l.Holds τ)
    (hb : ∀ l ∈ b, l.Holds τ) : i = j := by
  obtain ⟨hilt, rfl⟩ := List.getElem?_eq_some_iff.1 hi
  obtain ⟨hjlt, rfl⟩ := List.getElem?_eq_some_iff.1 hj
  rcases Nat.lt_trichotomy i j with hlt | heq | hgt
  · exact absurd hb ((List.pairwise_iff_getElem.1 h i j hilt hjlt hlt).not_holds ha)
  · exact heq
  · exact absurd ha ((List.pairwise_iff_getElem.1 h j i hjlt hilt hgt).not_holds hb)

namespace Trace

variable {t : NameTable} {g g' : Formula} {xs : List Exchange} {finished : Bool}

theorem mem_answers {answer : List (Literal Nat)} :
    answer ∈ Exchange.answers xs ↔ ∃ x ∈ xs, x.answer? = some answer := by
  simp [Exchange.answers]

theorem answers_cons {x : Exchange} {answer : List (Literal Nat)} (h : x.Accepts t answer) :
    Exchange.answers (x :: xs) = answer :: Exchange.answers xs := by
  simp [Exchange.answers, h.answer?_eq]

theorem hits (h : Trace t g xs g' finished) (hsound : ∀ x ∈ xs, x.Sound) :
    ∀ answer ∈ Exchange.answers xs, ∀ c ∈ g.clauses, ∃ l ∈ c, l ∈ answer := by
  induction h with
  | idle g => simp [Exchange.answers]
  | ended hends =>
      intro answer hanswer
      obtain ⟨x, hx, hxanswer⟩ := mem_answers.1 hanswer
      cases List.mem_singleton.1 hx
      exact ((hsound _ hx).partialModel hxanswer).hits
  | accepted hacc htrace ih =>
      intro answer hanswer c hc
      rw [answers_cons hacc] at hanswer
      rcases List.mem_cons.1 hanswer with rfl | hlater
      · exact ((hsound _ (by simp)).partialModel hacc.answer?_eq).hits c hc
      · exact ih (fun x hx => hsound x (by simp [hx])) answer hlater c
          (List.mem_append.2 (.inl hc))

theorem pairwise_conflict (h : Trace t g xs g' finished) (hsound : ∀ x ∈ xs, x.Sound) :
    (Exchange.answers xs).Pairwise Conflict := by
  induction h with
  | idle g => exact .nil
  | @ended g reply _ hends =>
      cases hanswer : Exchange.answer? ⟨g, reply⟩ <;> simp [Exchange.answers, hanswer]
  | accepted hacc htrace ih =>
      have hlater := fun x hx => hsound x (List.mem_cons_of_mem _ hx)
      rw [answers_cons hacc]
      refine List.pairwise_cons.2 ⟨fun answer hanswer => ?_, ih hlater⟩
      -- a later answer makes the clause true that blocks this one
      obtain ⟨m, hm, hmem⟩ := htrace.hits hlater answer hanswer _
        (List.mem_append.2 (.inr (List.mem_singleton.2 rfl)))
      obtain ⟨l, hl, rfl⟩ := List.mem_map.1 hm
      exact ⟨l, hl, hmem⟩

theorem covered (h : Trace t g xs g' finished) (hsound : ∀ x ∈ xs, x.Sound)
    (hknown : ∀ v ∈ g.vars, t.Known v) (hfinished : finished = true) {τ : Nat → Bool}
    (hτ : g.Holds τ) : ∃ answer ∈ Exchange.answers xs, ∀ l ∈ answer, l.Holds τ := by
  induction h with
  | idle g => cases hfinished
  | @ended g reply item hends =>
      have hx := hsound _ (List.mem_singleton.2 rfl)
      rcases hx.exhausted_or_vacuous hknown hends with hreply | ⟨hreply, -⟩
      · exact absurd hτ (hx.refutes hreply τ)
      · exact ⟨[], mem_answers.2 ⟨_, .head _, by simp_all [Exchange.answer?]⟩, by simp⟩
  | @accepted g reply answer xs g' finished hacc htrace ih =>
      rw [answers_cons hacc]
      by_cases hall : ∀ l ∈ answer, l.Holds τ
      · exact ⟨answer, by simp, hall⟩
      · have hblock := Formula.holds_push.2 ⟨hτ, Disjunction.holds_blocking.2 hall⟩
        obtain ⟨later, hmem, hlater⟩ := ih (fun x hx => hsound x (by simp [hx]))
          (hacc.known_block hknown) hfinished hblock
        exact ⟨later, by simp [hmem], hlater⟩

theorem known_of_mem_answers (h : Trace t g xs g' finished) (hsound : ∀ x ∈ xs, x.Sound)
    (hknown : ∀ v ∈ g.vars, t.Known v) :
    ∀ answer ∈ Exchange.answers xs, ∀ l ∈ answer, t.Known l.atom := by
  induction h with
  | idle g => simp [Exchange.answers]
  | ended hends =>
      intro answer hanswer l hl
      obtain ⟨x, hx, hxanswer⟩ := mem_answers.1 hanswer
      cases List.mem_singleton.1 hx
      exact hknown _ (((hsound _ hx).partialModel hxanswer).mentioned l hl)
  | accepted hacc htrace ih =>
      intro answer hanswer
      rw [answers_cons hacc] at hanswer
      rcases List.mem_cons.1 hanswer with rfl | hlater
      · exact hacc.2.2
      · exact ih (fun x hx => hsound x (by simp [hx])) (hacc.known_block hknown) answer hlater

theorem length_answers_of_open (h : Trace t g xs g' false) :
    (Exchange.answers xs).length = xs.length := by
  generalize hopen : false = finished at h
  induction h with
  | idle g => rfl
  | ended hends => cases hopen
  | accepted hacc htrace ih => rw [answers_cons hacc, List.length_cons, List.length_cons, ih hopen]

theorem length_le (h : Trace t g xs g' finished) :
    xs.length ≤ (Exchange.answers xs).length + 1 := by
  induction h with
  | idle g => simp
  | ended hends => simp
  | accepted hacc htrace ih =>
      rw [answers_cons hacc, List.length_cons, List.length_cons]
      omega

theorem length_of_ne_nil (h : Trace t g xs g' finished) (hsound : ∀ x ∈ xs, x.Sound)
    (hknown : ∀ v ∈ g.vars, t.Known v) (hfinished : finished = true) (hne : g.clauses ≠ []) :
    xs.length = (Exchange.answers xs).length + 1 := by
  induction h with
  | idle g => cases hfinished
  | @ended g reply item hends =>
      rcases (hsound _ (.head _)).exhausted_or_vacuous hknown hends with hreply | ⟨-, hnil⟩
      · simp_all [Exchange.answers, Exchange.answer?]
      · exact absurd hnil hne
  | accepted hacc htrace ih =>
      have hrest := ih (fun x hx => hsound x (by simp [hx])) (hacc.known_block hknown) hfinished
        (by simp [Formula.push])
      rw [answers_cons hacc, List.length_cons, List.length_cons, hrest]

theorem answers_of_nil (h : Trace t g xs g' true) (hsound : ∀ x ∈ xs, x.Sound)
    (hnil : g.clauses = []) : xs.length = 1 ∧ Exchange.answers xs = [[]] := by
  have hvars : ∀ v, v ∉ g.vars := by
    intro v hv
    obtain ⟨c, hc, -⟩ := Formula.mem_vars.1 hv
    simp [hnil] at hc
  cases h with
  | ended hends =>
      have hx := hsound _ (.head _)
      rcases hx.exhausted_or_vacuous (fun v hv => absurd hv (hvars v)) hends with
        hreply | ⟨hreply, -⟩
      · refine absurd ?_ (hx.refutes hreply fun _ => true)
        simp [Formula.Holds, Conjunction.Holds, hnil]
      · simp_all [Exchange.answers, Exchange.answer?]
  | accepted hacc htrace =>
      obtain ⟨l, hl⟩ := List.exists_mem_of_ne_nil _ hacc.2.1
      have hmentioned := ((hsound _ (.head _)).partialModel hacc.answer?_eq).mentioned l hl
      exact absurd hmentioned (hvars _)

theorem filterMap_item? (h : Trace t g xs g' finished) (hsound : ∀ x ∈ xs, x.Sound)
    (hknown : ∀ v ∈ g.vars, t.Known v) :
    xs.filterMap (Exchange.item? t) = ((Exchange.answers xs).map t.reading).map .ok := by
  have hanswers := h.known_of_mem_answers hsound hknown
  clear h
  induction xs with
  | nil => rfl
  | cons x xs ih =>
      have hrest := ih (fun y hy => hsound y (by simp [hy])) fun answer hanswer => by
        obtain ⟨y, hy, hyanswer⟩ := mem_answers.1 hanswer
        exact hanswers answer (mem_answers.2 ⟨y, by simp [hy], hyanswer⟩)
      obtain ⟨verdict, hreply⟩ := (hsound x (by simp)).replies
      cases verdict with
      | unsatisfiable =>
          simp only [Exchange.answers] at hrest ⊢
          rw [List.filterMap_cons_none (by simp [Exchange.item?, hreply]), hrest,
            List.filterMap_cons_none (by simp [Exchange.answer?, hreply])]
      | satisfiable answer =>
          have hanswer : x.answer? = some answer := by simp [Exchange.answer?, hreply]
          have hmodel := NameTable.model_of_known
            (hanswers answer (mem_answers.2 ⟨x, by simp, hanswer⟩))
          simp only [Exchange.answers] at hrest ⊢
          rw [List.filterMap_cons_some (by simp [Exchange.item?, hreply, hmodel]; rfl), hrest,
            List.filterMap_cons_some hanswer]
          rfl

end Trace

theorem reading_ne_of_conflict {t : NameTable} {a b : List (Literal Nat)}
    (ha : ∀ l ∈ a, t.Known l.atom) (hb : ∀ l ∈ b, t.Known l.atom)
    (hca : ∀ l ∈ a, l.negate ∉ a) (hcb : ∀ l ∈ b, l.negate ∉ b) (h : Conflict a b) :
    t.reading a ≠ t.reading b := by
  intro heq
  obtain ⟨l, hla, hlb⟩ := h
  have hl := ha l hla
  have hmem : Literal.pos l.atom ∈ a ↔ Literal.pos l.atom ∈ b := by
    have hcontains := congrArg (·.contains (t.name l.atom)) heq
    have hname := NameTable.name_mem hl
    have hboth := Bool.eq_iff_iff.1 hcontains
    simpa [NameTable.contains_reading ha, NameTable.contains_reading hb, hname,
      NameTable.number_name hl] using hboth
  cases l with
  | mk v positive =>
      cases positive with
      | true => exact hcb _ hlb (hmem.1 hla)
      | false => exact hca _ hla (hmem.2 hlb)

theorem length_le_two_pow {names : List String} {models : List Model} (h : models.Nodup)
    (hsub : ∀ m ∈ models, ∀ name, m.contains name = true → name ∈ names) :
    models.length ≤ 2 ^ names.length := by
  have hinj : Function.Injective fun m : Model => m.names.toFinset := by
    intro m n hmn
    apply Model.ext
    intro name
    rw [Bool.eq_iff_iff]
    have hname := congrArg (name ∈ ·) hmn
    simpa [Model.contains_iff] using hname
  have hcard := List.toFinset_card_of_nodup (h.map hinj)
  have hpower : (models.map fun m => m.names.toFinset).toFinset ⊆ names.toFinset.powerset := by
    intro s hs
    obtain ⟨m, hm, rfl⟩ := List.mem_map.1 (List.mem_toFinset.1 hs)
    rw [Finset.mem_powerset]
    intro name hname
    rw [List.mem_toFinset] at hname ⊢
    exact hsub m hm name (Model.contains_iff.2 hname)
  have hle := Finset.card_le_card hpower
  rw [hcard, List.length_map, Finset.card_powerset] at hle
  exact hle.trans (Nat.pow_le_pow_right (by omega) (List.toFinset_card_le names))

def NameTable.Extends (t : NameTable) (τ : String → Bool) (answer : List (Literal Nat)) : Prop :=
  ∀ l ∈ answer, ∃ m, t.resolveLiteral l = .ok m ∧ m.Holds τ

theorem NameTable.extends_iff {t : NameTable} {τ : String → Bool} {answer : List (Literal Nat)}
    (h : ∀ l ∈ answer, t.Known l.atom) :
    t.Extends τ answer ↔ ∀ l ∈ answer, l.Holds (τ ∘ t.name) := by
  apply forall₂_congr
  intro l hl
  rw [resolveLiteral_of_known (h l hl)]
  constructor
  · rintro ⟨m, hm, hτ⟩
    cases hm
    exact hτ
  · intro hτ
    exact ⟨_, rfl, hτ⟩

def Oracle.Always {σ : Type} (P : Exchange → Prop) (o : Oracle σ) : Prop :=
  ∀ memory g, P ⟨g, (o.solve memory g).1⟩

namespace Enumerator

variable {σ : Type}

def Answered (P : Exchange → Prop) (e : Enumerator σ) : Prop := ∀ n, ∀ x ∈ e.exchanges n, P x

theorem answered_of_finished {P : Exchange → Prop} {e : Enumerator σ} {m : Nat}
    (h : (e.after m).finished = true) (hall : ∀ x ∈ e.exchanges m, P x) : e.Answered P :=
  fun n x hx => hall x ((exchanges_prefix_of_finished h n).subset hx)

theorem answered_of_always {P : Exchange → Prop} {e : Enumerator σ} (h : e.oracle.Always P) :
    e.Answered P := by
  intro n
  induction n generalizing e with
  | zero => simp [exchanges]
  | succ n ih =>
      cases hdone : e.finished with
      | true => simp [exchanges_of_finished hdone]
      | false =>
          have hnext : e.next.2.oracle.Always P := by rwa [oracle_next]
          rw [exchanges_succ hdone, List.forall_mem_cons]
          exact ⟨h e.memory e.working, ih hnext⟩

theorem known_of_mem_answers {o : Oracle σ} {memory : σ} {f : Cnf}
    (h : (start o memory f).Answered Exchange.Sound) {n : Nat} :
    ∀ answer ∈ Exchange.answers ((start o memory f).exchanges n),
      ∀ l ∈ answer, (f.numbered .empty).2.Known l.atom :=
  (trace_start o memory f n).known_of_mem_answers (h n) fun _ => Cnf.mem_vars_numbered.1

theorem consistent_of_mem_answers {o : Oracle σ} {memory : σ} {f : Cnf} {n : Nat}
    (h : (start o memory f).Answered Exchange.Sound) {answer : List (Literal Nat)}
    (hanswer : answer ∈ Exchange.answers ((start o memory f).exchanges n)) :
    ∀ l ∈ answer, l.negate ∉ answer := by
  obtain ⟨x, hx, hxanswer⟩ := Trace.mem_answers.1 hanswer
  exact ((h n x hx).partialModel hxanswer).consistent

theorem readings_nodup {o : Oracle σ} {memory : σ} {f : Cnf}
    (h : (start o memory f).Answered Exchange.Sound) (n : Nat) :
    ((Exchange.answers ((start o memory f).exchanges n)).map
      (f.numbered .empty).2.reading).Nodup := by
  have htrace := trace_start o memory f n
  have hanswers := known_of_mem_answers (n := n) h
  refine List.pairwise_map.2 ((htrace.pairwise_conflict (h n)).imp_of_mem ?_)
  intro a b ha hb hconflict
  exact reading_ne_of_conflict (hanswers a ha) (hanswers b hb) (consistent_of_mem_answers h ha)
    (consistent_of_mem_answers h hb) hconflict

theorem length_answers_le {o : Oracle σ} {memory : σ} {f : Cnf}
    (h : (start o memory f).Answered Exchange.Sound) (n : Nat) :
    (Exchange.answers ((start o memory f).exchanges n)).length ≤ 2 ^ f.names.length := by
  have hanswers := known_of_mem_answers (n := n) h
  have hsub : ∀ m ∈ (Exchange.answers ((start o memory f).exchanges n)).map
      (f.numbered .empty).2.reading, ∀ name, m.contains name = true → name ∈ f.names := by
    intro m hm name hname
    obtain ⟨answer, hanswer, rfl⟩ := List.mem_map.1 hm
    rw [← Cnf.names_numbered]
    exact ((NameTable.contains_reading (hanswers answer hanswer)).1 hname).1
  have hle := length_le_two_pow (readings_nodup h n) hsub
  rwa [List.length_map] at hle

theorem callBound_start (o : Oracle σ) (memory : σ) (f : Cnf) :
    (start o memory f).callBound = 2 ^ f.names.length + 1 := by
  rw [callBound, ← Cnf.size_numbered]
  rfl

theorem finished_after {o : Oracle σ} {memory : σ} {f : Cnf}
    (h : (start o memory f).Answered Exchange.Sound) {n : Nat} (hn : 2 ^ f.names.length < n) :
    ((start o memory f).after n).finished = true := by
  cases hfinished : ((start o memory f).after n).finished with
  | true => rfl
  | false =>
      have htrace := trace_start o memory f n
      rw [hfinished] at htrace
      have hlength := htrace.length_answers_of_open
      rw [length_exchanges_of_open hfinished] at hlength
      have hle := length_answers_le h n
      omega

theorem drain_of_finished {e : Enumerator σ} {n : Nat} (h : (e.after n).finished = true) :
    e.drain n = some ((e.exchanges n).filterMap (Exchange.item? e.table), e.after n) := by
  simp [drain, take_eq, h]

theorem holds_of_extends {o : Oracle σ} {memory : σ} {f : Cnf}
    (h : (start o memory f).Answered Exchange.Sound) {n : Nat} {answer : List (Literal Nat)}
    (hanswer : answer ∈ Exchange.answers ((start o memory f).exchanges n)) {τ : String → Bool}
    (hextends : (f.numbered .empty).2.Extends τ answer) : f.Holds τ := by
  have hholds := (NameTable.extends_iff (known_of_mem_answers h answer hanswer)).1 hextends
  apply Cnf.holds_numbered_name.1
  intro c hc
  obtain ⟨l, hl, hmem⟩ := (trace_start o memory f n).hits (h n) answer hanswer c hc
  exact ⟨l, hl, hholds l hmem⟩

theorem existsUnique_extends {o : Oracle σ} {memory : σ} {f : Cnf}
    (h : (start o memory f).Answered Exchange.Sound) {n : Nat}
    (hfinished : ((start o memory f).after n).finished = true) {τ : String → Bool}
    (hτ : f.Holds τ) :
    ∃! k : Nat, ∃ answer, (Exchange.answers ((start o memory f).exchanges n))[k]? = some answer ∧
      (f.numbered .empty).2.Extends τ answer := by
  have htrace := trace_start o memory f n
  obtain ⟨answer, hmem, hholds⟩ := htrace.covered (h n) (fun _ => Cnf.mem_vars_numbered.1)
    hfinished (Cnf.holds_numbered_name.2 hτ)
  obtain ⟨k, hk⟩ := List.getElem?_of_mem hmem
  have hknown := known_of_mem_answers h answer hmem
  refine ⟨k, ⟨answer, hk, (NameTable.extends_iff hknown).2 hholds⟩, ?_⟩
  rintro j ⟨other, hj, hextends⟩
  have hother := known_of_mem_answers h other (List.mem_of_getElem? hj)
  exact index_eq_of_pairwise_conflict (htrace.pairwise_conflict (h n)) hj hk
    ((NameTable.extends_iff hother).1 hextends) hholds

/-- Answers that leave variables open still part the models among them: each model extends one
answer, and each answer has models only. -/
theorem sound_answers_partition (o : Oracle σ) (memory : σ) (f : Cnf)
    (h : (start o memory f).Answered Exchange.Sound) (n : Nat) (hn : 2 ^ f.names.length + 1 ≤ n) :
    let table := (f.numbered .empty).2
    let answers := Exchange.answers ((start o memory f).exchanges n)
    ∃ models : List Model,
      (start o memory f).drain n = some (models.map .ok, (start o memory f).after n) ∧
      ((start o.recording (memory, []) f).after n).memory.2.length ≤ 2 ^ f.names.length + 1 ∧
      answers.map table.model = models.map .ok ∧
      models.Nodup ∧
      (∀ τ, f.Holds τ → ∃! k : Nat, ∃ answer, answers[k]? = some answer ∧ table.Extends τ answer) ∧
      ∀ answer ∈ answers, ∀ τ, table.Extends τ answer → f.Holds τ := by
  intro table answers
  have htrace := trace_start o memory f n
  have hfinished := finished_after h hn
  refine ⟨answers.map table.reading, ?_, ?_, ?_, readings_nodup h n,
    fun τ => existsUnique_extends h hfinished, fun answer hanswer τ => holds_of_extends h hanswer⟩
  · have hitems := htrace.filterMap_item? (h n) fun _ => Cnf.mem_vars_numbered.1
    rw [drain_of_finished hfinished]
    exact congrArg (fun items => some (items, _)) hitems
  · have hlength := htrace.length_le
    have hle := length_answers_le h n
    rw [log_after, List.length_map]
    omega
  · rw [List.map_map]
    exact List.map_congr_left fun answer hanswer =>
      NameTable.model_of_known (known_of_mem_answers h answer hanswer)

def eitherName : Cnf := ⟨[(Clause.unit (.pos "A")).or (.pos "B")]⟩

def halfAnswers : List (Except Error Verdict) :=
  [.ok (.satisfiable [.pos 1]), .ok (.satisfiable [.neg 1, .pos 2]), .ok .unsatisfiable]

theorem halfAnswers_sound : (start .scripted halfAnswers eitherName).Answered Exchange.Sound := by
  refine answered_of_finished (m := 3) rfl fun x hx => ?_
  have hxs : (start .scripted halfAnswers eitherName).exchanges 3 =
      [⟨⟨[[.pos 1, .pos 2]]⟩, .ok (.satisfiable [.pos 1])⟩,
        ⟨⟨[[.pos 1, .pos 2], [.neg 1]]⟩, .ok (.satisfiable [.neg 1, .pos 2])⟩,
        ⟨⟨[[.pos 1, .pos 2], [.neg 1], [.pos 1, .neg 2]]⟩, .ok .unsatisfiable⟩] := rfl
  rw [hxs] at hx
  simp only [List.mem_cons, List.not_mem_nil, or_false] at hx
  rcases hx with rfl | rfl | rfl
  · refine ⟨⟨_, rfl⟩, by simp, fun answer hanswer => ?_⟩
    cases hanswer
    exact ⟨by decide, by decide, by decide⟩
  · refine ⟨⟨_, rfl⟩, by simp, fun answer hanswer => ?_⟩
    cases hanswer
    exact ⟨by decide, by decide, by decide⟩
  · refine ⟨⟨_, rfl⟩, fun _ τ hτ => ?_, by simp⟩
    simp only [Formula.Holds, Conjunction.holds_cons, Disjunction.holds_cons, Literal.holds_pos,
      Literal.holds_neg, Disjunction.not_holds_nil, or_false] at hτ
    obtain ⟨hor, hfirst, hsecond, -⟩ := hτ
    simp [hfirst] at hor hsecond
    simp [hor] at hsecond

theorem either_name_answers_partition :
    (start .scripted halfAnswers eitherName).Answered Exchange.Sound ∧
      ∃ models : List Model,
        (start .scripted halfAnswers eitherName).drain 5 =
          some (models.map .ok, (start .scripted halfAnswers eitherName).after 5) ∧
        models.Nodup := by
  obtain ⟨models, hdrain, -, -, hnodup, -⟩ :=
    sound_answers_partition .scripted halfAnswers eitherName halfAnswers_sound 5 (by decide)
  exact ⟨halfAnswers_sound, models, hdrain, hnodup⟩

end Enumerator

end AllSat
