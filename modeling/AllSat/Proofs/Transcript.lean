import AllSat.Proofs.Session

namespace AllSat.Enumerator

variable {σ : Type}

def after : Nat → Enumerator σ → Enumerator σ
  | 0, e => e
  | n + 1, e => after n e.next.2

def results : Nat → Enumerator σ → List (Option (Except Error Model))
  | 0, _ => []
  | n + 1, e => e.next.1 :: results n e.next.2

def exchange (e : Enumerator σ) : Exchange := ⟨e.working, (e.oracle.solve e.memory e.working).1⟩

def exchanges : Nat → Enumerator σ → List Exchange
  | 0, _ => []
  | n + 1, e => if e.finished then [] else e.exchange :: exchanges n e.next.2

theorem next_of_ends {e : Enumerator σ} {item : Option (Except Error Model)}
    (h : e.finished = false) (hends : e.exchange.Ends e.table item) :
    ∃ memory, e.next = (item, (e.asked memory).finish) := by
  cases hsolve : e.oracle.solve e.memory e.working with
  | mk reply memory =>
      refine ⟨memory, ?_⟩
      simp only [exchange, hsolve] at hends
      cases hends with
      | failure => exact next_of_failure h hsolve
      | exhausted => exact next_of_unsatisfiable h hsolve
      | unknown g hbefore hl =>
          rw [next_of_satisfiable h hsolve]
          exact accept_of_error (NameTable.model_of_not_known hbefore hl)
      | vacuous =>
          rw [next_of_satisfiable h hsolve]
          exact accept_nil _

theorem next_of_accepts {e : Enumerator σ} {answer : List (Literal Nat)}
    (h : e.finished = false) (hacc : e.exchange.Accepts e.table answer) :
    ∃ memory, e.next = (some (.ok (e.table.reading answer)), (e.asked memory).block answer) := by
  obtain ⟨hsat, hne, hknown⟩ := hacc
  cases hsolve : e.oracle.solve e.memory e.working with
  | mk reply memory =>
      simp only [exchange, hsolve] at hsat
      subst hsat
      refine ⟨memory, ?_⟩
      rw [next_of_satisfiable h hsolve]
      exact accept_of_model (NameTable.model_of_known hknown) hne

theorem next_cases {e : Enumerator σ} (h : e.finished = false) :
    (∃ item memory, e.exchange.Ends e.table item ∧ e.next = (item, (e.asked memory).finish)) ∨
      ∃ answer memory, e.exchange.Accepts e.table answer ∧
        e.next = (some (.ok (e.table.reading answer)), (e.asked memory).block answer) := by
  rcases e.exchange.ends_or_accepts e.table with ⟨item, hends⟩ | ⟨answer, hacc⟩
  · obtain ⟨memory, hnext⟩ := next_of_ends h hends
    exact .inl ⟨item, memory, hends, hnext⟩
  · obtain ⟨memory, hnext⟩ := next_of_accepts h hacc
    exact .inr ⟨answer, memory, hacc, hnext⟩

theorem after_of_finished {e : Enumerator σ} (h : e.finished = true) (n : Nat) :
    e.after n = e := by
  induction n with
  | zero => rfl
  | succ n ih => rw [after, next_of_finished h, ih]

theorem exchanges_of_finished {e : Enumerator σ} (h : e.finished = true) (n : Nat) :
    e.exchanges n = [] := by
  cases n with
  | zero => rfl
  | succ n => simp [exchanges, h]

theorem exchanges_succ {e : Enumerator σ} (h : e.finished = false) (n : Nat) :
    e.exchanges (n + 1) = e.exchange :: e.next.2.exchanges n := by
  simp [exchanges, h]

theorem next_of_open {e : Enumerator σ} (h : e.finished = false) :
    e.next.2.oracle = e.oracle ∧ e.next.2.table = e.table ∧ e.next.2.calls = e.calls + 1 := by
  rcases next_cases h with ⟨item, memory, -, hnext⟩ | ⟨answer, memory, -, hnext⟩
  · rw [hnext]
    exact ⟨rfl, rfl, rfl⟩
  · rw [hnext]
    exact ⟨rfl, rfl, rfl⟩

theorem oracle_next (e : Enumerator σ) : e.next.2.oracle = e.oracle := by
  cases h : e.finished with
  | true => rw [next_of_finished h]
  | false => exact (next_of_open h).1

theorem table_next (e : Enumerator σ) : e.next.2.table = e.table := by
  cases h : e.finished with
  | true => rw [next_of_finished h]
  | false => exact (next_of_open h).2.1

theorem table_after (e : Enumerator σ) (n : Nat) : (e.after n).table = e.table := by
  induction n generalizing e with
  | zero => rfl
  | succ n ih => rw [after, ih, table_next]

theorem trace_exchanges {e : Enumerator σ} (h : e.finished = false) (n : Nat) :
    Trace e.table e.working (e.exchanges n) (e.after n).working (e.after n).finished := by
  induction n generalizing e with
  | zero =>
      simp only [after, exchanges, h]
      exact .idle e.working
  | succ n ih =>
      rw [exchanges_succ h, after]
      rcases next_cases h with ⟨item, memory, hends, hnext⟩ | ⟨answer, memory, hacc, hnext⟩
      · have hdone : e.next.2.finished = true := by rw [hnext]; rfl
        rw [exchanges_of_finished hdone, after_of_finished hdone, hdone, hnext]
        exact .ended hends
      · have hopen : e.next.2.finished = false := by rw [hnext]; exact h
        have htrace := ih hopen
        rw [table_next] at htrace
        apply Trace.accepted hacc
        rw [hnext] at htrace ⊢
        exact htrace

theorem item?_exchange {e : Enumerator σ} (h : e.finished = false) :
    e.exchange.item? e.table = e.next.1 := by
  rcases next_cases h with ⟨item, memory, hends, hnext⟩ | ⟨answer, memory, hacc, hnext⟩
  · rw [hnext, hends.item?_eq]
  · rw [hnext]
    exact hacc.item?_eq

theorem length_exchanges_of_open {n : Nat} {e : Enumerator σ} (h : (e.after n).finished = false) :
    (e.exchanges n).length = n := by
  induction n generalizing e with
  | zero => simp [exchanges]
  | succ n ih =>
      cases hdone : e.finished with
      | true =>
          rw [after_of_finished hdone, hdone] at h
          cases h
      | false => rw [exchanges_succ hdone, List.length_cons, ih h]

theorem after_add (m n : Nat) (e : Enumerator σ) : e.after (m + n) = (e.after m).after n := by
  induction m generalizing e with
  | zero => simp [after]
  | succ m ih => rw [Nat.add_right_comm, after, after, ih]

theorem exchanges_add (m n : Nat) (e : Enumerator σ) :
    e.exchanges (m + n) = e.exchanges m ++ (e.after m).exchanges n := by
  induction m generalizing e with
  | zero => simp [exchanges, after]
  | succ m ih =>
      cases h : e.finished with
      | true => simp [exchanges_of_finished h, after_of_finished h]
      | false =>
          rw [Nat.add_right_comm, exchanges_succ h, exchanges_succ h, ih, after, List.cons_append]

theorem after_eq_of_finished {m n : Nat} {e : Enumerator σ} (hm : (e.after m).finished = true)
    (hn : (e.after n).finished = true) : e.after m = e.after n := by
  have hadd := after_add m n e
  rw [Nat.add_comm, after_add, after_of_finished hn, after_of_finished hm] at hadd
  exact hadd.symm

theorem exchanges_eq_of_finished {m n : Nat} {e : Enumerator σ}
    (hm : (e.after m).finished = true) (hn : (e.after n).finished = true) :
    e.exchanges m = e.exchanges n := by
  have hadd := exchanges_add m n e
  rw [Nat.add_comm, exchanges_add, exchanges_of_finished hn, exchanges_of_finished hm,
    List.append_nil, List.append_nil] at hadd
  exact hadd.symm

theorem exchanges_prefix_of_finished {m : Nat} {e : Enumerator σ}
    (h : (e.after m).finished = true) (n : Nat) : e.exchanges n <+: e.exchanges m := by
  have hadd := exchanges_add n m e
  rw [Nat.add_comm, exchanges_add, exchanges_of_finished h, List.append_nil] at hadd
  exact ⟨_, hadd.symm⟩

theorem results_of_finished {e : Enumerator σ} (h : e.finished = true) (n : Nat) :
    e.results n = List.replicate n none := by
  induction n with
  | zero => rfl
  | succ n ih => rw [results, next_of_finished h, ih, List.replicate_succ]

theorem results_eq (n : Nat) (e : Enumerator σ) :
    e.results n = (e.exchanges n).map (Exchange.item? e.table) ++
      List.replicate (n - (e.exchanges n).length) none := by
  induction n generalizing e with
  | zero => rfl
  | succ n ih =>
      cases h : e.finished with
      | true => simp [results_of_finished h, exchanges_of_finished h]
      | false =>
          rw [results, ih, table_next, exchanges_succ h, List.map_cons, item?_exchange h,
            List.length_cons, Nat.add_sub_add_right, List.cons_append]

theorem finished_of_next_eq_none {e e' : Enumerator σ} (h : e.next = (none, e')) :
    e'.finished = true := by
  cases hdone : e.finished with
  | true =>
      rw [next_of_finished hdone] at h
      cases h
      exact hdone
  | false =>
      rcases next_cases hdone with ⟨item, memory, -, hnext⟩ | ⟨answer, memory, -, hnext⟩
      · rw [hnext] at h
        cases h
        rfl
      · rw [hnext] at h
        cases h

theorem take_eq (n : Nat) (e : Enumerator σ) :
    e.take n = ((e.exchanges n).filterMap (Exchange.item? e.table), e.after n) := by
  induction n generalizing e with
  | zero => rfl
  | succ n ih =>
      cases h : e.finished with
      | true =>
          rw [take_of_finished h, exchanges_of_finished h, after_of_finished h]
          rfl
      | false =>
          have hitem := item?_exchange h
          have htable := table_next e
          rw [exchanges_succ h, after]
          cases hnext : e.next with
          | mk item e' =>
              rw [hnext] at hitem htable
              cases item with
              | none =>
                  have hdone := finished_of_next_eq_none hnext
                  rw [List.filterMap_cons_none hitem, exchanges_of_finished hdone,
                    after_of_finished hdone]
                  simp [take, hnext]
              | some item =>
                  simp only [take, hnext, ih]
                  rw [List.filterMap_cons_some hitem]
                  rw [show e'.table = e.table from htable]

theorem take_fst_of_le {m n : Nat} (h : n ≤ m) (e : Enumerator σ) :
    (e.take n).1 = (e.take m).1.take n := by
  induction n generalizing m e with
  | zero => simp [take]
  | succ n ih =>
      obtain ⟨m, rfl⟩ := Nat.exists_eq_add_one_of_ne_zero (Nat.ne_zero_of_lt h)
      cases hnext : e.next with
      | mk item e' =>
          cases item with
          | none => simp [take, hnext]
          | some item =>
              have hrest := ih (Nat.le_of_succ_le_succ h) e'
              simp [take, hnext, hrest]

theorem take_fst_of_finished {m : Nat} {e : Enumerator σ} (h : (e.after m).finished = true)
    (n : Nat) : (e.take n).1 = (e.take m).1.take n := by
  rcases Nat.le_total n m with hle | hle
  · exact take_fst_of_le hle e
  · obtain ⟨k, rfl⟩ := Nat.exists_eq_add_of_le hle
    have hlength := length_take_le m e
    rw [List.take_of_length_le (by omega), take_eq, take_eq, exchanges_add,
      exchanges_of_finished h, List.append_nil]

theorem calls_after (n : Nat) (e : Enumerator σ) :
    (e.after n).calls = e.calls + (e.exchanges n).length := by
  induction n generalizing e with
  | zero => rfl
  | succ n ih =>
      cases h : e.finished with
      | true => simp [after_of_finished h, exchanges_of_finished h]
      | false =>
          have hcalls := (next_of_open h).2.2
          rw [after, ih, hcalls, exchanges_succ h, List.length_cons]
          omega

def recorded (e : Enumerator σ) (log : List Formula) : Enumerator (σ × List Formula) :=
  ⟨e.oracle.recording, (e.memory, log), e.table, e.working, e.finished, e.calls⟩

theorem accept_recorded (e : Enumerator σ) (log : List Formula) (answer : List (Literal Nat)) :
    (e.recorded log).accept answer = ((e.accept answer).1, (e.accept answer).2.recorded log) := by
  simp only [accept, recorded]
  cases e.table.model answer with
  | error cause => rfl
  | ok m =>
      by_cases hne : answer = []
      · simp [hne, finish]
      · simp [hne, block]

theorem next_recorded {e : Enumerator σ} (h : e.finished = false) (log : List Formula) :
    (e.recorded log).next = (e.next.1, e.next.2.recorded (log ++ [e.working])) := by
  have hopen : (e.recorded log).finished = false := h
  cases hsolve : e.oracle.solve e.memory e.working with
  | mk reply memory =>
      have hrecorded : (e.recorded log).oracle.solve (e.recorded log).memory
          (e.recorded log).working = (reply, memory, log ++ [e.working]) := by
        simp [recorded, Oracle.recording, hsolve]
      cases reply with
      | error cause => rw [next_of_failure h hsolve, next_of_failure hopen hrecorded]; rfl
      | ok verdict =>
          cases verdict with
          | unsatisfiable =>
              rw [next_of_unsatisfiable h hsolve, next_of_unsatisfiable hopen hrecorded]
              rfl
          | satisfiable answer =>
              rw [next_of_satisfiable h hsolve, next_of_satisfiable hopen hrecorded]
              exact accept_recorded (e.asked memory) (log ++ [e.working]) answer

theorem after_recorded (n : Nat) (e : Enumerator σ) (log : List Formula) :
    (e.recorded log).after n =
      (e.after n).recorded (log ++ (e.exchanges n).map Exchange.asked) := by
  induction n generalizing e log with
  | zero => simp [after, exchanges]
  | succ n ih =>
      cases h : e.finished with
      | true =>
          have hdone : (e.recorded log).finished = true := h
          simp [after_of_finished h, after_of_finished hdone, exchanges_of_finished h]
      | false =>
          rw [after, after, next_recorded h, ih, exchanges_succ h, List.map_cons]
          simp [exchange]

theorem log_after (o : Oracle σ) (memory : σ) (f : Cnf) (n : Nat) :
    ((start o.recording (memory, []) f).after n).memory.2 =
      ((start o memory f).exchanges n).map Exchange.asked :=
  congrArg (·.memory.2) (after_recorded n (start o memory f) [])

theorem trace_start (o : Oracle σ) (memory : σ) (f : Cnf) (n : Nat) :
    Trace (f.numbered .empty).2 (f.numbered .empty).1 ((start o memory f).exchanges n)
      ((start o memory f).after n).working ((start o memory f).after n).finished :=
  trace_exchanges (e := start o memory f) rfl n

end AllSat.Enumerator
