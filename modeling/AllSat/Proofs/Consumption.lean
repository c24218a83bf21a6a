import AllSat.Proofs.PartialAnswers
import Mathlib.Data.List.ReduceOption

namespace AllSat

namespace Trace

variable {t : NameTable} {g g' : Formula} {xs : List Exchange} {finished : Bool}

theorem error_last (h : Trace t g xs g' finished) {k : Nat} {cause : Error}
    (hk : (xs.filterMap (Exchange.item? t))[k]? = some (.error cause)) :
    k + 1 = (xs.filterMap (Exchange.item? t)).length ∧ finished = true := by
  induction h generalizing k with
  | idle g => simp at hk
  | @ended g reply item hends =>
      cases hitem : Exchange.item? t ⟨g, reply⟩ with
      | none => simp [hitem] at hk
      | some item =>
          rw [List.filterMap_cons_some hitem] at hk ⊢
          cases k with
          | zero => exact ⟨rfl, rfl⟩
          | succ k => simp at hk
  | accepted hacc _ ih =>
      rw [List.filterMap_cons_some hacc.item?_eq] at hk ⊢
      cases k with
      | zero => simp at hk
      | succ k =>
          obtain ⟨hlast, hfinished⟩ := ih hk
          exact ⟨congrArg (· + 1) hlast, hfinished⟩

theorem length_of_refuted (h : Trace t g xs g' finished)
    (hrefuted : ∃ x ∈ xs, x.reply = .ok .unsatisfiable) :
    xs.length = (xs.filterMap (Exchange.item? t)).length + 1 := by
  induction h with
  | idle g => simp at hrefuted
  | @ended g reply item hends =>
      obtain ⟨x, hx, hreply⟩ := hrefuted
      rw [List.mem_singleton.1 hx] at hreply
      change reply = _ at hreply
      simp [Exchange.item?, hreply]
  | accepted hacc _ ih =>
      obtain ⟨x, hx, hreply⟩ := hrefuted
      rcases List.mem_cons.1 hx with rfl | hx
      · cases hreply.symm.trans hacc.1
      · rw [List.filterMap_cons_some hacc.item?_eq, List.length_cons, List.length_cons,
          ih ⟨x, hx, hreply⟩]

theorem length_of_not_refuted (h : Trace t g xs g' finished)
    (hnone : ∀ x ∈ xs, x.reply ≠ .ok .unsatisfiable) :
    xs.length = (xs.filterMap (Exchange.item? t)).length := by
  induction h with
  | idle g => rfl
  | @ended g reply item hends =>
      have hreply : reply ≠ .ok .unsatisfiable := hnone _ (.head _)
      have hitem := hends.item?_eq
      cases hends with
      | exhausted => exact absurd rfl hreply
      | failure => simp [hitem]
      | unknown => simp [hitem]
      | vacuous => simp [hitem]
  | accepted hacc _ ih =>
      rw [List.filterMap_cons_some hacc.item?_eq, List.length_cons, List.length_cons,
        ih fun x hx => hnone x (.tail _ hx)]

theorem length_items_le (h : Trace t g xs g' finished) :
    (xs.filterMap (Exchange.item? t)).length + g.clauses.length ≤ g'.clauses.length + 1 := by
  induction h with
  | idle g => simp
  | @ended g reply item hends =>
      have hlength := List.length_filterMap_le (Exchange.item? t) [⟨g, reply⟩]
      rw [List.length_singleton] at hlength
      omega
  | @accepted g _ answer _ _ _ hacc _ ih =>
      have hpush : (g.push (Disjunction.blocking answer)).clauses.length = g.clauses.length + 1 :=
        List.length_append
      rw [List.filterMap_cons_some hacc.item?_eq, List.length_cons]
      omega

end Trace

namespace Enumerator

variable {σ : Type}

inductive Drains : Enumerator σ → List (Except Error Model) → Enumerator σ → Prop
  | ended {e e'} : e.next = (none, e') → Drains e [] e'
  | item {e e' e'' item items} : e.next = (some item, e') → Drains e' items e'' →
      Drains e (item :: items) e''

inductive Step where
  | next
  | take (n : Nat)
  | count
  | rest

/-- The items that a step consumes. To count them, or to take the rest, goes on until there is no
item, which with some oracles is never. -/
inductive Consumes : Enumerator σ → Step → List (Except Error Model) → Enumerator σ → Prop
  | next (e) : Consumes e .next e.next.1.toList e.next.2
  | take (e n) : Consumes e (.take n) (e.take n).1 (e.take n).2
  | count {e items e'} : Drains e items e' → Consumes e .count items e'
  | rest {e items e'} : Drains e items e' → Consumes e .rest items e'

inductive Run : Enumerator σ → List (Step × List (Except Error Model)) → Enumerator σ → Prop
  | done (e) : Run e [] e
  | step {e s items e' later e''} : Consumes e s items e' → Run e' later e'' →
      Run e ((s, items) :: later) e''

def delivered (steps : List (Step × List (Except Error Model))) : List (Except Error Model) :=
  steps.flatMap Prod.snd

def Step.MeetsEnd : Step → List (Except Error Model) → Prop
  | next, items => items = []
  | take n, items => items.length < n
  | count, _ => True
  | rest, _ => True

def Over (steps : List (Step × List (Except Error Model))) : Prop :=
  (∃ r ∈ steps, r.1.MeetsEnd r.2) ∨ ∃ cause, .error cause ∈ delivered steps

theorem take_succ_of_none {e e' : Enumerator σ} (h : e.next = (none, e')) (n : Nat) :
    e.take (n + 1) = ([], e') := by
  simp [take, h]

theorem take_succ_of_some {e e' : Enumerator σ} {item : Except Error Model}
    (h : e.next = (some item, e')) (n : Nat) :
    e.take (n + 1) = (item :: (e'.take n).1, (e'.take n).2) := by
  simp [take, h]

theorem snd_take (n : Nat) (e : Enumerator σ) : (e.take n).2 = e.after n :=
  congrArg Prod.snd (take_eq n e)

theorem take_add (m n : Nat) (e : Enumerator σ) :
    e.take (m + n) =
      ((e.take m).1 ++ ((e.take m).2.take n).1, ((e.take m).2.take n).2) := by
  simp only [take_eq, exchanges_add, after_add, table_after, List.filterMap_append]

theorem reduceOption_results (n : Nat) (e : Enumerator σ) :
    (e.results n).reduceOption = (e.take n).1 := by
  rw [results_eq, take_eq, List.reduceOption_append, List.reduceOption_replicate_none,
    List.append_nil, List.reduceOption, List.filterMap_map]
  rfl

theorem finished_of_length_take_lt {n : Nat} {e : Enumerator σ} (h : (e.take n).1.length < n) :
    (e.take n).2.finished = true := by
  induction n generalizing e with
  | zero => cases h
  | succ n ih =>
      cases hnext : e.next with
      | mk item e' =>
          cases item with
          | none =>
              rw [take_succ_of_none hnext]
              exact finished_of_next_eq_none hnext
          | some item =>
              rw [take_succ_of_some hnext] at h ⊢
              exact ih (Nat.lt_of_succ_lt_succ h)

namespace Drains

variable {e e' : Enumerator σ} {items : List (Except Error Model)}

theorem exists_take (h : Drains e items e') : ∃ n, e.take n = (items, e') := by
  induction h with
  | ended hnext => exact ⟨1, take_succ_of_none hnext 0⟩
  | item hnext _ ih =>
      obtain ⟨n, hn⟩ := ih
      exact ⟨n + 1, by rw [take_succ_of_some hnext, hn]⟩

theorem finished (h : Drains e items e') : e'.finished = true := by
  induction h with
  | ended hnext => exact finished_of_next_eq_none hnext
  | item _ _ ih => exact ih

theorem items_unique {others : List (Except Error Model)} {d : Enumerator σ}
    (h : Drains e items e') (hothers : Drains e others d) : items = others := by
  induction h generalizing others with
  | ended hnext =>
      cases hothers with
      | ended _ => rfl
      | item hnext' _ => cases hnext.symm.trans hnext'
  | item hnext _ ih =>
      cases hothers with
      | ended hnext' => cases hnext.symm.trans hnext'
      | item hnext' hlater =>
          cases hnext.symm.trans hnext'
          rw [ih hlater]

end Drains

theorem drains_take {n : Nat} {e : Enumerator σ} (h : (e.take n).2.finished = true) :
    Drains e (e.take n).1 (e.take n).2 := by
  induction n generalizing e with
  | zero => exact .ended (next_of_finished h)
  | succ n ih =>
      cases hnext : e.next with
      | mk item e' =>
          cases item with
          | none =>
              rw [take_succ_of_none hnext]
              exact .ended hnext
          | some item =>
              rw [take_succ_of_some hnext] at h ⊢
              exact .item hnext (ih h)

theorem drains_iff {e e' : Enumerator σ} {items : List (Except Error Model)} :
    Drains e items e' ↔ ∃ bound, e.drain bound = some (items, e') := by
  constructor
  · intro h
    obtain ⟨n, hn⟩ := h.exists_take
    refine ⟨n, ?_⟩
    simp [drain, hn, h.finished]
  · rintro ⟨n, hn⟩
    simp only [drain] at hn
    split at hn
    · rename_i hfinished
      have hdrains := drains_take hfinished
      rwa [Option.some.inj hn] at hdrains
    · cases hn

theorem length_take_of_drains {e e' : Enumerator σ} {items : List (Except Error Model)}
    (h : Drains e items e') (k : Nat) : (e.take k).1.length = min k items.length := by
  obtain ⟨n, hn⟩ := h.exists_take
  have hfinished : (e.after n).finished = true := by
    rw [← snd_take, hn]
    exact h.finished
  rw [take_fst_of_finished hfinished, hn, List.length_take]

theorem length_take_of_not_drains {e : Enumerator σ} (h : ∀ items e', ¬ Drains e items e')
    (k : Nat) : (e.take k).1.length = k := by
  apply Nat.le_antisymm (length_take_le k e)
  apply Nat.le_of_not_lt
  intro hlt
  exact h _ _ (drains_take (finished_of_length_take_lt hlt))

theorem calls_take_le (k : Nat) (e : Enumerator σ) : (e.take k).2.calls ≤ e.calls + k := by
  rw [snd_take, calls_after]
  apply Nat.add_le_add_left
  induction k generalizing e with
  | zero => exact Nat.le_refl _
  | succ k ih =>
      cases h : e.finished with
      | true => simp [exchanges_of_finished h]
      | false => simpa [exchanges_succ h] using ih e.next.2

namespace Consumes

variable {e e' : Enumerator σ} {s : Step} {items : List (Except Error Model)}

theorem exists_take (h : Consumes e s items e') : ∃ n, e.take n = (items, e') := by
  cases h with
  | next =>
      refine ⟨1, ?_⟩
      cases hnext : e.next with
      | mk item e' =>
          cases item with
          | none => exact take_succ_of_none hnext 0
          | some item => exact take_succ_of_some hnext 0
  | take n => exact ⟨n, rfl⟩
  | count hdrains => exact hdrains.exists_take
  | rest hdrains => exact hdrains.exists_take

theorem finished_of_meetsEnd (h : Consumes e s items e') (hend : s.MeetsEnd items) :
    e'.finished = true := by
  cases h with
  | next =>
      have hnone : e.next.1 = none := Option.toList_eq_nil_iff.1 hend
      exact finished_of_next_eq_none (Prod.ext hnone rfl)
  | take n => exact finished_of_length_take_lt hend
  | count hdrains => exact hdrains.finished
  | rest hdrains => exact hdrains.finished

theorem of_finished (h : Consumes e s items e') (hfinished : e.finished = true) :
    items = [] ∧ e' = e := by
  obtain ⟨n, hn⟩ := h.exists_take
  rw [take_of_finished hfinished] at hn
  cases hn
  exact ⟨rfl, rfl⟩

end Consumes

namespace Run

variable {e e' : Enumerator σ} {steps : List (Step × List (Except Error Model))}

theorem exists_take (h : Run e steps e') : ∃ n, e.take n = (delivered steps, e') := by
  induction h with
  | done e => exact ⟨0, rfl⟩
  | step hstep _ ih =>
      obtain ⟨m, hm⟩ := hstep.exists_take
      obtain ⟨n, hn⟩ := ih
      exact ⟨m + n, by rw [take_add, hm, hn]; rfl⟩

theorem of_finished (h : Run e steps e') (hfinished : e.finished = true) : e' = e := by
  obtain ⟨n, hn⟩ := h.exists_take
  rw [take_of_finished hfinished] at hn
  exact (congrArg Prod.snd hn).symm

theorem finished_of_meetsEnd (h : Run e steps e') (hend : ∃ r ∈ steps, r.1.MeetsEnd r.2) :
    e'.finished = true := by
  induction h with
  | done e => simp at hend
  | step hstep hlater ih =>
      obtain ⟨r, hr, hmeets⟩ := hend
      rcases List.mem_cons.1 hr with rfl | hr
      · have hfinished := hstep.finished_of_meetsEnd hmeets
        rw [hlater.of_finished hfinished]
        exact hfinished
      · exact ih ⟨r, hr, hmeets⟩

end Run

theorem trace_take (o : Oracle σ) (memory : σ) (f : Cnf) {n : Nat}
    {items : List (Except Error Model)} {e : Enumerator σ}
    (h : (start o memory f).take n = (items, e)) :
    items = ((start o memory f).exchanges n).filterMap (Exchange.item? (f.numbered .empty).2) ∧
      Trace (f.numbered .empty).2 (f.numbered .empty).1 ((start o memory f).exchanges n) e.working
        e.finished := by
  have htake := take_eq n (start o memory f)
  rw [h, Prod.mk.injEq] at htake
  rw [htake.2]
  exact ⟨htake.1, trace_start o memory f n⟩

theorem finished_of_room {o : Oracle σ} {memory : σ} {f : Cnf} {n : Nat}
    (h : ((start o memory f).take n).2.working.clauses.length + 1 < n) :
    ((start o memory f).take n).2.finished = true := by
  obtain ⟨hitems, htrace⟩ := trace_take o memory f (Prod.eta ((start o memory f).take n)).symm
  have hlength := htrace.length_items_le
  rw [← hitems] at hlength
  exact finished_of_length_take_lt (by omega)

namespace Run

variable {o : Oracle σ} {memory : σ} {f : Cnf} {e : Enumerator σ}
  {steps : List (Step × List (Except Error Model))}

theorem error_last (h : Run (start o memory f) steps e) {k : Nat} {cause : Error}
    (hk : (delivered steps)[k]? = some (.error cause)) :
    k + 1 = (delivered steps).length ∧ e.finished = true := by
  obtain ⟨n, hn⟩ := h.exists_take
  obtain ⟨hitems, htrace⟩ := trace_take o memory f hn
  rw [hitems] at hk ⊢
  exact htrace.error_last hk

theorem finished_of_over (h : Run (start o memory f) steps e) (hover : Over steps) :
    e.finished = true := by
  rcases hover with hend | ⟨cause, hcause⟩
  · exact h.finished_of_meetsEnd hend
  · obtain ⟨k, hk⟩ := List.getElem?_of_mem hcause
    exact (h.error_last hk).2

end Run

/-- However a session is consumed, it is where so many calls of `next` would have brought it, the
memory of the oracle included, and has asked as often as it has delivered, but for the one call that
finds no model. -/
theorem run_eq_next_calls (o : Oracle σ) (memory : σ) (f : Cnf)
    {steps : List (Step × List (Except Error Model))} {e : Enumerator σ}
    (h : Run (start o memory f) steps e) :
    let fresh := start o memory f
    let items := delivered steps
    ∃ n, e = fresh.after n ∧ items = (fresh.results n).reduceOption ∧
      ((start o.recording (memory, []) f).after n).memory.2.length = e.calls ∧
      ((∃ x ∈ fresh.exchanges n, x.reply = .ok .unsatisfiable) → e.calls = items.length + 1) ∧
      ((∀ x ∈ fresh.exchanges n, x.reply ≠ .ok .unsatisfiable) → e.calls = items.length) ∧
      (∀ (k : Nat) cause, items[k]? = some (.error cause) → k + 1 = items.length) ∧
      (Over steps → (∀ m, (fresh.results m).reduceOption <+: items) ∧
        ∀ s more e', Consumes e s more e' → more = [] ∧ e' = e) ∧
      (∀ rest e', Drains e rest e' ↔ ∃ bound, e.drain bound = some (rest, e')) ∧
      e.take 0 = ([], e) ∧
      ∀ k, (e.take k).2.calls ≤ e.calls + k ∧
        (∀ rest e', Drains e rest e' → (e.take k).1.length = min k rest.length) ∧
        ((∀ rest e', ¬ Drains e rest e') → (e.take k).1.length = k) := by
  intro fresh items
  obtain ⟨n, hn⟩ := h.exists_take
  obtain ⟨hitems, htrace⟩ := trace_take o memory f hn
  have hafter : e = fresh.after n := by rw [← snd_take, hn]
  have hcalls : e.calls = (fresh.exchanges n).length := by
    rw [hafter, calls_after]
    exact Nat.zero_add _
  have hresults : items = (fresh.results n).reduceOption := by rw [reduceOption_results, hn]
  have hlog : ((start o.recording (memory, []) f).after n).memory.2.length = e.calls := by
    rw [log_after, List.length_map, hcalls]
  have hrefuted : (∃ x ∈ fresh.exchanges n, x.reply = .ok .unsatisfiable) →
      e.calls = items.length + 1 := fun hrefuted => by
    rw [hcalls, htrace.length_of_refuted hrefuted, ← hitems]
  have hunrefuted : (∀ x ∈ fresh.exchanges n, x.reply ≠ .ok .unsatisfiable) →
      e.calls = items.length := fun hnone => by
    rw [hcalls, htrace.length_of_not_refuted hnone, ← hitems]
  have hwhole : Over steps → ∀ m, (fresh.results m).reduceOption <+: items := fun hover m => by
    have hdone : (fresh.after n).finished = true := hafter ▸ h.finished_of_over hover
    rw [reduceOption_results, take_fst_of_finished hdone, hn]
    exact List.take_prefix m items
  have hnothing : Over steps → ∀ s more e', Consumes e s more e' → more = [] ∧ e' = e :=
    fun hover s more e' hstep => hstep.of_finished (h.finished_of_over hover)
  refine ⟨n, hafter, hresults, hlog, hrefuted, hunrefuted, fun k cause hk => (h.error_last hk).1,
    fun hover => ⟨hwhole hover, hnothing hover⟩, fun rest e' => drains_iff, rfl,
    fun k => ⟨calls_take_le k e, ?_, ?_⟩⟩
  · exact fun rest e' hrest => length_take_of_drains hrest k
  · exact fun hnone => length_take_of_not_drains hnone k

theorem half_answers_consumed :
    let fresh := start .scripted halfAnswers eitherName
    let steps : List (Step × List (Except Error Model)) :=
      [(.next, fresh.next.1.toList), (.take 1, (fresh.next.2.take 1).1), (.count, [])]
    Run fresh steps (fresh.after 3) ∧ Over steps ∧
      ∀ m, (fresh.results m).reduceOption <+: delivered steps := by
  intro fresh steps
  have hrun : Run fresh steps (fresh.after 3) :=
    .step (.next fresh) (.step (.take fresh.next.2 1) (.step (.count (.ended rfl)) (.done _)))
  have hover : Over steps := .inl ⟨(.count, []), by simp [steps], trivial⟩
  obtain ⟨n, -, -, -, -, -, -, hwhole, -⟩ := run_eq_next_calls .scripted halfAnswers eitherName hrun
  exact ⟨hrun, hover, (hwhole hover).1⟩

end Enumerator

end AllSat
