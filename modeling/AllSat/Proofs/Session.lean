import AllSat.Enumerator
import AllSat.Proofs.Naming

namespace AllSat

structure Exchange where
  asked : Formula
  reply : Except Error Verdict

namespace Exchange

def answer? (x : Exchange) : Option (List (Literal Nat)) :=
  match x.reply with
  | .ok (.satisfiable answer) => some answer
  | _ => none

def item? (t : NameTable) (x : Exchange) : Option (Except Error Model) :=
  match x.reply with
  | .error cause => some (.error cause)
  | .ok .unsatisfiable => none
  | .ok (.satisfiable answer) => some (t.model answer)

theorem answer?_eq_some_iff {x : Exchange} {answer : List (Literal Nat)} :
    x.answer? = some answer ↔ x.reply = .ok (.satisfiable answer) := by
  unfold answer?
  split
  · rename_i hreply
    simp [hreply]
  · rename_i hother
    exact iff_of_false (by simp) (hother answer)

inductive Ends (t : NameTable) : Exchange → Option (Except Error Model) → Prop
  | failure (g cause) : Ends t ⟨g, .error cause⟩ (some (.error cause))
  | exhausted (g) : Ends t ⟨g, .ok .unsatisfiable⟩ none
  | unknown (g) {before after l} : (∀ m ∈ before, t.Known m.atom) → ¬ t.Known l.atom →
      Ends t ⟨g, .ok (.satisfiable (before ++ l :: after))⟩
        (some (.error (.unknownVariable l.atom)))
  | vacuous (g) : Ends t ⟨g, .ok (.satisfiable [])⟩ (some (.ok .empty))

theorem Ends.item?_eq {t : NameTable} {x : Exchange} {item : Option (Except Error Model)}
    (h : x.Ends t item) : x.item? t = item := by
  cases h with
  | failure => rfl
  | exhausted => rfl
  | unknown g hbefore hl => simp [item?, NameTable.model_of_not_known hbefore hl]
  | vacuous => rfl

def Accepts (t : NameTable) (x : Exchange) (answer : List (Literal Nat)) : Prop :=
  x.reply = .ok (.satisfiable answer) ∧ answer ≠ [] ∧ ∀ l ∈ answer, t.Known l.atom

theorem known_or_first_unknown (t : NameTable) (answer : List (Literal Nat)) :
    (∀ l ∈ answer, t.Known l.atom) ∨
      ∃ before l after, answer = before ++ l :: after ∧ (∀ m ∈ before, t.Known m.atom) ∧
        ¬ t.Known l.atom := by
  induction answer with
  | nil => exact .inl (by simp)
  | cons l answer ih =>
      by_cases hl : t.Known l.atom
      · rcases ih with hall | ⟨before, m, after, rfl, hbefore, hm⟩
        · exact .inl (List.forall_mem_cons.2 ⟨hl, hall⟩)
        · exact .inr ⟨l :: before, m, after, rfl, List.forall_mem_cons.2 ⟨hl, hbefore⟩, hm⟩
      · exact .inr ⟨[], l, answer, rfl, by simp, hl⟩

theorem ends_or_accepts (t : NameTable) (x : Exchange) :
    (∃ item, x.Ends t item) ∨ ∃ answer, x.Accepts t answer := by
  obtain ⟨g, reply⟩ := x
  cases reply with
  | error cause => exact .inl ⟨_, .failure g cause⟩
  | ok verdict =>
      cases verdict with
      | unsatisfiable => exact .inl ⟨_, .exhausted g⟩
      | satisfiable answer =>
          rcases known_or_first_unknown t answer with hall | ⟨before, l, after, rfl, hbefore, hl⟩
          · by_cases hne : answer = []
            · subst hne
              exact .inl ⟨_, .vacuous g⟩
            · exact .inr ⟨answer, rfl, hne, hall⟩
          · exact .inl ⟨_, .unknown g hbefore hl⟩

theorem Accepts.item?_eq {t : NameTable} {x : Exchange} {answer : List (Literal Nat)}
    (h : x.Accepts t answer) : x.item? t = some (.ok (t.reading answer)) := by
  simp [item?, h.1, NameTable.model_of_known h.2.2]

theorem Accepts.answer?_eq {t : NameTable} {x : Exchange} {answer : List (Literal Nat)}
    (h : x.Accepts t answer) : x.answer? = some answer :=
  answer?_eq_some_iff.2 h.1

end Exchange

namespace Formula

def blockAll (g : Formula) (answers : List (List (Literal Nat))) : Formula :=
  ⟨g.clauses ++ answers.map Disjunction.blocking⟩

@[simp] theorem blockAll_nil (g : Formula) : g.blockAll [] = g := by
  simp [blockAll]

theorem blockAll_cons (g : Formula) (answer : List (Literal Nat))
    (answers : List (List (Literal Nat))) :
    g.blockAll (answer :: answers) = (g.push (Disjunction.blocking answer)).blockAll answers := by
  simp [blockAll, push]

theorem mem_vars_block {g : Formula} {answer : List (Literal Nat)} {v : Nat} :
    v ∈ (g.push (Disjunction.blocking answer)).vars ↔
      v ∈ g.vars ∨ ∃ l ∈ answer, l.atom = v := by
  simp only [mem_vars, push, Disjunction.blocking, List.mem_append, List.mem_singleton]
  constructor
  · rintro ⟨c, hc | rfl, l, hl, rfl⟩
    · exact .inl ⟨c, hc, l, hl, rfl⟩
    · obtain ⟨m, hm, rfl⟩ := List.mem_map.1 hl
      exact .inr ⟨m, hm, rfl⟩
  · rintro (⟨c, hc, l, hl, rfl⟩ | ⟨l, hl, rfl⟩)
    · exact ⟨c, .inl hc, l, hl, rfl⟩
    · exact ⟨_, .inr rfl, l.negate, List.mem_map_of_mem hl, rfl⟩

end Formula

theorem Exchange.Accepts.known_block {t : NameTable} {x : Exchange} {answer : List (Literal Nat)}
    {g : Formula} (h : x.Accepts t answer) (hknown : ∀ v ∈ g.vars, t.Known v) :
    ∀ v ∈ (g.push (Disjunction.blocking answer)).vars, t.Known v := by
  intro v hv
  rcases Formula.mem_vars_block.1 hv with hv | ⟨l, hl, rfl⟩
  · exact hknown v hv
  · exact h.2.2 l hl

/-- What can be exchanged from a formula on, with the formula that is left and whether the session
is over. -/
inductive Trace (t : NameTable) : Formula → List Exchange → Formula → Bool → Prop
  | idle (g) : Trace t g [] g false
  | ended {g reply item} : Exchange.Ends t ⟨g, reply⟩ item → Trace t g [⟨g, reply⟩] g true
  | accepted {g reply answer xs g' finished} : Exchange.Accepts t ⟨g, reply⟩ answer →
      Trace t (g.push (Disjunction.blocking answer)) xs g' finished →
      Trace t g (⟨g, reply⟩ :: xs) g' finished

namespace Trace

variable {t : NameTable} {g g' : Formula} {xs : List Exchange} {finished : Bool}

theorem asked_eq (h : Trace t g xs g' finished) {k : Nat} {x : Exchange} (hx : xs[k]? = some x) :
    ((xs.take k).filterMap Exchange.answer?).length = k ∧
      x.asked = g.blockAll ((xs.take k).filterMap Exchange.answer?) := by
  induction h generalizing k with
  | idle g => simp at hx
  | ended hends =>
      cases k with
      | zero =>
          cases hx
          simp
      | succ k => simp at hx
  | accepted hacc htrace ih =>
      cases k with
      | zero =>
          cases hx
          simp
      | succ k =>
          obtain ⟨hlength, hasked⟩ := ih hx
          rw [List.take_succ_cons, List.filterMap_cons_some hacc.answer?_eq]
          exact ⟨by simp [hlength], by rw [hasked, Formula.blockAll_cons]⟩

end Trace

end AllSat
