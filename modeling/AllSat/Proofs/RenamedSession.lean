import AllSat.Enumeration
import AllSat.Proofs.Renaming
import AllSat.Proofs.Transcript

namespace AllSat

variable (r : String ↪ String)

namespace Model

def rename (m : Model) : Model := .ofNames (m.names.map r)

theorem contains_rename {m : Model} {name : String} :
    (m.rename r).contains name = true ↔ ∃ n, m.contains n = true ∧ r n = name := by
  rw [rename, contains_ofNames, List.mem_map]
  simp only [contains_iff]

theorem ofNames_map (names : List String) : ofNames (names.map r) = (ofNames names).rename r := by
  apply ext
  intro name
  rw [Bool.eq_iff_iff, contains_rename, contains_ofNames, List.mem_map]
  simp only [contains_ofNames]

end Model

theorem Cnf.conjunction_rename (f : Cnf) :
    (f.rename r).conjunction = f.conjunction.map (List.map (Literal.map r)) := by
  simp only [conjunction, rename, List.map_map]
  rfl

namespace NameTable

def rename (t : NameTable) : NameTable := ⟨t.names.map r, t.distinct.map r.injective⟩

@[simp] theorem names_rename (t : NameTable) : (t.rename r).names = t.names.map r := rfl

theorem size_rename (t : NameTable) : (t.rename r).size = t.size := List.length_map r

theorem insert_rename (t : NameTable) (name : String) :
    (t.rename r).insert (r name) = (t.insert name).rename r := by
  have hmem : r name ∈ (t.rename r).names ↔ name ∈ t.names := List.mem_map_of_injective r.injective
  by_cases h : name ∈ t.names
  · rw [insert_of_mem h, insert_of_mem (hmem.2 h)]
  · apply NameTable.ext
    rw [names_insert_of_not_mem (mt hmem.1 h), names_rename, names_rename,
      names_insert_of_not_mem h, List.map_append, List.map_singleton]

theorem insertAll_rename (t : NameTable) (names : List String) :
    (t.rename r).insertAll (names.map r) = (t.insertAll names).rename r := by
  induction names generalizing t with
  | nil => rfl
  | cons name names ih =>
      have hstep := ih (t.insert name)
      simp only [insertAll, List.map_cons, List.foldl_cons] at hstep ⊢
      rw [insert_rename, hstep]

theorem number_rename (t : NameTable) (name : String) :
    (t.rename r).number (r name) = t.number name :=
  congrArg (· + 1) (idxOf_map r.injective t.names name)

theorem resolve_rename (t : NameTable) (id : Nat) :
    (t.rename r).resolve id = (t.resolve id).map r := by
  cases id with
  | zero => rfl
  | succ i =>
      simp only [resolve, names_rename, List.getElem?_map]
      cases t.names[i]? <;> rfl

theorem resolveLiteral_rename (t : NameTable) (l : Literal Nat) :
    (t.rename r).resolveLiteral l = (t.resolveLiteral l).map (Literal.map r) := by
  rw [resolveLiteral, resolveLiteral, resolve_rename]
  cases t.resolve l.atom <;> rfl

theorem mapM_resolveLiteral_rename (t : NameTable) (answer : List (Literal Nat)) :
    answer.mapM (t.rename r).resolveLiteral =
      (answer.mapM t.resolveLiteral).map (List.map (Literal.map r)) := by
  induction answer with
  | nil => rfl
  | cons l answer ih =>
      rw [List.mapM_cons, List.mapM_cons, resolveLiteral_rename, ih]
      cases t.resolveLiteral l with
      | error cause => rfl
      | ok m => cases answer.mapM t.resolveLiteral <;> rfl

theorem model_rename (t : NameTable) (answer : List (Literal Nat)) :
    (t.rename r).model answer = (t.model answer).map (Model.rename r) := by
  rw [model, model, mapM_resolveLiteral_rename]
  cases answer.mapM t.resolveLiteral with
  | error cause => rfl
  | ok ls =>
      have htrue : ((ls.map (Literal.map r)).filter Literal.positive).map Literal.atom =
          ((ls.filter Literal.positive).map Literal.atom).map r := by
        rw [List.filter_map, List.map_map, List.map_map]
        rfl
      simp only [Except.map, htrue, Model.ofNames_map]

end NameTable

theorem Cnf.numbered_rename (f : Cnf) (t : NameTable) :
    (f.rename r).numbered (t.rename r) = ((f.numbered t).1, (f.numbered t).2.rename r) := by
  simp only [numbered, conjunction_rename, Conjunction.atoms_map, NameTable.insertAll_rename,
    List.map_map]
  refine congrArg (fun cs => (Formula.mk cs, _)) (List.map_congr_left fun c _ => ?_)
  simp only [Function.comp_apply, List.map_map]
  refine List.map_congr_left fun l _ => ?_
  simp only [Function.comp_apply, Literal.map, NameTable.number_rename]

namespace Enumerator

variable {σ : Type}

def rename (e : Enumerator σ) : Enumerator σ := { e with table := e.table.rename r }

def renameItem : Except Error Model → Except Error Model := Except.map (Model.rename r)

theorem start_rename (o : Oracle σ) (memory : σ) (f : Cnf) :
    start o memory (f.rename r) = (start o memory f).rename r := by
  have hnumbered : (f.rename r).numbered .empty =
      ((f.numbered .empty).1, (f.numbered .empty).2.rename r) := Cnf.numbered_rename r f .empty
  rw [start, hnumbered]
  rfl

theorem accept_rename (e : Enumerator σ) (answer : List (Literal Nat)) :
    (e.rename r).accept answer =
      ((e.accept answer).1.map (renameItem r), (e.accept answer).2.rename r) := by
  simp only [accept, rename, NameTable.model_rename]
  cases e.table.model answer with
  | error cause => rfl
  | ok m => by_cases hne : answer = [] <;> simp [hne, finish, block, Except.map, renameItem]

theorem next_rename (e : Enumerator σ) :
    (e.rename r).next = (e.next.1.map (renameItem r), e.next.2.rename r) := by
  cases h : e.finished with
  | true =>
      have h' : (e.rename r).finished = true := h
      rw [next_of_finished h, next_of_finished h', Option.map_none]
  | false =>
      have h' : (e.rename r).finished = false := h
      cases hsolve : e.oracle.solve e.memory e.working with
      | mk reply memory =>
          have hsolve' : (e.rename r).oracle.solve (e.rename r).memory (e.rename r).working =
              (reply, memory) := hsolve
          cases reply with
          | error cause =>
              rw [next_of_failure h hsolve, next_of_failure h' hsolve']
              rfl
          | ok verdict =>
              cases verdict with
              | unsatisfiable =>
                  rw [next_of_unsatisfiable h hsolve, next_of_unsatisfiable h' hsolve']
                  rfl
              | satisfiable answer =>
                  rw [next_of_satisfiable h hsolve, next_of_satisfiable h' hsolve']
                  exact accept_rename r (e.asked memory) answer

theorem after_rename (n : Nat) (e : Enumerator σ) :
    (e.rename r).after n = (e.after n).rename r := by
  induction n generalizing e with
  | zero => rfl
  | succ n ih => rw [after, after, next_rename, ih]

theorem results_rename (n : Nat) (e : Enumerator σ) :
    (e.rename r).results n = (e.results n).map (Option.map (renameItem r)) := by
  induction n generalizing e with
  | zero => rfl
  | succ n ih => rw [results, results, next_rename, ih, List.map_cons]

theorem take_rename (n : Nat) (e : Enumerator σ) :
    (e.rename r).take n = ((e.take n).1.map (renameItem r), (e.take n).2.rename r) := by
  induction n generalizing e with
  | zero => rfl
  | succ n ih =>
      cases hnext : e.next with
      | mk item e' => cases item <;> simp [take, next_rename, hnext, ih]

theorem drain_rename (n : Nat) (e : Enumerator σ) :
    (e.rename r).drain n =
      (e.drain n).map fun drained => (drained.1.map (renameItem r), drained.2.rename r) := by
  have hfinished : ((e.take n).2.rename r).finished = (e.take n).2.finished := rfl
  simp only [drain, take_rename, hfinished]
  split <;> rfl

theorem collect_rename (items : List (Except Error Model)) :
    collect (items.map (renameItem r)) = (collect items).map (List.map (Model.rename r)) := by
  induction items with
  | nil => rfl
  | cons item items ih =>
      cases item with
      | error cause => rfl
      | ok m =>
          simp only [List.map_cons, renameItem, Except.map, collect] at ih ⊢
          rw [ih]
          cases collect items <;> rfl

theorem solveAllWith_rename (o : Oracle σ) (memory : σ) (f : Cnf) :
    solveAllWith o memory (f.rename r) =
      (solveAllWith o memory f).map (Except.map (List.map (Model.rename r))) := by
  have hbound : ((start o memory f).rename r).callBound = (start o memory f).callBound :=
    congrArg (Nat.pow 2 · + 1) (NameTable.size_rename r _)
  simp only [solveAllWith, start_rename, hbound, drain_rename, Option.map_map]
  refine congrArg (Option.map · _) (funext fun drained => ?_)
  exact collect_rename r drained.1

/-- Names are opaque: under other names that keep different ones apart every encoder gives the
same clauses in the new names, and a session asks the same and yields the same in the new names. -/
theorem rename_commutes :
    (∀ ls, Clause.ofLiterals (ls.map (Literal.map r)) =
      renameResult r (Clause.rename r) (Clause.ofLiterals ls)) ∧
    (∀ l, Clause.unit (l.map r) = (Clause.unit l).rename r) ∧
    (∀ (c : Clause) l, (c.rename r).or (l.map r) = (c.or l).rename r) ∧
    (∀ a b, Clause.implies (a.map r) (b.map r) = (Clause.implies a b).rename r) ∧
    (∀ group, ExactlyOne.encode (group.map (Literal.map r)) =
      renameResult r (Cnf.rename r) (ExactlyOne.encode group)) ∧
    (∀ terms, Dnf.encode (terms.map (List.map (Literal.map r))) =
      renameResult r (Cnf.rename r) (Dnf.encode terms)) ∧
    (∀ f g : Cnf, f.rename r ++ g.rename r = (f ++ g).rename r) ∧
    (∀ (f : Cnf) (c : Constraint), (f.rename r).add (c.rename r) =
      ((f.add c).1.map (Error.rename r), (f.add c).2.rename r)) ∧
    (∀ (f : Cnf) (cs : List Constraint),
      (f.rename r).addAll (cs.map (Constraint.rename r)) = (f.addAll cs).rename r) ∧
    ∀ (σ : Type) (o : Oracle σ) (memory : σ) (f : Cnf),
      (∀ n, ((start o.recording (memory, []) (f.rename r)).after n).memory =
          ((start o.recording (memory, []) f).after n).memory ∧
        (start o memory (f.rename r)).results n =
          ((start o memory f).results n).map (Option.map (Except.map (Model.rename r)))) ∧
      solveAllWith o memory (f.rename r) =
        (solveAllWith o memory f).map (Except.map (List.map (Model.rename r))) := by
  refine ⟨Clause.ofLiterals_rename r, Clause.unit_rename r, Clause.or_rename r,
    Clause.implies_rename r, ExactlyOne.encode_rename r, Dnf.encode_rename r,
    fun f g => (Cnf.rename_append r f g).symm, Cnf.add_rename r, Cnf.addAll_rename r,
    fun σ o memory f => ⟨fun n => ⟨?_, ?_⟩, solveAllWith_rename r o memory f⟩⟩
  · rw [start_rename, after_rename]
    rfl
  · rw [start_rename, results_rename]
    rfl

end Enumerator

end AllSat
