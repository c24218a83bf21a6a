import AllSat.Enumerator
import AllSat.Interner
import AllSat.Proofs.ReadBack

namespace AllSat

namespace Interner

structure Represents (i : Interner) (t : NameTable) : Prop where
  names : i.names.toList = t.names
  get? : ∀ name, i.get? name = t.id? name

theorem represents_empty : empty.Represents .empty := ⟨rfl, fun _ => rfl⟩

namespace Represents

variable {i : Interner} {t : NameTable}

theorem size_eq (h : i.Represents t) : i.size = t.size := by
  rw [size, NameTable.size, ← h.names, Array.length_toList]

theorem resolve_eq (h : i.Represents t) (id : Nat) : i.resolve id = t.resolve id := by
  cases id with
  | zero => rfl
  | succ k =>
      have hk : t.names[k]? = i.names[k]? := by rw [← h.names, Array.getElem?_toList]
      cases hname : i.names[k]? with
      | none => simp [resolve, NameTable.resolve, hk, hname]
      | some name => simp [resolve, NameTable.resolve, hk, hname]

theorem decode_eq (h : i.Represents t) (answer : List (Literal Nat)) :
    i.decode answer = t.model answer := by
  have hliteral : i.resolveLiteral = t.resolveLiteral := funext fun l => by
    rw [resolveLiteral, NameTable.resolveLiteral, h.resolve_eq]
  rw [decode, NameTable.model, hliteral]

theorem intern (h : i.Represents t) (name : String) :
    (i.intern name).1 = (t.intern name).1 ∧ (i.intern name).2.Represents (t.intern name).2 := by
  by_cases hname : name ∈ t.names
  · have hget : i.get? name = some (t.number name) := by rw [h.get?, NameTable.id?_of_mem hname]
    rw [intern_of_some hget, NameTable.intern, NameTable.insert_of_mem hname]
    exact ⟨rfl, h⟩
  · have hget : i.get? name = none := by rw [h.get?, NameTable.id?_eq_none_iff.2 hname]
    rw [intern_of_none hget, NameTable.intern, NameTable.number_insert_of_not_mem hname]
    refine ⟨congrArg (· + 1) h.size_eq, ?_, fun other => ?_⟩
    · rw [Array.toList_push, h.names, NameTable.names_insert_of_not_mem hname]
    · rw [get?_cons, NameTable.id?_insert_of_not_mem hname, h.size_eq, ← h.get?]
      rfl

theorem encodeClause (h : i.Represents t) (c : Disjunction String) :
    (i.encodeClause c).1 = (t.internLiterals c).1 ∧
      (i.encodeClause c).2.Represents (t.internLiterals c).2 := by
  induction c generalizing i t with
  | nil => exact ⟨rfl, h⟩
  | cons l c ih =>
      obtain ⟨hid, hfirst⟩ := h.intern l.atom
      obtain ⟨hlater, htables⟩ := ih hfirst
      refine ⟨?_, htables⟩
      rw [Interner.encodeClause, NameTable.internLiterals, hid, hlater]

theorem encodeClauses (h : i.Represents t) (cs : Conjunction String) :
    (i.encodeClauses cs).1 = (t.internClauses cs).1 ∧
      (i.encodeClauses cs).2.Represents (t.internClauses cs).2 := by
  induction cs generalizing i t with
  | nil => exact ⟨rfl, h⟩
  | cons c cs ih =>
      obtain ⟨hclause, hfirst⟩ := h.encodeClause c
      obtain ⟨hlater, htables⟩ := ih hfirst
      refine ⟨?_, htables⟩
      rw [Interner.encodeClauses, NameTable.internClauses, hclause, hlater]

theorem encode (h : i.Represents t) (f : Cnf) :
    (i.encode f).1 = (f.numbered t).1 ∧ (i.encode f).2.Represents (f.numbered t).2 := by
  obtain ⟨hclauses, htables⟩ := h.encodeClauses f.conjunction
  rw [← Cnf.numbered_eq_internClauses] at hclauses htables
  exact ⟨congrArg Formula.mk hclauses, htables⟩

end Represents

theorem represents_start {σ : Type} (o : Oracle σ) (memory : σ) (f : Cnf) :
    (empty.encode f).1 = (Enumerator.start o memory f).working ∧
      (empty.encode f).2.Represents (Enumerator.start o memory f).table :=
  represents_empty.encode f

inductive Call where
  | intern (name : String)
  | encode (f : Cnf)

namespace Call

def names : Call → List String
  | intern name => [name]
  | encode f => Conjunction.atoms f.conjunction

def perform (i : Interner) : Call → List Nat × Interner
  | intern name => ([(i.intern name).1], (i.intern name).2)
  | encode f => (Conjunction.atoms (i.encode f).1.clauses, (i.encode f).2)

end Call

theorem Represents.perform {i : Interner} {t : NameTable} (h : i.Represents t) (call : Call) :
    (call.perform i).1 = call.names.map (t.insertAll call.names).number ∧
      (call.perform i).2.Represents (t.insertAll call.names) := by
  cases call with
  | intern name =>
      obtain ⟨hid, htables⟩ := h.intern name
      exact ⟨congrArg (fun id => [id]) hid, htables⟩
  | encode f =>
      obtain ⟨hformula, htables⟩ := h.encode f
      refine ⟨?_, htables⟩
      rw [Call.perform, hformula, Cnf.numbered, Conjunction.atoms_map]
      rfl

def after (calls : List Call) : Interner :=
  calls.foldl (fun i call => (call.perform i).2) .empty

def table (calls : List Call) : NameTable := .insertAll .empty (calls.flatMap Call.names)

theorem table_append (calls later : List Call) :
    table (calls ++ later) = (table calls).insertAll (later.flatMap Call.names) := by
  rw [table, table, List.flatMap_append, NameTable.insertAll_append]

theorem prefix_table (calls later : List Call) :
    (table calls).names <+: (table (calls ++ later)).names :=
  table_append calls later ▸ NameTable.prefix_insertAll _ _

theorem represents_after (calls : List Call) : (after calls).Represents (table calls) := by
  induction calls using List.reverseRecOn with
  | nil => exact represents_empty
  | append_singleton calls call ih =>
      rw [after, List.foldl_concat, table_append, List.flatMap_singleton]
      exact (ih.perform call).2

theorem get?_of_perform (earlier later : List Call) (call : Call) :
    List.Forall₂ (fun name id => (after (earlier ++ call :: later)).get? name = some id) call.names
      (call.perform (after earlier)).1 := by
  have hprefix := prefix_table (earlier ++ [call]) later
  rw [table_append earlier [call], List.flatMap_singleton, List.append_assoc,
    List.singleton_append] at hprefix
  simp only [(represents_after (earlier ++ call :: later)).get?]
  rw [((represents_after earlier).perform call).1]
  exact NameTable.id?_insertAll_number hprefix

/-- However names are interned, one by one or with whole conjunctions: ids are given out in the
order in which names are first met, the look-up by name and the look-up by id stay each other's
inverse, and what has once been looked up or decoded stays as it was. -/
theorem tables_stay_inverse (calls : List Call) :
    let interned := calls.flatMap Call.names
    let i := after calls
    (∀ before name later, interned = before ++ name :: later → name ∉ before →
      i.get? name = some (before.toFinset.card + 1)) ∧
    i.size = interned.toFinset.card ∧
    (∀ name id, i.get? name = some id ↔ i.resolve id = .ok name) ∧
    (∀ name, i.get? name = none ↔ name ∉ interned) ∧
    (∀ id cause, i.resolve id = .error cause ↔
      (id = 0 ∨ i.size < id) ∧ cause = .unknownVariable id) ∧
    ∀ earlier call later, calls = earlier ++ call :: later →
      List.Forall₂ (fun name id => i.get? name = some id) call.names
        (call.perform (after earlier)).1 ∧
      (∀ name id, (after earlier).get? name = some id → i.get? name = some id) ∧
      ∀ answer m, (after earlier).decode answer = .ok m → i.decode answer = .ok m := by
  intro interned i
  have hi : i.Represents (table calls) := represents_after calls
  have hnames : (table calls).names = interned.eraseDups := NameTable.names_insertAll_empty _
  refine ⟨fun before name later hinterned hname => ?_, ?_, fun name id => ?_, fun name => ?_,
    fun id cause => ?_, ?_⟩
  · have htable : table calls = .insertAll .empty (before ++ name :: later) :=
      congrArg _ hinterned
    rw [hi.get?, htable, NameTable.id?_insertAll_empty hname]
  · rw [hi.size_eq, NameTable.size, hnames, length_eraseDups]
  · rw [hi.get?, hi.resolve_eq]
    exact NameTable.id?_eq_some_iff
  · rw [hi.get?, NameTable.id?_eq_none_iff, hnames, List.mem_eraseDups]
  · rw [hi.resolve_eq, NameTable.resolve_eq_error_iff, NameTable.not_known_iff, hi.size_eq]
  · rintro earlier call later rfl
    have hearlier := represents_after earlier
    have hprefix := prefix_table earlier (call :: later)
    refine ⟨get?_of_perform earlier later call, fun name id => ?_, fun answer m => ?_⟩
    · rw [hi.get?, hearlier.get?]
      exact NameTable.id?_mono hprefix
    · rw [hi.decode_eq, hearlier.decode_eq]
      exact NameTable.model_mono hprefix

end Interner

end AllSat
