import AllSat.Proofs.Interning
import Mathlib.Data.List.Infix

namespace AllSat

namespace NameTable

variable {t u : NameTable}

def internLiterals (t : NameTable) : Disjunction String → Disjunction Nat × NameTable
  | [] => ([], t)
  | l :: c =>
    let first := t.intern l.atom
    let later := internLiterals first.2 c
    (⟨first.1, l.positive⟩ :: later.1, later.2)

def internClauses (t : NameTable) : Conjunction String → Conjunction Nat × NameTable
  | [] => ([], t)
  | c :: cs =>
    let first := t.internLiterals c
    let later := internClauses first.2 cs
    (first.1 :: later.1, later.2)

theorem insertAll_append (t : NameTable) (names more : List String) :
    t.insertAll (names ++ more) = (t.insertAll names).insertAll more :=
  List.foldl_append

theorem insertAll_of_subset {names : List String} (h : ∀ name ∈ names, name ∈ t.names) :
    t.insertAll names = t := by
  induction names with
  | nil => rfl
  | cons name names ih =>
      obtain ⟨hname, hnames⟩ := List.forall_mem_cons.1 h
      rw [insertAll, List.foldl_cons, insert_of_mem hname]
      exact ih hnames

theorem map_number_mono (h : t.names <+: u.names) {c : Disjunction String}
    (hc : ∀ l ∈ c, l.atom ∈ t.names) :
    c.map (Literal.map u.number) = c.map (Literal.map t.number) := by
  refine List.map_congr_left fun l hl => ?_
  rw [Literal.map, Literal.map, number_mono h (hc l hl)]

theorem map_map_number_mono (h : t.names <+: u.names) {cs : Conjunction String}
    (hcs : ∀ c ∈ cs, ∀ l ∈ c, l.atom ∈ t.names) :
    cs.map (List.map (Literal.map u.number)) = cs.map (List.map (Literal.map t.number)) :=
  List.map_congr_left fun c hc => map_number_mono h (hcs c hc)

theorem internLiterals_eq (t : NameTable) (c : Disjunction String) :
    t.internLiterals c =
      (c.map (Literal.map (t.insertAll (c.map Literal.atom)).number),
        t.insertAll (c.map Literal.atom)) := by
  induction c generalizing t with
  | nil => rfl
  | cons l c ih =>
      have hmem : l.atom ∈ (t.insert l.atom).names := mem_names_insert.2 (.inr rfl)
      have hnumber := number_mono (prefix_insertAll (t.insert l.atom) (c.map Literal.atom)) hmem
      rw [internLiterals, intern, ih, ← hnumber]
      rfl

theorem internClauses_eq (t : NameTable) (cs : Conjunction String) :
    t.internClauses cs =
      (cs.map (List.map (Literal.map (t.insertAll (Conjunction.atoms cs)).number)),
        t.insertAll (Conjunction.atoms cs)) := by
  induction cs generalizing t with
  | nil => rfl
  | cons c cs ih =>
      have hatoms : t.insertAll (Conjunction.atoms (c :: cs)) =
          (t.insertAll (c.map Literal.atom)).insertAll (Conjunction.atoms cs) :=
        insertAll_append t _ _
      have hc : ∀ l ∈ c, l.atom ∈ (t.insertAll (c.map Literal.atom)).names :=
        fun l hl => mem_names_insertAll.2 (.inr (List.mem_map_of_mem hl))
      rw [internClauses, internLiterals_eq, ih, hatoms, List.map_cons,
        map_number_mono (prefix_insertAll _ (Conjunction.atoms cs)) hc]

theorem resolveLiteral_number {l : Literal String} (h : l.atom ∈ t.names) :
    t.resolveLiteral (l.map t.number) = .ok l := by
  rw [resolveLiteral, Literal.atom_map, resolve_number h]
  rfl

theorem mapM_resolveLiteral_number {c : Disjunction String} (h : ∀ l ∈ c, l.atom ∈ t.names) :
    (c.map (Literal.map t.number)).mapM t.resolveLiteral = .ok c := by
  rw [mapM_eq_ok_iff, List.forall₂_map_left_iff, List.forall₂_same]
  exact fun l hl => resolveLiteral_number (h l hl)

theorem nodup_map_number {c : Disjunction String} (h : ∀ l ∈ c, l.atom ∈ t.names)
    (hc : c.Nodup) : (c.map (Literal.map t.number)).Nodup := by
  refine List.Nodup.map_on (fun l hl m hm heq => ?_) hc
  have hresolve := resolveLiteral_number (h l hl)
  rw [heq, resolveLiteral_number (h m hm)] at hresolve
  exact (Except.ok.inj hresolve).symm

theorem names_insertAll_eq_append (t : NameTable) (names : List String) :
    (t.insertAll names).names = t.names ++ (names.filter (· ∉ t.names)).eraseDups := by
  have hfilter : names.removeAll t.names = names.filter (· ∉ t.names) :=
    List.filter_congr fun name _ => by simp
  rw [names_insertAll, List.eraseDups_append, Distinct.eraseDups_of_nodup t.distinct, hfilter]

theorem id?_of_append {fresh : List String} (h : u.names = t.names ++ fresh) {k : Nat}
    (hk : k < fresh.length) : u.id? fresh[k] = some (t.size + k + 1) := by
  have hdistinct := List.nodup_append.1 (h ▸ u.distinct)
  have hnew : fresh[k] ∉ t.names := fun hmem =>
    hdistinct.2.2 _ hmem _ (List.getElem_mem hk) rfl
  have hmem : fresh[k] ∈ u.names := h ▸ List.mem_append_right _ (List.getElem_mem hk)
  rw [id?_of_mem hmem, number, h, List.idxOf_append_of_notMem hnew,
    hdistinct.2.1.idxOf_getElem k hk, size]

end NameTable

namespace Cnf

variable {f : Cnf} {t : NameTable}

theorem numbered_eq_internClauses (f : Cnf) (t : NameTable) :
    ((f.numbered t).1.clauses, (f.numbered t).2) = t.internClauses f.conjunction := by
  rw [NameTable.internClauses_eq]
  rfl

theorem atom_mem_numbered {c : Disjunction String} (hc : c ∈ f.conjunction) :
    ∀ l ∈ c, l.atom ∈ (f.numbered t).2.names :=
  fun l hl => NameTable.mem_names_insertAll.2 (.inr (Conjunction.mem_atoms.2 ⟨c, hc, l, hl, rfl⟩))

theorem resolve_numbered (f : Cnf) (t : NameTable) :
    (f.numbered t).1.clauses.mapM (fun c => c.mapM (f.numbered t).2.resolveLiteral) =
      .ok f.conjunction := by
  rw [numbered, mapM_eq_ok_iff, List.forall₂_map_left_iff, List.forall₂_same]
  exact fun c hc => NameTable.mapM_resolveLiteral_number (atom_mem_numbered hc)

theorem clause_numbered {c : Disjunction Nat} (h : c ∈ (f.numbered t).1.clauses) :
    c ≠ [] ∧ c.Nodup ∧ ∀ l ∈ c, l.atom ≠ 0 := by
  obtain ⟨_, hmem, rfl⟩ := List.mem_map.1 h
  have hnames := atom_mem_numbered (t := t) hmem
  obtain ⟨d, -, rfl⟩ := List.mem_map.1 hmem
  refine ⟨mt List.map_eq_nil_iff.1 d.nonempty, NameTable.nodup_map_number hnames d.distinct, ?_⟩
  rw [List.forall_mem_map]
  exact fun l _ => Nat.succ_ne_zero _

theorem numbered_again (f : Cnf) (t : NameTable) :
    f.numbered (f.numbered t).2 = f.numbered t := by
  have htable : (f.numbered t).2.insertAll (Conjunction.atoms f.conjunction) = (f.numbered t).2 :=
    NameTable.insertAll_of_subset fun name hname => NameTable.mem_names_insertAll.2 (.inr hname)
  rw [numbered, htable]
  rfl

theorem prefix_numbered {g : Cnf} (h : f.clauses <+: g.clauses) (t : NameTable) :
    (f.numbered t).1.clauses <+: (g.numbered (f.numbered t).2).1.clauses := by
  let u := (g.numbered (f.numbered t).2).2
  have hclauses : (f.numbered t).1.clauses = f.conjunction.map (List.map (Literal.map u.number)) :=
    (NameTable.map_map_number_mono (NameTable.prefix_insertAll _ _) fun _ => atom_mem_numbered).symm
  have hprefix : f.conjunction <+: g.conjunction := h.map _
  rw [hclauses]
  exact hprefix.map _

/-- A conjunction can be read back from its numbering, whatever names were met before. New names get
the next ids in the order in which they are met, and neither this conjunction nor a longer one is
numbered otherwise afterwards. -/
theorem numbered_read_back (f : Cnf) (t : NameTable) :
    let g := (f.numbered t).1
    let u := (f.numbered t).2
    let fresh := ((Conjunction.atoms f.conjunction).filter (· ∉ t.names)).eraseDups
    (g.clauses, u) = t.internClauses f.conjunction ∧
    g.clauses.mapM (fun c => c.mapM u.resolveLiteral) = .ok (f.clauses.map Clause.literals) ∧
    (∀ c ∈ g.clauses, c ≠ [] ∧ c.Nodup ∧ ∀ l ∈ c, l.atom ≠ 0) ∧
    (∀ name id, t.id? name = some id → u.id? name = some id) ∧
    u.names = t.names ++ fresh ∧
    (∀ k (_ : k < fresh.length), u.id? fresh[k] = some (t.size + k + 1)) ∧
    (∀ id, id ∈ Conjunction.atoms (f.numbered .empty).1.clauses ↔
      1 ≤ id ∧ id ≤ (f.numbered .empty).2.size) ∧
    f.numbered u = (g, u) ∧
    ∀ longer : Cnf, f.clauses <+: longer.clauses → g.clauses <+: (longer.numbered u).1.clauses := by
  intro g u fresh
  have hnames : u.names = t.names ++ fresh := NameTable.names_insertAll_eq_append t _
  refine ⟨numbered_eq_internClauses f t, resolve_numbered f t, fun c => clause_numbered,
    fun name id => NameTable.id?_mono (NameTable.prefix_insertAll t _), hnames,
    fun k hk => NameTable.id?_of_append hnames hk, fun id => ?_, numbered_again f t,
    fun longer hprefix => prefix_numbered hprefix t⟩
  rw [Conjunction.mem_atoms, ← Formula.mem_vars]
  exact mem_vars_numbered

end Cnf

end AllSat
