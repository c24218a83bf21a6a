import AllSat.Command.Run
import AllSat.Proofs.FirstOccurrences
import AllSat.Proofs.Naming
import AllSat.Proofs.Renaming
import AllSat.Proofs.RoundTrip
import Mathlib.Data.Set.Function
import Mathlib.Order.Interval.Set.Defs

namespace AllSat

theorem Conjunction.eraseDups_atoms {α : Type} [DecidableEq α] (cs : Conjunction α) :
    (atoms (cs.map List.eraseDups)).eraseDups = (atoms cs).eraseDups := by
  induction cs with
  | nil => rfl
  | cons c cs ih =>
      simp only [atoms, List.map_cons, List.flatMap_cons] at ih ⊢
      rw [← eraseDups_append_eraseDups, eraseDups_map_eraseDups, ih, eraseDups_append_eraseDups]

namespace Formula

def order (f : Formula) : List Nat := (Conjunction.atoms f.clauses).eraseDups

def rank (f : Formula) (v : Nat) : Nat := f.order.idxOf v + 1

def canonical (f : Formula) : Formula :=
  ⟨f.clauses.map fun c => c.eraseDups.map (Literal.map f.rank)⟩

variable {f : Formula}

theorem mem_order {v : Nat} : v ∈ f.order ↔ v ∈ f.vars := by
  rw [order, List.mem_eraseDups, Conjunction.mem_atoms, mem_vars]

theorem nodup_order (f : Formula) : f.order.Nodup := Distinct.nodup_eraseDups _

theorem length_order (f : Formula) : f.order.length = f.vars.length :=
  List.Perm.length_eq ((List.perm_ext_iff_of_nodup f.nodup_order f.nodup_vars).2 fun _ => mem_order)

theorem rank_of_split {before later : List Nat} {v : Nat}
    (h : Conjunction.atoms f.clauses = before ++ v :: later) (hv : v ∉ before) :
    f.rank v = before.toFinset.card + 1 := by
  rw [rank, order, h, idxOf_eraseDups hv]

theorem rank_getElem {i : Nat} (h : i < f.order.length) : f.rank f.order[i] = i + 1 := by
  rw [rank, f.nodup_order.idxOf_getElem]

theorem rank_mem {v : Nat} (h : v ∈ f.vars) : 1 ≤ f.rank v ∧ f.rank v ≤ f.vars.length := by
  have hlt := List.idxOf_lt_length_iff.2 (mem_order.2 h)
  rw [length_order] at hlt
  exact ⟨Nat.succ_pos _, hlt⟩

theorem rank_inj {v w : Nat} (hv : v ∈ f.vars) (h : f.rank v = f.rank w) : v = w :=
  (List.idxOf_inj (mem_order.2 hv)).1 (Nat.succ.inj h)

theorem rank_bijOn (f : Formula) : Set.BijOn f.rank {v | v ∈ f.vars} (Set.Icc 1 f.vars.length) := by
  refine ⟨fun v hv => rank_mem hv, fun v hv w _ h => rank_inj hv h, fun k hk => ?_⟩
  obtain ⟨hpos, hle⟩ := hk
  have hlt : k - 1 < f.order.length := by
    rw [length_order]
    omega
  refine ⟨f.order[k - 1], mem_order.1 (List.getElem_mem hlt), ?_⟩
  rw [rank_getElem hlt]
  omega

theorem map_rank_order (f : Formula) : f.order.map f.rank = List.range' 1 f.vars.length := by
  refine List.ext_getElem (by simp [length_order]) fun i hi _ => ?_
  rw [List.length_map] at hi
  rw [List.getElem_map, rank_getElem hi, List.getElem_range', Nat.one_mul, Nat.add_comm]

theorem clauses_canonical (f : Formula) :
    f.canonical.clauses = (f.clauses.map List.eraseDups).map (List.map (Literal.map f.rank)) := by
  rw [canonical, List.map_map]
  rfl

theorem order_canonical (f : Formula) : f.canonical.order = List.range' 1 f.vars.length := by
  rw [order, clauses_canonical, Conjunction.atoms_map, ← map_rank_order, order,
    ← Conjunction.eraseDups_atoms f.clauses]
  refine eraseDups_map_of_injOn fun v hv w _ => rank_inj ?_
  rwa [← mem_order, order, ← Conjunction.eraseDups_atoms, List.mem_eraseDups]

theorem length_vars_canonical (f : Formula) : f.canonical.vars.length = f.vars.length := by
  rw [← length_order, order_canonical, List.length_range']

theorem rank_canonical {v : Nat} (h : v ∈ f.vars) : f.canonical.rank (f.rank v) = f.rank v := by
  obtain ⟨hpos, hle⟩ := rank_mem h
  have hlt : f.rank v - 1 < f.canonical.order.length := by
    rw [order_canonical, List.length_range']
    omega
  have hentry : f.canonical.order[f.rank v - 1] = f.rank v := by
    simp only [order_canonical, List.getElem_range']
    omega
  have hrank := rank_getElem hlt
  rw [hentry] at hrank
  omega

theorem map_rank_inj {l m : Literal Nat} (hl : l.atom ∈ f.vars)
    (h : l.map f.rank = m.map f.rank) : l = m := by
  obtain ⟨v, p⟩ := l
  obtain ⟨w, q⟩ := m
  obtain ⟨hatom, hpositive⟩ := Literal.mk.inj h
  exact congr (congrArg Literal.mk (rank_inj hl hatom)) hpositive

theorem canonical_canonical (f : Formula) : f.canonical.canonical = f.canonical := by
  refine congrArg Formula.mk (List.map_map.trans (List.map_congr_left fun c hc => ?_))
  have hvars : ∀ l ∈ c.eraseDups, l.atom ∈ f.vars :=
    fun l hl => mem_vars.2 ⟨c, hc, l, List.mem_eraseDups.1 hl, rfl⟩
  have hnodup : (c.eraseDups.map (Literal.map f.rank)).Nodup :=
    (Distinct.nodup_eraseDups c).map_on fun l hl m _ => map_rank_inj (hvars l hl)
  simp only [Function.comp_apply]
  rw [Distinct.eraseDups_of_nodup hnodup, List.map_map]
  refine List.map_congr_left fun l hl => ?_
  simp only [Function.comp_apply, Literal.map, rank_canonical (hvars l hl)]

theorem fits_canonical (hn : f.vars.length < Word.half) :
    ∀ c ∈ f.canonical.clauses, ∀ l ∈ c, l.Fits := by
  intro c hc l hl
  have hvar : l.atom ∈ f.canonical.vars := mem_vars.2 ⟨c, hc, l, hl, rfl⟩
  rw [← mem_order, order_canonical, List.mem_range'_1] at hvar
  exact Literal.fits_of_lt hvar.1 (by omega)

theorem ne_nil_of_mem_canonical (h : ∀ c ∈ f.clauses, c ≠ []) :
    ∀ c ∈ f.canonical.clauses, c ≠ [] := by
  intro c hc
  obtain ⟨d, hd, rfl⟩ := List.mem_map.1 hc
  exact mt List.map_eq_nil_iff.1 (mt Distinct.eraseDups_eq_nil_iff.1 (h d hd))

section Named

variable {g : Cnf}

theorem conjunction_named (h : f.named = .ok g) :
    g.conjunction = (f.clauses.map List.eraseDups).map (List.map (Literal.map Nat.repr)) := by
  rw [Cnf.conjunction_of_ofLists h, List.map_map, List.map_map]
  exact List.map_congr_left fun c _ => eraseDups_map (Literal.map_injective repr_injective) c

theorem names_named (h : f.named = .ok g) : g.names = f.order.map Nat.repr := by
  rw [Cnf.names, conjunction_named h, Conjunction.atoms_map, eraseDups_map repr_injective,
    Conjunction.eraseDups_atoms]
  rfl

theorem number_named (h : f.named = .ok g) (v : Nat) :
    (g.numbered .empty).2.number v.repr = f.rank v := by
  rw [NameTable.number, Cnf.names_numbered, names_named h, idxOf_map repr_injective]
  rfl

theorem numbered_named (h : f.named = .ok g) : (g.numbered .empty).1 = f.canonical := by
  have hnumber : (g.numbered .empty).2.number ∘ Nat.repr = f.rank := funext (number_named h)
  have hclauses : (g.numbered .empty).1.clauses =
      g.conjunction.map (List.map (Literal.map (g.numbered .empty).2.number)) := rfl
  refine congrArg Formula.mk (hclauses.trans ?_)
  rw [conjunction_named h, List.map_map, List.map_map]
  refine List.map_congr_left fun c _ => ?_
  rw [Function.comp_apply, Function.comp_apply, List.map_map, ← hnumber]
  rfl

end Named

end Formula

namespace Command

open Text (Source linesOf)

variable {σ : Type}

theorem echo_named {f : Formula} {g : Cnf} (h : f.named = .ok g) :
    echo g = ⟨0, Dimacs.write f.canonical f.vars.length, ""⟩ := by
  rw [echo, Formula.numbered_named h, Cnf.size_numbered, Formula.names_named h, List.length_map,
    Formula.length_order]

theorem runWith_echo {input : Source} {f : Formula} (hparse : Dimacs.parse input = .ok f)
    (o : Oracle σ) (memory : σ) (path : Option String) (limit : Option Nat) :
    runWith o memory (.perform ⟨path, limit, true⟩) input =
      some ⟨0, Dimacs.write f.canonical f.vars.length, ""⟩ := by
  obtain ⟨g, hnamed⟩ := Formula.named_of_ne_nil (Dimacs.ne_nil_of_parse hparse)
  simp [runWith, perform, hparse, hnamed, echo_named hnamed]

theorem parse_echo {input : Source} {f : Formula} (hparse : Dimacs.parse input = .ok f)
    (hn : f.vars.length < Word.half) :
    Dimacs.parse (.ofString (Dimacs.write f.canonical f.vars.length)) = .ok f.canonical := by
  have hlength : f.canonical.clauses.length = f.clauses.length := List.length_map _
  refine Dimacs.parse_write ?_ (hlength ▸ Dimacs.length_lt_of_parse hparse) fun c hc => ?_
  · rw [Word.half_eq] at hn
    rw [Word.size_eq]
    omega
  · exact ⟨Formula.ne_nil_of_mem_canonical (Dimacs.ne_nil_of_parse hparse) c hc,
      Formula.fits_canonical hn c hc⟩

/-- The echo of an input is a normal form of it: it is read as the same clauses without repeated
literals, in the same order, under the ranks of their variables, and its own echo is the same text.
No memory holds so many variables that their ranks would leave the signed word. -/
theorem echo_canonical (o : Oracle σ) (memory : σ) (input : Source) (f : Formula)
    (hparse : Dimacs.parse input = .ok f) :
    let n := f.vars.length
    let text := Dimacs.write f.canonical n
    Request.ofArgs ["--dimacs"] = .perform ⟨none, none, true⟩ ∧
    (∀ path limit,
      runWith o memory (.perform ⟨path, limit, true⟩) input = some ⟨0, text, ""⟩) ∧
    (∃ lines, linesOf text = ("p cnf " ++ n.repr ++ " " ++ f.clauses.length.repr) :: lines) ∧
    (∀ before v later, Conjunction.atoms f.clauses = before ++ v :: later → v ∉ before →
      f.rank v = before.toFinset.card + 1) ∧
    Set.BijOn f.rank {v | v ∈ f.vars} (Set.Icc 1 n) ∧
    (n < Word.half →
      Dimacs.parse (.ofString text) = .ok f.canonical ∧
      ∀ path limit,
        runWith o memory (.perform ⟨path, limit, true⟩) (.ofString text) =
          some ⟨0, text, ""⟩) := by
  intro n text
  have hcount : f.canonical.clauses.length = f.clauses.length := List.length_map _
  refine ⟨by decide, runWith_echo hparse o memory,
    ⟨f.canonical.clauses.map Dimacs.clauseText, ?_⟩,
    fun before v later => Formula.rank_of_split, f.rank_bijOn, fun hn => ?_⟩
  · rw [Dimacs.linesOf_write, hcount]
    rfl
  · have hagain := parse_echo hparse hn
    refine ⟨hagain, fun path limit => ?_⟩
    rw [runWith_echo hagain, Formula.canonical_canonical, Formula.length_vars_canonical]

def sparseClauses : Source :=
  ⟨[112, 32, 99, 110, 102, 32, 57, 32, 50, 10, 55, 32, 45, 51, 32, 55, 32, 48, 10, 45, 51, 32,
    48, 10], none⟩

theorem sparse_clauses_echoed :
    Dimacs.parse sparseClauses = .ok ⟨[[.pos 7, .neg 3, .pos 7], [.neg 3]]⟩ ∧
      runWith Learning.oracle () (.perform ⟨none, none, true⟩) sparseClauses =
        some ⟨0, "p cnf 2 2\n1 -2 0\n-2 0\n", ""⟩ ∧
      Dimacs.parse (.ofString "p cnf 2 2\n1 -2 0\n-2 0\n") = .ok ⟨[[.pos 1, .neg 2], [.neg 2]]⟩ ∧
      runWith Learning.oracle () (.perform ⟨none, none, true⟩)
        (.ofString "p cnf 2 2\n1 -2 0\n-2 0\n") = some ⟨0, "p cnf 2 2\n1 -2 0\n-2 0\n", ""⟩ := by
  have hparse : Dimacs.parse sparseClauses = .ok ⟨[[.pos 7, .neg 3, .pos 7], [.neg 3]]⟩ := rfl
  obtain ⟨-, hecho, -, -, -, hagain⟩ :=
    echo_canonical Learning.oracle () sparseClauses _ hparse
  obtain ⟨hreparse, hsame⟩ := hagain (by decide)
  exact ⟨hparse, hecho none none, hreparse, hsame none none⟩

end Command

end AllSat
