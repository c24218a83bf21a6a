import AllSat.Proofs.ClauseLists
import AllSat.Proofs.FirstOccurrences

namespace AllSat.Clause

open Distinct (keep FirstOccurrences)

inductive Built : List (Literal String) → Clause → Prop
  | new {ls c} : ofLiterals ls = .ok c → Built ls c
  | unit (l) : Built [l] (unit l)
  | or {ls c} (l) : Built ls c → Built (ls ++ [l]) (c.or l)

variable {ls : List (Literal String)} {c : Clause}

theorem literals_or (c : Clause) (l : Literal String) : (c.or l).literals = keep c.literals l := by
  by_cases h : l ∈ c.literals <;> simp [or, keep, h]

theorem ofLiterals_eq_error_iff {cause : Error} :
    ofLiterals ls = .error cause ↔ ls = [] ∧ cause = .emptyClause := by
  rw [← ofLiterals?_eq_none_iff, ofLiterals]
  cases ofLiterals? ls with
  | none => simp [eq_comm]
  | some c => simp

theorem ofLiterals_eq_ok_iff : ofLiterals ls = .ok c ↔ FirstOccurrences ls c.literals := by
  constructor
  · intro h
    rw [Cnf.literals_of_ofLiterals h]
    exact Distinct.firstOccurrences_eraseDups ls
  · intro h
    have hliterals := h.unique (Distinct.firstOccurrences_eraseDups ls)
    cases hc : ofLiterals ls with
    | error cause =>
        obtain ⟨rfl, -⟩ := ofLiterals_eq_error_iff.1 hc
        exact absurd hliterals c.nonempty
    | ok d =>
        rw [← Cnf.literals_of_ofLiterals hc] at hliterals
        rw [Clause.ext hliterals]

theorem ofLiterals_eq_ok_iff_foldl : ofLiterals ls = .ok c ↔ c.literals = ls.foldl keep [] := by
  have hread : FirstOccurrences ls (ls.foldl keep []) := FirstOccurrences.nil.run ls
  rw [ofLiterals_eq_ok_iff]
  exact ⟨fun h => h.unique hread, fun h => h ▸ hread⟩

namespace Built

theorem firstOccurrences (h : Built ls c) : FirstOccurrences ls c.literals := by
  induction h with
  | new h => exact ofLiterals_eq_ok_iff.1 h
  | unit l => exact ⟨fun _ => Iff.rfl, List.pairwise_singleton _ _⟩
  | or l _ ih =>
      rw [literals_or]
      exact ih.step l

theorem ofLiterals_eq (h : Built ls c) : ofLiterals ls = .ok c :=
  ofLiterals_eq_ok_iff.2 h.firstOccurrences

theorem foldl_or (h : Built ls c) (more : List (Literal String)) :
    Built (ls ++ more) (more.foldl Clause.or c) := by
  induction more generalizing ls c with
  | nil => rwa [List.append_nil]
  | cons l more ih =>
      have hrest := ih (h.or l)
      rwa [List.append_assoc, List.singleton_append] at hrest

theorem literals_ne_nil (h : Built ls c) : c.literals ≠ [] := by
  cases ls with
  | nil => cases h.ofLiterals_eq
  | cons l ls => exact List.ne_nil_of_mem ((h.firstOccurrences.mem_iff l).2 (.head _))

theorem contains_iff (h : Built ls c) {l : Literal String} : c.contains l = true ↔ l ∈ ls :=
  Clause.contains_iff.trans (h.firstOccurrences.mem_iff l)

theorem holds_iff (h : Built ls c) {τ : String → Bool} : c.Holds τ ↔ Disjunction.Holds τ ls :=
  exists_congr fun l => and_congr_left fun _ => h.firstOccurrences.mem_iff l

end Built

/-- A clause is what was supplied for it, each literal where it first occurred, whichever way it was
made: all at once, or from one literal and then one more at a time. Only nothing makes no clause. -/
theorem built_from_supplied :
    (∀ (ls : List (Literal String)) (cause : Error),
      ofLiterals ls = .error cause ↔ ls = [] ∧ cause = .emptyClause) ∧
    (∀ (ls : List (Literal String)) (c : Clause), ofLiterals ls = .ok c ↔
      (∀ l, l ∈ c.literals ↔ l ∈ ls) ∧
        c.literals.Pairwise fun l m => ls.idxOf l < ls.idxOf m) ∧
    (∀ (ls : List (Literal String)) (c : Clause),
      ofLiterals ls = .ok c ↔ c.literals = ls.foldl keep []) ∧
    (∀ (l : Literal String) (ls : List (Literal String)),
      ofLiterals (l :: ls) = .ok (ls.foldl or (unit l))) ∧
    ∀ (ls : List (Literal String)) (c : Clause), Built ls c →
      c.literals ≠ [] ∧ c.literals.Nodup ∧
      (∀ l, c.contains l = true ↔ l ∈ ls) ∧
      ofLiterals c.literals = .ok c ∧
      ofLiterals ls = .ok c ∧
      ∀ τ : String → Bool, c.Holds τ ↔ ∃ l ∈ ls, τ l.atom = l.positive := by
  refine ⟨fun ls cause => ofLiterals_eq_error_iff, fun ls c => ?_,
    fun ls c => ofLiterals_eq_ok_iff_foldl, fun l ls => ?_, fun ls c h => ?_⟩
  · rw [ofLiterals_eq_ok_iff]
    exact ⟨fun h => ⟨h.mem_iff, h.inOrder⟩, fun h => ⟨h.1, h.2⟩⟩
  · exact ((Built.unit l).foldl_or ls).ofLiterals_eq
  · exact ⟨h.literals_ne_nil, h.firstOccurrences.nodup, fun l => h.contains_iff,
      ofLiterals_literals c, h.ofLiterals_eq, fun τ => h.holds_iff⟩

def eitherWay : Clause := (((unit (.pos "B")).or (.pos "A")).or (.pos "B")).or (.neg "B")

theorem either_way_built :
    Built [.pos "B", .pos "A", .pos "B", .neg "B"] eitherWay ∧
      eitherWay.literals = [.pos "B", .pos "A", .neg "B"] ∧
      ofLiterals [.pos "B", .pos "A", .pos "B", .neg "B"] = .ok eitherWay ∧
      ofLiterals eitherWay.literals = .ok eitherWay ∧
      ∀ τ, eitherWay.Holds τ := by
  have hbuilt : Built [.pos "B", .pos "A", .pos "B", .neg "B"] eitherWay :=
    (((Built.unit (.pos "B")).or (.pos "A")).or (.pos "B")).or (.neg "B")
  obtain ⟨-, -, -, -, hclause⟩ := built_from_supplied
  obtain ⟨-, -, -, hagain, hnew, hholds⟩ := hclause _ _ hbuilt
  refine ⟨hbuilt, by decide, hnew, hagain, fun τ => (hholds τ).2 ?_⟩
  cases hB : τ "B" with
  | true => exact ⟨.pos "B", by simp, hB⟩
  | false => exact ⟨.neg "B", by simp, hB⟩

end AllSat.Clause
