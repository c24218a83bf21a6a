import AllSat.Proofs.LineReading
import AllSat.Proofs.Truncation

namespace AllSat.Dimacs

open Text (ReadError Source)

def legible (lines : List (Except ReadError Line)) : List Line := lines.filterMap Except.toOption

theorem clauseLines_legible_clause (tokens : List String) (lines : List (Except ReadError Line)) :
    clauseLines (legible (.ok (.clause tokens) :: lines)) = tokens :: clauseLines (legible lines) :=
  rfl

theorem headers_legible_header (fields : List String) (lines : List (Except ReadError Line)) :
    headers (legible (.ok (.header fields) :: lines)) = fields :: headers (legible lines) :=
  rfl

namespace Reads

variable {declared : Option Nat} {count : Nat} {lines : List (Except ReadError Line)}
  {cs : Conjunction Nat}

theorem length_of_no_header (h : Reads declared count lines cs) {n : Nat}
    (hn : declared = some n) (hheaders : headers (legible lines) = []) :
    cs.length = min (clauseLines (legible lines)).length (max (n - count) 1) := by
  induction h with
  | ended => exact (Nat.zero_min _).symm
  | skipped _ ih => exact ih hn hheaders
  | header => cases hheaders
  | last _ hle =>
      cases hn
      rw [clauseLines_legible_clause, List.length_singleton, List.length_cons]
      omega
  | next _ hlt _ ih =>
      cases hn
      have hlater := ih rfl hheaders
      rw [clauseLines_legible_clause, List.length_cons, List.length_cons]
      omega

theorem length_of_one_header (h : Reads declared count lines cs) (hnone : declared = none)
    {fields : List String} (hheaders : headers (legible lines) = [fields]) :
    ∃ m, Declares fields m ∧
      cs.length = min (clauseLines (legible lines)).length (max (m - count) 1) := by
  induction h with
  | skipped _ ih => exact ih hnone hheaders
  | header hm hreads =>
      rw [headers_legible_header] at hheaders
      obtain ⟨rfl, hrest⟩ := List.cons.inj hheaders
      exact ⟨_, declaredCount_eq_ok_iff.1 hm, hreads.length_of_no_header rfl hrest⟩
  | ended => cases hnone
  | last => cases hnone
  | next => cases hnone

end Reads

/-- With one header, the formula has as many clauses as are declared and there, but the first clause
line is read even if none is declared. -/
theorem parse_one_header {s : Source} {f : Formula} {fields : List String} (h : parse s = .ok f)
    (hheader : headers (legible (s.lines.map toLine)) = [fields]) :
    ∃ m, Declares fields m ∧
      f.clauses.length = min (clauseLines (legible (s.lines.map toLine))).length (max m 1) ∧
      (f.clauses.length ≤ m ↔ m ≠ 0 ∨ clauseLines (legible (s.lines.map toLine)) = []) := by
  obtain ⟨cs, hcs, rfl⟩ := exists_of_map_eq_ok h
  have hreads : Reads none 0 (s.lines.map toLine) cs := reads_of_clauses hcs
  obtain ⟨m, hm, hlength⟩ := hreads.length_of_one_header rfl hheader
  rw [Nat.sub_zero] at hlength
  refine ⟨m, hm, hlength, ?_⟩
  change cs.length ≤ m ↔ _
  rw [hlength, ← List.length_eq_zero_iff]
  omega

theorem second_clause_left :
    let s : Source := .ofString "p cnf 2 1\n1 0\n2 0\n"
    parse s = .ok ⟨[[.pos 1]]⟩ ∧
      headers (legible (s.lines.map toLine)) = [["cnf", "2", "1"]] ∧
      ∃ m, Declares ["cnf", "2", "1"] m ∧ [[Literal.pos 1]].length = min 2 (max m 1) := by
  intro s
  have hparse : parse s = .ok ⟨[[.pos 1]]⟩ := by decide +kernel
  have hheader : headers (legible (s.lines.map toLine)) = [["cnf", "2", "1"]] := by decide +kernel
  have hlines : (clauseLines (legible (s.lines.map toLine))).length = 2 := by decide +kernel
  obtain ⟨m, hm, hlength, -⟩ := parse_one_header hparse hheader
  rw [hlines] at hlength
  exact ⟨hparse, hheader, m, hm, hlength⟩

/-- A header that declares no clause does not keep the next line from being read as one. -/
theorem none_declared_one_read :
    let s : Source := .ofString "p cnf 1 0\n1 0\n"
    headers (legible (s.lines.map toLine)) = [["cnf", "1", "0"]] ∧
      Declares ["cnf", "1", "0"] 0 ∧ ∃ f, parse s = .ok f ∧ ¬ f.clauses.length ≤ 0 := by
  intro s
  have hcount : declaredCount ["cnf", "1", "0"] = .ok 0 := by decide +kernel
  have hparse : parse s = .ok ⟨[[.pos 1]]⟩ := by decide +kernel
  exact ⟨by decide +kernel, declaredCount_eq_ok_iff.1 hcount, _, hparse, by decide⟩

end AllSat.Dimacs
