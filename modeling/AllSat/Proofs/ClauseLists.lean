import AllSat.Cnf
import AllSat.Proofs.Checked

namespace AllSat

theorem Clause.ofLiterals_literals (c : Clause) : ofLiterals c.literals = .ok c := by
  cases hc : ofLiterals? c.literals with
  | none => exact absurd (ofLiterals?_eq_none_iff.1 hc) c.nonempty
  | some d =>
      have hd : d = c := Clause.ext (by
        rw [literals_of_ofLiterals? hc, Distinct.eraseDups_of_nodup c.distinct])
      rw [ofLiterals, hc, hd]

namespace Cnf

theorem ofLists_of_ne_nil {lists : List (List (Literal String))} (h : ∀ ls ∈ lists, ls ≠ []) :
    ∃ f, ofLists lists = .ok f := by
  have hclauses : ∀ ls ∈ lists, ∃ c, Clause.ofLiterals ls = .ok c := by
    intro ls hls
    cases hc : Clause.ofLiterals? ls with
    | none => exact absurd (Clause.ofLiterals?_eq_none_iff.1 hc) (h ls hls)
    | some c => exact ⟨c, by rw [Clause.ofLiterals, hc]⟩
  obtain ⟨cs, hcs⟩ := exists_mapM_eq_ok hclauses
  exact ⟨⟨cs⟩, congrArg (Except.map Cnf.mk) hcs⟩

theorem literals_of_ofLiterals {ls : List (Literal String)} {c : Clause}
    (h : Clause.ofLiterals ls = .ok c) : c.literals = ls.eraseDups := by
  unfold Clause.ofLiterals at h
  split at h
  · cases h
  · rename_i d hd
    cases h
    exact Clause.literals_of_ofLiterals? hd

theorem conjunction_of_ofLists {lists : List (List (Literal String))} {f : Cnf}
    (h : ofLists lists = .ok f) : f.conjunction = lists.map List.eraseDups := by
  obtain ⟨cs, hcs, rfl⟩ := exists_of_map_eq_ok h
  rw [mapM_eq_ok_iff] at hcs
  clear h
  induction hcs with
  | nil => rfl
  | @cons ls c lists cs hc _ ih =>
      simp only [conjunction, List.map_cons, literals_of_ofLiterals hc] at ih ⊢
      rw [ih]

theorem holds_of_ofLists {lists : List (List (Literal String))} {f : Cnf}
    (h : ofLists lists = .ok f) {τ : String → Bool} :
    f.Holds τ ↔ Conjunction.Holds τ lists := by
  rw [holds_iff_conjunction, conjunction_of_ofLists h]
  simp [Conjunction.Holds, Disjunction.Holds]

end Cnf

end AllSat
