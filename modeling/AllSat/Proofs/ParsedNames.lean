import AllSat.Numbering
import AllSat.Proofs.ClauseLists
import AllSat.Proofs.LineReading

namespace AllSat

namespace Dimacs

theorem ne_nil_of_clause {tokens : List String} {c : Disjunction Nat}
    (h : clause tokens = .ok c) : c ≠ [] := by
  unfold clause at h
  split at h
  · cases h
  · cases h
  · rename_i hnil _
    cases h
    exact hnil

theorem Reads.exists_tokens {declared : Option Nat} {count : Nat}
    {lines : List (Except Text.ReadError Line)} {cs : Conjunction Nat}
    (h : Reads declared count lines cs) : ∀ c ∈ cs, ∃ tokens, clause tokens = .ok c := by
  induction h with
  | ended => simp
  | skipped _ ih => exact ih
  | header _ _ ih => exact ih
  | last hc _ => simpa using ⟨_, hc⟩
  | next hc _ _ ih => exact List.forall_mem_cons.2 ⟨⟨_, hc⟩, ih⟩

theorem exists_tokens_of_parse {input : Text.Source} {f : Formula} (h : parse input = .ok f) :
    ∀ c ∈ f.clauses, ∃ tokens, clause tokens = .ok c := by
  obtain ⟨cs, hcs, rfl⟩ := exists_of_map_eq_ok h
  exact (reads_of_clauses hcs).exists_tokens

theorem ne_nil_of_parse {input : Text.Source} {f : Formula} (h : parse input = .ok f) :
    ∀ c ∈ f.clauses, c ≠ [] := by
  intro c hc
  obtain ⟨tokens, htokens⟩ := exists_tokens_of_parse h c hc
  exact ne_nil_of_clause htokens

end Dimacs

namespace Formula

variable {f : Formula} {g : Cnf}

theorem named_of_ne_nil (h : ∀ c ∈ f.clauses, c ≠ []) : ∃ g, f.named = .ok g := by
  apply Cnf.ofLists_of_ne_nil
  intro ls hls
  obtain ⟨c, hc, rfl⟩ := List.mem_map.1 hls
  exact mt List.map_eq_nil_iff.1 (h c hc)

theorem holds_named (h : f.named = .ok g) {τ : String → Bool} :
    g.Holds τ ↔ f.Holds (τ ∘ Nat.repr) := by
  rw [Cnf.holds_iff_conjunction, Cnf.conjunction_of_ofLists h, Holds, ← Conjunction.holds_map]
  simp [Conjunction.Holds, Disjunction.Holds]

theorem mem_names_named (h : f.named = .ok g) {name : String} :
    name ∈ g.names ↔ ∃ v ∈ f.vars, v.repr = name := by
  have hatoms : name ∈ Conjunction.atoms g.conjunction ↔ ∃ v ∈ f.vars, v.repr = name := by
    rw [Cnf.conjunction_of_ofLists h, Conjunction.mem_atoms]
    constructor
    · rintro ⟨_, hc, l, hl, rfl⟩
      simp only [List.mem_map] at hc
      obtain ⟨_, ⟨c, hc, rfl⟩, rfl⟩ := hc
      obtain ⟨m, hm, rfl⟩ := List.mem_map.1 (List.mem_eraseDups.1 hl)
      exact ⟨m.atom, mem_vars.2 ⟨c, hc, m, hm, rfl⟩, rfl⟩
    · rintro ⟨v, hv, rfl⟩
      obtain ⟨c, hc, l, hl, rfl⟩ := mem_vars.1 hv
      refine ⟨_, List.mem_map_of_mem (List.mem_map_of_mem hc), l.map Nat.repr, ?_, rfl⟩
      exact List.mem_eraseDups.2 (List.mem_map_of_mem hl)
  rw [Cnf.names, List.mem_eraseDups, hatoms]

end Formula

end AllSat
