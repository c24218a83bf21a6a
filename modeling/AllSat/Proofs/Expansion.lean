import AllSat.Constraint.Dnf
import Mathlib.Algebra.BigOperators.Group.List.Basic
import Mathlib.Tactic.Push

namespace AllSat.Dnf

variable {α : Type} {τ : String → Bool} {terms : List (List (Literal String))} {f : Cnf}

theorem forall_mem_choices_cons {P : List α → Prop} {xs : List α} {rest : List (List α)} :
    (∀ choice ∈ choices (xs :: rest), P choice) ↔ ∀ x ∈ xs, ∀ ys ∈ choices rest, P (x :: ys) := by
  simp only [choices, List.forall_mem_flatMap, List.forall_mem_map]

theorem forall_choices_iff {p : α → Prop} {lists : List (List α)} :
    (∀ choice ∈ choices lists, ∃ x ∈ choice, p x) ↔ ∃ xs ∈ lists, ∀ x ∈ xs, p x := by
  induction lists with
  | nil => simp [choices]
  | cons xs rest ih =>
      rw [forall_mem_choices_cons, List.exists_mem_cons_iff, ← ih]
      simp only [List.exists_mem_cons_iff]
      constructor
      · intro h
        by_cases hxs : ∀ x ∈ xs, p x
        · exact .inl hxs
        · push Not at hxs
          obtain ⟨x, hx, hbad⟩ := hxs
          exact .inr fun ys hys => (h x hx ys hys).resolve_left hbad
      · rintro (h | h) x hx ys hys
        · exact .inl (h x hx)
        · exact .inr (h ys hys)

theorem ne_nil_of_mem_choices {lists : List (List α)} {choice : List α} (hne : lists ≠ [])
    (h : choice ∈ choices lists) : choice ≠ [] := by
  have hlength := length_of_mem_choices h
  rintro rfl
  exact hne (List.length_eq_zero_iff.1 hlength.symm)

theorem holds_clauses_iff (hne : terms ≠ []) :
    (⟨(choices terms).filterMap Clause.ofLiterals?⟩ : Cnf).Holds τ ↔
      ∀ choice ∈ choices terms, Disjunction.Holds τ choice := by
  constructor
  · intro h choice hchoice
    cases hc : Clause.ofLiterals? choice with
    | none =>
        exact absurd (Clause.ofLiterals?_eq_none_iff.1 hc) (ne_nil_of_mem_choices hne hchoice)
    | some c =>
        rw [← Clause.holds_of_ofLiterals? hc]
        exact h c (List.mem_filterMap.2 ⟨choice, hchoice, hc⟩)
  · intro h c hmem
    obtain ⟨choice, hchoice, hc⟩ := List.mem_filterMap.1 hmem
    rw [Clause.holds_of_ofLiterals? hc]
    exact h choice hchoice

theorem encode_eq_ok_iff :
    encode terms = .ok f ↔
      [] ∈ terms ∧ f = .empty ∨
        terms ≠ [] ∧ [] ∉ terms ∧ choiceCount terms < Word.size ∧
          f = ⟨(choices terms).filterMap Clause.ofLiterals?⟩ := by
  by_cases hnil : [] ∈ terms
  · simp [encode_of_nil_mem hnil, hnil, eq_comm]
  · by_cases hterms : terms = []
    · simp [hterms, encode_nil]
    · rcases Nat.lt_or_ge (choiceCount terms) Word.size with hlt | hge
      · simp [encode, hterms, hnil, hlt, Nat.not_le.2 hlt, eq_comm]
      · simp [encode, hterms, hnil, hge, Nat.not_lt.2 hge]

theorem holds_of_encode (h : encode terms = .ok f) : f.Holds τ ↔ Holds τ terms := by
  rcases encode_eq_ok_iff.1 h with ⟨hnil, rfl⟩ | ⟨hne, -, -, rfl⟩
  · exact iff_of_true (Cnf.holds_empty τ) ⟨[], hnil, by simp⟩
  · rw [holds_clauses_iff hne]
    exact forall_choices_iff

theorem encode_eq_emptyDnf_iff : encode terms = .error .emptyDnf ↔ terms = [] := by
  unfold encode
  split
  · rename_i hterms
    simp [hterms]
  · rename_i hterms
    refine iff_of_false ?_ hterms
    split
    · simp
    · split <;> simp

theorem encode_eq_dnfTooLarge_iff :
    encode terms = .error .dnfTooLarge ↔ [] ∉ terms ∧ Word.size ≤ choiceCount terms := by
  by_cases hnil : [] ∈ terms
  · simp [encode_of_nil_mem hnil, hnil]
  · by_cases hterms : terms = []
    · subst hterms
      exact iff_of_false (by simp [encode_nil]) (by decide)
    · by_cases hlarge : Word.size ≤ choiceCount terms <;> simp [encode, hterms, hnil, hlarge]

theorem cause_of_encode {cause : Error} (h : encode terms = .error cause) :
    cause = .emptyDnf ∨ cause = .dnfTooLarge := by
  unfold encode at h
  split at h
  · cases h
    exact .inl rfl
  · split at h
    · cases h
    · split at h
      · cases h
        exact .inr rfl
      · cases h

theorem choiceCount_eq_prod (lists : List (List α)) :
    choiceCount lists = (lists.map List.length).prod := by
  induction lists with
  | nil => rfl
  | cons xs rest ih =>
      rw [List.map_cons, List.prod_cons, ← ih]
      rfl

theorem choiceCount_perm {lists others : List (List α)} (h : lists.Perm others) :
    choiceCount lists = choiceCount others := by
  rw [choiceCount_eq_prod, choiceCount_eq_prod, (h.map List.length).prod_eq]

theorem choiceCount_pos {lists : List (List α)} (h : [] ∉ lists) : 0 < choiceCount lists := by
  induction lists with
  | nil => exact Nat.one_pos
  | cons xs rest ih =>
      rw [List.mem_cons, not_or] at h
      exact Nat.mul_pos (List.length_pos_iff.2 (Ne.symm h.1)) (ih h.2)

def checkedCount? (count : Nat) : List (List α) → Option Nat
  | [] => some count
  | xs :: rest =>
    if count * xs.length < Word.size then checkedCount? (count * xs.length) rest else none

theorem checkedCount?_eq_none_iff {lists : List (List α)} (h : [] ∉ lists) {count : Nat}
    (hcount : count < Word.size) :
    checkedCount? count lists = none ↔ Word.size ≤ count * choiceCount lists := by
  induction lists generalizing count with
  | nil => simpa [checkedCount?, choiceCount] using hcount
  | cons xs rest ih =>
      rw [List.mem_cons, not_or] at h
      have hproduct : count * choiceCount (xs :: rest) = count * xs.length * choiceCount rest :=
        (Nat.mul_assoc ..).symm
      rw [checkedCount?, hproduct]
      split
      · rename_i hfits
        exact ih h.2 hfits
      · rename_i hlarge
        -- no later list is empty, so the product does not become smaller again
        have hgrows := Nat.le_mul_of_pos_right (count * xs.length) (choiceCount_pos h.2)
        exact iff_of_true rfl (Nat.le_trans (Nat.le_of_not_lt hlarge) hgrows)

/-- A disjunction without terms is refused, one with an empty term says nothing, and any other is
refused only if it has more choices than a word can count, whichever terms come first. What is not
refused is true whenever all literals of a term are. -/
theorem encode_expands (terms : List (List (Literal String))) :
    let count := (terms.map List.length).prod
    (encode terms = .error .emptyDnf ↔ terms = []) ∧
    ([] ∈ terms → encode terms = .ok .empty) ∧
    (encode terms = .error .dnfTooLarge ↔ [] ∉ terms ∧ 2 ^ 64 - 1 < count) ∧
    (∀ cause, encode terms = .error cause → cause = .emptyDnf ∨ cause = .dnfTooLarge) ∧
    (∀ others, others.Perm terms →
      (encode others = .error .dnfTooLarge ↔ encode terms = .error .dnfTooLarge) ∧
        ([] ∉ terms → (checkedCount? 1 others = none ↔ 2 ^ 64 - 1 < count))) ∧
    ∀ f, encode terms = .ok f → ∀ τ : String → Bool,
      (∀ c ∈ f.clauses, ∃ l ∈ c.literals, τ l.atom = l.positive) ↔
        ∃ term ∈ terms, ∀ l ∈ term, τ l.atom = l.positive := by
  intro count
  have hlarge : 2 ^ 64 - 1 < count ↔ Word.size ≤ choiceCount terms := by
    rw [choiceCount_eq_prod, Word.size_eq]
    omega
  refine ⟨encode_eq_emptyDnf_iff, encode_of_nil_mem, ?_, fun cause => cause_of_encode,
    fun others hperm => ⟨?_, fun hnil => ?_⟩, fun f hf τ => holds_of_encode hf⟩
  · rw [hlarge, encode_eq_dnfTooLarge_iff]
  · rw [encode_eq_dnfTooLarge_iff, encode_eq_dnfTooLarge_iff, hperm.mem_iff, choiceCount_perm hperm]
  · rw [checkedCount?_eq_none_iff (mt hperm.mem_iff.1 hnil) (by decide), Nat.one_mul,
      choiceCount_perm hperm, hlarge]

end AllSat.Dnf
