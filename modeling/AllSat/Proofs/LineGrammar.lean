import AllSat.Proofs.Decimals
import AllSat.Proofs.ParsedNames
import AllSat.Proofs.SignedForm
import Mathlib.Logic.Basic

namespace AllSat.Dimacs

open Text (IsSigned IsUnsigned linesOf signed?_eq_some_iff unsigned?_eq_some_iff words)

structure Declares (fields : List String) (n : Nat) : Prop where
  format : fields[0]? = some "cnf"
  variableCount : ∃ token v, fields[1]? = some token ∧ IsUnsigned token v
  clauseCount : ∃ token, fields[2]? = some token ∧ IsUnsigned token n

inductive HeaderFault (fields : List String) : Malformed → Prop
  | format : fields[0]? ≠ some "cnf" → HeaderFault fields .missingCnf
  | variableCount : fields[0]? = some "cnf" →
      (¬ ∃ token v, fields[1]? = some token ∧ IsUnsigned token v) →
      HeaderFault fields .invalidVariableCount
  | clauseCount : fields[0]? = some "cnf" →
      (∃ token v, fields[1]? = some token ∧ IsUnsigned token v) →
      (¬ ∃ token n, fields[2]? = some token ∧ IsUnsigned token n) →
      HeaderFault fields .invalidClauseCount

theorem bind_unsigned?_eq_some_iff {field : Option String} {n : Nat} :
    field.bind Text.unsigned? = some n ↔ ∃ token, field = some token ∧ IsUnsigned token n := by
  simp [Option.bind_eq_some_iff, unsigned?_eq_some_iff]

theorem bind_unsigned?_isNone_iff {field : Option String} :
    (field.bind Text.unsigned?).isNone = true ↔
      ¬ ∃ token n, field = some token ∧ IsUnsigned token n := by
  rw [Option.isNone_iff_eq_none, Option.eq_none_iff_forall_ne_some]
  simp only [ne_eq, bind_unsigned?_eq_some_iff, not_exists]
  exact forall_comm

theorem declaredCount_eq_ok_iff {fields : List String} {n : Nat} :
    declaredCount fields = .ok n ↔ Declares fields n := by
  unfold declaredCount
  split
  · rename_i hformat
    exact iff_of_false (by simp) fun h => hformat h.format
  · rename_i hformat
    split
    · rename_i hvars
      exact iff_of_false (by simp) fun h => bind_unsigned?_isNone_iff.1 hvars h.variableCount
    · rename_i hvars
      rw [bind_unsigned?_isNone_iff, not_not] at hvars
      have hcount : fields[2]?.bind Text.unsigned? = some n ↔ Declares fields n := by
        rw [bind_unsigned?_eq_some_iff]
        exact ⟨fun h => ⟨not_not.1 hformat, hvars, h⟩, Declares.clauseCount⟩
      rw [← hcount]
      split
      · rename_i hnone
        simp [hnone]
      · rename_i hsome
        simp [hsome]

theorem declaredCount_eq_error_iff {fields : List String} {cause : Malformed} :
    declaredCount fields = .error cause ↔ HeaderFault fields cause := by
  constructor
  · intro h
    unfold declaredCount at h
    split at h
    · rename_i hformat
      cases h
      exact .format hformat
    · rename_i hformat
      split at h
      · rename_i hvars
        cases h
        exact .variableCount (not_not.1 hformat) (bind_unsigned?_isNone_iff.1 hvars)
      · rename_i hvars
        rw [bind_unsigned?_isNone_iff, not_not] at hvars
        split at h
        · rename_i hcount
          cases h
          exact .clauseCount (not_not.1 hformat) hvars
            (bind_unsigned?_isNone_iff.1 (Option.isNone_iff_eq_none.2 hcount))
        · cases h
  · intro h
    cases h with
    | format hformat => simp only [declaredCount, if_pos hformat]
    | variableCount hformat hvars =>
        rw [declaredCount, if_neg (not_not.2 hformat), if_pos (bind_unsigned?_isNone_iff.2 hvars)]
    | clauseCount hformat hvars hcount =>
        have hnone := Option.isNone_iff_eq_none.1 (bind_unsigned?_isNone_iff.2 hcount)
        rw [declaredCount, if_neg (not_not.2 hformat),
          if_neg (mt bind_unsigned?_isNone_iff.1 (not_not.2 hvars)), hnone]

theorem Declares.unique {fields : List String} {m n : Nat} (hm : Declares fields m)
    (hn : Declares fields n) : m = n := by
  rw [← declaredCount_eq_ok_iff] at hm hn
  exact Except.ok.inj (hm.symm.trans hn)

theorem Declares.not_fault {fields : List String} {n : Nat} {cause : Malformed}
    (h : Declares fields n) : ¬ HeaderFault fields cause := by
  intro hfault
  have herror := declaredCount_eq_error_iff.2 hfault
  rw [declaredCount_eq_ok_iff.2 h] at herror
  cases herror

inductive Denotes : List String → Disjunction Nat → Prop
  | ended : Denotes [] []
  | zero {token later} : IsSigned token 0 → Denotes (token :: later) []
  | literal {token tokens l c} : l.atom ≠ 0 → IsSigned token l.value → Denotes tokens c →
      Denotes (token :: tokens) (l :: c)

inductive Unreadable : List String → String → Prop
  | here {token later} : (∀ k, ¬ IsSigned token k) → Unreadable (token :: later) token
  | later {token tokens other k} : k ≠ 0 → IsSigned token k → Unreadable tokens other →
      Unreadable (token :: tokens) other

inductive ClauseFault (tokens : List String) : Malformed → Prop
  | unreadable {token} : Unreadable tokens token → ClauseFault tokens (.invalidLiteral token)
  | empty : Denotes tokens [] → ClauseFault tokens .emptyClause

theorem value_ne_zero {l : Literal Nat} (h : l.atom ≠ 0) : l.value ≠ 0 := by
  unfold Literal.value
  split <;> omega

theorem literals_of_denotes {tokens : List String} {c : Disjunction Nat} (h : Denotes tokens c) :
    literals tokens = .ok c := by
  induction h with
  | ended => rfl
  | zero hzero => simp [literals, signed?_eq_some_iff.2 hzero, Literal.ofSigned?]
  | literal hne hsigned _ ih =>
      have hl := Literal.ofSigned?_eq_some_iff.2 ⟨hne, rfl⟩
      simp only [literals, signed?_eq_some_iff.2 hsigned, hl, ih]
      rfl

theorem literals_of_unreadable {tokens : List String} {token : String}
    (h : Unreadable tokens token) : literals tokens = .error (.invalidLiteral token) := by
  induction h with
  | here hbad =>
      have hnone := Option.eq_none_iff_forall_ne_some.2 fun k => mt signed?_eq_some_iff.1 (hbad k)
      simp [literals, hnone]
  | @later token tokens other k hne hsigned _ ih =>
      cases hl : Literal.ofSigned? k with
      | none => exact absurd (Literal.ofSigned?_eq_none_iff.1 hl) hne
      | some l =>
          simp only [literals, signed?_eq_some_iff.2 hsigned, hl, ih]
          rfl

theorem denotes_or_unreadable (tokens : List String) :
    (∃ c, Denotes tokens c) ∨ ∃ token, Unreadable tokens token := by
  induction tokens with
  | nil => exact .inl ⟨[], .ended⟩
  | cons token tokens ih =>
      by_cases hsigned : ∃ k, IsSigned token k
      · obtain ⟨k, hk⟩ := hsigned
        cases hl : Literal.ofSigned? k with
        | none => exact .inl ⟨[], .zero (Literal.ofSigned?_eq_none_iff.1 hl ▸ hk)⟩
        | some l =>
            obtain ⟨hne, rfl⟩ := Literal.ofSigned?_eq_some_iff.1 hl
            rcases ih with ⟨c, hc⟩ | ⟨other, hother⟩
            · exact .inl ⟨l :: c, .literal hne hk hc⟩
            · exact .inr ⟨other, .later (value_ne_zero hne) hk hother⟩
      · exact .inr ⟨token, .here (not_exists.1 hsigned)⟩

theorem clause_of_denotes {tokens : List String} {c : Disjunction Nat} (hne : c ≠ [])
    (h : Denotes tokens c) : clause tokens = .ok c := by
  cases c with
  | nil => exact absurd rfl hne
  | cons l c => simp only [clause, literals_of_denotes h]

theorem clause_of_fault {tokens : List String} {cause : Malformed} (h : ClauseFault tokens cause) :
    clause tokens = .error cause := by
  cases h with
  | unreadable htoken => simp only [clause, literals_of_unreadable htoken]
  | empty hempty => simp only [clause, literals_of_denotes hempty]

theorem denotes_or_fault (tokens : List String) :
    (∃ c, c ≠ [] ∧ Denotes tokens c) ∨ ∃ cause, ClauseFault tokens cause := by
  rcases denotes_or_unreadable tokens with ⟨c, hc⟩ | ⟨token, htoken⟩
  · by_cases hne : c = []
    · exact .inr ⟨_, .empty (hne ▸ hc)⟩
    · exact .inl ⟨c, hne, hc⟩
  · exact .inr ⟨_, .unreadable htoken⟩

theorem clause_eq_ok_iff {tokens : List String} {c : Disjunction Nat} :
    clause tokens = .ok c ↔ c ≠ [] ∧ Denotes tokens c := by
  constructor
  · intro h
    rcases denotes_or_fault tokens with ⟨d, hne, hd⟩ | ⟨cause, hfault⟩
    · rw [clause_of_denotes hne hd] at h
      cases h
      exact ⟨hne, hd⟩
    · rw [clause_of_fault hfault] at h
      cases h
  · rintro ⟨hne, hc⟩
    exact clause_of_denotes hne hc

theorem clause_eq_error_iff {tokens : List String} {cause : Malformed} :
    clause tokens = .error cause ↔ ClauseFault tokens cause := by
  refine ⟨fun h => ?_, clause_of_fault⟩
  rcases denotes_or_fault tokens with ⟨d, hne, hd⟩ | ⟨other, hfault⟩
  · rw [clause_of_denotes hne hd] at h
    cases h
  · rw [clause_of_fault hfault] at h
    cases h
    exact hfault

def textLines (text : String) : List Line :=
  (linesOf text).map fun line => Line.ofTokens (words line)

theorem parse_ofString (text : String) :
    parse (.ofString text) = (clauses none 0 ((textLines text).map .ok)).map Formula.mk := by
  simp only [parse, parseLines, Text.lines_ofString, textLines, List.map_map, Function.comp_def,
    Except.map]

end AllSat.Dimacs
