import AllSat.Dimacs.Signed
import AllSat.Proofs.TextLines
import AllSat.Text.Decimal

namespace AllSat

theorem repr_injective : Function.Injective Nat.repr := by
  intro m n h
  have hdigits := Text.digits?_repr m
  rw [h, Text.digits?_repr, Option.some.injEq] at hdigits
  exact hdigits.symm

namespace Text

structure IsDigits (cs : List Char) (n : Nat) : Prop where
  nonempty : cs ≠ []
  digits : ∀ c ∈ cs, c.isDigit = true
  value : Nat.ofDigitChars 10 cs 0 = n

theorem digits?_eq_some_iff {cs : List Char} {n : Nat} : digits? cs = some n ↔ IsDigits cs n := by
  unfold digits?
  split
  · rename_i hbad
    refine iff_of_false (by simp) fun h => ?_
    have hall : cs.all Char.isDigit = true := List.all_eq_true.2 h.digits
    simp [h.nonempty, hall] at hbad
  · rename_i hgood
    simp only [Bool.or_eq_true, List.isEmpty_iff, Bool.not_eq_true', not_or,
      Bool.not_eq_false, List.all_eq_true] at hgood
    rw [Option.some.injEq]
    exact ⟨fun h => ⟨hgood.1, hgood.2, h⟩, IsDigits.value⟩

theorem isDigits_repr (n : Nat) : IsDigits n.repr.toList n := digits?_eq_some_iff.1 (digits?_repr n)

theorem IsDigits.ne_cons {cs ds : List Char} {c : Char} {n : Nat} (h : IsDigits cs n)
    (hc : c.isDigit = false) : cs ≠ c :: ds := by
  rintro rfl
  simp [h.digits c (.head _)] at hc

def IsUnsigned (token : String) (n : Nat) : Prop :=
  n < Word.size ∧
    ∃ ds, IsDigits ds n ∧ (token.toList = ds ∨ token.toList = '+' :: ds)

def IsSigned (token : String) (k : Int) : Prop :=
  -Word.half ≤ k ∧ k < Word.half ∧
    ∃ ds n, IsDigits ds n ∧
      ((token.toList = ds ∧ k = n) ∨ (token.toList = '+' :: ds ∧ k = n) ∨
        (token.toList = '-' :: ds ∧ k = -n))

theorem unsigned?_eq_some_iff {token : String} {n : Nat} :
    unsigned? token = some n ↔ IsUnsigned token n := by
  simp only [unsigned?, Option.filter_eq_some_iff, decide_eq_true_eq, IsUnsigned]
  rw [and_comm]
  apply and_congr_right
  intro hn
  split
  · rename_i cs hcs
    rw [hcs, digits?_eq_some_iff]
    constructor
    · exact fun h => ⟨cs, h, .inr rfl⟩
    · rintro ⟨ds, h, rfl | heq⟩
      · exact absurd rfl (h.ne_cons rfl)
      · cases heq
        exact h
  · rename_i hplus
    rw [digits?_eq_some_iff]
    constructor
    · exact fun h => ⟨_, h, .inl rfl⟩
    · rintro ⟨ds, h, heq | heq⟩
      · exact heq ▸ h
      · exact absurd heq (hplus ds)

theorem signed?_eq_some_iff {token : String} {k : Int} :
    signed? token = some k ↔ IsSigned token k := by
  simp only [signed?, Option.filter_eq_some_iff, decide_eq_true_eq, IsSigned, Option.pure_def,
    Option.bind_eq_bind]
  rw [and_comm, and_assoc]
  apply and_congr_right
  intro _
  apply and_congr_right
  intro _
  split
  · rename_i cs hcs
    simp only [hcs, Option.map_eq_some_iff, Option.bind_eq_some_iff, Option.some.injEq,
      digits?_eq_some_iff]
    constructor
    · rintro ⟨_, ⟨n, h, rfl⟩, rfl⟩
      exact ⟨cs, n, h, .inr (.inl ⟨rfl, rfl⟩)⟩
    · rintro ⟨ds, n, h, ⟨rfl, -⟩ | ⟨heq, rfl⟩ | ⟨heq, -⟩⟩
      · exact absurd rfl (h.ne_cons rfl)
      · cases heq
        exact ⟨_, ⟨n, h, rfl⟩, rfl⟩
      · cases heq
  · rename_i cs hcs
    simp only [hcs, Option.map_eq_some_iff, Option.bind_eq_some_iff, Option.some.injEq,
      digits?_eq_some_iff]
    constructor
    · rintro ⟨_, ⟨n, h, rfl⟩, rfl⟩
      exact ⟨cs, n, h, .inr (.inr ⟨rfl, rfl⟩)⟩
    · rintro ⟨ds, n, h, ⟨rfl, -⟩ | ⟨heq, -⟩ | ⟨heq, rfl⟩⟩
      · exact absurd rfl (h.ne_cons rfl)
      · cases heq
      · cases heq
        exact ⟨_, ⟨n, h, rfl⟩, rfl⟩
  · rename_i hplus hminus
    simp only [Option.map_eq_some_iff, Option.bind_eq_some_iff, Option.some.injEq,
      digits?_eq_some_iff]
    constructor
    · rintro ⟨_, ⟨n, h, rfl⟩, rfl⟩
      exact ⟨_, n, h, .inl ⟨rfl, rfl⟩⟩
    · rintro ⟨ds, n, h, ⟨heq, rfl⟩ | ⟨heq, -⟩ | ⟨heq, -⟩⟩
      · exact ⟨_, ⟨n, heq ▸ h, rfl⟩, rfl⟩
      · exact absurd heq (hplus ds)
      · exact absurd heq (hminus ds)

theorem isUnsigned_repr_iff {m n : Nat} : IsUnsigned m.repr n ↔ n = m ∧ m < Word.size := by
  constructor
  · rintro ⟨hn, ds, hds, heq | heq⟩
    · have hvalue := (heq ▸ isDigits_repr m).value.symm.trans hds.value
      exact ⟨hvalue.symm, hvalue ▸ hn⟩
    · exact absurd heq ((isDigits_repr m).ne_cons rfl)
  · rintro ⟨rfl, hn⟩
    exact ⟨hn, _, isDigits_repr n, .inl rfl⟩

theorem isSigned_repr {k : Int} (hlo : -Word.half ≤ k) (hhi : k < Word.half) :
    IsSigned k.repr k := by
  refine ⟨hlo, hhi, ?_⟩
  cases k with
  | ofNat n => exact ⟨_, n, isDigits_repr n, .inl ⟨rfl, rfl⟩⟩
  | negSucc n =>
      refine ⟨_, n + 1, isDigits_repr (n + 1), .inr (.inr ⟨?_, rfl⟩)⟩
      simp [Int.repr]

theorem isBlank_of_isDigit {c : Char} (h : c.isDigit = true) : isBlank c = false := by
  obtain ⟨hlo, hhi⟩ := Char.isDigit_iff_toNat.1 h
  have hzero : '0'.toNat = 48 := rfl
  have hnine : '9'.toNat = 57 := rfl
  simp [isBlank, blankRanges]
  omega

theorem isWord_repr (n : Nat) : IsWord n.repr :=
  ⟨(isDigits_repr n).nonempty, fun c hc => isBlank_of_isDigit ((isDigits_repr n).digits c hc)⟩

theorem isWord_signed (k : Int) : IsWord k.repr := by
  cases k with
  | ofNat n => exact isWord_repr n
  | negSucc n =>
      have hword := isWord_repr (n + 1)
      have hrepr : (Int.negSucc n).repr.toList = '-' :: (n + 1).repr.toList := by simp [Int.repr]
      refine ⟨by simp [hrepr], fun c hc => ?_⟩
      rw [hrepr, List.mem_cons] at hc
      rcases hc with rfl | hc
      · decide
      · exact hword.solid c hc

end Text

end AllSat
