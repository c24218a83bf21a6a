import AllSat.Proofs.SignedClauses

namespace AllSat

namespace Word

theorem toInt_toInt64 (x : UInt64) : x.toInt64.toInt = wrap x.toNat := by
  rw [← Int64.toInt_toBitVec, UInt64.toBitVec_toInt64, BitVec.toInt_eq_toNat_bmod]
  rfl

theorem toInt_neg (k : Int64) : (-k).toInt = wrap (-k.toInt) := Int64.toInt_neg k

theorem toInt_bounds (k : Int64) : -(half : Int) ≤ k.toInt ∧ k.toInt < half :=
  ⟨k.le_toInt, k.toInt_lt⟩

theorem toNat_toUInt64 (k : Int64) : (k.toUInt64.toNat : Int) = k.toInt % size := by
  have hlt : (k.toUInt64.toNat : Int) < size := Int.ofNat_lt.2 k.toUInt64.toNat_lt
  have hword := toInt_toInt64 k.toUInt64
  rw [Int64.toInt64_toUInt64] at hword
  rw [hword, wrap, Int.bmod_emod, Int.emod_eq_of_lt (Int.natCast_nonneg _) hlt]

theorem natAbs_of_pos {k : Int64} (h : 0 < k.toInt) : k.toInt.natAbs = k.toUInt64.toNat := by
  have hbounds := toInt_bounds k
  have hnat := toNat_toUInt64 k
  rw [half_eq] at hbounds
  rw [size_eq] at hnat
  omega

theorem natAbs_of_neg {k : Int64} (h : k.toInt < 0) :
    k.toInt.natAbs = (-k).toUInt64.toNat := by
  have hbounds := toInt_bounds k
  have hnat : ((-k).toUInt64.toNat : Int) = -k.toInt % size := by
    rw [toNat_toUInt64, toInt_neg, wrap, Int.bmod_emod]
  rw [half_eq] at hbounds
  rw [size_eq] at hnat
  omega

end Word

namespace Literal

def toWord (l : Literal UInt64) : Int64 :=
  if l.positive then l.atom.toInt64 else -l.atom.toInt64

def ofWord? (k : Int64) : Option (Literal UInt64) :=
  if 0 < k then some (.pos k.toUInt64)
  else if k < 0 then some (.neg (-k).toUInt64)
  else none

theorem toSigned_eq_toWord (l : Literal UInt64) :
    (l.map UInt64.toNat).toSigned = l.toWord.toInt := by
  obtain ⟨x, positive⟩ := l
  cases positive with
  | true => exact (Word.toInt_toInt64 x).symm
  | false =>
      have hneg : (-x.toInt64).toInt = Word.wrap (-Word.wrap x.toNat) := by
        rw [Word.toInt_neg, Word.toInt_toInt64]
      exact (hneg.trans Int.bmod_neg_bmod).symm

theorem ofSigned?_toInt (k : Int64) :
    ofSigned? k.toInt = (ofWord? k).map (Literal.map UInt64.toNat) := by
  simp only [ofSigned?, ofWord?, Int64.lt_iff_toInt_lt, Int64.toInt_zero]
  split
  · rename_i hpos
    rw [Word.natAbs_of_pos hpos]
    rfl
  · split
    · rename_i hneg
      rw [Word.natAbs_of_neg hneg]
      rfl
    · rfl

theorem fits_ofSigned {k : Int} (hk : k ≠ 0) (hlo : -(Word.half : Int) ≤ k) (hhi : k < Word.half) :
    (ofSigned k).Fits := by
  rw [fits_iff, value_ofSigned]
  exact ⟨Int.natAbs_ne_zero.2 hk, hlo, hhi⟩

def opposite (l : Literal Nat) : Literal Nat := ⟨Word.size - l.atom, !l.positive⟩

theorem toSigned_opposite {l : Literal Nat} (h : l.atom < Word.size) :
    l.opposite.toSigned = l.toSigned := by
  obtain ⟨v, positive⟩ := l
  have hcast : ((Word.size - v : Nat) : Int) = Word.size - v := Int.ofNat_sub (Nat.le_of_lt h)
  cases positive with
  | true =>
      have hvalue : -((Word.size - v : Nat) : Int) = (v : Int) - Word.size := by omega
      exact (congrArg Word.wrap hvalue).trans (Int.sub_bmod_right _ _)
  | false =>
      have hvalue : ((Word.size - v : Nat) : Int) = -(v : Int) + Word.size := by omega
      exact (congrArg Word.wrap hvalue).trans (Int.add_bmod_right _ _)

theorem fits_opposite {l : Literal Nat} (h : l.atom < Word.size) (hne : l.atom ≠ 0)
    (hfits : ¬ l.Fits) : l.opposite.Fits := by
  obtain ⟨v, positive⟩ := l
  cases positive <;> simp [Fits, opposite, Word.size_eq, Word.half_eq] at h hne hfits ⊢ <;> omega

theorem ofSigned?_toSigned_of_zero {l : Literal Nat} (h : l.atom = 0) :
    ofSigned? l.toSigned = none := by
  obtain ⟨v, positive⟩ := l
  cases h
  cases positive <;> rfl

theorem ofSigned?_toSigned_of_not_fits {l : Literal Nat} (h : l.atom < Word.size)
    (hne : l.atom ≠ 0) (hfits : ¬ l.Fits) : ofSigned? l.toSigned = some l.opposite := by
  rw [← toSigned_opposite h, ofSigned?_toSigned (fits_opposite h hne hfits)]

/-- A number read from a signed word is written as the same number again, the least one too. A
literal that is written and read again is the same if it fits; of the others the zero is lost, and
any other variable comes back as its distance from the word size, with the other sign. -/
theorem word_round_trip :
    (∀ x : Literal UInt64, (x.map UInt64.toNat).toSigned = x.toWord.toInt) ∧
    (∀ k : Int64, ofSigned? k.toInt = (ofWord? k).map (Literal.map UInt64.toNat)) ∧
    (∀ k : Int64, k ≠ 0 → ∃ l, ofSigned? k.toInt = some l ∧ l.toSigned = k.toInt) ∧
    ∀ x : Literal UInt64, let l := x.map UInt64.toNat
      (ofSigned? l.toSigned = some l ↔
        (1 ≤ l.atom ∧ l.atom ≤ Word.half - 1) ∨ (l.positive = false ∧ l.atom = Word.half)) ∧
      (ofSigned? l.toSigned = none ↔ l.atom = 0) ∧
      (ofSigned? l.toSigned = some ⟨Word.size - l.atom, !l.positive⟩ ↔
        l.atom ≠ 0 ∧ ofSigned? l.toSigned ≠ some l) := by
  refine ⟨toSigned_eq_toWord, ofSigned?_toInt, fun k hk => ?_, fun x => ?_⟩
  · have hne : k.toInt ≠ 0 := fun h => hk (Int64.toInt_inj.1 h)
    have hfits := fits_ofSigned hne (Word.toInt_bounds k).1 (Word.toInt_bounds k).2
    exact ⟨_, ofSigned?_of_ne_zero hne, toSigned_ofSigned hfits⟩
  · intro l
    have hlt : l.atom < Word.size := x.atom.toNat_lt
    have hother : l.opposite ≠ l := fun h => by
      have hsign := congrArg positive h
      simp [opposite] at hsign
    change (_ ↔ l.Fits) ∧ _ ∧ (_ = some l.opposite ↔ _)
    by_cases hzero : l.atom = 0
    · have hfits : ¬ l.Fits := fun h => (fits_iff.1 h).1 hzero
      simp [ofSigned?_toSigned_of_zero hzero, hzero, hfits]
    · by_cases hfits : l.Fits
      · simp [ofSigned?_toSigned hfits, hzero, hfits, hother.symm]
      · simp [ofSigned?_toSigned_of_not_fits hlt hzero hfits, hzero, hfits, hother]

end Literal

end AllSat
