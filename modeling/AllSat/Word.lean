namespace AllSat.Word

def size : Nat := UInt64.size

def half : Nat := size / 2

theorem size_eq : size = 18446744073709551616 := rfl

theorem half_eq : half = 9223372036854775808 := rfl

def wrap (k : Int) : Int := k.bmod size

theorem wrap_of_bounds {k : Int} (hlo : -half ≤ k) (hhi : k < half) : wrap k = k := by
  rw [half_eq] at hlo hhi
  refine Int.bmod_eq_of_le ?_ ?_ <;> rw [size_eq] <;> omega

end AllSat.Word
