namespace AllSat

def place (vs : Array Nat) (v : Nat) : Nat :=
  if vs.getD (v - 1) 0 = v then v - 1 else vs.toList.idxOf v

theorem getD_place {vs : Array Nat} {v : Nat} (h : v ∈ vs) : vs.getD (place vs v) 0 = v := by
  unfold place
  split
  · rename_i hv
    exact hv
  · have hlt : vs.toList.idxOf v < vs.size := List.idxOf_lt_length_of_mem (Array.mem_def.1 h)
    simp only [Array.getD, hlt, dite_true, Array.getInternal_eq_getElem]
    exact List.getElem_idxOf hlt

theorem place_lt {vs : Array Nat} {v : Nat} (h : v ∈ vs) : place vs v < vs.size := by
  have hpos : 0 < vs.size := Array.size_pos_of_mem h
  unfold place
  split
  · rename_i hv
    by_cases hlt : v - 1 < vs.size
    · exact hlt
    · simp only [Array.getD, hlt, dite_false] at hv
      omega
  · exact List.idxOf_lt_length_of_mem (Array.mem_def.1 h)

theorem getElem?_place {vs : Array Nat} {v : Nat} (h : v ∈ vs) : vs[place vs v]? = some v := by
  have hlt := place_lt h
  have hget := getD_place h
  simp only [Array.getD, hlt, dite_true, Array.getInternal_eq_getElem] at hget
  rw [Array.getElem?_eq_getElem hlt, hget]

end AllSat
