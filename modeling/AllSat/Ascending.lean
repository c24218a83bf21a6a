namespace AllSat.Ascending

variable {α : Type} [LT α] [DecidableLT α] [DecidableEq α]

@[specialize] def insert (x : α) : List α → List α
  | [] => [x]
  | y :: ys => if x < y then x :: y :: ys else if x = y then y :: ys else y :: insert x ys

theorem mem_insert {x z : α} {ys : List α} : z ∈ insert x ys ↔ z = x ∨ z ∈ ys := by
  induction ys with
  | nil => simp [insert]
  | cons y ys ih =>
      by_cases hlt : x < y
      · simp [insert, hlt]
      · by_cases heq : x = y
        · rw [insert, if_neg hlt, if_pos heq]
          exact (or_iff_right_of_imp fun hz => by simp [hz, heq]).symm
        · rw [insert, if_neg hlt, if_neg heq, List.mem_cons, ih, or_left_comm, ← List.mem_cons]

theorem pairwise_insert (trans : ∀ {a b c : α}, a < b → b < c → a < c)
    (total : ∀ {a b : α}, ¬ a < b → a ≠ b → b < a) (x : α) {ys : List α}
    (h : ys.Pairwise (· < ·)) : (insert x ys).Pairwise (· < ·) := by
  induction ys with
  | nil => simp [insert]
  | cons y ys ih =>
      have hy := List.pairwise_cons.1 h
      by_cases hlt : x < y
      · simp only [insert, hlt, if_true, List.pairwise_cons]
        refine ⟨fun z hz => ?_, hy⟩
        cases List.mem_cons.1 hz with
        | inl hz => exact hz ▸ hlt
        | inr hz => exact trans hlt (hy.1 z hz)
      · by_cases heq : x = y
        · rwa [insert, if_neg hlt, if_pos heq]
        · simp only [insert, hlt, heq, if_false, List.pairwise_cons]
          refine ⟨fun z hz => ?_, ih hy.2⟩
          cases mem_insert.1 hz with
          | inl hz => exact hz ▸ total hlt heq
          | inr hz => exact hy.1 z hz

@[specialize] def has (x : α) : List α → Bool
  | [] => false
  | y :: ys => if y < x then has x ys else decide (x = y)

theorem mem_of_has {x : α} {ys : List α} (h : has x ys = true) : x ∈ ys := by
  induction ys with
  | nil => simp [has] at h
  | cons y ys ih =>
      simp only [has] at h
      split at h
      · exact List.mem_cons_of_mem _ (ih h)
      · exact List.mem_cons.2 (.inl (of_decide_eq_true h))

@[specialize] def add (x : α) (ys : List α) : List α := if has x ys then ys else insert x ys

theorem mem_add {x z : α} {ys : List α} : z ∈ add x ys ↔ z = x ∨ z ∈ ys := by
  unfold add
  split
  · rename_i h
    have hx := mem_of_has h
    exact (or_iff_right_of_imp fun he => he ▸ hx).symm
  · exact mem_insert

theorem pairwise_add (trans : ∀ {a b c : α}, a < b → b < c → a < c)
    (total : ∀ {a b : α}, ¬ a < b → a ≠ b → b < a) (x : α) {ys : List α}
    (h : ys.Pairwise (· < ·)) : (add x ys).Pairwise (· < ·) := by
  unfold add
  split
  · exact h
  · exact pairwise_insert trans total x h

@[specialize] def ofList (xs : List α) : List α := xs.foldr add []

theorem mem_ofList {x : α} {xs : List α} : x ∈ ofList xs ↔ x ∈ xs := by
  induction xs with
  | nil => simp [ofList]
  | cons y ys ih =>
      simp only [ofList, List.foldr_cons, mem_add, List.mem_cons] at ih ⊢
      rw [ih]

theorem pairwise_ofList (trans : ∀ {a b c : α}, a < b → b < c → a < c)
    (total : ∀ {a b : α}, ¬ a < b → a ≠ b → b < a) (xs : List α) :
    (ofList xs).Pairwise (· < ·) := by
  induction xs with
  | nil => simp [ofList]
  | cons x xs ih => exact pairwise_add trans total x ih

@[specialize] def union : List α → List α → List α
  | [], ys => ys
  | xs, [] => xs
  | x :: xs, y :: ys =>
    if x < y then x :: union xs (y :: ys)
    else if x = y then x :: union xs ys
    else y :: union (x :: xs) ys
termination_by xs ys => xs.length + ys.length

theorem mem_union {z : α} {xs ys : List α} : z ∈ union xs ys ↔ z ∈ xs ∨ z ∈ ys := by
  fun_induction union xs ys with
  | case1 => simp
  | case2 => simp
  | case3 x xs y ys _ ih => rw [List.mem_cons, ih, ← or_assoc, ← List.mem_cons]
  | case4 xs y ys _ ih =>
      rw [List.mem_cons, ih, List.mem_cons, List.mem_cons, ← or_or_distrib_left]
  | case5 x xs y ys _ _ ih => rw [List.mem_cons, ih, or_left_comm, ← List.mem_cons]

omit [DecidableLT α] in
theorem eq_of_mem_iff (irrefl : ∀ a : α, ¬ a < a) (trans : ∀ {a b c : α}, a < b → b < c → a < c)
    {xs ys : List α} (hx : xs.Pairwise (· < ·)) (hy : ys.Pairwise (· < ·))
    (h : ∀ z, z ∈ xs ↔ z ∈ ys) : xs = ys := by
  induction xs generalizing ys with
  | nil =>
      cases ys with
      | nil => rfl
      | cons y ys => exact absurd ((h y).2 (by simp)) (by simp)
  | cons x xs ih =>
      cases ys with
      | nil => exact absurd ((h x).1 (by simp)) (by simp)
      | cons y ys =>
          have hx' := List.pairwise_cons.1 hx
          have hy' := List.pairwise_cons.1 hy
          have hxy : x = y := by
            cases List.mem_cons.1 ((h x).1 (by simp)) with
            | inl he => exact he
            | inr hxs =>
                cases List.mem_cons.1 ((h y).2 (by simp)) with
                | inl he => exact he.symm
                | inr hys => exact absurd (trans (hx'.1 y hys) (hy'.1 x hxs)) (irrefl x)
          subst hxy
          refine congrArg (x :: ·) (ih hx'.2 hy'.2 fun z => ?_)
          have hz := h z
          by_cases he : z = x
          · subst he
            exact iff_of_false (fun hm => irrefl z (hx'.1 z hm)) fun hm => irrefl z (hy'.1 z hm)
          · simpa [he] using hz

end AllSat.Ascending
