namespace AllSat.Distinct

variable {α : Type} [DecidableEq α]

theorem nodup_eraseDups : ∀ xs : List α, xs.eraseDups.Nodup
  | [] => by simp
  | x :: xs => by
      have ih := nodup_eraseDups (xs.filter fun y => !y == x)
      simp [List.eraseDups_cons, ih]
termination_by xs => xs.length
decreasing_by exact Nat.lt_succ_of_le (List.length_filter_le _ xs)

omit [DecidableEq α] in
theorem nodup_concat {xs : List α} {x : α} (hxs : xs.Nodup) (hx : x ∉ xs) :
    (xs ++ [x]).Nodup := by
  refine List.nodup_append.2 ⟨hxs, by simp, fun y hy z hz => ?_⟩
  intro heq
  exact hx (List.mem_singleton.1 hz ▸ heq ▸ hy)

theorem eraseDups_eq_nil_iff {xs : List α} : xs.eraseDups = [] ↔ xs = [] := by
  cases xs <;> simp [List.eraseDups_cons]

theorem eraseDups_of_nodup {xs : List α} (h : xs.Nodup) : xs.eraseDups = xs := by
  induction xs with
  | nil => rfl
  | cons x xs ih =>
      have hx := List.nodup_cons.1 h
      have hfilter : (xs.filter fun y => !y == x) = xs :=
        List.filter_eq_self.2 fun y hy => by
          have hne : y ≠ x := fun he => hx.1 (he ▸ hy)
          simpa using hne
      rw [List.eraseDups_cons, hfilter, ih hx.2]

def firstRepeatAfter (seen : List α) : List α → Option α
  | [] => none
  | x :: xs => if x ∈ seen then some x else firstRepeatAfter (x :: seen) xs

def firstRepeat (xs : List α) : Option α := firstRepeatAfter [] xs

theorem firstRepeatAfter_eq_none_iff {seen xs : List α} :
    firstRepeatAfter seen xs = none ↔ xs.Nodup ∧ ∀ x ∈ xs, x ∉ seen := by
  induction xs generalizing seen with
  | nil => simp [firstRepeatAfter]
  | cons x xs ih =>
      by_cases hx : x ∈ seen
      · simp [firstRepeatAfter, hx]
      · simp only [firstRepeatAfter, hx, if_false, ih, List.nodup_cons, List.mem_cons]
        constructor
        · rintro ⟨hnodup, hxs⟩
          refine ⟨⟨fun hmem => hxs x hmem (.inl rfl), hnodup⟩, ?_⟩
          rintro y (rfl | hy)
          · exact hx
          · exact fun hseen => hxs y hy (.inr hseen)
        · rintro ⟨⟨hnot, hnodup⟩, hall⟩
          refine ⟨hnodup, fun y hy => ?_⟩
          rintro (rfl | hseen)
          · exact hnot hy
          · exact hall y (.inr hy) hseen

theorem firstRepeat_eq_none_iff {xs : List α} : firstRepeat xs = none ↔ xs.Nodup := by
  simp [firstRepeat, firstRepeatAfter_eq_none_iff]

theorem firstRepeatAfter_eq_some_iff {seen xs : List α} {x : α} :
    firstRepeatAfter seen xs = some x ↔
      ∃ before after, xs = before ++ x :: after ∧ before.Nodup ∧
        (∀ y ∈ before, y ∉ seen) ∧ (x ∈ before ∨ x ∈ seen) := by
  induction xs generalizing seen with
  | nil => simp [firstRepeatAfter]
  | cons y ys ih =>
      by_cases hy : y ∈ seen
      · simp only [firstRepeatAfter, hy, if_true, Option.some.injEq]
        constructor
        · rintro rfl
          exact ⟨[], ys, by simp [hy]⟩
        · rintro ⟨before, after, hsplit, -, hseen, -⟩
          cases before with
          | nil => cases hsplit; rfl
          | cons z before =>
              cases hsplit
              exact absurd hy (hseen y (by simp))
      · simp only [firstRepeatAfter, hy, if_false, ih]
        constructor
        · rintro ⟨before, after, rfl, hnodup, hseen, hx⟩
          refine ⟨y :: before, after, rfl, ?_, ?_, ?_⟩
          · exact List.nodup_cons.2 ⟨fun h => hseen y h (.head _), hnodup⟩
          · exact List.forall_mem_cons.2 ⟨hy, fun z hz h => hseen z hz (.tail _ h)⟩
          · rw [List.mem_cons] at hx ⊢
            rwa [or_left_comm, ← or_assoc] at hx
        · rintro ⟨before, after, hsplit, hnodup, hseen, hx⟩
          cases before with
          | nil =>
              cases hsplit
              exact absurd (hx.resolve_left List.not_mem_nil) hy
          | cons z before =>
              cases hsplit
              obtain ⟨hnot, hbefore⟩ := List.nodup_cons.1 hnodup
              refine ⟨before, after, rfl, hbefore, fun z hz hmem => ?_, ?_⟩
              · rcases List.mem_cons.1 hmem with rfl | hzseen
                · exact hnot hz
                · exact hseen z (.tail _ hz) hzseen
              · rw [List.mem_cons] at hx ⊢
                rwa [or_left_comm, ← or_assoc]

theorem firstRepeat_eq_some_iff {xs : List α} {x : α} :
    firstRepeat xs = some x ↔
      ∃ before after, xs = before ++ x :: after ∧ before.Nodup ∧ x ∈ before := by
  simp [firstRepeat, firstRepeatAfter_eq_some_iff]

def FirstRepeat (xs : List α) (x : α) : Prop :=
  ∃ before after, xs = before ++ x :: after ∧ before.Nodup ∧ x ∈ before

theorem nodup_or_exists_firstRepeat (xs : List α) : xs.Nodup ∨ ∃ x, FirstRepeat xs x := by
  cases h : firstRepeat xs with
  | none => exact .inl (firstRepeat_eq_none_iff.1 h)
  | some x => exact .inr ⟨x, firstRepeat_eq_some_iff.1 h⟩

end AllSat.Distinct
