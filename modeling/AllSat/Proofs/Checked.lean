import Mathlib.Data.List.Forall2

namespace AllSat

variable {ε α β : Type}

theorem exists_of_map_eq_ok {x : Except ε α} {k : α → β} {b : β} (h : x.map k = .ok b) :
    ∃ a, x = .ok a ∧ k a = b := by
  cases x with
  | error cause => cases h
  | ok a => exact ⟨a, rfl, Except.ok.inj h⟩

theorem map_eq_error_iff {x : Except ε α} {k : α → β} {cause : ε} :
    x.map k = .error cause ↔ x = .error cause := by
  cases x with
  | error other => exact ⟨fun h => congrArg Except.error (Except.error.inj h), congrArg _⟩
  | ok a => exact iff_of_false (by simp [Except.map]) (by simp)

theorem mapM_cons_of_error {k : α → Except ε β} {x : α} {cause : ε} (h : k x = .error cause)
    (xs : List α) : (x :: xs).mapM k = .error cause := by
  rw [List.mapM_cons, h]
  rfl

theorem mapM_cons_of_ok {k : α → Except ε β} {x : α} {y : β} (h : k x = .ok y) (xs : List α) :
    (x :: xs).mapM k = (xs.mapM k).map (y :: ·) := by
  rw [List.mapM_cons, h]
  cases xs.mapM k <;> rfl

theorem mapM_eq_ok_iff {k : α → Except ε β} {xs : List α} {ys : List β} :
    xs.mapM k = .ok ys ↔ List.Forall₂ (fun x y => k x = .ok y) xs ys := by
  induction xs generalizing ys with
  | nil =>
      rw [List.forall₂_nil_left_iff]
      exact ⟨fun h => (Except.ok.inj h).symm, fun h => congrArg Except.ok h.symm⟩
  | cons x xs ih =>
      rw [List.forall₂_cons_left_iff]
      cases hx : k x with
      | error cause =>
          rw [mapM_cons_of_error hx]
          exact iff_of_false (by simp) (by simp)
      | ok y =>
          rw [mapM_cons_of_ok hx]
          constructor
          · intro h
            obtain ⟨later, hlater, rfl⟩ := exists_of_map_eq_ok h
            exact ⟨y, later, rfl, ih.1 hlater, rfl⟩
          · rintro ⟨_, later, ⟨⟩, hlater, rfl⟩
            rw [ih.2 hlater]
            rfl

theorem exists_of_mapM_eq_ok {k : α → Except ε β} {xs : List α} {ys : List β}
    (h : xs.mapM k = .ok ys) : ∀ x ∈ xs, ∃ y, k x = .ok y := by
  intro x hx
  obtain ⟨i, hi, rfl⟩ := List.mem_iff_getElem.1 hx
  have hall := List.forall₂_iff_get.1 (mapM_eq_ok_iff.1 h)
  exact ⟨_, hall.2 i hi (hall.1 ▸ hi)⟩

theorem exists_mapM_eq_ok {k : α → Except ε β} {xs : List α} (h : ∀ x ∈ xs, ∃ y, k x = .ok y) :
    ∃ ys, xs.mapM k = .ok ys := by
  induction xs with
  | nil => exact ⟨[], rfl⟩
  | cons x xs ih =>
      obtain ⟨⟨y, hy⟩, hrest⟩ := List.forall_mem_cons.1 h
      obtain ⟨ys, hys⟩ := ih hrest
      exact ⟨y :: ys, by rw [mapM_cons_of_ok hy, hys, Except.map]⟩

theorem mapM_eq_error_iff {k : α → Except ε β} {xs : List α} {cause : ε} :
    xs.mapM k = .error cause ↔
      ∃ before x after, xs = before ++ x :: after ∧ (∀ y ∈ before, ∃ b, k y = .ok b) ∧
        k x = .error cause := by
  induction xs with
  | nil => exact iff_of_false (fun h => by cases h) (by simp)
  | cons x xs ih =>
      cases hx : k x with
      | error other =>
          rw [mapM_cons_of_error hx]
          constructor
          · intro h
            exact ⟨[], x, xs, rfl, by simp, by rw [hx, Except.error.inj h]⟩
          · rintro ⟨before, z, after, hsplit, hbefore, hz⟩
            cases before with
            | nil =>
                cases hsplit
                rw [Except.error.inj (hx.symm.trans hz)]
            | cons y before =>
                cases hsplit
                obtain ⟨b, hb⟩ := hbefore x (.head _)
                exact absurd (hx.symm.trans hb) (by simp)
      | ok b =>
          rw [mapM_cons_of_ok hx, map_eq_error_iff, ih]
          constructor
          · rintro ⟨before, z, after, rfl, hbefore, hz⟩
            exact ⟨x :: before, z, after, rfl, List.forall_mem_cons.2 ⟨⟨b, hx⟩, hbefore⟩, hz⟩
          · rintro ⟨before, z, after, hsplit, hbefore, hz⟩
            cases before with
            | nil =>
                cases hsplit
                exact absurd (hx.symm.trans hz) (by simp)
            | cons y before =>
                cases hsplit
                exact ⟨before, z, after, rfl, (List.forall_mem_cons.1 hbefore).2, hz⟩

theorem mapM_append_eq_ok_iff {k : α → Except ε β} {xs xs' : List α} {zs : List β} :
    (xs ++ xs').mapM k = .ok zs ↔
      ∃ ys ys', xs.mapM k = .ok ys ∧ xs'.mapM k = .ok ys' ∧ ys ++ ys' = zs := by
  rw [List.mapM_append]
  cases xs.mapM k with
  | error cause => exact iff_of_false (fun h => by cases h) (by simp)
  | ok ys =>
      cases xs'.mapM k with
      | error cause => exact iff_of_false (fun h => by cases h) (by simp)
      | ok ys' =>
          constructor
          · intro h
            exact ⟨ys, ys', rfl, rfl, Except.ok.inj h⟩
          · rintro ⟨_, _, ⟨⟩, ⟨⟩, rfl⟩
            rfl

theorem mapM_append_eq_error_iff {k : α → Except ε β} {xs xs' : List α} {cause : ε} :
    (xs ++ xs').mapM k = .error cause ↔
      xs.mapM k = .error cause ∨ (∃ ys, xs.mapM k = .ok ys) ∧ xs'.mapM k = .error cause := by
  rw [List.mapM_append]
  cases xs.mapM k with
  | error other =>
      constructor
      · exact fun h => .inl h
      · rintro (h | ⟨⟨ys, hys⟩, -⟩)
        · exact h
        · cases hys
  | ok ys =>
      cases xs'.mapM k with
      | error other =>
          constructor
          · exact fun h => .inr ⟨⟨ys, rfl⟩, h⟩
          · rintro (h | ⟨-, h⟩)
            · cases h
            · exact h
      | ok ys' => exact iff_of_false (fun h => by cases h) (by simp)

end AllSat
