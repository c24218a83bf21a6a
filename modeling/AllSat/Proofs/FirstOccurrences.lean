import AllSat.Distinct
import Mathlib.Data.Finset.Card
import Mathlib.Data.List.Nodup

namespace AllSat

variable {α β : Type} [DecidableEq α] [DecidableEq β]

theorem length_eraseDups (xs : List α) : xs.eraseDups.length = xs.toFinset.card := by
  rw [← List.toFinset_card_of_nodup (Distinct.nodup_eraseDups xs)]
  congr 1
  ext x
  simp

theorem idxOf_eraseDups {before : List α} {x : α} (h : x ∉ before) (later : List α) :
    (before ++ x :: later).eraseDups.idxOf x = before.toFinset.card := by
  have hbefore : x ∉ before.eraseDups := mt List.mem_eraseDups.1 h
  have hrest : (x :: later).removeAll before = x :: later.removeAll before := by
    simp [List.cons_removeAll, h]
  rw [List.eraseDups_append, List.idxOf_append_of_notMem hbefore, hrest, List.eraseDups_cons,
    List.idxOf_cons_self, Nat.add_zero, length_eraseDups]

theorem eraseDups_concat (xs : List α) (x : α) :
    (xs ++ [x]).eraseDups = if x ∈ xs then xs.eraseDups else xs.eraseDups ++ [x] := by
  rw [List.eraseDups_append, List.cons_removeAll]
  by_cases h : x ∈ xs <;> simp [h, List.eraseDups_cons]

namespace Distinct

def keep (kept : List α) (x : α) : List α := if x ∈ kept then kept else kept ++ [x]

theorem mem_keep {kept : List α} {x y : α} : y ∈ keep kept x ↔ y ∈ kept ∨ y = x := by
  by_cases h : x ∈ kept
  · rw [keep, if_pos h]
    exact (or_iff_left_of_imp fun he => he ▸ h).symm
  · rw [keep, if_neg h, List.mem_append, List.mem_singleton]

structure FirstOccurrences (xs kept : List α) : Prop where
  mem_iff : ∀ x, x ∈ kept ↔ x ∈ xs
  inOrder : kept.Pairwise fun x y => xs.idxOf x < xs.idxOf y

namespace FirstOccurrences

variable {xs kept : List α}

theorem nil : FirstOccurrences ([] : List α) [] := ⟨fun _ => Iff.rfl, .nil⟩

theorem nodup (h : FirstOccurrences xs kept) : kept.Nodup := by
  refine List.Pairwise.imp (fun {x y} hlt heq => ?_) h.inOrder
  subst heq
  exact Nat.lt_irrefl _ hlt

theorem unique {other : List α} (h : FirstOccurrences xs kept) (h' : FirstOccurrences xs other) :
    kept = other := by
  have hperm : kept.Perm other :=
    (List.perm_ext_iff_of_nodup h.nodup h'.nodup).2 fun x => (h.mem_iff x).trans (h'.mem_iff x).symm
  exact hperm.eq_of_pairwise (fun _ _ _ _ hlt hgt => absurd hgt (Nat.lt_asymm hlt)) h.inOrder
    h'.inOrder

theorem step (h : FirstOccurrences xs kept) (x : α) :
    FirstOccurrences (xs ++ [x]) (keep kept x) where
  mem_iff y := by rw [mem_keep, h.mem_iff, List.mem_append, List.mem_singleton]
  inOrder := by
    have hplace : ∀ y ∈ kept, (xs ++ [x]).idxOf y = xs.idxOf y := fun y hy =>
      List.idxOf_append_of_mem ((h.mem_iff y).1 hy)
    have hkept : kept.Pairwise fun y z => (xs ++ [x]).idxOf y < (xs ++ [x]).idxOf z :=
      h.inOrder.imp_of_mem fun hy hz hlt => by rwa [hplace _ hy, hplace _ hz]
    by_cases hx : x ∈ kept
    · rwa [keep, if_pos hx]
    -- a new entry was never read, so all that is kept was first met before it
    · rw [keep, if_neg hx]
      refine List.pairwise_append.2 ⟨hkept, List.pairwise_singleton _ _, fun y hy z hz => ?_⟩
      have hnew : x ∉ xs := mt (h.mem_iff x).2 hx
      rw [List.mem_singleton.1 hz, hplace y hy, List.idxOf_append_of_notMem hnew]
      exact Nat.lt_add_right _ (List.idxOf_lt_length_of_mem ((h.mem_iff y).1 hy))

theorem run (h : FirstOccurrences xs kept) (ys : List α) :
    FirstOccurrences (xs ++ ys) (ys.foldl keep kept) := by
  induction ys generalizing xs kept with
  | nil => rwa [List.append_nil]
  | cons y ys ih =>
      have hrest := ih (h.step y)
      rwa [List.append_assoc, List.singleton_append] at hrest

end FirstOccurrences

theorem firstOccurrences_eraseDups (xs : List α) : FirstOccurrences xs xs.eraseDups := by
  induction xs using List.reverseRecOn with
  | nil => exact .nil
  | append_singleton xs x ih =>
      have hkeep : (xs ++ [x]).eraseDups = keep xs.eraseDups x := by
        simp only [eraseDups_concat, keep, List.mem_eraseDups]
      rw [hkeep]
      exact ih.step x

theorem foldl_keep {kept : List α} (h : kept.Nodup) (xs : List α) :
    xs.foldl keep kept = (kept ++ xs).eraseDups := by
  have hstart := firstOccurrences_eraseDups kept
  rw [eraseDups_of_nodup h] at hstart
  exact (hstart.run xs).unique (firstOccurrences_eraseDups _)

end Distinct

theorem eraseDups_append_eraseDups (xs ys : List α) :
    (xs.eraseDups ++ ys.eraseDups).eraseDups = (xs ++ ys).eraseDups := by
  induction ys using List.reverseRecOn with
  | nil => simp [Distinct.eraseDups_of_nodup (Distinct.nodup_eraseDups xs)]
  | append_singleton ys y ih =>
      rw [eraseDups_concat, ← List.append_assoc, eraseDups_concat (xs ++ ys), ← ih]
      by_cases hy : y ∈ ys
      · simp [hy]
      · rw [if_neg hy, ← List.append_assoc, eraseDups_concat]
        simp

theorem eraseDups_map_eraseDups (k : α → β) (xs : List α) :
    (xs.eraseDups.map k).eraseDups = (xs.map k).eraseDups := by
  induction xs using List.reverseRecOn with
  | nil => rfl
  | append_singleton xs x ih =>
      rw [eraseDups_concat, List.map_append, List.map_singleton, eraseDups_concat, ← ih]
      by_cases hx : x ∈ xs
      · rw [if_pos hx, if_pos (List.mem_map_of_mem hx)]
      · rw [if_neg hx, List.map_append, List.map_singleton, eraseDups_concat]
        simp

theorem eraseDups_map_of_injOn {k : α → β} {xs : List α}
    (hk : ∀ x ∈ xs, ∀ y ∈ xs, k x = k y → x = y) :
    (xs.map k).eraseDups = xs.eraseDups.map k := by
  have hnodup : (xs.eraseDups.map k).Nodup := by
    refine List.Nodup.map_on (fun x hx y hy => ?_) (Distinct.nodup_eraseDups xs)
    exact hk x (List.mem_eraseDups.1 hx) y (List.mem_eraseDups.1 hy)
  rw [← eraseDups_map_eraseDups, Distinct.eraseDups_of_nodup hnodup]

theorem eraseDups_map {k : α → β} (hk : Function.Injective k) (xs : List α) :
    (xs.map k).eraseDups = xs.eraseDups.map k :=
  eraseDups_map_of_injOn fun _ _ _ _ h => hk h

theorem idxOf_map {k : α → β} (hk : Function.Injective k) (xs : List α) (x : α) :
    (xs.map k).idxOf (k x) = xs.idxOf x := by
  induction xs with
  | nil => rfl
  | cons y xs ih =>
      have hbeq : (k y == k x) = (y == x) := by
        rw [Bool.eq_iff_iff, beq_iff_eq, beq_iff_eq, hk.eq_iff]
      rw [List.map_cons, List.idxOf_cons, List.idxOf_cons, ih, hbeq]

end AllSat
