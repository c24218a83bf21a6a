import AllSat.Constraint.ExactlyOne
import Mathlib.Data.List.Basic

namespace AllSat

theorem Clause.mem_literals_excludes {a b l : Literal String} :
    l ∈ (excludes a b).literals ↔ l = a.negate ∨ l = b.negate := by
  rw [excludes, implies, mem_literals_or, unit, List.mem_singleton]

namespace ExactlyOne

theorem forall_mem_pairs_iff {α : Type} {R : α → α → Prop} {xs : List α} :
    (∀ p ∈ pairs xs, R p.1 p.2) ↔ xs.Pairwise R := by
  induction xs with
  | nil => simp [pairs]
  | cons x xs ih =>
      rw [pairs, List.forall_mem_append, List.forall_mem_map, ih, List.pairwise_cons]

theorem mem_of_mem_pairs {α : Type} {xs : List α} : ∀ p ∈ pairs xs, p.1 ∈ xs ∧ p.2 ∈ xs :=
  (forall_mem_pairs_iff (R := fun x y => x ∈ xs ∧ y ∈ xs)).2
    (List.pairwise_of_forall_mem_list fun _ hx _ hy => ⟨hx, hy⟩)

theorem length_filter_eq_one_iff {α : Type} {p : α → Bool} {xs : List α} :
    (xs.filter p).length = 1 ↔
      (∃ x ∈ xs, p x = true) ∧ xs.Pairwise fun x y => ¬ (p x = true ∧ p y = true) := by
  induction xs with
  | nil => simp
  | cons x xs ih =>
      cases hx : p x with
      | true =>
          have hnone : (xs.filter p).length = 0 ↔ ∀ y ∈ xs, ¬ p y = true := by
            rw [List.length_eq_zero_iff, List.filter_eq_nil_iff]
          simp only [List.filter_cons_of_pos hx, List.length_cons, Nat.add_eq_right, hnone,
            List.pairwise_cons, List.mem_cons, hx, true_and]
          constructor
          · intro hall
            refine ⟨⟨x, .inl rfl, hx⟩, hall, ?_⟩
            exact List.pairwise_of_forall_mem_list fun y hy _ _ h => hall y hy h.1
          · exact fun h => h.2.1
      | false =>
          simp only [List.filter_cons_of_neg (Bool.eq_false_iff.1 hx), ih, List.pairwise_cons,
            List.exists_mem_cons_iff, hx]
          simp

theorem holds_iff {τ : String → Bool} {group : List (Literal String)} :
    Holds τ group ↔
      (∃ l ∈ group, l.Holds τ) ∧ group.Pairwise fun l m => ¬ (l.Holds τ ∧ m.Holds τ) := by
  simp [Holds, length_filter_eq_one_iff]

theorem holds_map_iff_existsUnique {α : Type} {k : α → Literal String} {τ : String → Bool}
    {xs : List α} : Holds τ (xs.map k) ↔ ∃! i : Fin xs.length, (k xs[i]).Holds τ := by
  rw [holds_iff, List.pairwise_map, List.pairwise_iff_getElem]
  constructor
  · rintro ⟨⟨l, hl, hτ⟩, hpair⟩
    obtain ⟨x, hx, rfl⟩ := List.mem_map.1 hl
    obtain ⟨i, hi, rfl⟩ := List.mem_iff_getElem.1 hx
    refine ⟨⟨i, hi⟩, hτ, ?_⟩
    rintro ⟨j, hj⟩ hτ'
    rcases Nat.lt_trichotomy i j with hlt | heq | hgt
    · exact absurd ⟨hτ, hτ'⟩ (hpair i j hi hj hlt)
    · exact Fin.ext heq.symm
    · exact absurd ⟨hτ', hτ⟩ (hpair j i hj hi hgt)
  · rintro ⟨i, hτ, hunique⟩
    refine ⟨⟨_, List.mem_map_of_mem (List.getElem_mem i.isLt), hτ⟩, fun j k hj hk hlt h => ?_⟩
    have hjk := (hunique ⟨j, hj⟩ h.1).trans (hunique ⟨k, hk⟩ h.2).symm
    exact absurd (Fin.val_eq_of_eq hjk) (Nat.ne_of_lt hlt)

theorem encode_of_distinct {group : List (Literal String)} (hne : group ≠ [])
    (hdistinct : (group.map Literal.atom).Nodup) : ∃ f, encode group = .ok f := by
  cases hc : Clause.ofLiterals? group with
  | none => exact absurd (Clause.ofLiterals?_eq_none_iff.1 hc) hne
  | some c =>
      refine ⟨⟨c :: (pairs group).map fun p => Clause.excludes p.1 p.2⟩, ?_⟩
      simp only [encode, hc, Distinct.firstRepeat_eq_none_iff.2 hdistinct]

theorem encode_eq_error_iff {group : List (Literal String)} {cause : Error} :
    encode group = .error cause ↔
      group = [] ∧ cause = .emptyGroup ∨
        ∃ name, Distinct.FirstRepeat (group.map Literal.atom) name ∧
          cause = .duplicateLiteral name := by
  cases hc : Clause.ofLiterals? group with
  | none =>
      have hnil := Clause.ofLiterals?_eq_none_iff.1 hc
      subst hnil
      simp [encode_nil, Distinct.FirstRepeat, eq_comm]
  | some c =>
      have hne : group ≠ [] := fun hnil => by simp [Clause.ofLiterals?_eq_none_iff.2 hnil] at hc
      cases hr : Distinct.firstRepeat (group.map Literal.atom) with
      | none =>
          obtain ⟨f, hf⟩ := encode_of_distinct hne (Distinct.firstRepeat_eq_none_iff.1 hr)
          have hnone : ∀ name, ¬ Distinct.FirstRepeat (group.map Literal.atom) name := by
            intro name hname
            simp [Distinct.firstRepeat_eq_some_iff.2 hname] at hr
          simp [hf, hne, hnone]
      | some name =>
          have hsame : ∀ other, Distinct.FirstRepeat (group.map Literal.atom) other ↔
              name = other := by
            intro other
            rw [Distinct.FirstRepeat, ← Distinct.firstRepeat_eq_some_iff, hr, Option.some.injEq]
          simp [encode, hc, hr, hne, hsame, eq_comm]

theorem exists_encode_iff {group : List (Literal String)} :
    (∃ f, encode group = .ok f) ↔ group ≠ [] ∧ (group.map Literal.atom).Nodup := by
  constructor
  · rintro ⟨f, hf⟩
    have hok : ∀ cause, encode group ≠ .error cause := by simp [hf]
    refine ⟨fun hnil => hok _ (encode_eq_error_iff.2 (.inl ⟨hnil, rfl⟩)), ?_⟩
    rcases Distinct.nodup_or_exists_firstRepeat (group.map Literal.atom) with hd | ⟨name, hname⟩
    · exact hd
    · exact absurd (encode_eq_error_iff.2 (.inr ⟨name, hname, rfl⟩)) (hok _)
  · rintro ⟨hne, hd⟩
    exact encode_of_distinct hne hd

section Encoded

variable {group : List (Literal String)} {f : Cnf}

theorem clauses_of_encode (h : encode group = .ok f) :
    ∃ c, Clause.ofLiterals? group = some c ∧
      f = ⟨c :: (pairs group).map fun p => Clause.excludes p.1 p.2⟩ := by
  unfold encode at h
  split at h
  · cases h
  · cases h
  · rename_i c hc _
    cases h
    exact ⟨c, hc, rfl⟩

theorem length_clauses_of_encode (h : encode group = .ok f) :
    f.clauses.length = 1 + group.length * (group.length - 1) / 2 := by
  obtain ⟨c, -, rfl⟩ := clauses_of_encode h
  have hpairs := two_mul_length_pairs group
  simp only [List.length_cons, List.length_map]
  omega

theorem holds_of_encode (h : encode group = .ok f) {τ : String → Bool} :
    f.Holds τ ↔ Holds τ group := by
  obtain ⟨c, hc, rfl⟩ := clauses_of_encode h
  have hpairs : (∀ d ∈ (pairs group).map (fun p => Clause.excludes p.1 p.2), d.Holds τ) ↔
      group.Pairwise fun l m => ¬ (l.Holds τ ∧ m.Holds τ) := by
    rw [List.forall_mem_map, ← forall_mem_pairs_iff]
    exact forall₂_congr fun p _ => Clause.holds_excludes
  rw [Cnf.Holds, List.forall_mem_cons, hpairs, Clause.holds_of_ofLiterals? hc, holds_iff]
  rfl

theorem mem_names_of_encode (h : encode group = .ok f) {name : String} :
    name ∈ f.names ↔ ∃ l ∈ group, l.atom = name := by
  obtain ⟨c, hc, rfl⟩ := clauses_of_encode h
  rw [Cnf.mem_names]
  constructor
  · rintro ⟨d, hd, l, hl, rfl⟩
    rcases List.mem_cons.1 hd with rfl | hd
    · rw [Clause.literals_of_ofLiterals? hc, List.mem_eraseDups] at hl
      exact ⟨l, hl, rfl⟩
    · obtain ⟨p, hp, rfl⟩ := List.mem_map.1 hd
      obtain ⟨hfirst, hsecond⟩ := mem_of_mem_pairs p hp
      rcases Clause.mem_literals_excludes.1 hl with rfl | rfl
      · exact ⟨p.1, hfirst, rfl⟩
      · exact ⟨p.2, hsecond, rfl⟩
  · rintro ⟨l, hl, rfl⟩
    refine ⟨c, .head _, l, ?_, rfl⟩
    rwa [Clause.literals_of_ofLiterals? hc, List.mem_eraseDups]

end Encoded

end ExactlyOne

end AllSat
