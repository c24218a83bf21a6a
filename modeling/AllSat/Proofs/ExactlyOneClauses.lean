import AllSat.Proofs.ExactlyOneGroups
import Mathlib.Data.List.Nodup

namespace AllSat

theorem Clause.literals_excludes {a b : Literal String} (h : a.atom ≠ b.atom) :
    (excludes a b).literals = [a.negate, b.negate] := by
  have hnew : b.negate ∉ [a.negate] := fun hmem =>
    h (congrArg Literal.atom (List.mem_singleton.1 hmem)).symm
  simp [excludes, implies, or, unit, hnew]

theorem Distinct.exists_firstRepeat_iff {α : Type} [DecidableEq α] {xs : List α} :
    (∃ x, FirstRepeat xs x) ↔ ∃ x, 2 ≤ xs.count x := by
  constructor
  · rintro ⟨x, before, after, rfl, -, hx⟩
    refine ⟨x, ?_⟩
    have hbefore := List.one_le_count_iff.2 hx
    rw [List.count_append, List.count_cons_self]
    omega
  · rintro ⟨x, hx⟩
    refine (nodup_or_exists_firstRepeat xs).resolve_left fun hnodup => ?_
    have hone := List.nodup_iff_count.1 hnodup x
    omega

namespace ExactlyOne

theorem pairs_start_succ {i n : Nat} (h : i < n) :
    (i + 1) * (2 * (n + 1) - (i + 1) - 1) / 2 = n + i * (2 * n - i - 1) / 2 := by
  obtain ⟨w, hw⟩ : ∃ w, 2 * n - i - 1 = w := ⟨_, rfl⟩
  have hnext : 2 * (n + 1) - (i + 1) - 1 = w + 1 := by omega
  have hproduct : (i + 1) * (w + 1) = 2 * n + i * w := by
    rw [Nat.add_one_mul, Nat.mul_add_one]
    omega
  rw [hnext, hw, hproduct, Nat.mul_add_div (by decide)]

theorem getElem?_pairs {α : Type} {xs : List α} {i j : Nat} {x y : α} (hij : i < j)
    (hx : xs[i]? = some x) (hy : xs[j]? = some y) :
    (pairs xs)[i * (2 * xs.length - i - 1) / 2 + (j - i - 1)]? = some (x, y) := by
  induction xs generalizing i j with
  | nil => cases hx
  | cons z xs ih =>
      obtain ⟨k, rfl⟩ := Nat.exists_eq_add_one_of_ne_zero (Nat.ne_of_gt (Nat.zero_lt_of_lt hij))
      rw [List.getElem?_cons_succ] at hy
      have hk : k < xs.length := (List.getElem?_eq_some_iff.1 hy).1
      cases i with
      | zero =>
          have hplace : 0 * (2 * (z :: xs).length - 0 - 1) / 2 + (k + 1 - 0 - 1) = k := by omega
          rw [List.getElem?_cons_zero, Option.some.injEq] at hx
          rw [hplace, pairs, List.getElem?_append_left (by simpa using hk), List.getElem?_map, hy,
            hx]
          rfl
      | succ i =>
          have hik : i < k := Nat.lt_of_succ_lt_succ hij
          have hplace : (i + 1) * (2 * (xs.length + 1) - (i + 1) - 1) / 2 + (k + 1 - (i + 1) - 1) =
              xs.length + (i * (2 * xs.length - i - 1) / 2 + (k - i - 1)) := by
            rw [pairs_start_succ (Nat.lt_trans hik hk)]
            omega
          rw [List.length_cons, hplace, pairs, List.getElem?_append_right (by simp),
            List.length_map, Nat.add_sub_cancel_left]
          exact ih hik hx hy

section Encoded

variable {group : List (Literal String)} {f : Cnf}

theorem literals_head_of_encode (hdistinct : (group.map Literal.atom).Nodup)
    (h : encode group = .ok f) : ∃ c, f.clauses[0]? = some c ∧ c.literals = group := by
  obtain ⟨c, hc, rfl⟩ := clauses_of_encode h
  refine ⟨c, rfl, ?_⟩
  rw [Clause.literals_of_ofLiterals? hc, Distinct.eraseDups_of_nodup (hdistinct.of_map _)]

theorem literals_pair_of_encode (hdistinct : (group.map Literal.atom).Nodup)
    (h : encode group = .ok f) {i j : Nat} (hij : i < j) (hj : j < group.length) :
    ∃ c, f.clauses[1 + i * (2 * group.length - i - 1) / 2 + (j - i - 1)]? = some c ∧
      c.literals = [group[i].negate, group[j].negate] := by
  obtain ⟨c, -, rfl⟩ := clauses_of_encode h
  have hi := Nat.lt_trans hij hj
  have hpair := getElem?_pairs hij (List.getElem?_eq_getElem hi) (List.getElem?_eq_getElem hj)
  refine ⟨Clause.excludes group[i] group[j], ?_, Clause.literals_excludes fun hsame => ?_⟩
  · rw [Nat.add_assoc, Nat.add_comm 1, List.getElem?_cons_succ, List.getElem?_map, hpair]
    rfl
  · have hpairwise := List.pairwise_iff_getElem.1 (List.pairwise_map.1 hdistinct)
    exact hpairwise i j hi hj hij hsame

end Encoded

/-- An exactly-one group is refused if it is empty or has a name twice, whatever the polarities, and
the name that is repeated first is reported. Otherwise the clause of the whole group is followed by
one for each pair, in the order of the pairs, and together they say what the group does. -/
theorem encode_in_order (group : List (Literal String)) :
    (encode group = .error .emptyGroup ↔ group = []) ∧
    (∀ name, encode group = .error (.duplicateLiteral name) ↔
      ∃ before after, group.map Literal.atom = before ++ name :: after ∧ before.Nodup ∧
        name ∈ before) ∧
    ((∃ name, encode group = .error (.duplicateLiteral name)) ↔
      ∃ name, 2 ≤ (group.map Literal.atom).count name) ∧
    (group ≠ [] → (∀ name, (group.map Literal.atom).count name ≤ 1) →
      ∃ f, encode group = .ok f ∧
        f.clauses.length = 1 + group.length * (group.length - 1) / 2 ∧
        (∃ c, f.clauses[0]? = some c ∧ c.literals = group) ∧
        (∀ i j (_ : i < j) (_ : j < group.length), ∃ c,
          f.clauses[1 + i * (2 * group.length - i - 1) / 2 + (j - i - 1)]? = some c ∧
            c.literals = [group[i].negate, group[j].negate]) ∧
        ∀ τ : String → Bool, (∀ c ∈ f.clauses, ∃ l ∈ c.literals, τ l.atom = l.positive) ↔
          ∃! i : Fin group.length, τ group[i].atom = group[i].positive) := by
  have hduplicate : ∀ name, encode group = .error (.duplicateLiteral name) ↔
      Distinct.FirstRepeat (group.map Literal.atom) name := by
    intro name
    rw [encode_eq_error_iff]
    simp
  refine ⟨?_, hduplicate, ?_, fun hne honce => ?_⟩
  · rw [encode_eq_error_iff]
    simp
  · rw [exists_congr hduplicate, Distinct.exists_firstRepeat_iff]
  · have hdistinct := List.nodup_iff_count.2 honce
    obtain ⟨f, hf⟩ := encode_of_distinct hne hdistinct
    refine ⟨f, hf, length_clauses_of_encode hf, literals_head_of_encode hdistinct hf,
      fun i j hij hj => literals_pair_of_encode hdistinct hf hij hj, fun τ => ?_⟩
    have hplaces : Holds τ (group.map id) ↔ ∃! i : Fin group.length, (id group[i]).Holds τ :=
      holds_map_iff_existsUnique
    rw [List.map_id, ← holds_of_encode hf] at hplaces
    exact hplaces

end ExactlyOne

end AllSat
