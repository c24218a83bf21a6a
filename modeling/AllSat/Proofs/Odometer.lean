import AllSat.Proofs.Expansion
import Mathlib.Data.List.Forall2
import Mathlib.Data.List.Induction

namespace AllSat.Dnf

variable {α : Type} {lists : List (List α)}

def digits : List (List α) → Nat → List Nat
  | [], _ => []
  | xs :: rest, i => i / choiceCount rest % xs.length :: digits rest i

@[simp] theorem length_digits (lists : List (List α)) (i : Nat) :
    (digits lists i).length = lists.length := by
  induction lists with
  | nil => rfl
  | cons xs rest ih => rw [digits, List.length_cons, List.length_cons, ih]

theorem digits_zero (lists : List (List α)) : digits lists 0 = List.replicate lists.length 0 := by
  induction lists with
  | nil => rfl
  | cons xs rest ih => simp [digits, ih, List.replicate_succ]

theorem choiceCount_concat (lists : List (List α)) (xs : List α) :
    choiceCount (lists ++ [xs]) = choiceCount lists * xs.length := by
  simp [choiceCount_eq_prod]

theorem digits_concat (lists : List (List α)) (xs : List α) (i : Nat) :
    digits (lists ++ [xs]) i = digits lists (i / xs.length) ++ [i % xs.length] := by
  induction lists with
  | nil => simp [digits, choiceCount]
  | cons ys rest ih =>
      have hplace : i / choiceCount (rest ++ [xs]) = i / xs.length / choiceCount rest := by
        rw [choiceCount_concat, Nat.mul_comm, Nat.div_div_eq_div_mul]
      rw [List.cons_append, digits, hplace, ih]
      rfl

theorem digits_mod (lists : List (List α)) (i : Nat) :
    digits lists (i % choiceCount lists) = digits lists i := by
  induction lists generalizing i with
  | nil => rfl
  | cons xs rest ih =>
      have hcount : choiceCount (xs :: rest) = choiceCount rest * xs.length := Nat.mul_comm ..
      have hhead : i % choiceCount (xs :: rest) / choiceCount rest % xs.length =
          i / choiceCount rest % xs.length := by
        rw [hcount, Nat.mod_mul_right_div_self, Nat.mod_mod]
      have hrest : i % choiceCount (xs :: rest) % choiceCount rest = i % choiceCount rest :=
        Nat.mod_mod_of_dvd i ⟨_, hcount⟩
      rw [digits, digits, hhead, ← ih, hrest, ih]

section Cons

variable {xs : List α} {rest : List (List α)} {i : Nat}

theorem choiceCount_pos_of_lt (h : i < choiceCount (xs :: rest)) : 0 < choiceCount rest :=
  Nat.pos_of_lt_mul_left h

theorem digits_cons (h : i < choiceCount (xs :: rest)) :
    digits (xs :: rest) i = i / choiceCount rest :: digits rest (i % choiceCount rest) := by
  have hhead : i / choiceCount rest < xs.length := Nat.div_lt_of_lt_mul (Nat.mul_comm .. ▸ h)
  rw [digits, Nat.mod_eq_of_lt hhead, digits_mod]

end Cons

theorem digits_lt {i j : Nat} (hij : i < j) (hj : j < choiceCount lists) :
    digits lists i < digits lists j := by
  induction lists generalizing i j with
  | nil =>
      have hone : j < 1 := hj
      omega
  | cons xs rest ih =>
      have hpos := choiceCount_pos_of_lt hj
      have hhead : i / choiceCount rest ≤ j / choiceCount rest :=
        Nat.div_le_div_right (Nat.le_of_lt hij)
      rw [digits_cons (Nat.lt_trans hij hj), digits_cons hj, List.cons_lt_cons_iff]
      rcases Nat.lt_or_eq_of_le hhead with hlt | heq
      · exact .inl hlt
      · refine .inr ⟨heq, ih ?_ (Nat.mod_lt _ hpos)⟩
        have hi := Nat.div_add_mod i (choiceCount rest)
        have hj := Nat.div_add_mod j (choiceCount rest)
        rw [heq] at hi
        omega

theorem exists_digits {picks : List Nat}
    (h : List.Forall₂ (fun xs pick => pick < xs.length) lists picks) :
    ∃ i < choiceCount lists, digits lists i = picks := by
  induction h with
  | nil => exact ⟨0, Nat.one_pos, rfl⟩
  | @cons xs pick rest picks hpick _ ih =>
      obtain ⟨i, hi, rfl⟩ := ih
      have hlt : choiceCount rest * pick + i < choiceCount (xs :: rest) := by
        have hle := Nat.mul_le_mul_left (choiceCount rest) (Nat.succ_le_of_lt hpick)
        rw [Nat.mul_succ, Nat.mul_comm _ xs.length] at hle
        exact Nat.lt_of_lt_of_le (Nat.add_lt_add_left hi _) hle
      refine ⟨_, hlt, ?_⟩
      rw [digits_cons hlt, Nat.mul_add_div (Nat.zero_lt_of_lt hi), Nat.div_eq_of_lt hi,
        Nat.mul_add_mod, Nat.mod_eq_of_lt hi, Nat.add_zero]

theorem existsUnique_digits {picks : List Nat}
    (h : List.Forall₂ (fun xs pick => pick < xs.length) lists picks) :
    ∃! i, i < choiceCount lists ∧ digits lists i = picks := by
  obtain ⟨i, hi, rfl⟩ := exists_digits h
  refine ⟨i, ⟨hi, rfl⟩, fun j hj => ?_⟩
  rcases Nat.lt_trichotomy j i with hlt | heq | hgt
  · exact absurd (hj.2 ▸ digits_lt hlt hi) (List.lt_irrefl _)
  · exact heq
  · exact absurd (hj.2 ▸ digits_lt hgt hj.1) (List.lt_irrefl _)

def chosen? (lists : List (List α)) (picks : List Nat) : Option (List α) :=
  (lists.zip picks).mapM fun p => p.1[p.2]?

theorem chosen?_cons (xs : List α) (rest : List (List α)) (pick : Nat) (picks : List Nat) :
    chosen? (xs :: rest) (pick :: picks) =
      xs[pick]?.bind fun x => (chosen? rest picks).map (x :: ·) := by
  rw [chosen?, List.zip_cons_cons, List.mapM_cons]
  cases xs[pick]? with
  | none => rfl
  | some x =>
      rw [chosen?]
      cases (rest.zip picks).mapM fun p => p.1[p.2]? <;> rfl

theorem getElem?_flatMap_cons {tails : List (List α)} (hpos : 0 < tails.length) (xs : List α)
    (i : Nat) :
    (xs.flatMap fun x => tails.map (x :: ·))[i]? =
      xs[i / tails.length]?.bind fun x => tails[i % tails.length]?.map (x :: ·) := by
  induction xs generalizing i with
  | nil => simp
  | cons x xs ih =>
      rw [List.flatMap_cons]
      rcases Nat.lt_or_ge i tails.length with hlt | hge
      · rw [List.getElem?_append_left (by simpa using hlt), Nat.div_eq_of_lt hlt,
          Nat.mod_eq_of_lt hlt, List.getElem?_map]
        rfl
      · rw [List.getElem?_append_right (by simpa using hge), List.length_map, ih,
          Nat.div_eq_sub_div hpos hge, Nat.mod_eq_sub_mod hge]
        rfl

theorem getElem?_choices {i : Nat} (h : i < choiceCount lists) :
    (choices lists)[i]? = chosen? lists (digits lists i) := by
  induction lists generalizing i with
  | nil =>
      have hzero : i = 0 := Nat.lt_one_iff.1 h
      subst hzero
      rfl
  | cons xs rest ih =>
      have hpos := choiceCount_pos_of_lt h
      rw [digits_cons h, chosen?_cons, ← ih (Nat.mod_lt _ hpos), choices, ← length_choices]
      exact getElem?_flatMap_cons (by rwa [length_choices]) xs i

inductive Odometer where
  | turning (picks : List Nat) (made : Cnf)
  | stopped (result : Except Error Cnf)
  | outOfRange

namespace Odometer

variable {terms : List (List (Literal String))}

def start (terms : List (List (Literal String))) : Odometer :=
  .turning (List.replicate terms.length 0) .empty

/-- Counts up the last of the first `t` picks. One that has run through its term starts again, and
the one before it is counted up. -/
def carry (terms : List (List (Literal String))) (made : Cnf) : Nat → List Nat → Odometer
  | 0, _ => .stopped (.ok made)
  | t + 1, picks =>
    match terms[t]?, picks[t]? with
    | some term, some pick =>
      if pick + 1 < term.length then .turning (picks.set t (pick + 1)) made
      else carry terms made t (picks.set t 0)
    | _, _ => .outOfRange

def round (terms : List (List (Literal String))) : Odometer → Odometer
  | .turning picks made =>
    match chosen? terms picks with
    | none => .outOfRange
    | some ls =>
      match Clause.ofLiterals ls with
      | .error cause => .stopped (.error cause)
      | .ok c => carry terms (made ++ ⟨[c]⟩) terms.length picks
  | ended => ended

def after (terms : List (List (Literal String))) : Nat → Odometer
  | 0 => start terms
  | n + 1 => round terms (after terms n)

theorem succ_div_mod_of_lt {i n : Nat} (h : i % n + 1 < n) :
    (i + 1) / n = i / n ∧ (i + 1) % n = i % n + 1 := by
  have hsucc : i + 1 = n * (i / n) + (i % n + 1) := by
    rw [← Nat.add_assoc, Nat.div_add_mod]
  constructor
  · rw [hsucc, Nat.mul_add_div (by omega), Nat.div_eq_of_lt h, Nat.add_zero]
  · rw [hsucc, Nat.mul_add_mod, Nat.mod_eq_of_lt h]

-- the terms behind the carry have started again, and the induction takes them off the end
theorem carry_digits (made : Cnf) {front : List (List (Literal String))}
    (back : List (List (Literal String))) {i : Nat} (h : i < choiceCount front) :
    carry (front ++ back) made front.length (digits front i ++ List.replicate back.length 0) =
      if i + 1 < choiceCount front then
        .turning (digits front (i + 1) ++ List.replicate back.length 0) made
      else .stopped (.ok made) := by
  induction front using List.reverseRecOn generalizing i back with
  | nil => simp [carry, choiceCount]
  | append_singleton front term ih =>
      rw [choiceCount_concat] at h ⊢
      have hpos : 0 < term.length := Nat.pos_of_lt_mul_left h
      have hfront : i / term.length < choiceCount front :=
        Nat.div_lt_of_lt_mul (Nat.mul_comm .. ▸ h)
      have hi := Nat.div_add_mod i term.length
      have hmod := Nat.mod_lt i hpos
      have hterm : (front ++ [term] ++ back)[front.length]? = some term := by simp
      have hpick : (digits (front ++ [term]) i ++ List.replicate back.length 0)[front.length]? =
          some (i % term.length) := by
        simp [digits_concat]
      have hset : ∀ pick,
          (digits (front ++ [term]) i ++ List.replicate back.length 0).set front.length pick =
            digits front (i / term.length) ++ pick :: List.replicate back.length 0 := by
        intro pick
        simp [digits_concat]
      rw [List.length_append, List.length_singleton, carry, hterm, hpick]
      simp only [hset]
      split
      · rename_i hlt
        have hle := Nat.mul_le_mul_left term.length (Nat.succ_le_of_lt hfront)
        rw [Nat.mul_succ, Nat.mul_comm _ (choiceCount front)] at hle
        obtain ⟨hdiv, hdigit⟩ := succ_div_mod_of_lt hlt
        rw [if_pos (by omega), digits_concat, hdiv, hdigit, List.append_assoc,
          List.singleton_append]
      · rename_i hge
        have hsucc : i + 1 = term.length * (i / term.length + 1) := by
          rw [Nat.mul_succ]
          omega
        have hmore : i + 1 < choiceCount front * term.length ↔
            i / term.length + 1 < choiceCount front := by
          rw [hsucc, Nat.mul_comm]
          exact Nat.mul_lt_mul_right hpos
        have hrest := ih (term :: back) hfront
        rw [List.length_cons, List.replicate_succ] at hrest
        rw [List.append_assoc, List.singleton_append, hrest]
        simp only [hmore]
        rw [digits_concat, hsucc, Nat.mul_div_cancel_left _ hpos, Nat.mul_mod_right,
          List.append_assoc, List.singleton_append]

section Run

variable {cs : List Clause} (hcs : (choices terms).map Clause.ofLiterals? = cs.map some)
include hcs

theorem length_clauses : cs.length = choiceCount terms := by
  rw [← length_choices, ← List.length_map (f := some), ← hcs, List.length_map]

theorem exists_chosen {i : Nat} (hi : i < choiceCount terms) :
    ∃ ls c, chosen? terms (digits terms i) = some ls ∧ cs[i]? = some c ∧
      Clause.ofLiterals? ls = some c := by
  have hchoice := getElem?_choices hi
  have hlength : i < (choices terms).length := by rwa [length_choices]
  rw [List.getElem?_eq_getElem hlength] at hchoice
  have hclause := congrArg (·[i]?) hcs
  simp only [List.getElem?_map, List.getElem?_eq_getElem hlength, Option.map_some] at hclause
  obtain ⟨c, hc, hsome⟩ := Option.map_eq_some_iff.1 hclause.symm
  exact ⟨_, c, hchoice.symm, hc, hsome.symm⟩

theorem round_digits {i : Nat} (hi : i < choiceCount terms) :
    round terms (.turning (digits terms i) ⟨cs.take i⟩) =
      if i + 1 < choiceCount terms then .turning (digits terms (i + 1)) ⟨cs.take (i + 1)⟩
      else .stopped (.ok ⟨cs.take (i + 1)⟩) := by
  obtain ⟨ls, c, hls, hc, hsome⟩ := exists_chosen hcs hi
  have hmade : (⟨cs.take i⟩ ++ ⟨[c]⟩ : Cnf) = ⟨cs.take (i + 1)⟩ := by
    rw [List.take_add_one, hc]
    rfl
  have hcarry := carry_digits ⟨cs.take (i + 1)⟩ [] hi
  simp only [List.append_nil, List.length_nil, List.replicate_zero] at hcarry
  simp only [round, hls, Clause.ofLiterals, hsome, hmade, hcarry]

theorem after_of_lt {i : Nat} (hi : i < choiceCount terms) :
    after terms i = .turning (digits terms i) ⟨cs.take i⟩ := by
  induction i with
  | zero =>
      rw [digits_zero]
      rfl
  | succ i ih =>
      have hlt := Nat.lt_of_succ_lt hi
      rw [after, ih hlt, round_digits hcs hlt, if_pos hi]

theorem after_of_le (hpos : 0 < choiceCount terms) {n : Nat} (hn : choiceCount terms ≤ n) :
    after terms n = .stopped (.ok ⟨cs⟩) := by
  induction hn with
  | refl =>
      obtain ⟨last, hlast⟩ := Nat.exists_eq_add_one_of_ne_zero (Nat.ne_of_gt hpos)
      have hlt : last < choiceCount terms := hlast ▸ Nat.lt_succ_self last
      have hall : cs.take (last + 1) = cs :=
        List.take_of_length_le (Nat.le_of_eq ((length_clauses hcs).trans hlast))
      have hround := round_digits hcs hlt
      rw [← after_of_lt hcs hlt, if_neg (Nat.not_lt.2 (Nat.le_of_eq hlast)), hall] at hround
      rw [hlast]
      exact hround
  | step _ ih =>
      rw [after, ih]
      rfl

end Run

end Odometer

theorem exists_map_eq_some {β : Type} {k : α → Option β} {xs : List α}
    (h : ∀ x ∈ xs, k x ≠ none) : ∃ ys : List β, xs.map k = ys.map some := by
  induction xs with
  | nil => exact ⟨[], rfl⟩
  | cons x xs ih =>
      obtain ⟨hx, hxs⟩ := List.forall_mem_cons.1 h
      obtain ⟨y, hy⟩ := Option.ne_none_iff_exists'.1 hx
      obtain ⟨ys, hys⟩ := ih hxs
      exact ⟨y :: ys, by rw [List.map_cons, hy, hys, List.map_cons]⟩

section Encoded

variable {terms : List (List (Literal String))}

theorem encode_of_fits (hne : terms ≠ []) (hnil : [] ∉ terms)
    (hfits : choiceCount terms < Word.size) :
    ∃ cs, encode terms = .ok ⟨cs⟩ ∧ (choices terms).map Clause.ofLiterals? = cs.map some := by
  have hsome : ∀ choice ∈ choices terms, Clause.ofLiterals? choice ≠ none :=
    fun choice hchoice => mt Clause.ofLiterals?_eq_none_iff.1 (ne_nil_of_mem_choices hne hchoice)
  obtain ⟨cs, hcs⟩ := exists_map_eq_some hsome
  have hall : (choices terms).filterMap Clause.ofLiterals? = cs := by
    have hkept := congrArg (List.filterMap id) hcs
    rw [List.filterMap_map, List.filterMap_map] at hkept
    exact hkept.trans List.filterMap_some
  exact ⟨cs, encode_eq_ok_iff.2 (.inr ⟨hne, hnil, hfits, by rw [hall]⟩), hcs⟩

/-- Counting through the picks gives each choice of a literal of every term its turn, in ascending
order of the picks, and stops after the last one with the clauses of the disjunction. -/
theorem odometer_counts_choices (terms : List (List (Literal String))) (hne : terms ≠ [])
    (hnil : [] ∉ terms) (hfits : (terms.map List.length).prod ≤ 2 ^ 64 - 1) :
    let count := (terms.map List.length).prod
    ∃ f, encode terms = .ok f ∧ f.clauses.length = count ∧
      (∀ i < count, Odometer.after terms i = .turning (digits terms i) ⟨f.clauses.take i⟩) ∧
      (∀ n, count ≤ n → Odometer.after terms n = .stopped (.ok f)) ∧
      (∀ i < count, ∃ ls c, chosen? terms (digits terms i) = some ls ∧
        f.clauses[i]? = some c ∧ c.literals = ls.eraseDups) ∧
      (∀ picks, List.Forall₂ (fun term pick => pick < term.length) terms picks →
        ∃! i, i < count ∧ digits terms i = picks) ∧
      ∀ i j, i < j → j < count → digits terms i < digits terms j := by
  intro count
  have hcount : count = choiceCount terms := (choiceCount_eq_prod terms).symm
  have hlt : choiceCount terms < Word.size := by
    rw [← hcount, Word.size_eq]
    omega
  obtain ⟨cs, hencode, hcs⟩ := encode_of_fits hne hnil hlt
  rw [hcount]
  refine ⟨⟨cs⟩, hencode, Odometer.length_clauses hcs, fun i => Odometer.after_of_lt hcs,
    fun n => Odometer.after_of_le hcs (choiceCount_pos hnil), fun i hi => ?_,
    fun picks => existsUnique_digits, fun i j => digits_lt⟩
  obtain ⟨ls, c, hls, hc, hsome⟩ := Odometer.exists_chosen hcs hi
  exact ⟨ls, c, hls, hc, Clause.literals_of_ofLiterals? hsome⟩

def carriedTerms : List (List (Literal String)) :=
  [[.pos "A", .pos "B"], [.neg "C"], [.pos "A", .neg "D"]]

theorem carried_terms_counted :
    carriedTerms ≠ [] ∧ [] ∉ carriedTerms ∧ (carriedTerms.map List.length).prod ≤ 2 ^ 64 - 1 ∧
      ∃ f, encode carriedTerms = .ok f ∧ f.clauses.length = 4 ∧
        Odometer.after carriedTerms 2 = .turning [1, 0, 0] ⟨f.clauses.take 2⟩ ∧
        Odometer.after carriedTerms 4 = .stopped (.ok f) ∧
        ∃ c, f.clauses[0]? = some c ∧ c.literals = [.pos "A", .neg "C"] := by
  have hne : carriedTerms ≠ [] := by decide
  have hnil : [] ∉ carriedTerms := by decide
  have hfits : (carriedTerms.map List.length).prod ≤ 2 ^ 64 - 1 := by decide
  obtain ⟨f, hencode, hlength, hturning, hstopped, hclause, -, -⟩ :=
    odometer_counts_choices carriedTerms hne hnil hfits
  obtain ⟨ls, c, hls, hc, hliterals⟩ := hclause 0 (by decide)
  cases hls
  exact ⟨hne, hnil, hfits, f, hencode, hlength, hturning 2 (by decide), hstopped 4 (by decide), c,
    hc, hliterals⟩

end Encoded

end AllSat.Dnf
