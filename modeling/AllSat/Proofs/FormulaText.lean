import AllSat.Formula
import AllSat.Proofs.Decimals
import Mathlib.Data.List.Basic

namespace AllSat

namespace Text

theorem mem_intercalate {P : Char → Prop} {sep : String} {parts : List String}
    (hsep : ∀ c ∈ sep.toList, P c) (hparts : ∀ s ∈ parts, ∀ c ∈ s.toList, P c) :
    ∀ c ∈ (sep.intercalate parts).toList, P c := by
  induction parts with
  | nil => simp
  | cons s parts ih =>
      obtain ⟨hs, hrest⟩ := List.forall_mem_cons.1 hparts
      cases parts with
      | nil => simpa using hs
      | cons r parts =>
          rw [String.intercalate_cons_cons, String.toList_append, String.toList_append]
          simp only [List.mem_append]
          rintro c ((hc | hc) | hc)
          · exact hs c hc
          · exact hsep c hc
          · exact ih hrest c hc

theorem intercalate_spaced (mark : Char) {words : List (List Char)} (h : words ≠ []) :
    [mark].intercalate (words.map fun w => ' ' :: (w ++ [' '])) =
      ' ' :: ([' ', mark, ' '].intercalate words ++ [' ']) := by
  induction words with
  | nil => exact absurd rfl h
  | cons w words ih =>
      cases words with
      | nil => simp
      | cons v words => simpa using ih

theorem splitOn_spaced {mark : Char} {words : List (List Char)} (hmark : mark ≠ ' ')
    (hwords : ∀ w ∈ words, mark ∉ w) (h : words ≠ []) :
    (' ' :: ([' ', mark, ' '].intercalate words ++ [' '])).splitOn mark =
      words.map fun w => ' ' :: (w ++ [' ']) := by
  rw [← intercalate_spaced mark h, List.splitOn_intercalate]
  · rw [List.forall_mem_map]
    intro w hw
    simp [hmark, hwords w hw]
  · exact mt List.map_eq_nil_iff.1 h

theorem intercalate_inj {mark : Char} {sep : String} {xs ys : List String}
    (hsep : sep.toList = [' ', mark, ' ']) (hmark : mark ≠ ' ') (hx : ∀ s ∈ xs, mark ∉ s.toList)
    (hy : ∀ s ∈ ys, mark ∉ s.toList) (hxs : xs ≠ []) (hys : ys ≠ []) :
    sep.intercalate xs = sep.intercalate ys ↔ xs = ys := by
  refine ⟨fun h => ?_, fun h => h ▸ rfl⟩
  have hsplit := congrArg (fun s => (' ' :: (s.toList ++ [' '])).splitOn mark) h
  simp only [String.toList_intercalate, hsep] at hsplit
  rw [splitOn_spaced hmark (List.forall_mem_map.2 hx) (mt List.map_eq_nil_iff.1 hxs),
    splitOn_spaced hmark (List.forall_mem_map.2 hy) (mt List.map_eq_nil_iff.1 hys)] at hsplit
  have hpad : Function.Injective fun w : List Char => ' ' :: (w ++ [' ']) := by
    intro v w hvw
    simpa using hvw
  exact List.map_injective_iff.2 (fun _ _ => String.toList_injective)
    (List.map_injective_iff.2 hpad hsplit)

theorem intercalate_eq_iff {mark : Char} {sep : String} {xs ys : List String}
    (hsep : sep.toList = [' ', mark, ' ']) (hmark : mark ≠ ' ') (hx : ∀ s ∈ xs, mark ∉ s.toList)
    (hy : ∀ s ∈ ys, mark ∉ s.toList) :
    sep.intercalate xs = sep.intercalate ys ↔
      xs = ys ∨ (xs = [] ∧ ys = [""]) ∨ (xs = [""] ∧ ys = []) := by
  have hempty : ∀ {zs : List String}, (∀ s ∈ zs, mark ∉ s.toList) → zs ≠ [] →
      (sep.intercalate zs = "" ↔ zs = [""]) := by
    intro zs hz hzs
    have hinj : sep.intercalate zs = sep.intercalate [""] ↔ zs = [""] :=
      intercalate_inj hsep hmark hz (by simp) hzs (by simp)
    rwa [String.intercalate_singleton] at hinj
  cases xs with
  | nil =>
      cases ys with
      | nil => simp
      | cons s ys =>
          rw [String.intercalate_nil, eq_comm, hempty hy (List.cons_ne_nil s ys)]
          simp
  | cons r xs =>
      cases ys with
      | nil =>
          rw [String.intercalate_nil, hempty hx (List.cons_ne_nil r xs)]
          simp
      | cons s ys =>
          rw [intercalate_inj hsep hmark hx hy (List.cons_ne_nil r xs) (List.cons_ne_nil s ys)]
          simp

end Text

open Text (isDigits_repr)

theorem Literal.mem_text {l : Literal Nat} {c : Char} (h : c ∈ (l.text Nat.repr).toList) :
    c = '!' ∨ c.isDigit = true := by
  have hdigits := (isDigits_repr l.atom).digits c
  unfold Literal.text at h
  split at h
  · exact .inr (hdigits h)
  · rw [String.toList_append, List.mem_append] at h
    rcases h with h | h
    · exact .inl (by simpa using h)
    · exact .inr (hdigits h)

theorem Literal.text_ne_empty (l : Literal Nat) : l.text Nat.repr ≠ "" := by
  unfold Literal.text
  split
  · exact fun h => (isDigits_repr l.atom).nonempty (h ▸ rfl)
  · simp

theorem Literal.text_injective : Function.Injective (Literal.text Nat.repr) := by
  have hmark : ∀ m n : Nat, m.repr ≠ "!" ++ n.repr := by
    intro m n h
    have htext : m.repr.toList = '!' :: n.repr.toList := by simp [h]
    exact (isDigits_repr m).ne_cons rfl htext
  rintro ⟨m, positive⟩ ⟨n, positive'⟩ h
  cases positive <;> cases positive' <;> simp only [Literal.text] at h
  · rw [repr_injective ((String.append_right_inj "!").1 h)]
  · exact absurd h.symm (hmark n m)
  · exact absurd h (hmark m n)
  · rw [repr_injective h]

namespace Disjunction

theorem mem_text {c : Disjunction Nat} {x : Char} (h : x ∈ (text Nat.repr c).toList) :
    x = '!' ∨ x.isDigit = true ∨ x = ' ' ∨ x = '|' := by
  refine Text.mem_intercalate (P := fun x => x = '!' ∨ x.isDigit = true ∨ x = ' ' ∨ x = '|')
    (by simp) ?_ x h
  rw [List.forall_mem_map]
  intro l _ x hx
  exact (Literal.mem_text hx).imp_right .inl

theorem text_injective : Function.Injective (text Nat.repr) := by
  have hbar : ∀ c : Disjunction Nat, ∀ s ∈ c.map (Literal.text Nat.repr), '|' ∉ s.toList := by
    intro c
    rw [List.forall_mem_map]
    intro l _ hl
    rcases Literal.mem_text hl with h | h <;> cases h
  have hempty : ∀ c : Disjunction Nat, c.map (Literal.text Nat.repr) ≠ [""] := by
    intro c h
    obtain ⟨l, -, hl⟩ := List.map_eq_singleton_iff.1 h
    exact l.text_ne_empty hl
  intro c d h
  rcases (Text.intercalate_eq_iff rfl (by decide) (hbar c) (hbar d)).1 h with h | ⟨-, h⟩ | ⟨h, -⟩
  · exact List.map_injective_iff.2 Literal.text_injective h
  · exact absurd h (hempty d)
  · exact absurd h (hempty c)

theorem grouped_injective : Function.Injective (grouped Nat.repr) := by
  have hopen : ∀ c d : Disjunction Nat, "(" ++ text Nat.repr c ++ ")" ≠ text Nat.repr d := by
    intro c d h
    rcases mem_text (c := d) (x := '(') (by simp [← h]) with h | h | h | h <;> cases h
  intro c d h
  unfold grouped at h
  split at h <;> split at h
  · exact text_injective (by simpa using h)
  · exact absurd h (hopen c d)
  · exact absurd h.symm (hopen d c)
  · exact text_injective h

theorem mark_not_mem_grouped (c : Disjunction Nat) : '&' ∉ (grouped Nat.repr c).toList := by
  have htext : '&' ∉ (text Nat.repr c).toList := by
    intro h
    rcases mem_text h with h | h | h | h <;> cases h
  unfold grouped
  split <;> simp [htext]

end Disjunction

/-- The text of a formula tells it apart from any other, but for the formula without clauses and the
one whose only clause is empty. -/
theorem Formula.text_eq_iff (f g : Formula) :
    f.text = g.text ↔
      f = g ∨ (f.clauses = [] ∧ g.clauses = [[]]) ∨ (f.clauses = [[]] ∧ g.clauses = []) := by
  have hmark : ∀ cs : Conjunction Nat, ∀ s ∈ cs.map (Disjunction.grouped Nat.repr),
      '&' ∉ s.toList := fun _ => List.forall_mem_map.2 fun c _ => Disjunction.mark_not_mem_grouped c
  have hinj := List.map_injective_iff.2 Disjunction.grouped_injective
  have hempty : ∀ cs : Conjunction Nat, cs.map (Disjunction.grouped Nat.repr) = [""] ↔ cs = [[]] :=
    fun cs => hinj.eq_iff' rfl
  obtain ⟨cs⟩ := f
  obtain ⟨ds⟩ := g
  rw [text, text, Conjunction.text, Conjunction.text,
    Text.intercalate_eq_iff rfl (by decide) (hmark cs) (hmark ds), hinj.eq_iff, hempty, hempty,
    List.map_eq_nil_iff, List.map_eq_nil_iff, Formula.mk.injEq]

end AllSat
