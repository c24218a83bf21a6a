import AllSat.Dimacs.Reader
import AllSat.Proofs.Checked

namespace AllSat.Dimacs

open Text (ReadError)

inductive Reads : Option Nat → Nat → List (Except ReadError Line) → Conjunction Nat → Prop
  | ended {n count} : Reads (some n) count [] []
  | skipped {declared count lines cs} : Reads declared count lines cs →
      Reads declared count (.ok .skipped :: lines) cs
  | header {declared count fields n lines cs} : declaredCount fields = .ok n →
      Reads (some n) count lines cs → Reads declared count (.ok (.header fields) :: lines) cs
  | last {n count tokens c lines} : clause tokens = .ok c → n ≤ count + 1 →
      Reads (some n) count (.ok (.clause tokens) :: lines) [c]
  | next {n count tokens c lines cs} : clause tokens = .ok c → count + 1 < n →
      Reads (some n) (count + 1) lines cs →
      Reads (some n) count (.ok (.clause tokens) :: lines) (c :: cs)

theorem clauses_of_reads {declared : Option Nat} {count : Nat}
    {lines : List (Except ReadError Line)} {cs : Conjunction Nat}
    (h : Reads declared count lines cs) : clauses declared count lines = .ok cs := by
  induction h with
  | ended => rfl
  | skipped _ ih => exact ih
  | header hn _ ih => simp only [clauses, hn, ih]
  | last hc hle => simp only [clauses, hc, if_pos hle]
  | next hc hlt _ ih => simp only [clauses, hc, if_neg (Nat.not_le.2 hlt), ih, Except.map]

theorem reads_of_clauses {declared : Option Nat} {count : Nat}
    {lines : List (Except ReadError Line)} {cs : Conjunction Nat}
    (h : clauses declared count lines = .ok cs) : Reads declared count lines cs := by
  induction lines generalizing declared count cs with
  | nil =>
      cases declared with
      | none => cases h
      | some n =>
          cases h
          exact .ended
  | cons line lines ih =>
      cases line with
      | error cause => cases h
      | ok line =>
          cases line with
          | skipped => exact .skipped (ih h)
          | header fields =>
              simp only [clauses] at h
              split at h
              · cases h
              · rename_i hn
                exact .header hn (ih h)
          | clause tokens =>
              simp only [clauses] at h
              split at h
              · cases h
              · split at h
                · cases h
                · rename_i hc
                  split at h
                  · rename_i hle
                    cases h
                    exact .last hc hle
                  · rename_i hmore
                    obtain ⟨later, hlater, rfl⟩ := exists_of_map_eq_ok h
                    exact .next hc (Nat.lt_of_not_le hmore) (ih hlater)

end AllSat.Dimacs
