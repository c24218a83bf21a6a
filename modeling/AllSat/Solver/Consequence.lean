import AllSat.Ascending
import AllSat.Disjunction

namespace AllSat

namespace Code

def ofLiteral (place : Nat → Nat) (l : Literal Nat) : Nat :=
  if l.positive then 2 * place l.atom else 2 * place l.atom + 1

@[inline] def flip (k : Nat) : Nat := if k % 2 = 0 then k + 1 else k - 1

def Holds (σ : Nat → Bool) (k : Nat) : Prop := σ (k / 2) = decide (k % 2 = 0)

theorem holds_flip {σ : Nat → Bool} {k : Nat} : Holds σ (flip k) ↔ ¬ Holds σ k := by
  unfold flip Holds
  split
  · rename_i h
    have hd : (k + 1) / 2 = k / 2 := by omega
    have hm : ¬ (k + 1) % 2 = 0 := by omega
    simp [hd, hm, h]
  · rename_i h
    have hd : (k - 1) / 2 = k / 2 := by omega
    have hm : (k - 1) % 2 = 0 := by omega
    simp [hd, hm, h]

theorem holds_ofLiteral {place : Nat → Nat} {σ : Nat → Bool} {l : Literal Nat} :
    Holds σ (ofLiteral place l) ↔ l.Holds (σ ∘ place) := by
  unfold ofLiteral Holds Literal.Holds
  split
  · rename_i h
    simp [h]
  · rename_i h
    have hd : (2 * place l.atom + 1) / 2 = place l.atom := by omega
    simp [hd, h]

end Code

structure Consequence (Admitted : (Nat → Bool) → Prop) where
  codes : List Nat
  holds : ∀ σ, Admitted σ → ∃ k ∈ codes, Code.Holds σ k

namespace Consequence

variable {Admitted : (Nat → Bool) → Prop}

def ofClause (place : Nat → Nat) (c : Disjunction Nat)
    (h : ∀ σ, Admitted σ → Disjunction.Holds (σ ∘ place) c) : Consequence Admitted where
  codes := c.foldr (fun l ks => Ascending.add (Code.ofLiteral place l) ks) []
  holds := by
    intro σ hσ
    obtain ⟨l, hl, hlσ⟩ := h σ hσ
    have hmem := Ascending.mem_ofList.2 (List.mem_map_of_mem hl : Code.ofLiteral place l ∈ c.map _)
    rw [Ascending.ofList, List.foldr_map] at hmem
    exact ⟨_, hmem, Code.holds_ofLiteral.2 hlσ⟩

theorem refutes {c : Consequence Admitted} (h : c.codes = []) : ∀ σ, ¬ Admitted σ := by
  intro σ hσ
  obtain ⟨k, hk, -⟩ := c.holds σ hσ
  simp [h] at hk

def resolve (k : Nat) (c d : Consequence Admitted) : Consequence Admitted where
  codes := Ascending.union (c.codes.filter (· ≠ k)) (d.codes.filter (· ≠ Code.flip k))
  holds := by
    intro σ hσ
    obtain ⟨m, hm, hmσ⟩ := c.holds σ hσ
    by_cases hmk : m = k
    · obtain ⟨n, hn, hnσ⟩ := d.holds σ hσ
      have hnk : n ≠ Code.flip k := fun h => Code.holds_flip.1 (h ▸ hnσ) (hmk ▸ hmσ)
      exact ⟨n, Ascending.mem_union.2 (.inr (List.mem_filter.2 ⟨hn, by simpa using hnk⟩)), hnσ⟩
    · exact ⟨m, Ascending.mem_union.2 (.inl (List.mem_filter.2 ⟨hm, by simpa using hmk⟩)), hmσ⟩

end Consequence

end AllSat
