import AllSat.Proofs.CompleteAnswers
import Mathlib.Data.List.Perm.Basic

namespace AllSat

namespace Model

theorem eq_of_contains_iff {m n : Model}
    (h : ∀ name, m.contains name = true ↔ n.contains name = true) : m = n :=
  ext fun name => Bool.eq_iff_iff.2 (h name)

theorem nodup_names (m : Model) : m.names.Nodup := by
  refine m.ascending.imp ?_
  rintro a b hlt rfl
  exact String.lt_irrefl a hlt

def Within (m : Model) (names : List String) : Prop :=
  ∀ name, m.contains name = true → name ∈ names

end Model

namespace Cnf

structure IsModel (f : Cnf) (m : Model) : Prop where
  within : m.Within f.names
  holds : f.Holds m.contains

theorem isModel_iff {f : Cnf} {m : Model} :
    f.IsModel m ↔
      ∃ τ, f.Holds τ ∧ ∀ name, m.contains name = true ↔ name ∈ f.names ∧ τ name = true := by
  constructor
  · intro h
    refine ⟨m.contains, h.holds, fun name => ?_⟩
    rw [iff_and_self]
    exact h.within name
  · rintro ⟨τ, hτ, hm⟩
    refine ⟨fun name hname => ((hm name).1 hname).1, (holds_congr fun name hname => ?_).1 hτ⟩
    rw [Bool.eq_iff_iff, hm name, and_iff_right hname]

structure ModelList (f : Cnf) (models : List Model) : Prop where
  nodup : models.Nodup
  mem_iff : ∀ m, m ∈ models ↔ f.IsModel m

theorem ModelList.perm {f g : Cnf} {models others : List Model} (hf : f.ModelList models)
    (hg : g.ModelList others) (h : ∀ m, f.IsModel m ↔ g.IsModel m) : models.Perm others := by
  rw [List.perm_ext_iff_of_nodup hf.nodup hg.nodup]
  intro m
  rw [hf.mem_iff, hg.mem_iff, h]

end Cnf

namespace Enumerator

variable {σ : Type}

theorem exists_modelList {o : Oracle σ} {memory : σ} {f : Cnf}
    (h : (start o memory f).Answered Exchange.Complete) :
    ∃ models, solveAllWith o memory f = some (.ok models) ∧ f.ModelList models := by
  have hsound := h.imp fun _ => Exchange.Complete.sound
  have hfinished := finished_after hsound (Nat.lt_succ_self _)
  refine ⟨_, solveAllWith_of_sound hsound, readings_nodup hsound _, fun m => ?_⟩
  rw [mem_readings_iff h hfinished, Cnf.isModel_iff]

end Enumerator

end AllSat
