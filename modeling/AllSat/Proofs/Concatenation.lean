import AllSat.Proofs.ModelLists
import Mathlib.Data.List.ProdSigma

namespace AllSat

namespace Model

def restrict (m : Model) (names : List String) : Model :=
  ⟨m.names.filter (· ∈ names), m.ascending.filter _⟩

theorem contains_restrict {m : Model} {names : List String} {name : String} :
    (m.restrict names).contains name = true ↔ m.contains name = true ∧ name ∈ names := by
  simp [contains_iff, restrict]

def union (m n : Model) : Model := ofNames (m.names ++ n.names)

theorem contains_union {m n : Model} {name : String} :
    (m.union n).contains name = true ↔ m.contains name = true ∨ n.contains name = true := by
  rw [union, contains_ofNames, List.mem_append, contains_iff, contains_iff]

theorem union_comm (m n : Model) : m.union n = n.union m :=
  eq_of_contains_iff fun name => by rw [contains_union, contains_union, or_comm]

theorem restrict_union_left {m n : Model} {names others : List String} (hm : m.Within names)
    (hn : n.Within others) (h : names.Disjoint others) : (m.union n).restrict names = m := by
  apply eq_of_contains_iff
  intro name
  rw [contains_restrict, contains_union]
  constructor
  · rintro ⟨hname | hname, hmem⟩
    · exact hname
    · exact absurd (hn name hname) (h hmem)
  · exact fun hname => ⟨.inl hname, hm name hname⟩

theorem restrict_union_right {m n : Model} {names others : List String} (hm : m.Within names)
    (hn : n.Within others) (h : names.Disjoint others) : (m.union n).restrict others = n := by
  rw [union_comm]
  exact restrict_union_left hn hm h.symm

end Model

namespace Cnf

theorem holds_restrict {f : Cnf} {m : Model} :
    f.Holds (m.restrict f.names).contains ↔ f.Holds m.contains := by
  apply holds_congr
  intro name hname
  rw [Bool.eq_iff_iff, Model.contains_restrict, and_iff_left hname]

theorem isModel_restrict {f : Cnf} {m : Model} :
    f.IsModel (m.restrict f.names) ↔ f.Holds m.contains := by
  rw [← holds_restrict]
  exact ⟨IsModel.holds, fun h => ⟨fun name hname => (Model.contains_restrict.1 hname).2, h⟩⟩

theorem isModel_append {f g : Cnf} {m : Model} :
    (f ++ g).IsModel m ↔
      (∀ name, m.contains name = true → name ∈ f.names ∨ name ∈ g.names) ∧
        f.IsModel (m.restrict f.names) ∧ g.IsModel (m.restrict g.names) := by
  rw [isModel_restrict, isModel_restrict, ← holds_append]
  constructor
  · intro h
    exact ⟨fun name hname => mem_names_append.1 (h.within name hname), h.holds⟩
  · rintro ⟨hwithin, hholds⟩
    exact ⟨fun name hname => mem_names_append.2 (hwithin name hname), hholds⟩

theorem isModel_append_of_subset {f g : Cnf} {m : Model} (h : ∀ name ∈ g.names, name ∈ f.names) :
    (f ++ g).IsModel m ↔ f.IsModel m ∧ g.Holds m.contains := by
  constructor
  · intro hm
    obtain ⟨hf, hg⟩ := holds_append.1 hm.holds
    refine ⟨⟨fun name hname => ?_, hf⟩, hg⟩
    exact (mem_names_append.1 (hm.within name hname)).elim id (h name)
  · rintro ⟨hf, hg⟩
    exact ⟨fun name hname => mem_names_append.2 (.inl (hf.within name hname)),
      holds_append.2 ⟨hf.holds, hg⟩⟩

theorem isModel_congr {f g : Cnf} (h : ∀ c, c ∈ f.clauses ↔ c ∈ g.clauses) (m : Model) :
    f.IsModel m ↔ g.IsModel m := by
  have hnames : ∀ name, name ∈ f.names ↔ name ∈ g.names := fun name => by simp [mem_names, h]
  have hholds : f.Holds m.contains ↔ g.Holds m.contains := by simp [Holds, h]
  constructor
  · exact fun hf => ⟨fun name hname => (hnames name).1 (hf.within name hname), hholds.1 hf.holds⟩
  · exact fun hg => ⟨fun name hname => (hnames name).2 (hg.within name hname), hholds.2 hg.holds⟩

section Parts

variable {f g : Cnf} {models₁ models₂ models : List Model}

theorem ModelList.perm_filter (h₁ : f.ModelList models₁) (h : (f ++ g).ModelList models)
    (hnames : ∀ name ∈ g.names, name ∈ f.names) :
    models.Perm (models₁.filter fun m => g.Holds m.contains) := by
  rw [List.perm_ext_iff_of_nodup h.nodup (h₁.nodup.filter _)]
  intro m
  rw [h.mem_iff, isModel_append_of_subset hnames, List.mem_filter, h₁.mem_iff, decide_eq_true_eq]

theorem isModel_union (hdisjoint : f.names.Disjoint g.names) {m n : Model}
    (hm : f.IsModel m) (hn : g.IsModel n) : (f ++ g).IsModel (m.union n) := by
  rw [isModel_append, Model.restrict_union_left hm.within hn.within hdisjoint,
    Model.restrict_union_right hm.within hn.within hdisjoint]
  refine ⟨fun name hname => ?_, hm, hn⟩
  exact (Model.contains_union.1 hname).imp (hm.within name) (hn.within name)

theorem union_restrict {m : Model} (hm : (f ++ g).IsModel m) :
    (m.restrict f.names).union (m.restrict g.names) = m := by
  apply Model.eq_of_contains_iff
  intro name
  rw [Model.contains_union, Model.contains_restrict, Model.contains_restrict, ← and_or_left]
  exact and_iff_left_of_imp fun hname => mem_names_append.1 (hm.within name hname)

theorem ModelList.perm_product (h₁ : f.ModelList models₁) (h₂ : g.ModelList models₂)
    (h : (f ++ g).ModelList models) (hdisjoint : f.names.Disjoint g.names) :
    models.Perm ((models₁ ×ˢ models₂).map fun p => p.1.union p.2) := by
  have hnodup : ((models₁ ×ˢ models₂).map fun p => p.1.union p.2).Nodup := by
    -- cut down to the names of either part, a union gives back what came from that part
    refine (h₁.nodup.product h₂.nodup).map_on ?_
    rintro ⟨m, n⟩ hp ⟨m', n'⟩ hp' heq
    obtain ⟨hm, hn⟩ := List.mem_product.1 hp
    obtain ⟨hm', hn'⟩ := List.mem_product.1 hp'
    rw [h₁.mem_iff] at hm hm'
    rw [h₂.mem_iff] at hn hn'
    have hleft := congrArg (·.restrict f.names) heq
    have hright := congrArg (·.restrict g.names) heq
    simp only [Model.restrict_union_left hm.within hn.within hdisjoint,
      Model.restrict_union_left hm'.within hn'.within hdisjoint] at hleft
    simp only [Model.restrict_union_right hm.within hn.within hdisjoint,
      Model.restrict_union_right hm'.within hn'.within hdisjoint] at hright
    rw [hleft, hright]
  rw [List.perm_ext_iff_of_nodup h.nodup hnodup]
  intro m
  rw [h.mem_iff, List.mem_map]
  constructor
  · intro hm
    obtain ⟨-, hf, hg⟩ := isModel_append.1 hm
    exact ⟨⟨_, _⟩, List.mem_product.2 ⟨(h₁.mem_iff _).2 hf, (h₂.mem_iff _).2 hg⟩, union_restrict hm⟩
  · rintro ⟨p, hp, rfl⟩
    obtain ⟨hm, hn⟩ := List.mem_product.1 hp
    exact isModel_union hdisjoint ((h₁.mem_iff _).1 hm) ((h₂.mem_iff _).1 hn)

end Parts

end Cnf

namespace Enumerator

variable {σ σ₁ σ₂ : Type}

/-- The models of two conjunctions taken together are the sets of names that are a model of each
when cut down to its names. So a part without new names filters the models, one with new names only
multiplies them, and it makes no difference in which order the clauses come or how often. -/
theorem solveAllWith_append (o₁ : Oracle σ₁) (memory₁ : σ₁) (o₂ : Oracle σ₂) (memory₂ : σ₂)
    (o : Oracle σ) (memory : σ) (f g : Cnf)
    (h₁ : (start o₁ memory₁ f).Answered Exchange.Complete)
    (h₂ : (start o₂ memory₂ g).Answered Exchange.Complete)
    (h : (start o memory (f ++ g)).Answered Exchange.Complete) :
    ∃ models₁ models₂ models : List Model,
      solveAllWith o₁ memory₁ f = some (.ok models₁) ∧
      solveAllWith o₂ memory₂ g = some (.ok models₂) ∧
      solveAllWith o memory (f ++ g) = some (.ok models) ∧
      f.ModelList models₁ ∧ g.ModelList models₂ ∧ (f ++ g).ModelList models ∧
      (∀ m, m ∈ models ↔
        (∀ name, m.contains name = true → name ∈ f.names ∨ name ∈ g.names) ∧
          m.restrict f.names ∈ models₁ ∧ m.restrict g.names ∈ models₂) ∧
      ((∀ name ∈ g.names, name ∈ f.names) →
        models.Perm (models₁.filter fun m => g.Holds m.contains)) ∧
      ((∀ name ∈ f.names, name ∉ g.names) →
        models.length = models₁.length * models₂.length) ∧
      ∀ (τ : Type) (o' : Oracle τ) (memory' : τ) (k : Cnf),
        (∀ c, c ∈ k.clauses ↔ c ∈ f.clauses ∨ c ∈ g.clauses) →
        (start o' memory' k).Answered Exchange.Complete →
        ∃ others, solveAllWith o' memory' k = some (.ok others) ∧ others.Perm models := by
  obtain ⟨models₁, hsolve₁, hlist₁⟩ := exists_modelList h₁
  obtain ⟨models₂, hsolve₂, hlist₂⟩ := exists_modelList h₂
  obtain ⟨models, hsolve, hlist⟩ := exists_modelList h
  refine ⟨models₁, models₂, models, hsolve₁, hsolve₂, hsolve, hlist₁, hlist₂, hlist, fun m => ?_,
    hlist₁.perm_filter hlist, fun hdisjoint => ?_, fun τ o' memory' k hclauses h' => ?_⟩
  · rw [hlist.mem_iff, hlist₁.mem_iff, hlist₂.mem_iff, Cnf.isModel_append]
  · rw [(hlist₁.perm_product hlist₂ hlist hdisjoint).length_eq, List.length_map,
      List.length_product]
  · obtain ⟨others, hothers, hlist'⟩ := exists_modelList h'
    have hsame : ∀ c, c ∈ k.clauses ↔ c ∈ (f ++ g).clauses := by simpa using hclauses
    exact ⟨others, hothers, hlist'.perm hlist (Cnf.isModel_congr hsame)⟩

def otherName : Cnf := ⟨[Clause.unit (.neg "C"), (Clause.unit (.pos "D")).or (.neg "C")]⟩

theorem either_name_appended :
    Learning.oracle.Always Exchange.Complete ∧
      ∃ models₁ models₂ models : List Model,
        solveAllWith Learning.oracle () eitherName = some (.ok models₁) ∧
        solveAllWith Learning.oracle () otherName = some (.ok models₂) ∧
        solveAllWith Learning.oracle () (eitherName ++ otherName) = some (.ok models) ∧
        models.length = models₁.length * models₂.length := by
  have halways := Learning.always_complete
  obtain ⟨models₁, models₂, models, hsolve₁, hsolve₂, hsolve, -, -, -, -, -, hproduct, -⟩ :=
    solveAllWith_append Learning.oracle () Learning.oracle () Learning.oracle () eitherName
      otherName (answered_of_always halways) (answered_of_always halways)
      (answered_of_always halways)
  exact ⟨halways, models₁, models₂, models, hsolve₁, hsolve₂, hsolve, hproduct (by decide)⟩

end Enumerator

end AllSat
