import AllSat.Cnf
import AllSat.Word

namespace AllSat.Dnf

def choices {α : Type} : List (List α) → List (List α)
  | [] => [[]]
  | xs :: rest =>
      let tails := choices rest
      xs.flatMap fun x => tails.map (x :: ·)

def choiceCount {α : Type} (lists : List (List α)) : Nat :=
  lists.foldr (fun xs n => xs.length * n) 1

theorem length_choices {α : Type} (lists : List (List α)) :
    (choices lists).length = choiceCount lists := by
  induction lists with
  | nil => rfl
  | cons xs rest ih =>
      have hinner : ∀ ys : List α,
          (ys.flatMap fun x => (choices rest).map (x :: ·)).length =
            ys.length * choiceCount rest := by
        intro ys
        induction ys with
        | nil => simp
        | cons y ys ihy => simp [ihy, ih, Nat.succ_mul, Nat.add_comm]
      exact hinner xs

theorem length_of_mem_choices {α : Type} {lists : List (List α)} {choice : List α}
    (h : choice ∈ choices lists) : choice.length = lists.length := by
  induction lists generalizing choice with
  | nil =>
      cases List.mem_singleton.1 h
      rfl
  | cons xs rest ih =>
      simp only [choices, List.mem_flatMap, List.mem_map] at h
      obtain ⟨x, -, ys, hys, rfl⟩ := h
      simp [ih hys]

def Holds (τ : String → Bool) (terms : List (List (Literal String))) : Prop :=
  ∃ term ∈ terms, ∀ l ∈ term, l.Holds τ

instance (τ : String → Bool) (terms : List (List (Literal String))) :
    Decidable (Holds τ terms) :=
  inferInstanceAs (Decidable (∃ term ∈ terms, ∀ l ∈ term, l.Holds τ))

def encode (terms : List (List (Literal String))) : Except Error Cnf :=
  if terms = [] then .error .emptyDnf
  else if [] ∈ terms then .ok .empty
  else if Word.size ≤ choiceCount terms then .error .dnfTooLarge
  else .ok ⟨(choices terms).filterMap Clause.ofLiterals?⟩

theorem encode_nil : encode [] = .error .emptyDnf := rfl

theorem encode_of_nil_mem {terms : List (List (Literal String))} (h : [] ∈ terms) :
    encode terms = .ok .empty := by
  have hne : terms ≠ [] := List.ne_nil_of_mem h
  simp [encode, hne, h]

end AllSat.Dnf
