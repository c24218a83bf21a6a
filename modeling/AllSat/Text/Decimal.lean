import AllSat.Word

namespace AllSat.Text

def digits? (cs : List Char) : Option Nat :=
  if cs.isEmpty || !cs.all Char.isDigit then none else some (Nat.ofDigitChars 10 cs 0)

theorem digits?_repr (n : Nat) : digits? n.repr.toList = some n := by
  have hall : (Nat.toDigits 10 n).all Char.isDigit = true :=
    List.all_eq_true.2 fun c hc => Nat.isDigit_of_mem_toDigits (by decide) (by decide) hc
  simp [digits?, Nat.repr_eq_ofList_toDigits, Nat.toDigits_ne_nil, hall]

def unsigned? (s : String) : Option Nat :=
  let value := match s.toList with
    | '+' :: cs => digits? cs
    | cs => digits? cs
  value.filter fun n => n < Word.size

def signed? (s : String) : Option Int :=
  let value := match s.toList with
    | '+' :: cs => (digits? cs).map fun n => (n : Int)
    | '-' :: cs => (digits? cs).map fun n => -(n : Int)
    | cs => (digits? cs).map fun n => (n : Int)
  value.filter fun k => -Word.half ≤ k ∧ k < Word.half

end AllSat.Text
