namespace AllSat.Text

inductive WriteError where
  | limitReached
deriving DecidableEq

def WriteError.message : WriteError → String
  | limitReached => "limit reached"

structure Sink where
  limit : Option Nat
  written : String

namespace Sink

def unlimited : Sink := ⟨none, ""⟩

def limited (limit : Option Nat) : Sink := ⟨limit, ""⟩

def admits (s : Sink) (size : Nat) : Bool := s.limit.all fun limit => size ≤ limit

def put (s : Sink) (text : String) : Except WriteError Sink :=
  if s.admits (s.written ++ text).utf8ByteSize then .ok ⟨s.limit, s.written ++ text⟩
  else .error .limitReached

def Within (s : Sink) : Prop := s.admits s.written.utf8ByteSize = true

theorem within_limited (limit : Option Nat) : (limited limit).Within := by
  cases limit <;> simp [Within, limited, admits]

theorem within_unlimited : unlimited.Within := within_limited none

theorem admits_of_le {s : Sink} {m n : Nat} (hle : m ≤ n) (h : s.admits n = true) :
    s.admits m = true := by
  obtain ⟨limit, written⟩ := s
  cases limit with
  | none => rfl
  | some limit => exact decide_eq_true (Nat.le_trans hle (of_decide_eq_true h))

theorem put_empty {s : Sink} (h : s.Within) : s.put "" = .ok s := by
  rw [put, String.append_empty]
  exact if_pos h

theorem put_eq_ok_iff {s t : Sink} {text : String} :
    s.put text = .ok t ↔ t = ⟨s.limit, s.written ++ text⟩ ∧ t.Within := by
  unfold put
  split
  · rename_i hadmits
    rw [Except.ok.injEq]
    exact ⟨fun h => h ▸ ⟨rfl, hadmits⟩, fun h => h.1.symm⟩
  · rename_i hadmits
    refine iff_of_false (by simp) ?_
    rintro ⟨rfl, hwithin⟩
    exact hadmits hwithin

theorem put_append (s : Sink) (first second : String) :
    (s.put first).bind (·.put second) = s.put (first ++ second) := by
  by_cases h : s.admits (s.written ++ first).utf8ByteSize = true
  · rw [put, if_pos h, Except.bind, put, put, String.append_assoc]
    rfl
  · have hmore : ¬ s.admits (s.written ++ (first ++ second)).utf8ByteSize = true := by
      refine mt (admits_of_le ?_) h
      rw [← String.append_assoc, String.utf8ByteSize_append (s := s.written ++ first)]
      exact Nat.le_add_right _ _
    rw [put, if_neg h, put, if_neg hmore]
    rfl

theorem put_unlimited (text : String) : unlimited.put text = .ok ⟨none, text⟩ := by
  rw [put, unlimited, String.empty_append]
  rfl

theorem put_limited (limit : Nat) (text : String) :
    (limited (some limit)).put text =
      if limit < text.utf8ByteSize then .error .limitReached else .ok ⟨some limit, text⟩ := by
  rw [put, limited, String.empty_append]
  by_cases h : limit < text.utf8ByteSize
  · simp [admits, h, Nat.not_le.2 h]
  · simp [admits, h, Nat.not_lt.1 h]

end Sink

end AllSat.Text
