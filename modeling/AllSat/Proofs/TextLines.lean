import AllSat.Text.Blank
import AllSat.Text.Source

namespace AllSat.Text

theorem byteArray_toList_loop (bytes : ByteArray) (i : Nat) (acc : List UInt8) :
    ByteArray.toList.loop bytes i acc = acc.reverse ++ bytes.data.toList.drop i := by
  fun_induction ByteArray.toList.loop bytes i acc with
  | case1 i acc h ih =>
      have hi : i < bytes.data.toList.length := by simpa using h
      rw [ih, List.drop_eq_getElem_cons hi]
      simp [ByteArray.get!, h]
  | case2 i acc h =>
      rw [List.drop_eq_nil_of_le (by simpa using Nat.le_of_not_lt h), List.append_nil]

theorem byteArray_toList (bytes : ByteArray) : bytes.toList = bytes.data.toList := by
  simp [ByteArray.toList, byteArray_toList_loop]

theorem newline_mem_utf8EncodeChar {c : Char} :
    Source.newline ∈ String.utf8EncodeChar c ↔ c = '\n' := by
  constructor
  · intro h
    have hbyte : ∀ n : Nat, Source.newline = UInt8.ofNat n → n % 256 = 10 :=
      fun n hn => (congrArg UInt8.toNat hn).symm
    simp only [String.utf8EncodeChar] at h
    split at h
    · have hvalue := hbyte _ (List.mem_singleton.1 h)
      have hten : c.val.toNat = 10 := by omega
      exact Char.toNat_inj.1 hten
    -- in a longer sequence every byte has its top bit set
    · exfalso
      split at h
      · simp only [List.mem_cons, List.not_mem_nil, or_false] at h
        rcases h with h | h <;> have hvalue := hbyte _ h <;> omega
      · split at h
        · simp only [List.mem_cons, List.not_mem_nil, or_false] at h
          rcases h with h | h | h <;> have hvalue := hbyte _ h <;> omega
        · simp only [List.mem_cons, List.not_mem_nil, or_false] at h
          rcases h with h | h | h | h <;> have hvalue := hbyte _ h <;> omega
  · rintro rfl
    decide

theorem flatMap_encode_eq_nil {cs : List Char} :
    cs.flatMap String.utf8EncodeChar = [] ↔ cs = [] := by
  cases cs <;> simp

theorem decodeLine_encode (cs : List Char) :
    Source.decodeLine (cs.flatMap String.utf8EncodeChar) = .ok (String.ofList cs) := by
  have hvalid : (cs.flatMap String.utf8EncodeChar).toByteArray.IsValidUTF8 :=
    ByteArray.isValidUTF8_utf8Encode
  simp only [Source.decodeLine, String.fromUTF8?, hvalid, dite_true]
  rfl

theorem bytes_ofString (text : String) :
    (Source.ofString text).bytes = text.toList.flatMap String.utf8EncodeChar := by
  rw [Source.ofString, byteArray_toList, ← String.utf8Encode_toList, List.utf8Encode,
    List.toList_data_toByteArray]

theorem splitOn_append_of_not_mem {α : Type} [DecidableEq α] {a : α} {xs : List α} (h : a ∉ xs)
    (ys : List α) : (xs ++ ys).splitOn a = (ys.splitOn a).modifyHead (xs ++ ·) := by
  induction xs with
  | nil => exact (congrFun List.modifyHead_id _).symm
  | cons x xs ih =>
      rw [List.mem_cons, not_or] at h
      have hx : (x == a) = false := by simpa using Ne.symm h.1
      rw [List.cons_append, List.splitOn_cons_eq_if_modifyHead, ih h.2, hx]
      simp [Function.comp_def]

theorem splitOn_encode (cs : List Char) :
    (cs.flatMap String.utf8EncodeChar).splitOn Source.newline =
      (cs.splitOn '\n').map (List.flatMap String.utf8EncodeChar) := by
  induction cs with
  | nil => rfl
  | cons c cs ih =>
      rw [List.flatMap_cons, List.splitOn_cons_eq_if_modifyHead]
      by_cases hc : c = '\n'
      · subst hc
        have hencode : String.utf8EncodeChar '\n' = [Source.newline] := rfl
        rw [hencode, List.singleton_append, List.splitOn_cons_eq_if_modifyHead, ih]
        rfl
      · rw [splitOn_append_of_not_mem (mt newline_mem_utf8EncodeChar.1 hc), ih]
        cases hsplit : cs.splitOn '\n' with
        | nil => exact absurd hsplit (List.splitOn_ne_nil _ _)
        | cons piece pieces => simp [hc]

def linesOf (text : String) : List String :=
  let pieces := text.toList.splitOn '\n'
  (if pieces.getLastD [] = [] then pieces.dropLast else pieces).map String.ofList

theorem lines_ofString (text : String) :
    (Source.ofString text).lines = (linesOf text).map .ok := by
  have hlast : ∀ pieces : List (List Char),
      (pieces.map (List.flatMap String.utf8EncodeChar)).getLastD [] = [] ↔
        pieces.getLastD [] = [] := by
    intro pieces
    rw [List.getLastD_eq_getLast?, List.getLastD_eq_getLast?, List.getLast?_map]
    cases pieces.getLast? with
    | none => simp
    | some piece => exact flatMap_encode_eq_nil
  have hdecode : Source.decodeLine ∘ List.flatMap String.utf8EncodeChar = .ok ∘ String.ofList :=
    funext decodeLine_encode
  have hnone : (Source.ofString text).failure = none := rfl
  simp only [Source.lines, hnone, bytes_ofString, splitOn_encode, linesOf, hlast]
  split
  · rw [← List.map_dropLast, List.map_map, hdecode, List.map_map]
  · rw [List.map_map, hdecode, List.map_map]

theorem linesOf_empty : linesOf "" = [] := by decide

theorem linesOf_cons {line : String} (h : '\n' ∉ line.toList) (text : String) :
    linesOf (line ++ "\n" ++ text) = line :: linesOf text := by
  have hsplit : (line ++ "\n" ++ text).toList.splitOn '\n' =
      line.toList :: text.toList.splitOn '\n' := by
    simp [List.splitOn_append_cons_self_of_not_mem h]
  obtain ⟨piece, pieces, hpieces⟩ :=
    List.exists_cons_of_ne_nil (List.splitOn_ne_nil '\n' text.toList)
  simp only [linesOf, hsplit, hpieces, List.getLastD_cons, List.dropLast_cons_cons]
  split <;> simp

structure IsWord (w : String) : Prop where
  nonempty : w.toList ≠ []
  solid : ∀ c ∈ w.toList, isBlank c = false

theorem IsWord.newline_not_mem {w : String} (h : IsWord w) : '\n' ∉ w.toList := by
  intro hmem
  cases h.solid _ hmem

theorem words_singleton {w : String} (h : IsWord w) : words w = [w] := by
  simp [words, List.splitOnP_eq_singleton h.solid, h.nonempty]

theorem words_cons {w : String} (h : IsWord w) (text : String) :
    words (w ++ " " ++ text) = w :: words text := by
  have hsplit : (w ++ " " ++ text).toList.splitOnP isBlank =
      w.toList :: text.toList.splitOnP isBlank := by
    rw [String.toList_append, String.toList_append, List.append_assoc]
    exact List.splitOnP_append_cons_of_forall_mem h.solid ' ' rfl text.toList
  rw [words, hsplit, List.filter_cons_of_pos (by simp [h.nonempty]), List.map_cons,
    String.ofList_toList]
  rfl

end AllSat.Text
