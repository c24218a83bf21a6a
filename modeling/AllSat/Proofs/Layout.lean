import AllSat.Proofs.LineGrammar

namespace AllSat.Text

def IsGap (gap : String) : Prop := ∀ c ∈ gap.toList, isBlank c = true ∧ c ≠ '\n'

theorem IsGap.newline_not_mem {gap : String} (h : IsGap gap) : '\n' ∉ gap.toList :=
  fun hmem => (h _ hmem).2 rfl

theorem isWord_iff {w : String} :
    IsWord w ↔ w.toList ≠ [] ∧ ∀ c ∈ w.toList, isBlank c = false :=
  ⟨fun h => ⟨h.nonempty, h.solid⟩, fun h => ⟨h.1, h.2⟩⟩

theorem words_empty : words "" = [] := by decide

theorem words_append_cons {c : Char} (h : isBlank c = true) (xs ys : List Char) :
    words (.ofList (xs ++ c :: ys)) = words (.ofList xs) ++ words (.ofList ys) := by
  simp only [words, String.toList_ofList]
  rw [List.splitOnP_append_cons xs ys h, List.filter_append, List.map_append]

theorem words_blanks_append {cs : List Char} (h : ∀ c ∈ cs, isBlank c = true) (ys : List Char) :
    words (.ofList (cs ++ ys)) = words (.ofList ys) := by
  induction cs with
  | nil => rfl
  | cons c cs ih =>
      obtain ⟨hc, hcs⟩ := List.forall_mem_cons.1 h
      exact (words_append_cons hc [] (cs ++ ys)).trans (ih hcs)

theorem words_gap_append {gap : String} (h : IsGap gap) (text : String) :
    words (gap ++ text) = words text := by
  have hblanks := words_blanks_append (fun c hc => (h c hc).1) text.toList
  rwa [← String.toList_append, String.ofList_toList, String.ofList_toList] at hblanks

theorem words_gap {gap : String} (h : IsGap gap) : words gap = [] := by
  have hwords := words_gap_append h ""
  rwa [String.append_empty, words_empty] at hwords

theorem words_append_return (row : String) : words (row ++ "\r") = words row := by
  have hreturn : row ++ "\r" = .ofList (row.toList ++ '\r' :: []) := by
    rw [← String.toList_inj, String.toList_ofList]
    simp
  rw [hreturn, words_append_cons rfl, String.ofList_toList]
  exact List.append_nil _

def BlankFirst (text : String) : Prop := ∀ b ∈ text.toList.head?, isBlank b = true

theorem IsGap.blankFirst {gap : String} (h : IsGap gap) : BlankFirst gap :=
  fun b hb => (h b (List.mem_of_mem_head? hb)).1

theorem IsGap.blankFirst_append {gap : String} (h : IsGap gap) (hne : gap ≠ "") (text : String) :
    BlankFirst (gap ++ text) := by
  intro b hb
  rw [String.toList_append, List.head?_append_of_ne_nil _ (mt String.toList_eq_nil_iff.1 hne)] at hb
  exact h.blankFirst b hb

theorem words_word_append {w text : String} (hw : IsWord w) (htext : BlankFirst text) :
    words (w ++ text) = w :: words text := by
  cases hchars : text.toList with
  | nil => rw [String.toList_eq_nil_iff.1 hchars, String.append_empty, words_singleton hw]; rfl
  | cons b bs =>
      have hb : isBlank b = true := htext b (by simp [hchars])
      have htext : text = .ofList (b :: bs) := by rw [← hchars, String.ofList_toList]
      have hsplit : w ++ text = .ofList (w.toList ++ b :: bs) := by
        rw [htext, String.ofList_append, String.ofList_toList]
      have hskip : words (.ofList (b :: bs)) = words (.ofList bs) := words_append_cons hb [] bs
      rw [hsplit, words_append_cons hb, String.ofList_toList, words_singleton hw, htext, hskip]
      rfl

inductive Spaced : List String → String → Prop
  | last {w gap} : IsWord w → IsGap gap → Spaced [w] (w ++ gap)
  | next {w gap ws text} : IsWord w → IsGap gap → gap ≠ "" → Spaced ws text →
      Spaced (w :: ws) (w ++ gap ++ text)

inductive Row : List String → String → Prop
  | blank {gap} : IsGap gap → Row [] gap
  | words {gap ws text} : IsGap gap → Spaced ws text → Row ws (gap ++ text)

namespace Spaced

variable {ws : List String} {text : String}

theorem words_eq (h : Spaced ws text) : words text = ws := by
  induction h with
  | last hw hgap => rw [words_word_append hw hgap.blankFirst, words_gap hgap]
  | next hw hgap hne _ ih =>
      rw [String.append_assoc, words_word_append hw (hgap.blankFirst_append hne _),
        words_gap_append hgap, ih]

theorem isWord (h : Spaced ws text) : ∀ w ∈ ws, IsWord w := by
  induction h with
  | last hw _ => exact List.forall_mem_singleton.2 hw
  | next hw _ _ _ ih => exact List.forall_mem_cons.2 ⟨hw, ih⟩

theorem newline_not_mem (h : Spaced ws text) : '\n' ∉ text.toList := by
  induction h with
  | last hw hgap => simp [hw.newline_not_mem, hgap.newline_not_mem]
  | next hw hgap _ _ ih => simp [hw.newline_not_mem, hgap.newline_not_mem, ih]

end Spaced

namespace Row

variable {ws : List String} {row : String}

theorem words_eq (h : Row ws row) : Text.words row = ws := by
  cases h with
  | blank hgap => exact words_gap hgap
  | words hgap hspaced => rw [words_gap_append hgap, hspaced.words_eq]

theorem isWord (h : Row ws row) : ∀ w ∈ ws, IsWord w := by
  cases h with
  | blank => simp
  | words _ hspaced => exact hspaced.isWord

theorem newline_not_mem (h : Row ws row) : '\n' ∉ row.toList := by
  cases h with
  | blank hgap => exact hgap.newline_not_mem
  | words hgap hspaced => simp [hgap.newline_not_mem, hspaced.newline_not_mem]

end Row

theorem isGap_empty : IsGap "" := by simp [IsGap]

theorem isGap_space : IsGap " " := by simp [IsGap, isBlank, blankRanges]

theorem spaced_intercalate {w : String} {ws : List String} (h : ∀ v ∈ w :: ws, IsWord v) :
    Spaced (w :: ws) (" ".intercalate (w :: ws)) := by
  induction ws generalizing w with
  | nil =>
      have hlast := Spaced.last (h w (.head _)) isGap_empty
      rwa [String.append_empty] at hlast
  | cons v ws ih =>
      obtain ⟨hw, hrest⟩ := List.forall_mem_cons.1 h
      rw [String.intercalate_cons_cons]
      exact .next hw isGap_space (by decide) (ih hrest)

theorem row_intercalate {ws : List String} (h : ∀ w ∈ ws, IsWord w) :
    Row ws (" ".intercalate ws) := by
  cases ws with
  | nil => exact .blank isGap_empty
  | cons w ws =>
      have hrow := Row.words isGap_empty (spaced_intercalate h)
      rwa [String.empty_append] at hrow

theorem linesOf_of_not_mem {line : String} (h : '\n' ∉ line.toList) :
    linesOf line = if line = "" then [] else [line] := by
  have hlast : [line.toList].getLastD [] = line.toList := rfl
  simp only [linesOf, List.splitOn_eq_singleton h, hlast, String.toList_eq_nil_iff]
  split <;> simp

end AllSat.Text

namespace AllSat.Dimacs

open Text (BlankFirst IsGap Row linesOf words)

structure IsComment (row : String) : Prop where
  oneLine : '\n' ∉ row.toList
  starts : ∃ gap rest, IsGap gap ∧ BlankFirst rest ∧ row = gap ++ "c" ++ rest

inductive Rows : List (List String) → List String → Prop
  | nil : Rows [] []
  | line {ws row lines rows} : Row ws row → Rows lines rows → Rows (ws :: lines) (row :: rows)
  | blank {gap lines rows} : IsGap gap → Rows lines rows → Rows lines (gap :: rows)
  | comment {row lines rows} : IsComment row → Rows lines rows → Rows lines (row :: rows)

inductive Ended : List String → String → Prop
  | nil : Ended [] ""
  | last (row) : Ended [row] row
  | line {row rows text} : Ended rows text → Ended (row :: rows) (row ++ "\n" ++ text)
  | lineReturn {row rows text} : Ended rows text → Ended (row :: rows) (row ++ "\r\n" ++ text)

def Layout (lines : List (List String)) (text : String) : Prop :=
  ∃ rows, Rows lines rows ∧ Ended rows text

def plain (lines : List (List String)) : String :=
  String.join (lines.map fun ws => " ".intercalate ws ++ "\n")

def rowLine (row : String) : Line := Line.ofTokens (words row)

def contents (lines : List Line) : List Line := lines.filter (· ≠ .skipped)

theorem contents_cons_skipped (lines : List Line) : contents (.skipped :: lines) = contents lines :=
  rfl

theorem contents_cons_congr (line : Line) {lines others : List Line}
    (h : contents lines = contents others) :
    contents (line :: lines) = contents (line :: others) := by
  simp only [contents, List.filter_cons] at h ⊢
  rw [h]

theorem clauses_contents (declared : Option Nat) (count : Nat) (lines : List Line) :
    clauses declared count ((contents lines).map .ok) = clauses declared count (lines.map .ok) := by
  induction lines generalizing declared count with
  | nil => rfl
  | cons line lines ih =>
      cases line with
      | skipped => exact ih declared count
      | header fields =>
          have hcons : contents (.header fields :: lines) = .header fields :: contents lines := rfl
          simp only [hcons, List.map_cons, clauses, ih]
      | clause tokens =>
          have hcons : contents (.clause tokens :: lines) = .clause tokens :: contents lines := rfl
          simp only [hcons, List.map_cons, clauses, ih]

theorem parse_congr {text other : String}
    (h : contents (textLines text) = contents (textLines other)) :
    parse (.ofString text) = parse (.ofString other) := by
  rw [parse_ofString, parse_ofString, ← clauses_contents, h, clauses_contents]

theorem IsComment.rowLine_eq {row : String} (h : IsComment row) : rowLine row = .skipped := by
  obtain ⟨gap, rest, hgap, hrest, rfl⟩ := h.starts
  have hc : Text.IsWord "c" := ⟨by simp, by simp [Text.isBlank, Text.blankRanges]⟩
  rw [rowLine, String.append_assoc, Text.words_gap_append hgap, Text.words_word_append hc hrest]
  rfl

theorem rowLine_gap {gap : String} (h : IsGap gap) : rowLine gap = .skipped := by
  rw [rowLine, Text.words_gap h]
  rfl

namespace Rows

variable {lines : List (List String)} {rows : List String}

theorem contents_eq (h : Rows lines rows) :
    contents (rows.map rowLine) = contents (lines.map Line.ofTokens) := by
  induction h with
  | nil => rfl
  | line hrow _ ih =>
      rw [List.map_cons, List.map_cons, rowLine, hrow.words_eq]
      exact contents_cons_congr _ ih
  | blank hgap _ ih => rw [List.map_cons, rowLine_gap hgap, contents_cons_skipped, ih]
  | comment hcomment _ ih => rw [List.map_cons, hcomment.rowLine_eq, contents_cons_skipped, ih]

theorem newline_not_mem (h : Rows lines rows) : ∀ row ∈ rows, '\n' ∉ row.toList := by
  induction h with
  | nil => simp
  | line hrow _ ih => exact List.forall_mem_cons.2 ⟨hrow.newline_not_mem, ih⟩
  | blank hgap _ ih => exact List.forall_mem_cons.2 ⟨hgap.newline_not_mem, ih⟩
  | comment hcomment _ ih => exact List.forall_mem_cons.2 ⟨hcomment.oneLine, ih⟩

theorem isWord (h : Rows lines rows) : ∀ ws ∈ lines, ∀ w ∈ ws, Text.IsWord w := by
  induction h with
  | nil => simp
  | line hrow _ ih => exact List.forall_mem_cons.2 ⟨hrow.isWord, ih⟩
  | blank _ _ ih => exact ih
  | comment _ _ ih => exact ih

end Rows

theorem textLines_cons {row : String} (h : '\n' ∉ row.toList) (text : String) :
    textLines (row ++ "\n" ++ text) = rowLine row :: textLines text := by
  rw [textLines, Text.linesOf_cons h]
  rfl

theorem Ended.contents_eq {rows : List String} {text : String} (h : Ended rows text)
    (hrows : ∀ row ∈ rows, '\n' ∉ row.toList) :
    contents (textLines text) = contents (rows.map rowLine) := by
  induction h with
  | nil => rfl
  | last row =>
      rw [textLines, Text.linesOf_of_not_mem (hrows row (.head _))]
      split
      · rename_i hempty
        rw [hempty]
        rfl
      · rfl
  | line _ ih =>
      obtain ⟨hrow, hrest⟩ := List.forall_mem_cons.1 hrows
      rw [textLines_cons hrow]
      exact contents_cons_congr _ (ih hrest)
  | @lineReturn row rows text _ ih =>
      obtain ⟨hrow, hrest⟩ := List.forall_mem_cons.1 hrows
      have hends : row ++ "\r\n" = row ++ "\r" ++ "\n" := by
        rw [String.append_assoc]
        rfl
      have hreturn : rowLine (row ++ "\r") = rowLine row := by
        rw [rowLine, Text.words_append_return, rowLine]
      rw [hends, textLines_cons (by simp [hrow]), hreturn]
      exact contents_cons_congr _ (ih hrest)

theorem Layout.contents_eq {lines : List (List String)} {text : String} (h : Layout lines text) :
    contents (textLines text) = contents (lines.map Line.ofTokens) := by
  obtain ⟨rows, hrows, hended⟩ := h
  rw [hended.contents_eq hrows.newline_not_mem, hrows.contents_eq]

theorem layout_plain {lines : List (List String)} (h : ∀ ws ∈ lines, ∀ w ∈ ws, Text.IsWord w) :
    Layout lines (plain lines) := by
  induction lines with
  | nil => exact ⟨[], .nil, .nil⟩
  | cons ws lines ih =>
      obtain ⟨hws, hlines⟩ := List.forall_mem_cons.1 h
      obtain ⟨rows, hrows, hended⟩ := ih hlines
      refine ⟨_, .line (Text.row_intercalate hws) hrows, ?_⟩
      rw [plain, List.map_cons, String.join_cons]
      exact .line hended

/-- Where the blanks stand, how the lines end and what comments are among them makes no difference
to what is read, nor to the fault that is reported. -/
theorem parse_layout {lines : List (List String)} {text : String} (h : Layout lines text) :
    parse (.ofString text) = parse (.ofString (plain lines)) := by
  obtain ⟨rows, hrows, hended⟩ := h
  have hplain := (layout_plain hrows.isWord).contents_eq
  exact parse_congr ((Layout.contents_eq ⟨rows, hrows, hended⟩).trans hplain.symm)

def spreadLines : List (List String) := [["p", "cnf", "2", "2"], ["1", "-2", "0"], ["2", "0"]]

def spreadText : String := "\u2028p\u0085cnf  2\t2 \r\nc\u00a0x\r\n\n1\u3000-2 0\n \r2 0"

theorem layout_spreadText : Layout spreadLines spreadText := by
  have hwords : ∀ w ∈ ["p", "cnf", "2", "1", "-2", "0"], Text.IsWord w := by
    simp [Text.isWord_iff, Text.isBlank, Text.blankRanges]
  simp only [List.forall_mem_cons] at hwords
  obtain ⟨hp, hcnf, htwo, hone, hminus, hzero, -⟩ := hwords
  have hgaps : ∀ gap ∈ ["", " ", "  ", "\t", " \r", "\u0085", "\u2028", "\u3000"], IsGap gap := by
    simp [IsGap, Text.isBlank, Text.blankRanges]
  simp only [List.forall_mem_cons] at hgaps
  obtain ⟨hend, hspace, hspaces, htab, hreturn, hnext, hseparator, hwide, -⟩ := hgaps
  have hheader := Row.words hseparator <| .next hp hnext (by decide) <|
    .next hcnf hspaces (by decide) <| .next htwo htab (by decide) (.last htwo hspace)
  have hfirst := Row.words hend <| .next hone hwide (by decide) <|
    .next hminus hspace (by decide) (.last hzero hend)
  have hsecond := Row.words hreturn (.next htwo hspace (by decide) (.last hzero hend))
  have hcomment : IsComment "c\u00a0x" :=
    ⟨by decide, "", "\u00a0x", hend, by simp [BlankFirst, Text.isBlank, Text.blankRanges], rfl⟩
  have hrows := Rows.line hheader <| .comment hcomment <| .blank hend <| .line hfirst <|
    .line hsecond .nil
  exact ⟨_, hrows, .lineReturn (.lineReturn (.line (.line (.last _))))⟩

theorem spread_text_read : Layout spreadLines spreadText ∧
    parse (.ofString spreadText) = parse (.ofString (plain spreadLines)) :=
  ⟨layout_spreadText, parse_layout layout_spreadText⟩

end AllSat.Dimacs
