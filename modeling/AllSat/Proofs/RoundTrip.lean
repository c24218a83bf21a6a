import AllSat.Dimacs.Writer
import AllSat.Proofs.LineGrammar

namespace AllSat.Dimacs

open Text (IsSigned IsWord linesOf words)

def clauseTokens (c : Disjunction Nat) : List String := c.map (fun l => l.toSigned.repr) ++ ["0"]

def clauseText (c : Disjunction Nat) : String :=
  String.join (c.map fun l => l.toSigned.repr ++ " ") ++ "0"

def headerText (varCount clauseCount : Nat) : String :=
  "p cnf " ++ varCount.repr ++ " " ++ clauseCount.repr

theorem writeClause_eq (c : Disjunction Nat) : writeClause c = clauseText c ++ "\n" := by
  have hends : "0\n" = "0" ++ "\n" := rfl
  rw [writeClause, hends, ← String.append_assoc]
  rfl

theorem clauseText_cons (l : Literal Nat) (c : Disjunction Nat) :
    clauseText (l :: c) = l.toSigned.repr ++ " " ++ clauseText c := by
  simp [clauseText, String.join_cons, String.append_assoc]

theorem isWord_zero : IsWord "0" := Text.isWord_repr 0

theorem words_clauseText (c : Disjunction Nat) : words (clauseText c) = clauseTokens c := by
  induction c with
  | nil => exact Text.words_singleton isWord_zero
  | cons l c ih =>
      rw [clauseText_cons, Text.words_cons (Text.isWord_signed _), ih]
      rfl

theorem newline_not_mem_clauseText (c : Disjunction Nat) : '\n' ∉ (clauseText c).toList := by
  induction c with
  | nil => exact isWord_zero.newline_not_mem
  | cons l c ih =>
      have hword := (Text.isWord_signed l.toSigned).newline_not_mem
      simp [clauseText_cons, hword, ih]

theorem words_headerText (m n : Nat) : words (headerText m n) = ["p", "cnf", m.repr, n.repr] := by
  have hsplit : headerText m n = "p" ++ " " ++ ("cnf" ++ " " ++ (m.repr ++ " " ++ n.repr)) := by
    have hstart : "p cnf " = "p" ++ " " ++ "cnf" ++ " " := rfl
    simp only [headerText, hstart, String.append_assoc]
  have hp : IsWord "p" := ⟨by simp, by simp [Text.isBlank, Text.blankRanges]⟩
  have hcnf : IsWord "cnf" := ⟨by simp, by simp [Text.isBlank, Text.blankRanges]⟩
  rw [hsplit, Text.words_cons hp, Text.words_cons hcnf, Text.words_cons (Text.isWord_repr m),
    Text.words_singleton (Text.isWord_repr n)]

theorem newline_not_mem_headerText (m n : Nat) : '\n' ∉ (headerText m n).toList := by
  have hm := (Text.isWord_repr m).newline_not_mem
  have hn := (Text.isWord_repr n).newline_not_mem
  simp only [headerText, String.toList_append, List.mem_append, not_or]
  exact ⟨⟨⟨by decide, hm⟩, by decide⟩, hn⟩

theorem linesOf_clauses (cs : Conjunction Nat) :
    linesOf (String.join (cs.map writeClause)) = cs.map clauseText := by
  induction cs with
  | nil => exact Text.linesOf_empty
  | cons c cs ih =>
      rw [List.map_cons, String.join_cons, writeClause_eq,
        Text.linesOf_cons (newline_not_mem_clauseText c), ih, List.map_cons]

theorem linesOf_write (f : Formula) (varCount : Nat) :
    linesOf (write f varCount) =
      headerText varCount f.clauses.length :: f.clauses.map clauseText := by
  have hheader : writeHeader varCount f.clauses.length =
      headerText varCount f.clauses.length ++ "\n" := rfl
  rw [write, hheader, Text.linesOf_cons (newline_not_mem_headerText _ _), linesOf_clauses]

theorem ofTokens_of_isSigned {token : String} {k : Int} (h : IsSigned token k)
    (tokens : List String) : Line.ofTokens (token :: tokens) = .clause (token :: tokens) := by
  have hvalue := Text.signed?_eq_some_iff.2 h
  have hcomment : token ≠ "c" := by
    rintro rfl
    cases hvalue
  have hheader : token ≠ "p" := by
    rintro rfl
    cases hvalue
  simp [Line.ofTokens, hcomment, hheader]

theorem isSigned_toSigned {l : Literal Nat} (h : l.Fits) : IsSigned l.toSigned.repr l.value := by
  rw [Literal.toSigned_of_fits h]
  exact Text.isSigned_repr (Literal.fits_iff.1 h).2.1 (Literal.fits_iff.1 h).2.2

theorem isSigned_zero : IsSigned "0" 0 := Text.isSigned_repr (by decide) (by decide)

theorem denotes_clauseTokens {c : Disjunction Nat} (h : ∀ l ∈ c, l.Fits) :
    Denotes (clauseTokens c) c := by
  induction c with
  | nil => exact .zero isSigned_zero
  | cons l c ih =>
      obtain ⟨hl, hc⟩ := List.forall_mem_cons.1 h
      exact .literal (Literal.fits_iff.1 hl).1 (isSigned_toSigned hl) (ih hc)

theorem ofTokens_clauseTokens {c : Disjunction Nat} (h : ∀ l ∈ c, l.Fits) :
    Line.ofTokens (clauseTokens c) = .clause (clauseTokens c) := by
  cases c with
  | nil => exact ofTokens_of_isSigned isSigned_zero []
  | cons l c => exact ofTokens_of_isSigned (isSigned_toSigned (h l (.head _))) _

theorem Denotes.fits {tokens : List String} {c : Disjunction Nat} (h : Denotes tokens c) :
    ∀ l ∈ c, l.Fits := by
  induction h with
  | ended => simp
  | zero => simp
  | literal hne hsigned _ ih =>
      exact List.forall_mem_cons.2 ⟨Literal.fits_iff.2 ⟨hne, hsigned.1, hsigned.2.1⟩, ih⟩

theorem declares_lt {fields : List String} {n : Nat} (h : Declares fields n) : n < Word.size := by
  obtain ⟨token, -, hn⟩ := h.clauseCount
  exact hn.1

theorem Reads.length_lt {declared : Option Nat} {count : Nat}
    {lines : List (Except Text.ReadError Line)} {cs : Conjunction Nat}
    (h : Reads declared count lines cs) (hdeclared : ∀ n, declared = some n → n < Word.size)
    (hcount : count + 1 < Word.size) : count + cs.length < Word.size := by
  induction h with
  | ended => exact Nat.lt_of_succ_lt hcount
  | skipped _ ih => exact ih hdeclared hcount
  | header hn _ ih =>
      refine ih ?_ hcount
      rintro m ⟨⟩
      exact declares_lt (declaredCount_eq_ok_iff.1 hn)
  | last => exact hcount
  | next hc hlt _ ih =>
      have hn := hdeclared _ rfl
      have hlength := ih hdeclared (by omega)
      rw [List.length_cons]
      omega

theorem reads_written {n count : Nat} {cs : Conjunction Nat} (hn : n = count + cs.length)
    (h : ∀ c ∈ cs, c ≠ [] ∧ ∀ l ∈ c, l.Fits) :
    Reads (some n) count (cs.map fun c => .ok (.clause (clauseTokens c))) cs := by
  induction cs generalizing count with
  | nil => exact .ended
  | cons c cs ih =>
      obtain ⟨⟨hne, hfits⟩, hrest⟩ := List.forall_mem_cons.1 h
      have hclause := clause_of_denotes hne (denotes_clauseTokens hfits)
      rw [List.length_cons] at hn
      cases cs with
      | nil => exact .last hclause (Nat.le_of_eq hn)
      | cons d ds =>
          have hlater := ih (show n = count + 1 + (d :: ds).length by omega) hrest
          refine .next hclause ?_ hlater
          rw [List.length_cons] at hn
          omega

theorem textLines_write (f : Formula) (varCount : Nat) :
    textLines (write f varCount) =
      .header ["cnf", varCount.repr, f.clauses.length.repr] ::
        f.clauses.map fun c => Line.ofTokens (clauseTokens c) := by
  simp only [textLines, linesOf_write, List.map_cons, words_headerText, List.map_map,
    Function.comp_def, words_clauseText]
  rfl

theorem declares_written_iff {m n k : Nat} :
    Declares ["cnf", m.repr, n.repr] k ↔ m < Word.size ∧ n < Word.size ∧ k = n := by
  constructor
  · rintro ⟨-, ⟨_, v, ⟨⟩, hm⟩, ⟨_, ⟨⟩, hn⟩⟩
    obtain ⟨hk, hn⟩ := Text.isUnsigned_repr_iff.1 hn
    exact ⟨(Text.isUnsigned_repr_iff.1 hm).2, hn, hk⟩
  · rintro ⟨hm, hn, rfl⟩
    exact ⟨rfl, ⟨_, m, rfl, Text.isUnsigned_repr_iff.2 ⟨rfl, hm⟩⟩,
      ⟨_, rfl, Text.isUnsigned_repr_iff.2 ⟨rfl, hn⟩⟩⟩

theorem fits_of_parse {input : Text.Source} {f : Formula} (h : parse input = .ok f) :
    ∀ c ∈ f.clauses, c ≠ [] ∧ ∀ l ∈ c, l.Fits := by
  intro c hc
  obtain ⟨tokens, htokens⟩ := exists_tokens_of_parse h c hc
  obtain ⟨hne, hdenotes⟩ := clause_eq_ok_iff.1 htokens
  exact ⟨hne, hdenotes.fits⟩

theorem length_lt_of_parse {input : Text.Source} {f : Formula} (h : parse input = .ok f) :
    f.clauses.length < Word.size := by
  obtain ⟨cs, hcs, rfl⟩ := exists_of_map_eq_ok h
  have hlength := (reads_of_clauses hcs).length_lt (fun n hn => by cases hn) (by decide)
  rwa [Nat.zero_add] at hlength

theorem parse_write {f : Formula} {varCount : Nat} (hvars : varCount < Word.size)
    (hcount : f.clauses.length < Word.size) (h : ∀ c ∈ f.clauses, c ≠ [] ∧ ∀ l ∈ c, l.Fits) :
    parse (.ofString (write f varCount)) = .ok f := by
  have hdeclares := declaredCount_eq_ok_iff.2 (declares_written_iff.2 ⟨hvars, hcount, rfl⟩)
  have hlines : (f.clauses.map fun c => Line.ofTokens (clauseTokens c)) =
      f.clauses.map fun c => .clause (clauseTokens c) :=
    List.map_congr_left fun c hc => ofTokens_clauseTokens (h c hc).2
  have hreads : Reads none 0 _ f.clauses :=
    .header hdeclares (reads_written (Nat.zero_add _).symm h)
  rw [parse_ofString, textLines_write, hlines, List.map_cons, List.map_map]
  exact congrArg (Except.map Formula.mk) (clauses_of_reads hreads)

theorem lt_of_parse_write {f g : Formula} {varCount : Nat}
    (h : parse (.ofString (write f varCount)) = .ok g) : varCount < Word.size := by
  rw [parse_ofString, textLines_write] at h
  obtain ⟨cs, hcs, -⟩ := exists_of_map_eq_ok h
  cases reads_of_clauses hcs with
  | header hn _ => exact (declares_written_iff.1 (declaredCount_eq_ok_iff.1 hn)).1

/-- The text of a formula is read as the same formula exactly if its counts and its literals fit a
word and no clause is empty, which is so for every formula that has been read. -/
theorem parse_write_eq_ok_iff (f : Formula) (varCount : Nat) :
    (parse (.ofString (write f varCount)) = .ok f ↔
      varCount < Word.size ∧ f.clauses.length < Word.size ∧
        ∀ c ∈ f.clauses, c ≠ [] ∧ ∀ l ∈ c, l.Fits) ∧
      ∀ input g, parse input = .ok g →
        (parse (.ofString (write g varCount)) = .ok g ↔ varCount < Word.size) := by
  refine ⟨⟨fun h => ?_, fun ⟨hvars, hcount, hfits⟩ => parse_write hvars hcount hfits⟩, ?_⟩
  · exact ⟨lt_of_parse_write h, length_lt_of_parse h, fits_of_parse h⟩
  · intro input g hg
    exact ⟨lt_of_parse_write, fun hvars =>
      parse_write hvars (length_lt_of_parse hg) (fits_of_parse hg)⟩

end AllSat.Dimacs
