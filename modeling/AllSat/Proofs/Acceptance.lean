import AllSat.Proofs.LineGrammar
import Mathlib.Data.List.Forall2
import Mathlib.Data.List.Infix

namespace AllSat.Dimacs

def Line.fields? : Line → Option (List String)
  | header fields => some fields
  | _ => none

def Line.tokens? : Line → Option (List String)
  | clause tokens => some tokens
  | _ => none

def headers (lines : List Line) : List (List String) := lines.filterMap Line.fields?

def clauseLines (lines : List Line) : List (List String) := lines.filterMap Line.tokens?

@[simp] theorem headers_skipped (lines : List Line) :
    headers (lines ++ [.skipped]) = headers lines := by
  simp [headers, Line.fields?]

@[simp] theorem headers_header (lines : List Line) (fields : List String) :
    headers (lines ++ [.header fields]) = headers lines ++ [fields] := by
  simp [headers, Line.fields?]

@[simp] theorem headers_clause (lines : List Line) (tokens : List String) :
    headers (lines ++ [.clause tokens]) = headers lines := by
  simp [headers, Line.fields?]

@[simp] theorem clauseLines_skipped (lines : List Line) :
    clauseLines (lines ++ [.skipped]) = clauseLines lines := by
  simp [clauseLines, Line.tokens?]

@[simp] theorem clauseLines_header (lines : List Line) (fields : List String) :
    clauseLines (lines ++ [.header fields]) = clauseLines lines := by
  simp [clauseLines, Line.tokens?]

@[simp] theorem clauseLines_clause (lines : List Line) (tokens : List String) :
    clauseLines (lines ++ [.clause tokens]) = clauseLines lines ++ [tokens] := by
  simp [clauseLines, Line.tokens?]

theorem mem_headers {lines : List Line} {fields : List String} :
    fields ∈ headers lines ↔ .header fields ∈ lines := by
  rw [headers, List.mem_filterMap]
  constructor
  · rintro ⟨line, hline, hfields⟩
    cases line with
    | skipped => cases hfields
    | clause tokens => cases hfields
    | header other =>
        cases hfields
        exact hline
  · exact fun h => ⟨_, h, rfl⟩

theorem mem_clauseLines {lines : List Line} {tokens : List String} :
    tokens ∈ clauseLines lines ↔ .clause tokens ∈ lines := by
  rw [clauseLines, List.mem_filterMap]
  constructor
  · rintro ⟨line, hline, htokens⟩
    cases line with
    | skipped => cases htokens
    | header fields => cases htokens
    | clause other =>
        cases htokens
        exact hline
  · exact fun h => ⟨_, h, rfl⟩

theorem mem_iff_prefix {lines : List Line} {line : Line} :
    line ∈ lines ↔ ∃ before, before ++ [line] <+: lines := by
  constructor
  · intro h
    obtain ⟨before, after, rfl⟩ := List.append_of_mem h
    exact ⟨before, after, by simp⟩
  · rintro ⟨before, hprefix⟩
    exact hprefix.subset (by simp)

theorem denotes_iff_map_clause {lines : List (List String)} {cs : Conjunction Nat} :
    List.Forall₂ (fun tokens c => c ≠ [] ∧ Denotes tokens c) lines cs ↔
      lines.map clause = cs.map .ok := by
  simp only [← clause_eq_ok_iff]
  rw [← List.forall₂_eq_eq_eq, List.forall₂_map_left_iff, List.forall₂_map_right_iff]

def Complete (read : List Line) : Prop :=
  ∃ before tokens fields n, read = before ++ [.clause tokens] ∧
    (headers read).getLast? = some fields ∧ Declares fields n ∧ n ≤ (clauseLines read).length

theorem not_complete_nil : ¬ Complete [] := by
  rintro ⟨before, tokens, -, -, hread, -⟩
  simp at hread

structure ReadPrefix (lines read : List Line) : Prop where
  isPrefix : read <+: lines
  minimal : ∀ earlier, earlier <+: read → Complete earlier → earlier = read
  ends : Complete read ∨ read = lines

theorem exists_readPrefix (lines : List Line) : ∃ read, ReadPrefix lines read := by
  induction lines using List.reverseRecOn with
  | nil => exact ⟨[], List.prefix_rfl, fun _ h _ => List.prefix_nil.1 h, .inr rfl⟩
  | append_singleton lines line ih =>
      obtain ⟨read, hread⟩ := ih
      by_cases hcomplete : Complete read
      · exact ⟨read, hread.isPrefix.trans (List.prefix_append ..), hread.minimal, .inl hcomplete⟩
      · have hall : read = lines := hread.ends.resolve_left hcomplete
        subst hall
        refine ⟨read ++ [line], List.prefix_rfl, fun earlier hprefix hearlier => ?_, .inr rfl⟩
        rcases List.prefix_concat_iff.1 hprefix with heq | hshorter
        · exact heq
        · exact absurd (hread.minimal earlier hshorter hearlier ▸ hearlier) hcomplete

theorem ReadPrefix.unique {lines read other : List Line} (h : ReadPrefix lines read)
    (hother : ReadPrefix lines other) : read = other := by
  have hle : ∀ {p q : List Line}, ReadPrefix lines p → ReadPrefix lines q → p <+: q → p = q := by
    intro p q hp hq hpq
    rcases hp.ends with hcomplete | rfl
    · exact hq.minimal p hpq hcomplete
    · exact hpq.eq_of_length_le hq.isPrefix.length_le
  rcases List.prefix_or_prefix_of_prefix h.isPrefix hother.isPrefix with hprefix | hprefix
  · exact hle h hother hprefix
  · exact (hle hother h hprefix).symm

theorem ReadPrefix.concat_prefix {before rest read : List Line} {line : Line}
    (h : ReadPrefix (before ++ line :: rest) read)
    (hopen : ∀ earlier, earlier <+: before → ¬ Complete earlier) : before ++ [line] <+: read := by
  have hline : before ++ [line] <+: before ++ line :: rest := ⟨rest, by simp⟩
  rcases List.prefix_or_prefix_of_prefix hline h.isPrefix with hprefix | hprefix
  · exact hprefix
  · rcases List.prefix_concat_iff.1 hprefix with heq | hshorter
    · exact heq ▸ List.prefix_rfl
    · rcases h.ends with hcomplete | rfl
      · exact absurd hcomplete (hopen _ hshorter)
      · have hlength := hshorter.length_le
        rw [List.length_append, List.length_cons] at hlength
        omega

inductive Fault (before : List Line) : Line → Malformed → Prop
  | header {fields cause} : HeaderFault fields cause → Fault before (.header fields) cause
  | unannounced {tokens} : headers before = [] → Fault before (.clause tokens) .missingHeader
  | clause {tokens cause} : headers before ≠ [] → ClauseFault tokens cause →
      Fault before (.clause tokens) cause

def Faultless (read : List Line) : Prop :=
  ∀ before line cause, before ++ [line] <+: read → ¬ Fault before line cause

theorem faultless_concat {before : List Line} {line : Line} (h : Faultless before)
    (hline : ∀ cause, ¬ Fault before line cause) : Faultless (before ++ [line]) := by
  intro earlier other cause hprefix hfault
  rcases List.prefix_concat_iff.1 hprefix with heq | hshorter
  · obtain ⟨rfl, hother⟩ := List.append_inj' heq rfl
    cases hother
    exact hline cause hfault
  · exact h earlier other cause hshorter hfault

structure Accepts (read : List Line) (cs : Conjunction Nat) : Prop where
  announced : headers read ≠ []
  preceded : ∀ before tokens, before ++ [.clause tokens] <+: read → headers before ≠ []
  headers : ∀ fields ∈ headers read, ∃ n, Declares fields n
  clauses : List.Forall₂ (fun tokens c => c ≠ [] ∧ Denotes tokens c) (clauseLines read) cs

def Rejects (read : List Line) (cause : Malformed) : Prop :=
  (∃ before line, before ++ [line] <+: read ∧ Faultless before ∧ Fault before line cause) ∨
    (Faultless read ∧ headers read = [] ∧ cause = .missingHeader)

theorem Accepts.unique {read : List Line} {cs ds : Conjunction Nat} (hc : Accepts read cs)
    (hd : Accepts read ds) : cs = ds := by
  have hmaps := (denotes_iff_map_clause.1 hc.clauses).symm.trans
    (denotes_iff_map_clause.1 hd.clauses)
  exact List.map_injective_iff.2 (fun _ _ => Except.ok.inj) hmaps

theorem Accepts.not_rejects {read : List Line} {cs : Conjunction Nat} {cause : Malformed}
    (h : Accepts read cs) : ¬ Rejects read cause := by
  rintro (⟨before, line, hprefix, -, hfault⟩ | ⟨-, hnone, -⟩)
  · have hmem := mem_iff_prefix.2 ⟨before, hprefix⟩
    cases hfault with
    | header hfault =>
        obtain ⟨n, hn⟩ := h.headers _ (mem_headers.2 hmem)
        exact hn.not_fault hfault
    | unannounced hnone => exact h.preceded _ _ hprefix hnone
    | clause _ hfault =>
        have hclause := List.mem_map_of_mem (f := clause) (mem_clauseLines.2 hmem)
        rw [denotes_iff_map_clause.1 h.clauses, clause_of_fault hfault] at hclause
        obtain ⟨c, -, hc⟩ := List.mem_map.1 hclause
        cases hc
  · exact h.announced hnone

theorem Faultless.accepts {read : List Line} {cs : Conjunction Nat} (h : Faultless read)
    (hannounced : headers read ≠ [])
    (hclauses : List.Forall₂ (fun tokens c => c ≠ [] ∧ Denotes tokens c) (clauseLines read) cs) :
    Accepts read cs where
  announced := hannounced
  preceded := fun before tokens hprefix hnone => h _ _ _ hprefix (.unannounced hnone)
  headers := by
    intro fields hfields
    obtain ⟨before, hprefix⟩ := mem_iff_prefix.1 (mem_headers.1 hfields)
    cases hcount : declaredCount fields with
    | error cause => exact absurd (.header (declaredCount_eq_error_iff.1 hcount)) (h _ _ _ hprefix)
    | ok n => exact ⟨n, declaredCount_eq_ok_iff.1 hcount⟩
  clauses := hclauses

structure Reading (before : List Line) (declared : Option Nat) (cs : Conjunction Nat) : Prop where
  faultless : Faultless before
  unfinished : ∀ earlier, earlier <+: before → ¬ Complete earlier
  silent : declared = none → headers before = []
  latest : ∀ n, declared = some n →
    ∃ fields, (headers before).getLast? = some fields ∧ Declares fields n
  clauses : List.Forall₂ (fun tokens c => c ≠ [] ∧ Denotes tokens c) (clauseLines before) cs

theorem reading_nil : Reading [] none [] where
  faultless := fun before line cause hprefix => by simp at hprefix
  unfinished := fun earlier hprefix => List.prefix_nil.1 hprefix ▸ not_complete_nil
  silent := fun _ => rfl
  latest := fun n hn => by cases hn
  clauses := .nil

namespace Reading

variable {before : List Line} {declared : Option Nat} {cs : Conjunction Nat}

theorem unfinished_concat (h : Reading before declared cs) {line : Line}
    (hline : ¬ Complete (before ++ [line])) :
    ∀ earlier, earlier <+: before ++ [line] → ¬ Complete earlier := by
  intro earlier hprefix
  rcases List.prefix_concat_iff.1 hprefix with rfl | hshorter
  · exact hline
  · exact h.unfinished earlier hshorter

theorem headers_ne_nil (h : Reading before declared cs) {n : Nat} (hn : declared = some n) :
    headers before ≠ [] := by
  obtain ⟨fields, hfields, -⟩ := h.latest n hn
  rintro hnil
  simp [hnil] at hfields

theorem skipped (h : Reading before declared cs) : Reading (before ++ [.skipped]) declared cs where
  faultless := faultless_concat h.faultless fun cause hfault => by cases hfault
  unfinished := by
    apply h.unfinished_concat
    rintro ⟨earlier, tokens, -, -, heq, -⟩
    cases (List.append_inj' heq rfl).2
  silent := by simpa using h.silent
  latest := by simpa using h.latest
  clauses := by simpa using h.clauses

theorem header (h : Reading before declared cs) {fields : List String} {n : Nat}
    (hn : Declares fields n) : Reading (before ++ [.header fields]) (some n) cs where
  faultless := by
    refine faultless_concat h.faultless fun cause hfault => ?_
    cases hfault with
    | header hfault => exact hn.not_fault hfault
  unfinished := by
    apply h.unfinished_concat
    rintro ⟨earlier, tokens, -, -, heq, -⟩
    cases (List.append_inj' heq rfl).2
  silent := fun hnone => by cases hnone
  latest := by
    rintro m ⟨⟩
    exact ⟨fields, by simp, hn⟩
  clauses := by simpa using h.clauses

theorem complete_iff (h : Reading before declared cs) {n : Nat} (hn : declared = some n)
    {tokens : List String} :
    Complete (before ++ [.clause tokens]) ↔ n ≤ cs.length + 1 := by
  obtain ⟨fields, hfields, hdeclares⟩ := h.latest n hn
  have hlength : (clauseLines (before ++ [.clause tokens])).length = cs.length + 1 := by
    simp [h.clauses.length_eq]
  constructor
  · rintro ⟨-, -, other, m, -, hlast, hm, hle⟩
    rw [headers_clause, hfields] at hlast
    cases hlast
    rwa [hm.unique hdeclares, hlength] at hle
  · intro hle
    exact ⟨before, tokens, fields, n, rfl, by rwa [headers_clause], hdeclares, hlength ▸ hle⟩

theorem faultless_clause (h : Reading before declared cs) {n : Nat} (hn : declared = some n)
    {tokens : List String} {c : Disjunction Nat} (hc : clause tokens = .ok c) :
    Faultless (before ++ [.clause tokens]) := by
  refine faultless_concat h.faultless fun cause hfault => ?_
  cases hfault with
  | unannounced hnone => exact h.headers_ne_nil hn hnone
  | clause _ hfault =>
      rw [clause_of_fault hfault] at hc
      cases hc

theorem clauses_clause (h : Reading before declared cs) {tokens : List String}
    {c : Disjunction Nat} (hc : clause tokens = .ok c) :
    List.Forall₂ (fun tokens c => c ≠ [] ∧ Denotes tokens c)
      (clauseLines (before ++ [.clause tokens])) (cs ++ [c]) := by
  rw [clauseLines_clause]
  exact List.rel_append h.clauses (.cons (clause_eq_ok_iff.1 hc) .nil)

theorem clause (h : Reading before declared cs) {n : Nat} (hn : declared = some n)
    {tokens : List String} {c : Disjunction Nat} (hc : clause tokens = .ok c)
    (hmore : ¬ n ≤ cs.length + 1) : Reading (before ++ [.clause tokens]) declared (cs ++ [c]) where
  faultless := h.faultless_clause hn hc
  unfinished := h.unfinished_concat (mt (h.complete_iff hn).1 hmore)
  silent := fun hnone => by simp [hn] at hnone
  latest := by simpa using h.latest
  clauses := h.clauses_clause hc

end Reading

def Settles (read : List Line) (cs : Conjunction Nat) :
    Except ParseError (Conjunction Nat) → Prop
  | .ok ds => Accepts read (cs ++ ds)
  | .error (.format cause) => Rejects read cause
  | .error (.read _) => False

theorem Settles.cons {read : List Line} {cs : Conjunction Nat} {c : Disjunction Nat}
    {result : Except ParseError (Conjunction Nat)} (h : Settles read (cs ++ [c]) result) :
    Settles read cs (result.map (c :: ·)) := by
  cases result with
  | error cause => cases cause <;> exact h
  | ok ds => simpa [Settles, Except.map] using h

namespace Reading

variable {before rest read : List Line} {declared : Option Nat} {cs : Conjunction Nat}

theorem settles_nil (h : Reading before declared cs) :
    Settles before cs (Dimacs.clauses declared cs.length []) := by
  cases hdeclared : declared with
  | none => exact .inr ⟨h.faultless, h.silent hdeclared, rfl⟩
  | some n =>
      have haccepts := h.faultless.accepts (h.headers_ne_nil hdeclared) h.clauses
      simpa [Settles, Dimacs.clauses] using haccepts

theorem settles_clause (h : Reading before declared cs) {tokens : List String}
    (hline : before ++ [.clause tokens] <+: read)
    (hstop : Complete (before ++ [.clause tokens]) → before ++ [.clause tokens] = read)
    (hnext : ∀ c, Reading (before ++ [.clause tokens]) declared (cs ++ [c]) →
      Settles read (cs ++ [c]) (Dimacs.clauses declared (cs.length + 1) (rest.map .ok))) :
    Settles read cs (Dimacs.clauses declared cs.length ((.clause tokens :: rest).map .ok)) := by
  have hfault : ∀ cause, Fault before (.clause tokens) cause → Rejects read cause :=
    fun cause hfault => .inl ⟨before, _, hline, h.faultless, hfault⟩
  cases hdeclared : declared with
  | none => exact hfault _ (.unannounced (h.silent hdeclared))
  | some n =>
      have hannounced := h.headers_ne_nil hdeclared
      cases hc : Dimacs.clause tokens with
      | error cause =>
          simp only [List.map_cons, Dimacs.clauses, hc]
          exact hfault _ (.clause hannounced (clause_eq_error_iff.1 hc))
      | ok c =>
          simp only [List.map_cons, Dimacs.clauses, hc]
          split
          · rename_i hcount
            rw [← hstop ((h.complete_iff hdeclared).2 hcount)]
            exact (h.faultless_clause hdeclared hc).accepts (by simpa using hannounced)
              (h.clauses_clause hc)
          · rename_i hcount
            rw [← hdeclared]
            exact (hnext c (h.clause hdeclared hc hcount)).cons

theorem settles (hread : ReadPrefix (before ++ rest) read) (h : Reading before declared cs) :
    Settles read cs (Dimacs.clauses declared cs.length (rest.map .ok)) := by
  induction rest generalizing before declared cs with
  | nil =>
      rw [List.append_nil] at hread
      have hall : read = before := hread.ends.resolve_left (h.unfinished read hread.isPrefix)
      subst hall
      exact h.settles_nil
  | cons line rest ih =>
      have hline := hread.concat_prefix h.unfinished
      rw [List.append_cons] at hread
      -- no line before this one has a fault, so a fault of this one is the one to report
      cases line with
      | skipped => exact ih hread h.skipped
      | header fields =>
          cases hcount : declaredCount fields with
          | error cause =>
              simp only [List.map_cons, Dimacs.clauses, hcount]
              exact .inl ⟨before, _, hline, h.faultless,
                .header (declaredCount_eq_error_iff.1 hcount)⟩
          | ok n =>
              simp only [List.map_cons, Dimacs.clauses, hcount]
              exact ih hread (h.header (declaredCount_eq_ok_iff.1 hcount))
      | clause tokens =>
          refine h.settles_clause hline (hread.minimal _ hline) fun c hc => ?_
          have hlength : (cs ++ [c]).length = cs.length + 1 := List.length_append
          exact hlength ▸ ih hread hc

end Reading

/-- A text is a formula exactly if the lines that are looked at are in order; otherwise the first
of them that is not is reported. -/
theorem parse_ofString_exact (text : String) :
    ∃ read, (∀ lines, ReadPrefix (textLines text) lines ↔ lines = read) ∧
      (∀ f, parse (.ofString text) = .ok f ↔ Accepts read f.clauses) ∧
      ((∃ f, parse (.ofString text) = .ok f) ∨
        ∃ cause, parse (.ofString text) = .error (.format cause) ∧ Rejects read cause) := by
  obtain ⟨read, hread⟩ := exists_readPrefix (textLines text)
  refine ⟨read, fun lines => ⟨fun h => h.unique hread, fun h => h ▸ hread⟩, ?_⟩
  have hsettles := Reading.settles (List.nil_append (textLines text) ▸ hread) reading_nil
  rw [List.length_nil] at hsettles
  rw [parse_ofString]
  cases hresult : clauses none 0 ((textLines text).map .ok) with
  | ok cs =>
      rw [hresult] at hsettles
      refine ⟨fun f => ⟨?_, fun h => ?_⟩, .inl ⟨_, rfl⟩⟩
      · rintro ⟨⟩
        exact hsettles
      · exact congrArg (fun cs => Except.ok (Formula.mk cs)) (hsettles.unique h)
  | error cause =>
      rw [hresult] at hsettles
      cases cause with
      | read cause => exact hsettles.elim
      | format cause =>
          refine ⟨fun f => iff_of_false ?_ fun h => h.not_rejects hsettles,
            .inr ⟨cause, rfl, hsettles⟩⟩
          simp [Except.map]

end AllSat.Dimacs
