import AllSat.Proofs.Acceptance
import Mathlib.Data.List.Induction

namespace AllSat.Text

variable {α : Type}

theorem modifyHead_prefix {xs ys : List α} (h : xs <+: ys) (k : α → α) :
    xs.modifyHead k <+: ys.modifyHead k := by
  obtain ⟨more, rfl⟩ := h
  cases xs with
  | nil => exact List.nil_prefix
  | cons x xs => exact ⟨more, rfl⟩

theorem dropLast_modifyHead (xs : List α) (k : α → α) :
    (xs.modifyHead k).dropLast = xs.dropLast.modifyHead k := by
  rcases xs with - | ⟨x, - | ⟨y, xs⟩⟩ <;> rfl

theorem dropLast_splitOn_prefix [DecidableEq α] (a : α) (xs ys : List α) :
    (xs.splitOn a).dropLast <+: ((xs ++ ys).splitOn a).dropLast := by
  induction xs with
  | nil => exact List.nil_prefix
  | cons x xs ih =>
      rw [List.cons_append, List.splitOn_cons_eq_if_modifyHead, List.splitOn_cons_eq_if_modifyHead]
      split
      · rw [List.dropLast_cons_of_ne_nil (List.splitOn_ne_nil _ _),
          List.dropLast_cons_of_ne_nil (List.splitOn_ne_nil _ _)]
        exact List.cons_prefix_cons.2 ⟨rfl, ih⟩
      · rw [dropLast_modifyHead, dropLast_modifyHead]
        exact modifyHead_prefix ih _

end AllSat.Text

namespace AllSat.Dimacs

open Text (ReadError Source words)

inductive Standing where
  | reading (declared : Option Nat) (cs : Conjunction Nat)
  | settled (result : Except ParseError (Conjunction Nat))

namespace Standing

def meet : Standing → Except ReadError Line → Standing
  | settled result, _ => settled result
  | reading _ _, .error cause => settled (.error (.read cause))
  | reading declared cs, .ok .skipped => reading declared cs
  | reading _ cs, .ok (.header fields) =>
    match declaredCount fields with
    | .error cause => settled (.error (.format cause))
    | .ok n => reading (some n) cs
  | reading none _, .ok (.clause _) => settled (.error (.format .missingHeader))
  | reading (some n) cs, .ok (.clause tokens) =>
    match clause tokens with
    | .error cause => settled (.error (.format cause))
    | .ok c =>
      if n ≤ cs.length + 1 then settled (.ok (cs ++ [c])) else reading (some n) (cs ++ [c])

def result : Standing → Except ParseError (Conjunction Nat)
  | reading declared cs => if declared.isNone then .error (.format .missingHeader) else .ok cs
  | settled result => result

theorem foldl_meet_settled (result : Except ParseError (Conjunction Nat))
    (lines : List (Except ReadError Line)) :
    lines.foldl meet (settled result) = settled result := by
  induction lines with
  | nil => rfl
  | cons line lines ih => exact ih

theorem result_foldl_meet (declared : Option Nat) (cs : Conjunction Nat)
    (lines : List (Except ReadError Line)) :
    (lines.foldl meet (reading declared cs)).result =
      (clauses declared cs.length lines).map (cs ++ ·) := by
  induction lines generalizing declared cs with
  | nil => cases declared <;> simp [result, clauses, Except.map]
  | cons line lines ih =>
      rw [List.foldl_cons]
      cases line with
      | error cause => exact congrArg result (foldl_meet_settled _ lines)
      | ok line =>
          cases line with
          | skipped => exact ih declared cs
          | header fields =>
              cases hn : declaredCount fields with
              | error cause =>
                  simp only [meet, clauses, hn]
                  exact congrArg result (foldl_meet_settled _ lines)
              | ok n =>
                  simp only [meet, clauses, hn]
                  exact ih (some n) cs
          | clause tokens =>
              cases declared with
              | none => exact congrArg result (foldl_meet_settled _ lines)
              | some n =>
                  cases hc : clause tokens with
                  | error cause =>
                      simp only [meet, clauses, hc]
                      exact congrArg result (foldl_meet_settled _ lines)
                  | ok c =>
                      simp only [meet, clauses, hc]
                      split
                      · exact congrArg result (foldl_meet_settled _ lines)
                      · rw [ih, List.length_append, List.length_singleton]
                        cases clauses (some n) (cs.length + 1) lines <;> simp [Except.map]

end Standing

def standing (lines : List (Except ReadError Line)) : Standing :=
  lines.foldl Standing.meet (.reading none [])

theorem parseLines_eq (lines : List (Except ReadError Line)) :
    parseLines lines = (standing lines).result.map Formula.mk := by
  rw [standing, Standing.result_foldl_meet, parseLines]
  cases clauses none 0 lines <;> simp [Except.map]

theorem standing_concat (lines : List (Except ReadError Line)) (line : Except ReadError Line) :
    standing (lines ++ [line]) = (standing lines).meet line :=
  List.foldl_concat ..

theorem standing_append_of_settled {lines : List (Except ReadError Line)}
    {result : Except ParseError (Conjunction Nat)} (h : standing lines = .settled result)
    (more : List (Except ReadError Line)) : standing (lines ++ more) = .settled result := by
  rw [standing, List.foldl_append]
  exact (congrArg (more.foldl Standing.meet) h).trans (Standing.foldl_meet_settled result more)

structure ReadTo (lines : List (Except ReadError Line)) (read : List Line) : Prop where
  isPrefix : read.map .ok <+: lines
  complete : Complete read
  minimal : ∀ earlier, earlier <+: read → Complete earlier → earlier = read

theorem Reading.readTo {before : List Line} {declared : Option Nat} {cs : Conjunction Nat}
    (h : Reading before declared cs) {line : Line} (hline : Complete (before ++ [line])) :
    ReadTo (before.map .ok ++ [.ok line]) (before ++ [line]) where
  isPrefix := by simp
  complete := hline
  minimal := by
    intro earlier hprefix hearlier
    rcases List.prefix_concat_iff.1 hprefix with heq | hshorter
    · exact heq
    · exact absurd hearlier (h.unfinished earlier hshorter)

def Standing.Sound (lines : List (Except ReadError Line)) : Standing → Prop
  | reading declared cs => ∃ before, lines = before.map .ok ∧ Reading before declared cs
  | settled (.ok cs) => ∃ read, ReadTo lines read ∧ Accepts read cs
  | settled (.error _) => True

namespace Standing.Sound

variable {lines : List (Except ReadError Line)}

theorem concat_settled {result : Except ParseError (Conjunction Nat)}
    (h : Sound lines (.settled result)) (line : Except ReadError Line) :
    Sound (lines ++ [line]) (.settled result) := by
  cases result with
  | error cause => trivial
  | ok cs =>
      obtain ⟨read, hread, haccepts⟩ := h
      exact ⟨read, ⟨hread.isPrefix.trans (List.prefix_append ..), hread.complete, hread.minimal⟩,
        haccepts⟩

theorem concat_clause {before : List Line} {declared : Option Nat} {cs : Conjunction Nat}
    (h : Reading before declared cs) (tokens : List String) :
    Sound (before.map .ok ++ [.ok (.clause tokens)])
      ((reading declared cs).meet (.ok (.clause tokens))) := by
  cases hdeclared : declared with
  | none => trivial
  | some n =>
      cases hc : clause tokens with
      | error cause =>
          simp only [meet, hc]
          trivial
      | ok c =>
          simp only [meet, hc]
          split
          · rename_i hcount
            have hannounced := h.headers_ne_nil hdeclared
            refine ⟨_, h.readTo ((h.complete_iff hdeclared).2 hcount), ?_⟩
            exact (h.faultless_clause hdeclared hc).accepts (by simpa using hannounced)
              (h.clauses_clause hc)
          · rename_i hcount
            exact ⟨_, by simp, hdeclared ▸ h.clause hdeclared hc hcount⟩

theorem meet {s : Standing} (h : Sound lines s) (line : Except ReadError Line) :
    Sound (lines ++ [line]) (s.meet line) := by
  cases s with
  | settled result => exact h.concat_settled line
  | reading declared cs =>
      obtain ⟨before, rfl, hreading⟩ := h
      cases line with
      | error cause => trivial
      | ok line =>
          cases line with
          | skipped => exact ⟨_, by simp, hreading.skipped⟩
          | header fields =>
              cases hn : declaredCount fields with
              | error cause =>
                  simp only [Standing.meet, hn]
                  trivial
              | ok n =>
                  simp only [Standing.meet, hn]
                  exact ⟨_, by simp, hreading.header (declaredCount_eq_ok_iff.1 hn)⟩
          | clause tokens => exact concat_clause hreading tokens

end Standing.Sound

theorem sound_standing (lines : List (Except ReadError Line)) : (standing lines).Sound lines := by
  induction lines using List.reverseRecOn with
  | nil => exact ⟨[], rfl, reading_nil⟩
  | append_singleton lines line ih =>
      rw [standing_concat]
      exact ih.meet line

theorem exists_settled_of_complete {lines : List (Except ReadError Line)} {read : List Line}
    (hlines : read.map .ok <+: lines) (hcomplete : Complete read) :
    ∃ result, standing lines = .settled result := by
  have hsound := sound_standing lines
  cases hstanding : standing lines with
  | settled result => exact ⟨result, rfl⟩
  | reading declared cs =>
      rw [hstanding] at hsound
      obtain ⟨before, rfl, hreading⟩ := hsound
      have hinjective : Function.Injective (Except.ok : Line → Except ReadError Line) :=
        fun _ _ => Except.ok.inj
      have hread : read <+: before := (List.prefix_map_iff_of_injective hinjective).1 hlines
      exact absurd hcomplete (hreading.unfinished read hread)

def toLine (line : Except ReadError String) : Except ReadError Line :=
  line.map fun text => Line.ofTokens (words text)

def endedLines (bytes : List UInt8) : List (Except ReadError Line) :=
  ((bytes.splitOn Source.newline).dropLast.map Source.decodeLine).map toLine

def lastLine (bytes : List UInt8) : List (Except ReadError Line) :=
  let last := (bytes.splitOn Source.newline).getLastD []
  if last = [] then [] else [toLine (Source.decodeLine last)]

theorem endedLines_prefix (bytes more : List UInt8) :
    endedLines bytes <+: endedLines (bytes ++ more) :=
  ((Text.dropLast_splitOn_prefix Source.newline bytes more).map _).map _

theorem parse_failing (bytes : List UInt8) (reason : String) :
    parse ⟨bytes, some reason⟩ =
      (standing (endedLines bytes ++ [.error (.failed reason)])).result.map Formula.mk := by
  rw [← parseLines_eq, parse, Source.lines, List.map_append]
  rfl

theorem parse_ending (bytes : List UInt8) :
    parse ⟨bytes, none⟩ =
      (standing (endedLines bytes ++ lastLine bytes)).result.map Formula.mk := by
  rw [← parseLines_eq, parse, Source.lines, endedLines, lastLine]
  obtain ⟨front, last, hpieces⟩ :=
    (List.eq_nil_or_concat _).resolve_left (List.splitOn_ne_nil Source.newline bytes)
  rw [List.concat_eq_append] at hpieces
  simp only [hpieces, List.getLastD_concat, List.dropLast_concat]
  split
  · rw [List.append_nil]
    rfl
  · rw [List.map_append, List.map_append]
    rfl

theorem parse_of_settled {bytes : List UInt8} {result : Except ParseError (Conjunction Nat)}
    (h : standing (endedLines bytes) = .settled result) (more : List UInt8)
    (failure : Option String) : parse ⟨bytes ++ more, failure⟩ = result.map Formula.mk := by
  obtain ⟨later, hlater⟩ := endedLines_prefix bytes more
  cases failure with
  | none =>
      rw [parse_ending, ← hlater, List.append_assoc, standing_append_of_settled h]
      rfl
  | some reason =>
      rw [parse_failing, ← hlater, List.append_assoc, standing_append_of_settled h]
      rfl

theorem ReadTo.length_le {lines : List (Except ReadError Line)} {read : List Line}
    {cs : Conjunction Nat} (h : ReadTo lines read) (hcs : Accepts read cs) :
    ∃ fields n, (headers read).getLast? = some fields ∧ Declares fields n ∧ n ≤ cs.length ∧
      1 ≤ cs.length := by
  have hlength := hcs.clauses.length_eq
  obtain ⟨before, tokens, fields, n, hread, hfields, hn, hle⟩ := h.complete
  refine ⟨fields, n, hfields, hn, hlength ▸ hle, ?_⟩
  rw [← hlength, hread, clauseLines_clause, List.length_append]
  exact Nat.le_add_left _ _

/-- A reader that fails after some bytes gives what the bytes alone give, or its failure. It gives a
formula only if the declared clauses were read before the last newline, and then nothing that
follows the bytes matters. -/
theorem parse_cut (bytes : List UInt8) (reason : String) :
    (parse ⟨bytes, some reason⟩ = parse ⟨bytes, none⟩ ∨
      parse ⟨bytes, some reason⟩ = .error (.read (.failed reason))) ∧
    (∀ f, parse ⟨bytes, some reason⟩ = .ok f → ∃ read, ReadTo (endedLines bytes) read ∧
      ∃ fields n, (headers read).getLast? = some fields ∧ Declares fields n ∧
        n ≤ f.clauses.length ∧ 1 ≤ f.clauses.length) ∧
    ∀ read f, read.map .ok <+: endedLines bytes → Complete read → parse ⟨bytes, none⟩ = .ok f →
      ∀ more, parse ⟨bytes ++ more, none⟩ = .ok f ∧ parse ⟨bytes ++ more, some reason⟩ = .ok f := by
  have hsound := sound_standing (endedLines bytes)
  cases hstanding : standing (endedLines bytes) with
  | reading declared cs =>
      have hcut : parse ⟨bytes, some reason⟩ = .error (.read (.failed reason)) := by
        rw [parse_failing, standing_concat, hstanding]
        rfl
      refine ⟨.inr hcut, fun f hf => ?_, fun read f hread hcomplete _ => ?_⟩
      · cases hcut.symm.trans hf
      · obtain ⟨result, hresult⟩ := exists_settled_of_complete hread hcomplete
        cases hstanding.symm.trans hresult
  | settled result =>
      have hparse := parse_of_settled hstanding
      have hwhole := hparse [] none
      have hcut := hparse [] (some reason)
      rw [List.append_nil] at hwhole hcut
      refine ⟨.inl (hcut.trans hwhole.symm), fun f hf => ?_, fun _ f _ _ hf more => ?_⟩
      · obtain ⟨cs, rfl, rfl⟩ := exists_of_map_eq_ok (hcut.symm.trans hf)
        rw [hstanding] at hsound
        obtain ⟨read, hread, haccepts⟩ := hsound
        exact ⟨read, hread, hread.length_le haccepts⟩
      · have hresult := hwhole.symm.trans hf
        exact ⟨(hparse more none).trans hresult, (hparse more (some reason)).trans hresult⟩

example : parse { Source.ofString "p cnf 2 1\n1 -2 0\nx" with failure := some "broken reader" } =
    .ok ⟨[[.pos 1, .neg 2]]⟩ := by decide +kernel

example : parse { Source.ofString "p cnf 2 1\n1 -2 0" with failure := some "broken reader" } =
    .error (.read (.failed "broken reader")) := by decide +kernel

end AllSat.Dimacs
