import AllSat.Command.Run
import AllSat.Proofs.CompleteAnswers
import AllSat.Proofs.Consumption
import AllSat.Proofs.Decimals
import AllSat.Proofs.ParsedNames

namespace AllSat.Command

open Enumerator (start)
open Text (Sink Source isDigits_repr)

def signed (τ : Nat → Bool) (v : Nat) : String := if τ v then v.repr else "-" ++ v.repr

def assignmentLine (vars : List Nat) (τ : Nat → Bool) : String :=
  "v " ++ " ".intercalate (vars.map (signed τ)) ++ " 0"

def countLine (n : Nat) : String := "c " ++ n.repr ++ " models"

def listing (lines : List String) : Outcome :=
  ⟨if lines = [] then 1 else 0,
    String.join ((lines ++ [countLine lines.length]).map (· ++ "\n")), ""⟩

def shown (m : Model) (v : Nat) : Bool := m.contains v.repr

theorem space_not_mem_signed (τ : Nat → Bool) (v : Nat) : ' ' ∉ (signed τ v).toList := by
  intro h
  unfold signed at h
  split at h
  · cases (isDigits_repr v).digits _ h
  · rw [String.toList_append, List.mem_append] at h
    rcases h with h | h
    · simp at h
    · cases (isDigits_repr v).digits _ h

theorem signed_inj {τ υ : Nat → Bool} {v : Nat} : signed τ v = signed υ v ↔ τ v = υ v := by
  have hne : "-" ++ v.repr ≠ v.repr := by
    intro h
    have hlength := congrArg String.length h
    simp at hlength
  cases hτ : τ v <;> cases hυ : υ v <;> simp [signed, hτ, hυ, hne, hne.symm]

theorem splitOn_signed (τ : Nat → Bool) {vars : List Nat} (h : vars ≠ []) :
    (" ".intercalate (vars.map (signed τ))).toList.splitOn ' ' =
      vars.map fun v => (signed τ v).toList := by
  rw [String.toList_intercalate, List.map_map]
  refine List.splitOn_intercalate ' ' ?_ (mt List.map_eq_nil_iff.1 h)
  intro w hw
  obtain ⟨v, -, rfl⟩ := List.mem_map.1 hw
  exact space_not_mem_signed τ v

theorem assignmentLine_inj {vars : List Nat} {τ υ : Nat → Bool} :
    assignmentLine vars τ = assignmentLine vars υ ↔ ∀ v ∈ vars, τ v = υ v := by
  constructor
  · intro h v hv
    have hwords :
        " ".intercalate (vars.map (signed τ)) = " ".intercalate (vars.map (signed υ)) := by
      simpa [assignmentLine] using h
    have hsplit := congrArg (fun s => s.toList.splitOn ' ') hwords
    simp only [splitOn_signed _ (List.ne_nil_of_mem hv)] at hsplit
    exact signed_inj.1 (String.toList_injective (List.map_inj_left.1 hsplit v hv))
  · intro h
    have hsigned : vars.map (signed τ) = vars.map (signed υ) :=
      List.map_congr_left fun v hv => signed_inj.2 (h v hv)
    rw [assignmentLine, hsigned, assignmentLine]

theorem modelLine_eq (vars : List Nat) (m : Model) :
    "v " ++ modelLine vars m ++ " 0\n" = assignmentLine vars (shown m) ++ "\n" := by
  have hends : " 0\n" = " 0" ++ "\n" := rfl
  rw [hends, ← String.append_assoc]
  rfl

theorem countLine_eq (n : Nat) : "c " ++ n.repr ++ " models\n" = countLine n ++ "\n" := by
  have hends : " models\n" = " models" ++ "\n" := rfl
  rw [hends, ← String.append_assoc]
  rfl

def modelLines (vars : List Nat) (models : List Model) : String :=
  String.join (models.map fun m => "v " ++ modelLine vars m ++ " 0\n")

theorem report_map_ok_append {sink : Sink} (h : sink.Within) (vars : List Nat) (count : Nat)
    (models : List Model) (items : List (Except Error Model)) :
    report vars sink count (models.map .ok ++ items) =
      match sink.put (modelLines vars models) with
      | .error cause => .error (.write cause)
      | .ok sink => report vars sink (count + models.length) items := by
  induction models generalizing sink count with
  | nil =>
      have hput : sink.put (modelLines vars []) = .ok sink := Sink.put_empty h
      rw [hput]
      rfl
  | cons m models ih =>
      have hlines : modelLines vars (m :: models) =
          "v " ++ modelLine vars m ++ " 0\n" ++ modelLines vars models := String.join_cons
      have hcount : count + (m :: models).length = count + 1 + models.length := by
        rw [List.length_cons]
        omega
      rw [List.map_cons, List.cons_append, report, hlines,
        ← Sink.put_append sink _ (modelLines vars models), hcount]
      cases hput : sink.put ("v " ++ modelLine vars m ++ " 0\n") with
      | error cause => rfl
      | ok first => exact ih (Sink.put_eq_ok_iff.1 hput).2 (count + 1)

theorem report_map_ok {sink : Sink} (h : sink.Within) (vars : List Nat) (count : Nat)
    (models : List Model) :
    report vars sink count (models.map .ok) =
      match sink.put (modelLines vars models ++
        ("c " ++ (count + models.length).repr ++ " models\n")) with
      | .error cause => .error (.write cause)
      | .ok sink => .ok (count + models.length, sink) := by
  have happend := report_map_ok_append h vars count models []
  rw [List.append_nil] at happend
  rw [happend, ← Sink.put_append]
  cases sink.put (modelLines vars models) <;> rfl

theorem report_models (vars : List Nat) (models : List Model) :
    report vars .unlimited 0 (models.map .ok) =
      .ok (models.length,
        ⟨none, modelLines vars models ++ ("c " ++ models.length.repr ++ " models\n")⟩) := by
  rw [report_map_ok Sink.within_unlimited, Nat.zero_add, Sink.put_unlimited]

theorem list_map_ok (vars : List Nat) (models : List Model) :
    list vars (models.map .ok) =
      listing (models.map fun m => assignmentLine vars (shown m)) := by
  have htext : modelLines vars models ++ ("c " ++ models.length.repr ++ " models\n") =
      String.join (((models.map fun m => assignmentLine vars (shown m)) ++
        [countLine models.length]).map (· ++ "\n")) := by
    simp [modelLines, modelLine_eq, countLine_eq, Function.comp_def]
  rw [list, report_models, htext]
  cases models with
  | nil => simp [listing]
  | cons m models => simp [listing]

section Models

variable {f : Formula} {g : Cnf} {models : List Model}

theorem mem_lines (hnamed : f.named = .ok g)
    (hmem : ∀ m, m ∈ models ↔
      ∃ τ, g.Holds τ ∧ ∀ name, m.contains name = true ↔ name ∈ g.names ∧ τ name = true)
    {line : String} :
    line ∈ models.map (fun m => assignmentLine f.vars (shown m)) ↔
      ∃ τ, f.Holds τ ∧ line = assignmentLine f.vars τ := by
  have hname : ∀ v ∈ f.vars, v.repr ∈ g.names :=
    fun v hv => (Formula.mem_names_named hnamed).2 ⟨v, hv, rfl⟩
  constructor
  · intro h
    obtain ⟨m, hm, rfl⟩ := List.mem_map.1 h
    obtain ⟨τ, hτ, hcontains⟩ := (hmem m).1 hm
    refine ⟨shown m, ?_, rfl⟩
    refine (Formula.holds_congr fun v hv => ?_).1 ((Formula.holds_named hnamed).1 hτ)
    have hshown := hcontains v.repr
    rw [and_iff_right (hname v hv)] at hshown
    exact (Bool.eq_iff_iff.2 hshown).symm
  · rintro ⟨τ, hτ, rfl⟩
    let ρ : String → Bool := fun name => τ ((Text.digits? name.toList).getD 0)
    have hρ : ∀ v, ρ v.repr = τ v := by
      intro v
      simp only [ρ, Text.digits?_repr, Option.getD_some]
    have hholds : g.Holds ρ :=
      (Formula.holds_named hnamed).2 ((Formula.holds_congr fun v _ => hρ v).2 hτ)
    let m := Model.ofNames (g.names.filter ρ)
    have hm : m ∈ models :=
      (hmem m).2 ⟨ρ, hholds, fun name => by rw [Model.contains_ofNames, List.mem_filter]⟩
    refine List.mem_map.2 ⟨m, hm, assignmentLine_inj.2 fun v hv => Bool.eq_iff_iff.2 ?_⟩
    rw [shown, Model.contains_ofNames, List.mem_filter, hρ, and_iff_right (hname v hv)]

theorem nodup_lines (hnamed : f.named = .ok g)
    (hnames : ∀ m ∈ models, ∀ name, m.contains name = true → name ∈ g.names)
    (hnodup : models.Nodup) :
    (models.map fun m => assignmentLine f.vars (shown m)).Nodup := by
  apply hnodup.map_on
  intro m hm n hn hline
  apply Model.ext
  intro name
  have hshown := assignmentLine_inj.1 hline
  have hsame : name ∈ g.names → m.contains name = n.contains name := by
    intro hname
    obtain ⟨v, hv, rfl⟩ := (Formula.mem_names_named hnamed).1 hname
    exact hshown v hv
  rw [Bool.eq_iff_iff]
  constructor
  · intro h
    exact hsame (hnames m hm name h) ▸ h
  · intro h
    exact (hsame (hnames n hn name h)).symm ▸ h

end Models

variable {σ : Type}

theorem items_of_complete {o : Oracle σ} {memory : σ} {g : Cnf}
    (h : (start o memory g).Answered Exchange.Complete) :
    ∃ models : List Model, models.Nodup ∧
      (∀ m, m ∈ models ↔
        ∃ τ, g.Holds τ ∧ ∀ name, m.contains name = true ↔ name ∈ g.names ∧ τ name = true) ∧
      ∀ limit : Option Nat,
        items o memory g limit = some ((limit.elim models fun n => models.take n).map .ok) := by
  have hsound := h.imp fun _ => Exchange.Complete.sound
  have hfinished := Enumerator.finished_after hsound (Nat.lt_succ_self _)
  have hitems := (Enumerator.trace_start o memory g _).filterMap_item?
    (hsound (2 ^ g.names.length + 1)) fun _ => Cnf.mem_vars_numbered.1
  refine ⟨_, Enumerator.readings_nodup hsound (2 ^ g.names.length + 1),
    fun m => Enumerator.mem_readings_iff h hfinished, fun limit => ?_⟩
  cases limit with
  | none =>
      have hlength := Enumerator.length_answers_le hsound (2 ^ g.names.length + 1)
      simp only [items, Enumerator.callBound_start]
      rw [Enumerator.drain_of_length_answers_lt hsound hfinished (Nat.lt_succ_of_le hlength)]
      rfl
  | some n =>
      rw [items, Enumerator.take_fst_of_finished hfinished n, Enumerator.take_eq, Option.elim_some,
        List.map_take]
      exact congrArg (fun items => some (List.take n items)) hitems

theorem items_cap_of_room {o : Oracle σ} {memory : σ} {g : Cnf}
    {found : List (Except Error Model)} (h : items o memory g none = some found)
    (hroom : ((start o memory g).take (Word.size - 1)).2.working.clauses.length < Word.half) :
    items o memory g (some (Word.size - 1)) = some found := by
  have hlt : ((start o memory g).take (Word.size - 1)).2.working.clauses.length + 1 <
      Word.size - 1 := by
    have hsize := Word.size_eq
    have hhalf := Word.half_eq
    omega
  have hcapped := Enumerator.drains_take (Enumerator.finished_of_room hlt)
  obtain ⟨⟨_, e⟩, hdrained, rfl⟩ := Option.map_eq_some_iff.1 h
  have hwhole := Enumerator.drains_iff.2 ⟨_, hdrained⟩
  exact congrArg some (hcapped.items_unique hwhole)

theorem runWith_of_items {o : Oracle σ} {memory : σ} {input : Source} {f : Formula} {g : Cnf}
    {limit : Option Nat} {models : List Model} (hparse : Dimacs.parse input = .ok f)
    (hnamed : f.named = .ok g) (hitems : items o memory g limit = some (models.map .ok))
    (path : Option String) :
    runWith o memory (.perform ⟨path, limit, false⟩) input =
      some (listing (models.map fun m => assignmentLine f.vars (shown m))) := by
  simp [runWith, perform, hparse, hnamed, hitems, list_map_ok]

theorem ofArgs_maxModels {M : Nat} (h : M < Word.size) :
    Request.ofArgs ["--max-models", M.repr] = .perform ⟨none, some M, false⟩ := by
  obtain ⟨c, cs, hrepr⟩ := List.exists_cons_of_ne_nil (isDigits_repr M).nonempty
  have hdigit : c.isDigit = true := (isDigits_repr M).digits c (hrepr ▸ List.mem_cons_self)
  have hdigits : Text.digits? (c :: cs) = some M := hrepr ▸ Text.digits?_repr M
  have hminus : c ≠ '-' := fun hc => by cases hc ▸ hdigit
  have hplus : c ≠ '+' := fun hc => by cases hc ▸ hdigit
  have hvalue : Text.unsigned? M.repr = some M := by
    simp [Text.unsigned?, hrepr, hplus, hdigits, h]
  have hoption : Arguments.none.step "--max-models" =
      .ok { Arguments.none with limitCount := 1, awaiting := true } := rfl
  have hlimit : Arguments.step { Arguments.none with limitCount := 1, awaiting := true } M.repr =
      .ok { Arguments.none with limitCount := 1, limits := [M.repr] } := by
    simp [Arguments.step, Arguments.none, hrepr, hminus]
  simp only [Request.ofArgs, List.foldlM_cons, List.foldlM_nil, hoption, hlimit, bind,
    Except.bind, pure, Except.pure]
  simp [Arguments.request, Arguments.none, hvalue]

/-- With complete answers, the satisfying assignments of the variables that occur are printed, each
once, or the first of them if there is a limit. To set none is to set the largest word: no memory
holds the clauses that so many answers add. -/
theorem runWith_lists_assignments (o : Oracle σ) (memory : σ) (input : Source) (f : Formula)
    (hparse : Dimacs.parse input = .ok f) :
    (∀ M < Word.size, Request.ofArgs ["--max-models", M.repr] = .perform ⟨none, some M, false⟩) ∧
    f.vars.Pairwise (· < ·) ∧
    (∀ v, v ∈ f.vars ↔ ∃ c ∈ f.clauses, ∃ l ∈ c, l.atom = v) ∧
    (∀ τ υ, assignmentLine f.vars τ = assignmentLine f.vars υ ↔ ∀ v ∈ f.vars, τ v = υ v) ∧
    ∃ g, f.named = .ok g ∧
      ((start o memory g).Answered Exchange.Complete →
        ∃ lines : List String, lines.Nodup ∧
          (∀ line, line ∈ lines ↔ ∃ τ, f.Holds τ ∧ line = assignmentLine f.vars τ) ∧
          (∀ path limit, runWith o memory (.perform ⟨path, limit, false⟩) input =
            some (listing (limit.elim lines fun M => lines.take M))) ∧
          (((start o memory g).take (Word.size - 1)).2.working.clauses.length < Word.half →
            ∀ path, runWith o memory (.perform ⟨path, none, false⟩) input =
              runWith o memory (.perform ⟨path, some (Word.size - 1), false⟩) input)) := by
  obtain ⟨g, hnamed⟩ := Formula.named_of_ne_nil (Dimacs.ne_nil_of_parse hparse)
  refine ⟨fun M hM => ofArgs_maxModels hM, f.pairwise_vars, fun v => Formula.mem_vars,
    fun τ υ => assignmentLine_inj, g, hnamed, fun hcomplete => ?_⟩
  obtain ⟨models, hnodup, hmem, hitems⟩ := items_of_complete hcomplete
  have hnames : ∀ m ∈ models, ∀ name, m.contains name = true → name ∈ g.names := by
    intro m hm name hname
    obtain ⟨τ, -, hcontains⟩ := (hmem m).1 hm
    exact ((hcontains name).1 hname).1
  refine ⟨models.map fun m => assignmentLine f.vars (shown m), nodup_lines hnamed hnames hnodup,
    fun line => mem_lines hnamed hmem, fun path limit => ?_, fun hroom path => ?_⟩
  · rw [runWith_of_items hparse hnamed (hitems limit) path]
    cases limit with
    | none => rfl
    | some M => rw [Option.elim_some, Option.elim_some, List.map_take]
  · have hcapped := items_cap_of_room (hitems none) hroom
    rw [runWith_of_items hparse hnamed (hitems none), runWith_of_items hparse hnamed hcapped]

def twoClauses : Source :=
  ⟨[112, 32, 99, 110, 102, 32, 51, 32, 50, 10, 49, 32, 45, 51, 32, 48, 10, 51, 32, 48], none⟩

theorem two_clauses_listed :
    Dimacs.parse twoClauses = .ok ⟨[[.pos 1, .neg 3], [.pos 3]]⟩ ∧
      ∃ lines : List String, lines.Nodup ∧
        runWith Learning.oracle () (.perform ⟨none, none, false⟩) twoClauses =
          some (listing lines) ∧
        runWith Learning.oracle () (.perform ⟨none, some 1, false⟩) twoClauses =
          some (listing (lines.take 1)) := by
  have hparse : Dimacs.parse twoClauses = .ok ⟨[[.pos 1, .neg 3], [.pos 3]]⟩ := rfl
  obtain ⟨-, -, -, -, g, -, hcomplete⟩ :=
    runWith_lists_assignments Learning.oracle () twoClauses _ hparse
  obtain ⟨lines, hnodup, -, hrun, -⟩ :=
    hcomplete (Enumerator.answered_of_always Learning.always_complete)
  exact ⟨hparse, lines, hnodup, hrun none none, hrun none (some 1)⟩

theorem runWith_learning (request : Request) (input : Source) :
    runWith Learning.oracle () request input = some (run request input) := by
  have hsome : ∃ outcome, runWith Learning.oracle () request input = some outcome := by
    cases request with
    | help => exact ⟨_, rfl⟩
    | version => exact ⟨_, rfl⟩
    | refuse cause => exact ⟨_, rfl⟩
    | perform job =>
        cases hparse : Dimacs.parse input with
        | error cause =>
            simp only [runWith, perform, hparse]
            exact ⟨_, rfl⟩
        | ok f =>
            obtain ⟨g, hnamed⟩ := Formula.named_of_ne_nil (Dimacs.ne_nil_of_parse hparse)
            have hcomplete : (start Learning.oracle () g).Answered Exchange.Complete :=
              Enumerator.answered_of_always Learning.always_complete
            obtain ⟨models, -, -, hitems⟩ := items_of_complete hcomplete
            simp only [runWith, perform, hparse, hnamed, hitems]
            split
            · exact ⟨_, rfl⟩
            · exact ⟨_, rfl⟩
  obtain ⟨outcome, houtcome⟩ := hsome
  simp only [run, houtcome, Option.getD_some]

end AllSat.Command
