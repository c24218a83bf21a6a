import AllSat.Proofs.Listing

namespace AllSat.Command

open Text (Sink)

def writtenText : Except ReportError (Nat × Sink) → String
  | .ok (_, sink) => sink.written
  | .error (.solver _ written) => written
  | .error (.write _) => ""

theorem map_ok_or_first_error (items : List (Except Error Model)) :
    (∃ models : List Model, items = models.map .ok) ∨
      ∃ (models : List Model) (cause : Error) (rest : List (Except Error Model)),
        items = models.map .ok ++ .error cause :: rest := by
  induction items with
  | nil => exact .inl ⟨[], rfl⟩
  | cons item items ih =>
      cases item with
      | error cause => exact .inr ⟨[], cause, items, rfl⟩
      | ok m =>
          rcases ih with ⟨models, rfl⟩ | ⟨models, cause, rest, rfl⟩
          · exact .inl ⟨m :: models, rfl⟩
          · exact .inr ⟨m :: models, cause, rest, rfl⟩

theorem report_map_ok_error {sink : Sink} (h : sink.Within) (vars : List Nat) (count : Nat)
    (models : List Model) (cause : Error) (rest : List (Except Error Model)) :
    report vars sink count (models.map .ok ++ .error cause :: rest) =
      match sink.put (modelLines vars models) with
      | .error cause => .error (.write cause)
      | .ok sink => .error (.solver cause sink.written) :=
  report_map_ok_append h vars count models (.error cause :: rest)

theorem report_models_error (vars : List Nat) (models : List Model) (cause : Error)
    (rest : List (Except Error Model)) :
    report vars .unlimited 0 (models.map .ok ++ .error cause :: rest) =
      .error (.solver cause (modelLines vars models)) := by
  rw [report_map_ok_error Sink.within_unlimited, Sink.put_unlimited]

theorem report_limited (vars : List Nat) (limit : Nat) (items : List (Except Error Model)) :
    report vars (.limited (some limit)) 0 items =
      if limit < (writtenText (report vars .unlimited 0 items)).utf8ByteSize then
        .error (.write .limitReached)
      else (report vars .unlimited 0 items).map fun r => (r.1, ⟨some limit, r.2.written⟩) := by
  have hwithin := Sink.within_limited (some limit)
  rcases map_ok_or_first_error items with ⟨models, rfl⟩ | ⟨models, cause, rest, rfl⟩
  · rw [report_map_ok hwithin, report_models, Nat.zero_add, Sink.put_limited, writtenText]
    generalize modelLines vars models ++ ("c " ++ models.length.repr ++ " models\n") = text
    by_cases h : limit < text.utf8ByteSize <;> simp [h, Except.map]
  · rw [report_map_ok_error hwithin, report_models_error, Sink.put_limited, writtenText]
    by_cases h : limit < (modelLines vars models).utf8ByteSize <;> simp [h, Except.map]

theorem report_limited_eq_write_iff {vars : List Nat} {limit : Nat}
    {items : List (Except Error Model)} :
    report vars (.limited (some limit)) 0 items = .error (.write .limitReached) ↔
      limit < (writtenText (report vars .unlimited 0 items)).utf8ByteSize := by
  rw [report_limited]
  split
  · rename_i hlong
    exact iff_of_true rfl hlong
  · rename_i hfits
    refine iff_of_false (fun hwrite => ?_) hfits
    rw [map_eq_error_iff] at hwrite
    rcases map_ok_or_first_error items with ⟨models, rfl⟩ | ⟨models, cause, rest, rfl⟩
    · rw [report_models] at hwrite
      cases hwrite
    · rw [report_models_error] at hwrite
      cases hwrite

theorem modelLine_inj {vars : List Nat} {m n : Model} :
    modelLine vars m = modelLine vars n ↔ ∀ v ∈ vars, m.contains v.repr = n.contains v.repr := by
  have hline : modelLine vars m = modelLine vars n ↔
      assignmentLine vars (shown m) = assignmentLine vars (shown n) := by
    simp only [assignmentLine, String.append_left_inj, String.append_right_inj]
    rfl
  exact hline.trans assignmentLine_inj

/-- Models alone are printed one a line, with their count at the end; the first item that failed
ends the report, after the lines of the models before it. An output with a limit fails if and only
if the whole text is longer, and makes no other difference. -/
theorem report_first_failure (vars : List Nat) :
    (∀ models : List Model, report vars .unlimited 0 (models.map .ok) =
      .ok (models.length,
        ⟨none, modelLines vars models ++ ("c " ++ models.length.repr ++ " models\n")⟩)) ∧
    (∀ (models : List Model) cause rest,
      report vars .unlimited 0 (models.map .ok ++ .error cause :: rest) =
        .error (.solver cause (modelLines vars models)) ∧
      (ReportError.solver cause (modelLines vars models)).message =
        "solver error: " ++ cause.message) ∧
    (∀ items : List (Except Error Model), (∃ models : List Model, items = models.map .ok) ∨
      ∃ (models : List Model) (cause : Error) (rest : List (Except Error Model)),
        items = models.map .ok ++ .error cause :: rest) ∧
    (∀ limit items,
      (report vars (.limited (some limit)) 0 items = .error (.write .limitReached) ↔
        limit < (writtenText (report vars .unlimited 0 items)).utf8ByteSize) ∧
      report vars (.limited (some limit)) 0 items =
        if limit < (writtenText (report vars .unlimited 0 items)).utf8ByteSize then
          .error (.write .limitReached)
        else (report vars .unlimited 0 items).map fun r => (r.1, ⟨some limit, r.2.written⟩)) ∧
    ∀ m n : Model, modelLine vars m = modelLine vars n ↔
      ∀ v ∈ vars, m.contains v.repr = n.contains v.repr :=
  ⟨report_models vars, fun models cause rest => ⟨report_models_error vars models cause rest, rfl⟩,
    map_ok_or_first_error,
    fun limit items => ⟨report_limited_eq_write_iff, report_limited vars limit items⟩,
    fun _ _ => modelLine_inj⟩

example :
    report [1] (.limited (some 5)) 0 [.ok (.ofNames ["1"]), .error .emptyDnf] =
      .error (.write .limitReached) ∧
    report [1] (.limited (some 6)) 0 [.ok (.ofNames ["1"]), .error .emptyDnf] =
      .error (.solver .emptyDnf "v 1 0\n") :=
  ⟨rfl, rfl⟩

end AllSat.Command
