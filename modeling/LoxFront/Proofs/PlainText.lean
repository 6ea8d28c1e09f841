import LoxFront.Proofs.TerminalRuns

namespace LoxFront
open Text

/-- What a step is to show: each diagnostic as it is rendered, on lines of its own, and one line about
the number of errors, if there were any. -/
def EmitterStep.plainText : EmitterStep → String
  | .emit d => d.render ++ "\n"
  | .emitAll ds => String.join (ds.map fun d => d.render ++ "\n")
  | .summary 0 => ""
  | .summary 1 => "error: aborting due to previous error\n"
  | .summary errors => "error: aborting due to " ++ toString errors ++ " previous errors\n"
  | .flush => ""

namespace Terminal

theorem noteLine_plain (note : String) : noteLine false note = "  = note: " ++ note ++ "\n" := by
  have hlabel : "  = " ++ paint false .bold "note" ++ ": " = "  = note: " := by decide
  rw [noteLine, hlabel]

theorem newline_append_join (notes : List String) :
    "\n" ++ String.join (notes.map (noteLine false)) =
      String.join (notes.map fun note => "\n  = note: " ++ note) ++ "\n" := by
  induction notes with
  | nil => rfl
  | cons note notes ih =>
    have hmark : "\n" ++ "  = note: " = "\n  = note: " := by decide
    calc
      "\n" ++ String.join ((note :: notes).map (noteLine false))
          = "\n" ++ "  = note: " ++ note ++ ("\n" ++ String.join (notes.map (noteLine false))) := by
        rw [List.map_cons, String.join_cons, noteLine_plain]
        simp only [String.append_assoc]
      _ = "\n  = note: " ++ note ++
          (String.join (notes.map fun note => "\n  = note: " ++ note) ++ "\n") := by
        rw [hmark, ih]
      _ = String.join ((note :: notes).map fun note => "\n  = note: " ++ note) ++ "\n" := by
        rw [List.map_cons, String.join_cons, ← String.append_assoc]

theorem heading_plain (d : Diagnostic) :
    heading false d = ({ d with notes := [] } : Diagnostic).render ++ "\n" := by
  have hopen (rest : String) : "error" ++ ("[" ++ rest) = "error[" ++ rest := by
    have hmark : "error" ++ "[" = "error[" := by decide
    rw [← String.append_assoc, hmark]
  have hclose (rest : String) : "]" ++ (": " ++ rest) = "]: " ++ rest := by
    have hmark : "]" ++ ": " = "]: " := by decide
    rw [← String.append_assoc, hmark]
  unfold heading Diagnostic.render
  cases d.line <;>
    simp only [paint, Bool.false_eq_true, if_false, List.map_nil, String.join_nil,
      String.append_empty, String.append_assoc, hopen, hclose]

theorem render_eq_append_notes (d : Diagnostic) :
    d.render = ({ d with notes := [] } : Diagnostic).render ++
      String.join (d.notes.map fun note => "\n  = note: " ++ note) := by
  unfold Diagnostic.render
  rw [List.map_nil, String.join_nil, String.append_empty]

/-- Both ways to show a diagnostic agree. -/
theorem join_lines_plain (d : Diagnostic) :
    String.join (lines false d) = d.render ++ "\n" := by
  rw [lines, String.join_cons, heading_plain, render_eq_append_notes d, String.append_assoc,
    String.append_assoc, newline_append_join]

theorem stepText_summary_plain (errors : Nat) :
    stepText false (.summary errors) = (EmitterStep.summary errors).plainText := by
  match errors with
  | 0 => rfl
  | 1 => decide
  | n + 2 =>
    have hlines : summaryLines false (n + 2) = ["error" ++ ": " ++ closing (n + 2) ++ "\n"] :=
      if_neg (by omega)
    have hclosing : closing (n + 2) =
        "aborting due to " ++ toString (n + 2) ++ " previous errors" := if_neg (by omega)
    have hmark : "error" ++ ": " ++ "aborting due to " = "error: aborting due to " := by decide
    have hend : " previous errors" ++ "\n" = " previous errors\n" := by decide
    calc
      stepText false (.summary (n + 2)) = "error" ++ ": " ++ closing (n + 2) ++ "\n" := by
        rw [stepText, hlines, String.join_cons, String.join_nil, String.append_empty]
      _ = "error" ++ ": " ++ "aborting due to " ++ toString (n + 2) ++
          (" previous errors" ++ "\n") := by
        rw [hclosing]
        simp only [String.append_assoc]
      _ = (EmitterStep.summary (n + 2)).plainText := by
        rw [hmark, hend]
        rfl

theorem stepText_plain (step : EmitterStep) : stepText false step = step.plainText := by
  cases step with
  | emit d => exact join_lines_plain d
  | emitAll ds =>
    simp only [stepText, EmitterStep.plainText, join_lines_plain]
  | summary errors => exact stepText_summary_plain errors
  | flush => rfl

end Terminal

/-- Without styles a sink holds the diagnostics of a run as they are rendered, each with a newline
behind it, and one line for each number of errors that is not zero. -/
theorem plain_run_eq_render (steps : List EmitterStep) :
    ((Terminal.emitter false).performAll .unlimited steps).stored.toList =
      bytes (String.join (steps.map EmitterStep.plainText)) := by
  have htext : Terminal.stepText false = EmitterStep.plainText :=
    funext Terminal.stepText_plain
  rw [Terminal.stored_performAll_unlimited, Terminal.runText, htext]

/-- A diagnostic without a line and one with notes, a run without errors and one with some. -/
example : Text.ofBytes ((Terminal.emitter false).performAll .unlimited
    [.emit ⟨.e0001, "a", none, []⟩, .emitAll [⟨.e0002, "b", some 7, ["c", "d"]⟩], .summary 0,
      .summary 2, .flush]).stored.toList =
    "error[E0001]: a\n[line 7] error[E0002]: b\n  = note: c\n  = note: d\n" ++
      "error: aborting due to 2 previous errors\n" := by
  decide +kernel

end LoxFront
