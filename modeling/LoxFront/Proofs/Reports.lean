import LoxFront.Proofs.Contributions

namespace LoxFront

abbrev Report :=
  UInt32 × String

def Fault.report (f : Fault) : Report :=
  (f.line, f.message)

namespace Reporter
variable {σ : Type}

def receive (report : Reporter σ) (state : σ) (calls : List Report) : σ :=
  calls.foldl (fun state call => report state call.1 call.2) state

def noting (report : Reporter σ) : Reporter (σ × List Report) :=
  fun state line message => (report state.1 line message, state.2 ++ [(line, message)])

theorem tell_eq_receive (report : Reporter σ) (state : σ) (faults : List Fault) :
    tell report state faults = receive report state (faults.map Fault.report) := by
  rw [receive, List.foldl_map]
  rfl

/-- The notes go on with one entry for each fault, and the reporter behind them goes on as it would
without them. -/
theorem tell_noting (report : Reporter σ) (state : σ) (notes : List Report) (faults : List Fault) :
    tell (noting report) (state, notes) faults =
      (tell report state faults, notes ++ faults.map Fault.report) := by
  induction faults generalizing state notes with
  | nil => rw [List.map_nil, List.append_nil, tell, tell, List.foldl_nil, List.foldl_nil]
  | cons f faults ih =>
    have hfirst : noting report (state, notes) f.line f.message =
        (report state f.line f.message, notes ++ [f.report]) := rfl
    rw [tell, List.foldl_cons, hfirst, ← tell, ih, List.map_cons, List.append_assoc]
    rfl

end Reporter

def Lexing.IsNoted {σ : Type} (s : Lexing (σ × List Report)) : Prop :=
  s.reporter.2 = s.faults.toList.map Fault.report

section Run
variable {σ : Type} (report : Reporter σ)

theorem Lexing.isNoted_step {s : Lexing (σ × List Report)} (h : s.IsNoted) (l : Lexeme) :
    (s.step (Reporter.noting report) l).IsNoted := by
  have hfaults := (s.step_toList (Reporter.noting report) l).2
  have hcalls : (s.step (Reporter.noting report) l).reporter.2 =
      s.reporter.2 ++ l.yield.fault?.toList.map Fault.report := by
    rw [Lexing.reporter_step, ← Prod.eta s.reporter, Reporter.tell_noting]
  rw [IsNoted, hcalls, h, hfaults, List.map_append]

theorem Lexing.isNoted_foldl (ls : List Lexeme) {s : Lexing (σ × List Report)} (h : s.IsNoted) :
    (ls.foldl (Lexing.step (Reporter.noting report)) s).IsNoted := by
  induction ls generalizing s with
  | nil => exact h
  | cons l ls ih => exact ih (isNoted_step report h l)

/-- A reading does not depend on its reporter, which gets one call for each fault, in order, as soon
as the fault is found. -/
theorem lexWith_reports_faults (state : σ) (source : String) :
    (lexWith report state source).1 = lex source ∧
    (lexWith report state source).2 =
      Reporter.receive report state ((lex source).faults.map Fault.report) ∧
    lexWith (Reporter.noting report) (state, []) source =
      (lex source, (lexWith report state source).2, (lex source).faults.map Fault.report) ∧
    ∀ n, (((Cursor.ofText source).lexemes.take n).foldl
      (Lexing.step (Reporter.noting report)) (Lexing.start (state, []))).IsNoted := by
  refine ⟨lexWith_fst report state source, ?_, ?_, ?_⟩
  · rw [lexWith_snd, Reporter.tell_eq_receive]
  · apply Prod.ext
    · exact lexWith_fst _ _ _
    · rw [lexWith_snd, lexWith_snd, Reporter.tell_noting]
      rfl
  · intro n
    have hstart : (Lexing.start (state, ([] : List Report))).IsNoted := rfl
    exact Lexing.isNoted_foldl report _ hstart

/-- One fault between two tokens and one behind them: the reporter here counts its calls. -/
example : (lexWith (Reporter.noting fun calls _ _ => calls + 1) (0, []) "a @\n1 \"x").2 =
    (2, [(1, "Unexpected character '@'."), (2, "Unterminated string.")]) := by
  decide +kernel

end Run

end LoxFront
