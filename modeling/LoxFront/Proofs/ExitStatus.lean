import LoxFront.Proofs.Sessions

namespace LoxFront
open Text

/-- A sink that takes everything, or meets everything with the same refusal. -/
def Sink.Answers (s : Sink) : Option Refusal → Prop
  | none => s.capacity = none
  | some refusal => s.capacity = some 0 ∧ s.refusal = refusal

structure Console.Answers (c : Console) (out err : Option Refusal) : Prop where
  out : c.out.Answers out
  err : c.err.Answers err

theorem Sink.answers_sinkOf (answer : Option Refusal) : (sinkOf answer).Answers answer := by
  cases answer with
  | none => rfl
  | some refusal => exact ⟨rfl, rfl⟩

theorem Sink.Answers.writeAll {s : Sink} {answer : Option Refusal} (h : s.Answers answer)
    (texts : List String) : (s.writeAll texts).1.Answers answer := by
  rw [writeAll_eq_write_join]
  cases answer with
  | none => exact h
  | some refusal => exact h

theorem Sink.Answers.refused {s : Sink} {answer : Option Refusal} (h : s.Answers answer)
    {texts : List String} (ht : String.join texts ≠ "") : (s.writeAll texts).2 = answer := by
  rw [writeAll_eq_write_join, write_eq]
  cases answer with
  | none => rw [fitting_of_unbounded h, if_neg (Nat.lt_irrefl _)]
  | some refusal =>
    have hfits (xs : List UInt8) : s.fitting xs = [] := by
      simp only [fitting, h.1, Nat.zero_sub, List.take_zero]
    have hpos : 0 < (bytes (String.join texts)).length := by
      apply List.length_pos_iff.mpr
      intro hnil
      exact ht (bytes_injective hnil)
    rw [hfits, List.length_nil, if_pos hpos, h.2]

theorem join_ne_empty {text : String} (texts : List String) (h : text ≠ "") :
    String.join (text :: texts) ≠ "" := by
  rw [String.join_cons]
  intro he
  exact h (String.append_eq_empty_iff.mp he).1

theorem append_newline_ne_empty (line : String) : line ++ "\n" ≠ "" := by
  intro he
  exact absurd (String.append_eq_empty_iff.mp he).2 (by decide)

theorem Sink.Answers.exists_offer {α : Type} {s : Sink} {answer : Option Refusal}
    (h : s.Answers answer) (line : String) (texts : List String) (taken refused : Sink → α) :
    ∃ t : Sink, t.Answers answer ∧
      (match s.writeAll ((line ++ "\n") :: texts) with
        | (t, none) => taken t
        | (t, some _) => refused t) = if answer = none then taken t else refused t := by
  have hanswer := h.refused (join_ne_empty texts (append_newline_ne_empty line))
  have hsteady := h.writeAll ((line ++ "\n") :: texts)
  refine ⟨_, hsteady, ?_⟩
  generalize s.writeAll ((line ++ "\n") :: texts) = written at hanswer ⊢
  obtain ⟨t, told⟩ := written
  obtain rfl : told = answer := hanswer
  cases told <;> rfl

theorem crash_step_iff (console : Console) (answer : Option Refusal) {status : Status}
    (hs : status ≠ .crash) :
    (if answer = none then (status, console) else (.crash, console)).1 = .crash ↔ answer ≠ none := by
  by_cases h : answer = none
  · rw [if_pos h]
    exact iff_of_false hs (not_not_intro h)
  · rw [if_neg h]
    exact iff_of_true rfl h

section Messages
variable {console : Console} {out err : Option Refusal} (h : console.Answers out err)
  (line : String) (lines : List String)
include h

theorem exists_finish_print (next : Unit → Session Status) :
    ∃ console' : Console, console'.Answers out err ∧
      (Session.print (line :: lines) >>= next).finish console =
        if out = none then (next ()).finish console' else (.crash, console') := by
  obtain ⟨sink, ha, he⟩ := h.out.exists_offer line (lines.map (· ++ "\n"))
    (fun out => (next ()).finish { console with out }) fun out => (.crash, { console with out })
  refine ⟨{ console with out := sink }, ⟨ha, h.err⟩, ?_⟩
  rw [Session.finish_print]
  exact he

theorem exists_finish_complain (next : Unit → Session Status) :
    ∃ console' : Console, console'.Answers out err ∧
      (Session.complain (line :: lines) >>= next).finish console =
        if err = none then (next ()).finish console' else (.crash, console') := by
  obtain ⟨sink, ha, he⟩ := h.err.exists_offer line (lines.map (· ++ "\n"))
    (fun err => (next ()).finish { console with err }) fun err => (.crash, { console with err })
  refine ⟨{ console with err := sink }, ⟨h.out, ha⟩, ?_⟩
  rw [Session.finish_complain]
  exact he

theorem crash_print_iff {status : Status} (hs : status ≠ .crash) :
    ((do Session.print (line :: lines); return status : Session Status).finish console).1 = .crash ↔
      out ≠ none := by
  obtain ⟨console', -, he⟩ := exists_finish_print h line lines fun _ => pure status
  rw [he, Session.finish_pure]
  exact crash_step_iff console' out hs

theorem crash_complain_iff {status : Status} (hs : status ≠ .crash) :
    ((do Session.complain (line :: lines); return status : Session Status).finish console).1 =
      .crash ↔ err ≠ none := by
  obtain ⟨console', -, he⟩ := exists_finish_complain h line lines fun _ => pure status
  rw [he, Session.finish_pure]
  exact crash_step_iff console' err hs

end Messages

/-- The refusal that the lex command meets: that of a fault or, if the faults can be written, that of
the token dump. -/
def lexRefusal (source : String) (out err : Option Refusal) : Option Refusal :=
  (if (lex source).faults = [] then none else err).or out

/-- What a run crashes on: a message to a stream that refuses it. A token dump whose reader has gone
away brings no message, and the diagnostics that a check cannot write are lost. -/
def Command.Crashes (load : String → Except ReadError String) (out err : Option Refusal) :
    Command → Prop
  | .usage | .version => out ≠ none
  | .explain code =>
    match LoxFront.explain code with
    | .ok _ => out ≠ none
    | .error _ => err ≠ none
  | .misuse (.unknownCommand _) => out ≠ none ∨ err ≠ none
  | .misuse _ => err ≠ none
  | .check _ path =>
    match load path with
    | .ok source => (LoxFront.lex source).faults = [] ∧ out ≠ none
    | .error _ => err ≠ none
  | .lex path =>
    match load path with
    | .ok source => err ≠ none ∧ lexRefusal source out err ∉ [none, some .brokenPipe]
    | .error _ => err ≠ none

theorem Command.not_crashes (load : String → Except ReadError String) (command : Command) :
    ¬ command.Crashes load none none := by
  cases command with
  | misuse m => cases m <;> simp [Crashes]
  | explain code =>
    simp only [Crashes]
    cases LoxFront.explain code <;> simp
  | lex path | check _ path =>
    simp only [Crashes]
    cases load path <;> simp
  | _ => simp [Crashes]

theorem tokens_ne_nil (source : String) : (lex source).tokens ≠ [] := by
  obtain ⟨init, line, he⟩ := exists_found_eq_append source
  rw [tokens_eq_found, he, List.filterMap_append]
  exact List.append_ne_nil_of_right_ne_nil _ (List.cons_ne_nil _ _)

section Commands
variable {console : Console} {out err : Option Refusal} (h : console.Answers out err)
include h

theorem crash_runMisuse_iff (load : String → Except ReadError String) (m : Misuse) :
    ((Command.runMisuse m).finish console).1 = .crash ↔
      (Command.misuse m).Crashes load out err := by
  cases m with
  | unknownCommand name =>
    obtain ⟨console', ha, he⟩ := exists_finish_complain h ("Unknown command: " ++ name) [""]
      fun _ => do
        Session.print Command.usageLines
        return .failure
    rw [Command.runMisuse, he]
    -- The usage on the other stream comes only if the complaint has been taken.
    by_cases hr : err = none
    · rw [if_pos hr]
      refine (crash_print_iff ha _ _ (by decide)).trans ?_
      simp [Command.Crashes, hr]
    · rw [if_neg hr]
      simp [Command.Crashes, hr]
  | _ => exact crash_complain_iff h _ _ (by decide)

theorem crash_runExplain_iff (load : String → Except ReadError String) (code : String) :
    ((Command.runExplain code).finish console).1 = .crash ↔
      (Command.explain code).Crashes load out err := by
  simp only [Command.runExplain, Command.Crashes]
  cases LoxFront.explain code with
  | ok page => exact crash_print_iff h _ _ (by decide)
  | error e => exact crash_complain_iff h _ _ (by decide)

theorem crash_runCheck_iff (options : CheckOptions) (path source : String) (isTerminal : Bool) :
    ((Command.runCheck options path source isTerminal).finish console).1 = .crash ↔
      (lex source).faults = [] ∧ out ≠ none := by
  rw [Command.finish_runCheck]
  by_cases hf : (lex source).faults = []
  · rw [checkSource_of_clean _ _ _ hf]
    exact (crash_print_iff h _ _ (by decide)).trans (by simp [hf])
  · rw [checkSource_of_pos _ _ _ (List.length_pos_iff.mpr hf)]
    simp [hf]

theorem answers_lexSource (source : String) :
    (lexSource source console.out console.err).result =
        (match lexRefusal source out err with
          | none => .ok (lex source).hasFaults
          | some refusal => .error refusal) ∧
      Console.Answers ⟨(lexSource source console.out console.err).out,
        (lexSource source console.out console.err).err⟩ out err := by
  have hreport : (console.err.writeAll
      ((lex source).faults.map fun f => faultLine f.line f.message)).2 =
        if (lex source).faults = [] then none else err := by
    cases (lex source).faults with
    | nil => rfl
    | cons f faults => exact h.err.refused (join_ne_empty _ (append_newline_ne_empty _))
  have hdump : (Token.writeDump console.out (lex source).tokens).2 = out := by
    cases ht : (lex source).tokens with
    | nil => exact absurd ht (tokens_ne_nil source)
    | cons t tokens => exact h.out.refused (join_ne_empty _ (append_newline_ne_empty _))
  have herr := h.err.writeAll ((lex source).faults.map fun f => faultLine f.line f.message)
  have hout := h.out.writeAll (Token.dumpLines (lex source).tokens)
  rw [lexSource_eq, lexRefusal, ← hreport]
  change (Token.writeDump console.out (lex source).tokens).1.Answers out at hout
  generalize console.err.writeAll _ = report at herr ⊢
  generalize Token.writeDump console.out _ = dump at hdump hout ⊢
  obtain ⟨errSink, told⟩ := report
  obtain ⟨outSink, cut⟩ := dump
  obtain rfl : cut = out := hdump
  cases told with
  | some refusal => exact ⟨rfl, h.out, herr⟩
  | none =>
    cases cut with
    | none => exact ⟨rfl, hout, herr⟩
    | some refusal => exact ⟨rfl, hout, herr⟩

theorem crash_afterLex_iff (told : Option Refusal) (faulty : Bool) :
    ((Command.afterLex (match told with
        | none => .ok faulty
        | some refusal => .error refusal)).finish console).1 = .crash ↔
      err ≠ none ∧ told ∉ [none, some .brokenPipe] := by
  cases told with
  | none =>
    have hend : (Command.afterLex (.ok faulty)).finish console =
        (if faulty then .dataError else .success, console) := by
      cases faulty <;> rfl
    rw [hend]
    cases faulty <;> simp
  | some refusal =>
    cases refusal with
    | brokenPipe => exact iff_of_false Status.noConfusion (by simp)
    | full | noSpace => exact (crash_complain_iff h _ _ (by decide)).trans (by simp)

theorem crash_runLex_iff (source : String) :
    ((Command.runLex source).finish console).1 = .crash ↔
      err ≠ none ∧ lexRefusal source out err ∉ [none, some .brokenPipe] := by
  obtain ⟨hresult, ha⟩ := answers_lexSource h source
  rw [Command.finish_runLex, hresult]
  exact crash_afterLex_iff ha _ _

theorem crash_session_iff (load : String → Except ReadError String) (isTerminal : Bool)
    (command : Command) :
    ((command.session load isTerminal).finish console).1 = .crash ↔
      command.Crashes load out err := by
  cases command with
  | usage | version => exact crash_print_iff h _ _ (by decide)
  | misuse m => exact crash_runMisuse_iff h load m
  | explain code => exact crash_runExplain_iff h load code
  | lex path =>
    simp only [Command.session, Command.withSource, Command.Crashes]
    cases load path with
    | ok source => exact crash_runLex_iff h source
    | error e => exact crash_complain_iff h _ _ (by decide)
  | check options path =>
    simp only [Command.session, Command.withSource, Command.Crashes]
    cases load path with
    | ok source => exact crash_runCheck_iff h options path source isTerminal
    | error e => exact crash_complain_iff h _ _ (by decide)

end Commands

theorem Status.code_eq_iff (s : Status) : s.code = 101 ↔ s = .crash := by
  cases s <;> decide

theorem Status.code_mem_iff (s : Status) : s.code ∈ [0, 1, 65] ↔ s ≠ .crash := by
  cases s <;> decide

/-- Whatever the arguments, as long as they are Unicode, the files and the two streams, a run ends
with a documented status unless its command offers a message to a stream that refuses. Then it
crashes. -/
theorem exit_status (args : List String) (load : String → Except ReadError String)
    (isTerminal : Bool) (out err : Option Refusal) :
    (((Command.ofArgs args).run load isTerminal ⟨sinkOf out, sinkOf err⟩).1.code = 101 ↔
      (Command.ofArgs args).Crashes load out err) ∧
    (((Command.ofArgs args).run load isTerminal ⟨sinkOf out, sinkOf err⟩).1.code ∈ [0, 1, 65] ↔
      ¬ (Command.ofArgs args).Crashes load out err) ∧
    ((Command.ofArgs args).run load isTerminal ⟨sinkOf none, sinkOf none⟩).1.code ∈ [0, 1, 65] := by
  have hcrash (out err : Option Refusal) :
      ((Command.ofArgs args).run load isTerminal ⟨sinkOf out, sinkOf err⟩).1 = .crash ↔
        (Command.ofArgs args).Crashes load out err :=
    crash_session_iff ⟨Sink.answers_sinkOf out, Sink.answers_sinkOf err⟩ load isTerminal _
  refine ⟨(Status.code_eq_iff _).trans (hcrash out err),
    (Status.code_mem_iff _).trans (not_congr (hcrash out err)), ?_⟩
  rw [Status.code_mem_iff]
  exact mt (hcrash none none).mp (Command.not_crashes load _)

/-- A fault that cannot be written is a failure, but the message about it goes to the stream that has
just refused the fault. -/
theorem crash_on_full_stderr :
    ((Command.ofArgs ["lex", "a.lox"]).run (fun _ => .ok "@") false
        ⟨sinkOf none, sinkOf (some .noSpace)⟩).1.code = 101 ∧
      ¬ ∀ (args : List String) (load : String → Except ReadError String) (isTerminal : Bool)
        (out err : Option Refusal),
        ((Command.ofArgs args).run load isTerminal ⟨sinkOf out, sinkOf err⟩).1.code ∈
          [0, 1, 65] := by
  have hcode : ((Command.ofArgs ["lex", "a.lox"]).run (fun _ => .ok "@") false
      ⟨sinkOf none, sinkOf (some .noSpace)⟩).1.code = 101 := by
    decide +kernel
  refine ⟨hcode, fun h => ?_⟩
  have hmem := h ["lex", "a.lox"] (fun _ => .ok "@") false none (some .noSpace)
  rw [hcode] at hmem
  exact absurd hmem (by decide)

end LoxFront
