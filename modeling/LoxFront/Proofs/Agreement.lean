import LoxFront.Proofs.Numerals
import LoxFront.Proofs.Sessions
import LoxFront.Proofs.WholeCharacters

namespace LoxFront
open Text

def Text.lines (text : String) : List String :=
  (text.toList.splitOn '\n').dropLast.map String.ofList

theorem toList_append_newline (line rest : String) :
    (line ++ "\n" ++ rest).toList = line.toList ++ '\n' :: rest.toList := by
  rw [String.toList_append, String.toList_append, List.append_assoc]
  rfl

theorem lines_append (text rest : String) :
    lines (text ++ "\n" ++ rest) = (text.toList.splitOn '\n').map String.ofList ++ lines rest := by
  rw [lines, toList_append_newline, List.splitOn_append_cons_self,
    List.dropLast_append_of_ne_nil (List.splitOn_ne_nil _ _), List.map_append]
  rfl

theorem lines_cons {line : String} (h : '\n' ∉ line.toList) (rest : String) :
    lines (line ++ "\n" ++ rest) = line :: lines rest := by
  rw [lines_append, List.splitOn_eq_singleton h, List.map_singleton, String.ofList_toList]
  rfl

theorem lines_join {ls : List String} (h : ∀ l ∈ ls, '\n' ∉ l.toList) :
    lines (String.join (ls.map (· ++ "\n"))) = ls := by
  induction ls with
  | nil => rfl
  | cons l ls ih =>
    obtain ⟨hl, hls⟩ := List.forall_mem_cons.mp h
    rw [List.map_cons, String.join_cons, lines_cons hl, ih hls]

theorem exists_lines_join_append (texts : List String) (rest : String) :
    ∃ init, lines (String.join (texts.map (· ++ "\n")) ++ rest) = init ++ lines rest := by
  induction texts with
  | nil => exact ⟨[], by rw [List.map_nil, String.join_nil, String.empty_append, List.nil_append]⟩
  | cons text texts ih =>
    obtain ⟨init, he⟩ := ih
    refine ⟨(text.toList.splitOn '\n').map String.ofList ++ init, ?_⟩
    rw [List.map_cons, String.join_cons, String.append_assoc, lines_append, he, List.append_assoc]

def Sink.text (s : Sink) : String :=
  ofBytes s.stored.toList

structure Sink.Holds (s : Sink) (text : String) : Prop where
  capacity : s.capacity = none
  stored : s.stored.toList = bytes text

theorem Sink.holds_unlimited : Sink.unlimited.Holds "" :=
  ⟨rfl, rfl⟩

theorem Sink.Holds.text_eq {s : Sink} {text : String} (h : s.Holds text) : s.text = text := by
  rw [Sink.text, h.stored, ofBytes_bytes]

theorem Sink.Holds.writeAll {s : Sink} {text : String} (h : s.Holds text) (texts : List String) :
    ∃ t : Sink, s.writeAll texts = (t, none) ∧ t.Holds (text ++ String.join texts) := by
  rw [writeAll_eq_write_join, write_eq, fitting_of_unbounded h.capacity,
    if_neg (Nat.lt_irrefl _)]
  refine ⟨_, rfl, h.capacity, ?_⟩
  rw [Array.toList_appendList, h.stored, bytes_append]

theorem join_singleton (text : String) : String.join [text] = text := by
  rw [String.join_cons, String.join_nil, String.append_empty]

theorem Sink.exists_write_line (line : String) : ∃ s : Sink,
    Sink.unlimited.writeAll ([line].map (· ++ "\n")) = (s, none) ∧ s.Holds (line ++ "\n") := by
  obtain ⟨s, hw, hh⟩ := Sink.holds_unlimited.writeAll ([line].map (· ++ "\n"))
  rw [List.map_singleton, join_singleton, String.empty_append] at hh
  exact ⟨s, hw, hh⟩

section Steps
variable (other : Sink) (line : String) (next : Unit → Session Status)

theorem exists_finish_print_line : ∃ out : Sink, out.Holds (line ++ "\n") ∧
    (Session.print [line] >>= next).finish ⟨.unlimited, other⟩ = (next ()).finish ⟨out, other⟩ := by
  obtain ⟨out, hw, hh⟩ := Sink.exists_write_line line
  refine ⟨out, hh, ?_⟩
  rw [Session.finish_print, hw]

theorem exists_finish_complain_line : ∃ err : Sink, err.Holds (line ++ "\n") ∧
    (Session.complain [line] >>= next).finish ⟨other, .unlimited⟩ =
      (next ()).finish ⟨other, err⟩ := by
  obtain ⟨err, hw, hh⟩ := Sink.exists_write_line line
  refine ⟨err, hh, ?_⟩
  rw [Session.finish_complain, hw]

end Steps

/-! ## The lex command -/

def errorLine (f : Fault) : String :=
  "[line " ++ toString f.line.toNat ++ "] Error: " ++ f.message

theorem map_faultLine (faults : List Fault) :
    (faults.map fun f => faultLine f.line f.message) = (faults.map errorLine).map (· ++ "\n") := by
  rw [List.map_map]
  rfl

theorem newline_not_mem_append {a b : String} :
    '\n' ∉ (a ++ b).toList ↔ '\n' ∉ a.toList ∧ '\n' ∉ b.toList := by
  rw [String.toList_append, List.mem_append, not_or]

theorem newline_not_mem_cause {k : Cause} (h : k ≠ .unexpectedCharacter '\n') :
    '\n' ∉ k.message.toList := by
  cases k with
  | unexpectedCharacter x =>
    have hx : '\n' ∉ (String.singleton x).toList := by
      rw [String.toList_singleton, List.mem_singleton]
      rintro rfl
      exact h rfl
    change '\n' ∉ ("Unexpected character '" ++ String.singleton x ++ "'.").toList
    rw [newline_not_mem_append, newline_not_mem_append]
    exact ⟨⟨by decide +kernel, hx⟩, by decide +kernel⟩
  | _ => decide +kernel

theorem cause_ne_newline {source : String} {f : Fault} (hf : f ∈ (lex source).faults) :
    f.cause ≠ .unexpectedCharacter '\n' := by
  rw [faults_eq] at hf
  obtain ⟨c, hc, hy⟩ := List.mem_filterMap.mp hf
  obtain ⟨before, piece, after, hm⟩ := Cursor.exists_meets_of_mem hc
  by_cases ht : c.next.1.tag = .invalidChar
  · obtain ⟨x, hx, -, hyield⟩ := hm.invalidChar_spec ht
    rw [hyield] at hy
    obtain rfl := Option.some.inj hy
    have hs := hm.spells (by rw [ht]; decide)
    rw [ht] at hs
    obtain ⟨y, hw, hno⟩ := hs
    rw [hm.text_eq, hw] at hx
    obtain rfl : y = x := List.head_eq_of_cons_eq hx
    intro he
    obtain rfl := Cause.unexpectedCharacter.inj he
    exact hno .newline [] rfl
  · intro he
    generalize c.next.1 = l at ht hy
    obtain ⟨tag, bytes, line⟩ := l
    cases tag with
    | invalidChar => exact ht rfl
    | unterminatedString | unterminatedBlockComment | malformedBlockComment =>
      obtain rfl := Option.some.inj hy
      cases he
    | _ => cases hy

theorem newline_not_mem_errorLine {source : String} {f : Fault} (hf : f ∈ (lex source).faults) :
    '\n' ∉ (errorLine f).toList := by
  rw [errorLine, newline_not_mem_append]
  exact ⟨not_mem_around_toString rfl _ (by decide +kernel) (by decide +kernel),
    newline_not_mem_cause (cause_ne_newline hf)⟩

/-- Reading a source with streams that take everything writes its token dump to one of them and a line
about each fault to the other one. -/
theorem exists_finish_runLex (source : String) :
    ∃ out err : Sink,
      (Command.runLex source).finish ⟨.unlimited, .unlimited⟩ =
        (if (lex source).faults = [] then .success else .dataError, ⟨out, err⟩) ∧
      out.Holds (tokenDump source) ∧
      err.Holds (String.join (((lex source).faults.map errorLine).map (· ++ "\n"))) := by
  obtain ⟨err, herr, hhold⟩ := Sink.holds_unlimited.writeAll
    (((lex source).faults.map errorLine).map (· ++ "\n"))
  obtain ⟨out, hout, hdump⟩ := Sink.holds_unlimited.writeAll (Token.dumpLines (lex source).tokens)
  rw [String.empty_append] at hhold hdump
  refine ⟨out, err, ?_, hdump, hhold⟩
  have hlex : lexSource source .unlimited .unlimited =
      ⟨.ok (lex source).hasFaults, out, err⟩ := by
    rw [lexSource_eq, map_faultLine, herr, Token.writeDump, hout]
  rw [Command.finish_runLex, hlex, Lexed.hasFaults]
  cases (lex source).faults <;> rfl

/-! ## The check command -/

def summaryLine (color : Bool) (errors : Nat) : String :=
  Terminal.paint color .redBold "error" ++ ": " ++ Terminal.closing errors

/-- The number that a closing line names. It is the one number behind the first blank; a line without
any speaks of one error. -/
def announced (line : String) : Nat :=
  let digits := (line.toList.dropWhile (· != ' ')).filter Char.isDigit
  if digits.isEmpty then 1 else Nat.ofDigitChars 10 digits 0

theorem digits_closing (errors : Nat) :
    (Terminal.closing errors).toList.filter Char.isDigit =
      if errors = 1 then [] else (toString errors).toList := by
  unfold Terminal.closing
  split
  · decide +kernel
  · have hdigits : (toString errors).toList.filter Char.isDigit = (toString errors).toList :=
      List.filter_eq_self.mpr fun _ => isDigit_of_mem_toString
    have hstart : "aborting due to ".toList.filter Char.isDigit = [] := by decide +kernel
    have hend : " previous errors".toList.filter Char.isDigit = [] := by decide +kernel
    rw [String.toList_append, String.toList_append, List.filter_append, List.filter_append, hstart,
      hdigits, hend, List.nil_append, List.append_nil]

theorem announced_summaryLine (color : Bool) (errors : Nat) :
    announced (summaryLine color errors) = errors := by
  -- With styles the word in front of the first blank has digits too.
  have hdrop : (summaryLine color errors).toList.dropWhile (· != ' ') =
      ' ' :: (Terminal.closing errors).toList := by
    have hlead : (Terminal.paint color .redBold "error" ++ ": ").toList =
        (Terminal.paint color .redBold "error" ++ ":").toList ++ [' '] := by
      cases color <;> decide +kernel
    have hword : (Terminal.paint color .redBold "error" ++ ":").toList.all (· != ' ') = true := by
      cases color <;> decide +kernel
    rw [summaryLine, String.toList_append, hlead, List.append_assoc,
      List.dropWhile_append_of_pos (List.all_eq_true.mp hword)]
    rfl
  have hdigits : (' ' :: (Terminal.closing errors).toList).filter Char.isDigit =
      if errors = 1 then [] else (toString errors).toList := by
    rw [List.filter_cons_of_neg (by decide), digits_closing]
  simp only [announced, hdrop, hdigits]
  by_cases h : errors = 1
  · rw [if_pos h, h]
    rfl
  · have hne : ¬ (toString errors).toList.isEmpty = true := by
      rw [List.isEmpty_iff, toList_toString]
      exact Nat.toDigits_ne_nil
    rw [if_neg h, if_neg hne, ofDigitChars_toString]

theorem newline_not_mem_summaryLine (color : Bool) (errors : Nat) :
    '\n' ∉ (summaryLine color errors).toList := by
  have hpaint : '\n' ∉ (Terminal.paint color .redBold "error" ++ ": ").toList := by
    cases color <;> decide +kernel
  have hclosing : '\n' ∉ (Terminal.closing errors).toList := by
    unfold Terminal.closing
    split
    · decide +kernel
    · exact not_mem_around_toString rfl _ (by decide +kernel) (by decide +kernel)
  exact newline_not_mem_append.mpr ⟨hpaint, hclosing⟩

theorem getLast?_lines_summaryLine (texts : List String) (color : Bool) (errors : Nat) :
    (lines (String.join (texts.map (· ++ "\n")) ++ (summaryLine color errors ++ "\n"))).getLast? =
      some (summaryLine color errors) := by
  obtain ⟨init, hinit⟩ := exists_lines_join_append texts (summaryLine color errors ++ "\n")
  have hone : lines (summaryLine color errors ++ "\n") = [summaryLine color errors] := by
    calc
      lines (summaryLine color errors ++ "\n")
          = lines (summaryLine color errors ++ "\n" ++ "") := by rw [String.append_empty]
      _ = summaryLine color errors :: lines "" := lines_cons (newline_not_mem_summaryLine _ _) _
      _ = [summaryLine color errors] := rfl
  rw [hinit, hone, List.getLast?_concat]

theorem exists_lines_eq (color : Bool) (d : Diagnostic) :
    ∃ texts : List String, Terminal.lines color d = texts.map (· ++ "\n") := by
  obtain ⟨head, hhead⟩ : ∃ head, Terminal.heading color d = head ++ "\n" := ⟨_, rfl⟩
  refine ⟨head :: d.notes.map fun note =>
    "  = " ++ Terminal.paint color .bold "note" ++ ": " ++ note, ?_⟩
  rw [Terminal.lines, hhead, List.map_cons, List.map_map]
  rfl

theorem Sink.Holds.emitAll {s : Sink} {text : String} (h : s.Holds text) (color : Bool)
    (ds : List Diagnostic) : ∃ texts : List String,
      ((Terminal.emitter color).emitAll s ds).Holds
        (text ++ String.join (texts.map (· ++ "\n"))) := by
  induction ds generalizing s text with
  | nil => exact ⟨[], by rwa [List.map_nil, String.join_nil, String.append_empty]⟩
  | cons d ds ih =>
    obtain ⟨shown, hshown⟩ := exists_lines_eq color d
    obtain ⟨t, hw, ht⟩ := h.writeAll (Terminal.lines color d)
    obtain ⟨texts, hd⟩ := ih ht
    refine ⟨shown ++ texts, ?_⟩
    have hemit : (Terminal.emitter color).emit s d = t := congrArg Prod.fst hw
    rw [Emitter.emitAll, List.foldl_cons, hemit, List.map_append, String.join_append, ← hshown,
      ← String.append_assoc]
    exact hd

section Check
variable (options : CheckOptions) (path : String) {source : String} (isTerminal : Bool)

theorem exists_finish_runCheck_of_clean (h : (lex source).faults = []) :
    ∃ out : Sink,
      (Command.runCheck options path source isTerminal).finish ⟨.unlimited, .unlimited⟩ =
        (.success, ⟨out, .unlimited⟩) ∧
      out.Holds
        (path ++ ": ok (" ++ toString (lex source).tokens.length ++ " tokens)" ++ "\n") := by
  rw [Command.finish_runCheck, checkSource_of_clean _ _ _ h]
  obtain ⟨out, hh, he⟩ := exists_finish_print_line .unlimited
    (path ++ ": ok (" ++ toString (lex source).tokens.length ++ " tokens)") fun _ => pure .success
  exact ⟨out, he, hh⟩

theorem exists_finish_runCheck_of_faults (h : (lex source).faults ≠ []) :
    ∃ (err : Sink) (texts : List String),
      (Command.runCheck options path source isTerminal).finish ⟨.unlimited, .unlimited⟩ =
        (.dataError, ⟨.unlimited, err⟩) ∧
      err.Holds (String.join (texts.map (· ++ "\n")) ++
        (summaryLine (options.color.useColors isTerminal) (lex source).faults.length ++ "\n")) := by
  rw [Command.finish_runCheck, checkSource_of_pos _ _ _ (List.length_pos_iff.mpr h)]
  generalize options.color.useColors isTerminal = color
  obtain ⟨texts, ht⟩ := Sink.holds_unlimited.emitAll color
    (docketOf options.limits (lex source).faults).sorted
  obtain ⟨err, hw, hh⟩ := ht.writeAll (Terminal.summaryLines color (lex source).faults.length)
  have hsummary : Terminal.summaryLines color (lex source).faults.length =
      [summaryLine color (lex source).faults.length ++ "\n"] :=
    if_neg (mt List.length_eq_zero_iff.mp h)
  rw [hsummary, join_singleton, String.empty_append] at hh
  refine ⟨err.flush, texts, ?_, hh.capacity, hh.stored⟩
  simp only [Terminal.emitter] at hw ⊢
  rw [hw]

end Check

/-! ## Both commands -/

structure Agree (path : String) (file : Except ReadError String) (lexed checked : Status × Console) :
    Prop where
  unreadable : ∀ e, file = .error e → ∀ run ∈ [lexed, checked],
    run.1.code = 1 ∧ run.2.out.text = "" ∧ run.2.err.text = "error: " ++ e.message ++ "\n"
  verdict : ∀ source, file = .ok source →
    lexed.1 = checked.1 ∧ lexed.1.code = if (lex source).faults = [] then 0 else 65
  clean : ∀ source, file = .ok source → (lex source).faults = [] →
    lexed.2.err.text = "" ∧ checked.2.err.text = "" ∧
    lexed.2.out.text = tokenDump source ∧
    checked.2.out.text =
      path ++ ": ok (" ++ toString (lex source).tokens.length ++ " tokens)" ++ "\n"
  faulty : ∀ source, file = .ok source → (lex source).faults ≠ [] →
    lines lexed.2.err.text = (lex source).faults.map errorLine ∧
    ∃ summary, (lines checked.2.err.text).getLast? = some summary ∧
      (∃ color, summary = summaryLine color (lines lexed.2.err.text).length) ∧
      announced summary = (lines lexed.2.err.text).length

section Agree
variable (path : String)

theorem agree_of_error (e : ReadError) (next next' : String → Session Status) :
    Agree path (.error e)
      ((Command.withSource (.error e) next).finish ⟨.unlimited, .unlimited⟩)
      ((Command.withSource (.error e) next').finish ⟨.unlimited, .unlimited⟩) := by
  obtain ⟨err, hh, he⟩ := exists_finish_complain_line .unlimited ("error: " ++ e.message) fun _ =>
    pure .failure
  have hfinish (next : String → Session Status) :
      (Command.withSource (.error e) next).finish ⟨.unlimited, .unlimited⟩ =
        (.failure, ⟨.unlimited, err⟩) :=
    he
  rw [hfinish, hfinish]
  constructor
  · intro e' hfile run hrun
    obtain rfl := Except.error.inj hfile
    have hrun : run = (.failure, ⟨.unlimited, err⟩) := by simpa using hrun
    rw [hrun]
    exact ⟨rfl, Sink.holds_unlimited.text_eq, hh.text_eq⟩
  · intro source hfile
    cases hfile
  · intro source hfile
    cases hfile
  · intro source hfile
    cases hfile

section Source
variable (options : CheckOptions) (isTerminal : Bool) {source : String}

theorem agree_of_clean (hf : (lex source).faults = []) :
    Agree path (.ok source)
      ((Command.runLex source).finish ⟨.unlimited, .unlimited⟩)
      ((Command.runCheck options path source isTerminal).finish ⟨.unlimited, .unlimited⟩) := by
  obtain ⟨out, err, hlex, hdump, hreport⟩ := exists_finish_runLex source
  obtain ⟨shown, hcheck, hshown⟩ := exists_finish_runCheck_of_clean options path isTerminal hf
  rw [hlex, hcheck, if_pos hf]
  rw [hf] at hreport
  constructor
  · intro e hfile
    cases hfile
  · intro source' hfile
    obtain rfl := Except.ok.inj hfile
    exact ⟨rfl, (if_pos hf).symm⟩
  · intro source' hfile _
    obtain rfl := Except.ok.inj hfile
    exact ⟨hreport.text_eq, Sink.holds_unlimited.text_eq, hdump.text_eq, hshown.text_eq⟩
  · intro source' hfile hne
    obtain rfl := Except.ok.inj hfile
    exact absurd hf hne

theorem agree_of_faults (hf : (lex source).faults ≠ []) :
    Agree path (.ok source)
      ((Command.runLex source).finish ⟨.unlimited, .unlimited⟩)
      ((Command.runCheck options path source isTerminal).finish ⟨.unlimited, .unlimited⟩) := by
  obtain ⟨out, err, hlex, -, hreport⟩ := exists_finish_runLex source
  obtain ⟨shown, texts, hcheck, hshown⟩ :=
    exists_finish_runCheck_of_faults options path isTerminal hf
  have hlines : lines err.text = (lex source).faults.map errorLine := by
    rw [hreport.text_eq]
    apply lines_join
    exact List.forall_mem_map.mpr fun f hmem => newline_not_mem_errorLine hmem
  have hcount : (lines err.text).length = (lex source).faults.length := by
    rw [hlines, List.length_map]
  have hlast : (lines shown.text).getLast? = some
      (summaryLine (options.color.useColors isTerminal) (lex source).faults.length) := by
    rw [hshown.text_eq]
    exact getLast?_lines_summaryLine _ _ _
  rw [hlex, hcheck, if_neg hf]
  constructor
  · intro e hfile
    cases hfile
  · intro source' hfile
    obtain rfl := Except.ok.inj hfile
    exact ⟨rfl, (if_neg hf).symm⟩
  · intro source' hfile hclean
    obtain rfl := Except.ok.inj hfile
    exact absurd hclean hf
  · intro source' hfile _
    obtain rfl := Except.ok.inj hfile
    refine ⟨hlines, _, hlast, ⟨options.color.useColors isTerminal, ?_⟩, ?_⟩
    · rw [hcount]
    · rw [hcount, announced_summaryLine]

end Source

end Agree

/-- On streams that take everything the two commands agree on every file, whatever options the check
is given. Without faults the check counts the tokens that are dumped; with faults it closes with the
number of lines about them. -/
theorem lex_check_agree (load : String → Except ReadError String) (isTerminal : Bool)
    (path : String) (before after : List String) (options : CheckOptions)
    (hpath : isOption path = false) (hbefore : ∀ a ∈ before, isOption a = true)
    (hoptions : CheckOptions.ofArgs (before ++ path :: after) = .ok options) :
    Agree path (load path)
      ((Command.ofArgs ["lex", path]).run load isTerminal ⟨.unlimited, .unlimited⟩)
      ((Command.ofArgs ("check" :: (before ++ path :: after))).run load isTerminal
        ⟨.unlimited, .unlimited⟩) := by
  have hlex : Command.ofArgs ["lex", path] = .lex path := by
    simp only [Command.ofArgs, positional?, List.find?_cons, hpath, Bool.not_false]
  have hcheck : Command.ofArgs ("check" :: (before ++ path :: after)) = .check options path := by
    have hpositional : positional? (before ++ path :: after) = some path := by
      have hnone : before.find? (!isOption ·) = none := by
        rw [List.find?_eq_none]
        intro a ha
        rw [hbefore a ha]
        exact Bool.false_ne_true
      rw [positional?, List.find?_append, hnone, Option.none_or, List.find?_cons, hpath]
      rfl
    simp only [Command.ofArgs, Command.ofCheckArgs, hoptions, hpositional]
  rw [hlex, hcheck, Command.run_eq_finish, Command.run_eq_finish, Command.session, Command.session]
  cases load path with
  | error e => exact agree_of_error path e _ _
  | ok source =>
    by_cases hf : (lex source).faults = []
    · exact agree_of_clean path options isTerminal hf
    · exact agree_of_faults path options isTerminal hf

/-- Three faults on two lines, with styles, and with a limit behind the name of the file. -/
theorem lex_check_agree_three :
    isOption "a.lox" = false ∧ (∀ a ∈ ["--color=always"], isOption a = true) ∧
      CheckOptions.ofArgs (["--color=always"] ++ "a.lox" :: ["--error-limit=1"]) =
        .ok ⟨.always, ⟨1, true⟩⟩ ∧
      Agree "a.lox" (.ok "@ #\n@")
        ((Command.ofArgs ["lex", "a.lox"]).run (fun _ => .ok "@ #\n@") false
          ⟨.unlimited, .unlimited⟩)
        ((Command.ofArgs ("check" :: (["--color=always"] ++ "a.lox" :: ["--error-limit=1"]))).run
          (fun _ => .ok "@ #\n@") false ⟨.unlimited, .unlimited⟩) := by
  have hpath : isOption "a.lox" = false := by decide +kernel
  have hbefore : ∀ a ∈ ["--color=always"], isOption a = true := by decide +kernel
  have hoptions : CheckOptions.ofArgs (["--color=always"] ++ "a.lox" :: ["--error-limit=1"]) =
      .ok ⟨.always, ⟨1, true⟩⟩ := by
    rfl
  exact ⟨hpath, hbefore, hoptions,
    lex_check_agree (fun _ => .ok "@ #\n@") false "a.lox" _ _ _ hpath hbefore hoptions⟩

end LoxFront
