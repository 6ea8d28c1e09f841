import LoxFront.Proofs.Numerals
import LoxFront.Proofs.TerminalRuns

/-! What a message ends in may look like the start of a sequence. But the colon in front of a
message and the newline behind it stand in no sequence, so none is made or lost where texts meet. -/
namespace LoxFront
open Text

/-! ## Taking sequences out -/

namespace Style

def sequences : List (List Char) :=
  [redBold.on.toList, bold.on.toList, dim.on.toList, off.toList]

def sequenceAt? (text : List Char) : Option (List Char) :=
  sequences.find? (·.isPrefixOf text)

/-- What is left of a text when the next so many characters are passed over, and then every sequence
that is met on the way to the end. -/
def stripFrom : Nat → List Char → List Char
  | _, [] => []
  | skip + 1, _ :: cs => stripFrom skip cs
  | 0, c :: cs =>
    match sequenceAt? (c :: cs) with
    | some s => stripFrom (s.length - 1) cs
    | none => c :: stripFrom 0 cs

/-- A text without the sequences in it, which are found in one pass from left to right. -/
def strip (text : String) : String :=
  String.ofList (stripFrom 0 text.toList)

def Free (text : String) : Prop :=
  ∀ s ∈ sequences, ¬ s <:+: text.toList

instance : DecidablePred Free :=
  fun text => inferInstanceAs (Decidable (∀ s ∈ sequences, ¬ s <:+: text.toList))

section Sequences
variable {s : List Char}

theorem head_of_mem_sequences (hs : s ∈ sequences) : ∃ t, s = '\x1b' :: t := by
  have hall : ∀ s ∈ sequences, s = '\x1b' :: s.tail := by decide +kernel
  exact ⟨s.tail, hall s hs⟩

theorem escape_mem_sequence (hs : s ∈ sequences) : '\x1b' ∈ s := by
  obtain ⟨t, rfl⟩ := head_of_mem_sequences hs
  exact List.mem_cons_self

theorem bracket_mem_sequence (hs : s ∈ sequences) : '[' ∈ s := by
  have hall : ∀ s ∈ sequences, '[' ∈ s := by decide +kernel
  exact hall s hs

theorem newline_not_mem_sequence (hs : s ∈ sequences) : '\n' ∉ s := by
  have hall : ∀ s ∈ sequences, '\n' ∉ s := by decide +kernel
  exact hall s hs

theorem sequences_prefix_free {t : List Char} (hs : s ∈ sequences) (ht : t ∈ sequences) (h : s <+: t) :
    s = t := by
  have hall : ∀ s ∈ sequences, ∀ t ∈ sequences, s <+: t → s = t := by decide +kernel
  exact hall s hs t ht h

theorem sequenceAt?_append (hs : s ∈ sequences) (rest : List Char) :
    sequenceAt? (s ++ rest) = some s := by
  cases h : sequenceAt? (s ++ rest) with
  | none =>
    have hno := List.find?_eq_none.mp h s hs
    exact absurd (List.isPrefixOf_iff_prefix.mpr (List.prefix_append s rest)) hno
  | some t =>
    have ht := List.mem_of_find?_eq_some h
    have hat := List.find?_some h
    have hp : t <+: s ++ rest := List.isPrefixOf_iff_prefix.mp hat
    rcases List.prefix_or_prefix_of_prefix hp (List.prefix_append s rest) with hts | hst
    · rw [sequences_prefix_free ht hs hts]
    · rw [sequences_prefix_free hs ht hst]

theorem sequenceAt?_eq_none {text : List Char} (h : ∀ s ∈ sequences, ¬ s <+: text) :
    sequenceAt? text = none := by
  apply List.find?_eq_none.mpr
  intro s hs hp
  exact h s hs (List.isPrefixOf_iff_prefix.mp hp)

theorem stripFrom_length_append (skipped rest : List Char) :
    stripFrom skipped.length (skipped ++ rest) = stripFrom 0 rest := by
  induction skipped with
  | nil => rfl
  | cons c cs ih => exact ih

theorem strip_sequence (hs : s ∈ sequences) (rest : List Char) :
    stripFrom 0 (s ++ rest) = stripFrom 0 rest := by
  have hat := sequenceAt?_append hs rest
  obtain ⟨t, rfl⟩ := head_of_mem_sequences hs
  rw [List.cons_append] at hat ⊢
  rw [stripFrom, hat]
  exact stripFrom_length_append t rest

theorem strip_cons {c : Char} {cs : List Char} (h : ∀ s ∈ sequences, ¬ s <+: c :: cs) :
    stripFrom 0 (c :: cs) = c :: stripFrom 0 cs := by
  rw [stripFrom, sequenceAt?_eq_none h]

/-- What comes together when a sequence is taken out is not looked at again. -/
example : strip "\x1b[\x1b[0m1m \x1b[1;31mred\x1b[0m" = "\x1b[1m red" := by
  decide +kernel

theorem not_prefix_of_ne_escape {c : Char} (h : c ≠ '\x1b') (cs : List Char) :
    ∀ s ∈ sequences, ¬ s <+: c :: cs := by
  intro s hs hp
  obtain ⟨t, rfl⟩ := head_of_mem_sequences hs
  exact h (List.cons_prefix_cons.mp hp).1.symm

theorem strip_append_of_escape_not_mem {text : List Char} (h : '\x1b' ∉ text)
    (rest : List Char) : stripFrom 0 (text ++ rest) = text ++ stripFrom 0 rest := by
  induction text with
  | nil => rfl
  | cons c cs ih =>
    obtain ⟨hc, hcs⟩ := List.ne_and_not_mem_of_not_mem_cons h
    rw [List.cons_append, strip_cons (not_prefix_of_ne_escape hc.symm _), ih hcs,
      List.cons_append]

/-- A newline keeps what is behind it from completing a sequence. -/
theorem infix_of_prefix_line {text rest : List Char} (hs : s ∈ sequences)
    (h : s <+: text ++ '\n' :: rest) : s <:+: text := by
  have hline : text ++ ['\n'] <+: text ++ '\n' :: rest :=
    ⟨rest, List.append_assoc text ['\n'] rest⟩
  have hno : ¬ text ++ ['\n'] <+: s := by
    intro hp
    exact newline_not_mem_sequence hs (hp.subset (List.mem_append_right text List.mem_cons_self))
  rcases List.prefix_or_prefix_of_prefix h hline with hp | hp
  · rcases List.prefix_concat_iff.mp hp with rfl | hq
    · exact absurd (List.prefix_refl _) hno
    · exact hq.isInfix
  · exact absurd hp hno

theorem strip_line {text : List Char} (h : ∀ s ∈ sequences, ¬ s <:+: text) (rest : List Char) :
    stripFrom 0 (text ++ '\n' :: rest) = text ++ '\n' :: stripFrom 0 rest := by
  induction text with
  | nil => exact strip_cons (not_prefix_of_ne_escape (by decide) rest)
  | cons c cs ih =>
    have hstart : ∀ s ∈ sequences, ¬ s <+: c :: (cs ++ '\n' :: rest) := by
      intro s hs hp
      exact h s hs (infix_of_prefix_line hs hp)
    have hcs : ∀ s ∈ sequences, ¬ s <:+: cs := by
      intro s hs hi
      exact h s hs (List.infix_cons hi)
    rw [List.cons_append, strip_cons hstart, ih hcs, List.cons_append]

end Sequences

/-! ## Texts that meet -/

/-- Without its sequences a styled text is the plain one, whatever follows it. -/
def StripsTo (styled plain : String) : Prop :=
  ∀ rest, stripFrom 0 (styled.toList ++ rest) = plain.toList ++ stripFrom 0 rest

namespace StripsTo
variable {a b c d : String}

theorem append (h : StripsTo a b) (h' : StripsTo c d) : StripsTo (a ++ c) (b ++ d) := by
  intro rest
  rw [String.toList_append, String.toList_append, List.append_assoc, h, h', List.append_assoc]

theorem join {α : Type} {f g : α → String} {xs : List α} (h : ∀ x ∈ xs, StripsTo (f x) (g x)) :
    StripsTo (String.join (xs.map f)) (String.join (xs.map g)) := by
  induction xs with
  | nil =>
    intro rest
    rfl
  | cons x xs ih =>
    obtain ⟨hx, hxs⟩ := List.forall_mem_cons.mp h
    rw [List.map_cons, List.map_cons, String.join_cons, String.join_cons]
    exact hx.append (ih hxs)

theorem strip_eq (h : StripsTo a b) : strip a = b := by
  have hend : stripFrom 0 a.toList = b.toList := by
    have he := h []
    rw [List.append_nil, stripFrom, List.append_nil] at he
    exact he
  rw [strip, hend, String.ofList_toList]

end StripsTo

theorem stripsTo_sequence {text : String} (h : text.toList ∈ sequences) : StripsTo text "" :=
  fun rest => strip_sequence h rest

theorem stripsTo_self {text : String} (h : '\x1b' ∉ text.toList) : StripsTo text text :=
  fun rest => strip_append_of_escape_not_mem h rest

theorem stripsTo_line {text : String} (h : Free text) : StripsTo (text ++ "\n") (text ++ "\n") := by
  have hnewline : "\n".toList = ['\n'] := rfl
  intro rest
  rw [String.toList_append, hnewline, List.append_assoc, List.append_assoc]
  exact strip_line h rest

theorem stripsTo_paint (style : Style) {text : String} (h : '\x1b' ∉ text.toList) :
    StripsTo (Terminal.paint true style text) (Terminal.paint false style text) := by
  have hon : StripsTo style.on "" := by
    apply stripsTo_sequence
    cases style <;> decide +kernel
  have hoff : StripsTo off "" := stripsTo_sequence (by decide +kernel)
  have hpaint := (hon.append (stripsTo_self h)).append hoff
  rw [String.empty_append, String.append_empty] at hpaint
  exact hpaint

end Style

/-! ## Runs with styles -/

def Diagnostic.StyleFree (d : Diagnostic) : Prop :=
  Style.Free d.message ∧ ∀ note ∈ d.notes, Style.Free note

instance : DecidablePred Diagnostic.StyleFree :=
  fun d => inferInstanceAs (Decidable (Style.Free d.message ∧ ∀ note ∈ d.notes, Style.Free note))

def EmitterStep.diagnostics : EmitterStep → List Diagnostic
  | .emit d => [d]
  | .emitAll ds => ds
  | .summary _ => []
  | .flush => []

namespace Terminal
open Style

theorem stripsTo_place (line : UInt32) :
    StripsTo (paint true .dim (Diagnostic.place line)) (paint false .dim (Diagnostic.place line)) :=
  stripsTo_paint .dim (not_mem_around_toString rfl _ (by decide +kernel) (by decide +kernel))

theorem stripsTo_error :
    StripsTo (paint true .redBold "error") (paint false .redBold "error") :=
  stripsTo_paint .redBold (by decide +kernel)

theorem stripsTo_colon : StripsTo ": " ": " :=
  stripsTo_self (by decide +kernel)

theorem stripsTo_heading {d : Diagnostic} (h : Free d.message) :
    StripsTo (heading true d) (heading false d) := by
  have hcode : StripsTo (paint true .bold ("[" ++ d.code.name ++ "]"))
      (paint false .bold ("[" ++ d.code.name ++ "]")) := by
    apply stripsTo_paint
    cases d.code <;> decide +kernel
  -- A message alone could be completed by what follows it, so it goes together with its newline.
  have htail := stripsTo_error.append (hcode.append (stripsTo_colon.append (stripsTo_line h)))
  unfold heading
  cases d.line with
  | none =>
    simp only [String.append_assoc, String.empty_append]
    exact htail
  | some line =>
    have hblank : StripsTo " " " " := stripsTo_self (by decide +kernel)
    simp only [String.append_assoc]
    exact (stripsTo_place line).append (hblank.append htail)

theorem stripsTo_noteLine {note : String} (h : Free note) :
    StripsTo (noteLine true note) (noteLine false note) := by
  have hlabel : StripsTo (paint true .bold "note") (paint false .bold "note") :=
    stripsTo_paint .bold (by decide +kernel)
  have hopen : StripsTo "  = " "  = " := stripsTo_self (by decide +kernel)
  unfold noteLine
  simp only [String.append_assoc]
  exact hopen.append (hlabel.append (stripsTo_colon.append (stripsTo_line h)))

theorem stripsTo_lines {d : Diagnostic} (h : d.StyleFree) :
    StripsTo (String.join (lines true d)) (String.join (lines false d)) := by
  obtain ⟨hmessage, hnotes⟩ := h
  rw [lines, lines, String.join_cons, String.join_cons]
  apply (stripsTo_heading hmessage).append
  exact StripsTo.join fun note hn => stripsTo_noteLine (hnotes note hn)

theorem escape_not_mem_closing (errors : Nat) : '\x1b' ∉ (closing errors).toList := by
  unfold closing
  split
  · decide +kernel
  · exact not_mem_around_toString rfl _ (by decide +kernel) (by decide +kernel)

theorem stripsTo_summaryLines (errors : Nat) :
    StripsTo (String.join (summaryLines true errors)) (String.join (summaryLines false errors)) := by
  unfold summaryLines
  split
  · exact stripsTo_self (by decide +kernel)
  · have hclosing := stripsTo_self (escape_not_mem_closing errors)
    have hnewline : StripsTo "\n" "\n" := stripsTo_self (by decide +kernel)
    simp only [String.join_cons, String.join_nil, String.append_empty]
    exact ((stripsTo_error.append stripsTo_colon).append hclosing).append hnewline

theorem stripsTo_stepText {step : EmitterStep} (h : ∀ d ∈ step.diagnostics, d.StyleFree) :
    StripsTo (stepText true step) (stepText false step) := by
  cases step with
  | emit d => exact stripsTo_lines (h d List.mem_cons_self)
  | emitAll ds => exact StripsTo.join fun d hd => stripsTo_lines (h d hd)
  | summary errors => exact stripsTo_summaryLines errors
  | flush => exact stripsTo_self (by decide +kernel)

theorem stripsTo_runText {steps : List EmitterStep}
    (h : ∀ step ∈ steps, ∀ d ∈ step.diagnostics, d.StyleFree) :
    StripsTo (runText true steps) (runText false steps) :=
  StripsTo.join fun step hs => stripsTo_stepText (h step hs)

theorem exists_stored_strip {steps : List EmitterStep}
    (h : ∀ step ∈ steps, ∀ d ∈ step.diagnostics, d.StyleFree) :
    ∃ text : String,
      ((emitter true).performAll .unlimited steps).stored.toList = bytes text ∧
      ((emitter false).performAll .unlimited steps).stored.toList = bytes (strip text) := by
  refine ⟨runText true steps, stored_performAll_unlimited true steps, ?_⟩
  rw [stored_performAll_unlimited, (stripsTo_runText h).strip_eq]

end Terminal

/-! ## Faults -/

namespace Style

theorem free_of_escape_not_mem {text : String} (h : '\x1b' ∉ text.toList) : Free text := by
  intro s hs hi
  exact h (hi.subset (escape_mem_sequence hs))

/-- One character more does not bring a sequence into a text without escapes and brackets, since a
sequence needs both. -/
theorem free_around {before after : String} (x : Char)
    (he : '\x1b' ∉ (before ++ after).toList) (hb : '[' ∉ (before ++ after).toList) :
    Free (before ++ String.singleton x ++ after) := by
  have hx {c : Char} (hno : c ∉ (before ++ after).toList)
      (hc : c ∈ (before ++ String.singleton x ++ after).toList) : c = x := by
    simp only [String.toList_append, String.toList_singleton, List.mem_append, List.mem_singleton,
      not_or] at hno hc
    rcases hc with (hc | hc) | hc
    · exact absurd hc hno.1
    · exact hc
    · exact absurd hc hno.2
  intro s hs hi
  have hescape := hx he (hi.subset (escape_mem_sequence hs))
  have hbracket := hx hb (hi.subset (bracket_mem_sequence hs))
  rw [← hescape] at hbracket
  exact absurd hbracket (by decide)

theorem free_unexpectedCharacter (x : Char) : Free (Cause.unexpectedCharacter x).message :=
  free_around x (by decide +kernel) (by decide +kernel)

theorem free_codePoint (x : Char) :
    Free ("`" ++ String.singleton x ++ "` is " ++ Cause.codePoint x) := by
  have hno {c : Char} (hmark : c ∉ ("`" ++ "` is ").toList)
      (hnumber : c ∉ (Cause.codePoint x).toList) :
      c ∉ ("`" ++ ("` is " ++ Cause.codePoint x)).toList := by
    rw [← String.append_assoc, String.toList_append, List.mem_append, not_or]
    exact ⟨hmark, hnumber⟩
  rw [String.append_assoc]
  exact free_around x
    (hno (by decide +kernel) (not_mem_codePoint (by decide) rfl x))
    (hno (by decide +kernel) (not_mem_codePoint (by decide) rfl x))

theorem free_of_mem_notes {cause : Cause} {note : String} (h : note ∈ cause.notes) : Free note := by
  cases cause with
  | unexpectedCharacter x =>
    rw [Cause.notes] at h
    split at h
    · rcases List.mem_pair.mp h with rfl | rfl
      · exact free_of_escape_not_mem (by decide +kernel)
      · exact free_codePoint x
    · obtain rfl := List.mem_singleton.mp h
      exact free_of_escape_not_mem (by decide +kernel)
  | unterminatedString | unterminatedComment | malformedCommentClose =>
    obtain rfl := List.mem_singleton.mp h
    exact free_of_escape_not_mem (by decide +kernel)

end Style

/-- Nothing that is said about a fault holds a sequence, not even if the fault is about an escape. -/
theorem styleFree_ofFault (f : Fault) : (Diagnostic.ofFault f).StyleFree := by
  refine ⟨?_, fun note => Style.free_of_mem_notes⟩
  change Style.Free f.cause.message
  cases f.cause with
  | unexpectedCharacter x => exact Style.free_unexpectedCharacter x
  | unterminatedString | unterminatedComment | malformedCommentClose =>
    exact Style.free_of_escape_not_mem (by decide +kernel)

theorem exists_fault_of_mem_sorted {limits : Limits} {faults : List Fault} {d : Diagnostic}
    (h : d ∈ (docketOf limits faults).sorted) : ∃ f, Diagnostic.ofFault f = d := by
  have hkept := List.mem_mergeSort.mp h
  rw [kept_docketOf] at hkept
  obtain ⟨f, -, hf⟩ := List.mem_map.mp hkept
  exact ⟨f, hf⟩

theorem styleFree_checkSteps {limits : Limits} {source : String} {step : EmitterStep}
    (h : step ∈ checkSteps limits source) : ∀ d ∈ step.diagnostics, d.StyleFree := by
  rw [checkSteps] at h
  split at h
  · cases h
  · intro d hd
    have hcases : step = .emitAll (docketOf limits (lex source).faults).sorted ∨
        step = .summary (lex source).faults.length ∨ step = .flush := by
      simpa only [List.mem_cons, List.not_mem_nil, or_false] using h
    rcases hcases with rfl | rfl | rfl
    · obtain ⟨f, rfl⟩ := exists_fault_of_mem_sorted hd
      exact styleFree_ofFault f
    · cases hd
    · cases hd

/-- If no sequence stands in a message or a note, the output of a run with styles becomes that
without them when the sequences are taken out. The diagnostics of faults meet this condition. -/
theorem plain_run_eq_strip :
    (∀ steps : List EmitterStep, (∀ step ∈ steps, ∀ d ∈ step.diagnostics, d.StyleFree) →
      ∃ text : String,
        ((Terminal.emitter true).performAll .unlimited steps).stored.toList = bytes text ∧
        ((Terminal.emitter false).performAll .unlimited steps).stored.toList =
          bytes (Style.strip text)) ∧
    (∀ f : Fault, (Diagnostic.ofFault f).StyleFree) ∧
    ∀ (limits : Limits) (source : String), ∃ text : String,
      (checkSource (Terminal.emitter true) limits source .unlimited).2.stored.toList =
        bytes text ∧
      (checkSource (Terminal.emitter false) limits source .unlimited).2.stored.toList =
        bytes (Style.strip text) := by
  refine ⟨fun steps => Terminal.exists_stored_strip, styleFree_ofFault, fun limits source => ?_⟩
  rw [checkSource_snd, checkSource_snd]
  exact Terminal.exists_stored_strip fun step => styleFree_checkSteps

/-- A run whose texts hold parts of sequences, at the ends where they meet other texts. -/
def partialRun : List EmitterStep :=
  [.emit ⟨.e0002, "m\x1b[1;31", some 7, ["m", "[0m", "\x1b"]⟩, .summary 2]

theorem partialRun_eq_strip :
    (∀ step ∈ partialRun, ∀ d ∈ step.diagnostics, d.StyleFree) ∧
    ∃ text : String,
      ((Terminal.emitter true).performAll .unlimited partialRun).stored.toList = bytes text ∧
      ((Terminal.emitter false).performAll .unlimited partialRun).stored.toList =
        bytes (Style.strip text) := by
  have hfree : ∀ step ∈ partialRun, ∀ d ∈ step.diagnostics, d.StyleFree := by decide +kernel
  exact ⟨hfree, plain_run_eq_strip.1 partialRun hfree⟩

end LoxFront
