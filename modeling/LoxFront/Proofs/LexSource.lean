import LoxFront.Command.Lex
import LoxFront.Proofs.Contributions
import LoxFront.Proofs.Sinks

namespace LoxFront
open Text

def faultReport (source : String) : String :=
  String.join ((lex source).faults.map fun f =>
    "[line " ++ toString f.line.toNat ++ "] Error: " ++ f.message ++ "\n")

def tokenDump (source : String) : String :=
  String.join ((lex source).tokens.map fun t => t.dumpLine ++ "\n")

theorem tell_of_refused (sink : Sink) (refusal : Refusal) (faults : List Fault) :
    Reporter.tell FaultLog.report ⟨sink, some refusal⟩ faults = ⟨sink, some refusal⟩ := by
  induction faults with
  | nil => rfl
  | cons f faults ih => exact ih

theorem tell_eq_writeAll (sink : Sink) (faults : List Fault) :
    Reporter.tell FaultLog.report ⟨sink, none⟩ faults =
      ⟨(sink.writeAll (faults.map fun f => faultLine f.line f.message)).1,
        (sink.writeAll (faults.map fun f => faultLine f.line f.message)).2⟩ := by
  induction faults generalizing sink with
  | nil => rfl
  | cons f faults ih =>
    have hreport : FaultLog.report ⟨sink, none⟩ f.line f.message =
        ⟨(sink.write (faultLine f.line f.message)).1,
          (sink.write (faultLine f.line f.message)).2⟩ := by
      simp only [FaultLog.report]
    rw [Reporter.tell, List.foldl_cons, hreport, List.map_cons, Sink.writeAll]
    generalize sink.write (faultLine f.line f.message) = written
    obtain ⟨s, refused⟩ := written
    cases refused with
    | none => exact ih s
    | some refusal => exact tell_of_refused s refusal faults

/-- The lex command is two writings, the second one only if the first is not refused. -/
theorem lexSource_eq (source : String) (out err : Sink) :
    lexSource source out err =
      match err.writeAll ((lex source).faults.map fun f => faultLine f.line f.message) with
      | (err, some refusal) => ⟨.error refusal, out, err⟩
      | (err, none) =>
        match Token.writeDump out (lex source).tokens with
        | (out, some refusal) => ⟨.error refusal, out, err⟩
        | (out, none) => ⟨.ok (lex source).hasFaults, out, err⟩ := by
  unfold lexSource
  rw [← Prod.eta (lexWith FaultLog.report ⟨err, none⟩ source), lexWith_fst, lexWith_snd,
    tell_eq_writeAll]
  generalize err.writeAll _ = written
  obtain ⟨err, refused⟩ := written
  cases refused <;> rfl

/-- The lex command fills the sink for faults with their lines as far as they fit, and only if all
of them do it fills the other one with the token dump. -/
theorem lexSource_fills (source : String) (out err : Option Nat) :
    (Sink.exceeds err (bytes (faultReport source)) = true →
      (lexSource source (.ofCapacity out) (.ofCapacity err)).result = .error .full ∧
      (lexSource source (.ofCapacity out) (.ofCapacity err)).err.stored.toList =
        Sink.upTo err (bytes (faultReport source)) ∧
      (lexSource source (.ofCapacity out) (.ofCapacity err)).out = .ofCapacity out) ∧
    (Sink.exceeds err (bytes (faultReport source)) = false →
      (lexSource source (.ofCapacity out) (.ofCapacity err)).err.stored.toList =
        bytes (faultReport source) ∧
      (lexSource source (.ofCapacity out) (.ofCapacity err)).out.stored.toList =
        Sink.upTo out (bytes (tokenDump source)) ∧
      (lexSource source (.ofCapacity out) (.ofCapacity err)).result =
        if Sink.exceeds out (bytes (tokenDump source)) then .error .full
        else .ok (decide ((lex source).faults ≠ []))) := by
  obtain ⟨hstored, hrefused⟩ := Sink.writeAll_ofCapacity err
    ((lex source).faults.map fun f => faultLine f.line f.message)
  obtain ⟨htokens, hcut⟩ := Sink.writeAll_ofCapacity out (Token.dumpLines (lex source).tokens)
  have hreport : String.join ((lex source).faults.map fun f => faultLine f.line f.message) =
      faultReport source := rfl
  have hdump : String.join (Token.dumpLines (lex source).tokens) = tokenDump source := rfl
  have hfaults : (lex source).hasFaults = decide ((lex source).faults ≠ []) := by
    unfold Lexed.hasFaults
    cases (lex source).faults <;> rfl
  rw [hreport] at hstored hrefused
  rw [hdump] at htokens hcut
  rw [lexSource_eq, Token.writeDump, ← hfaults]
  generalize Sink.writeAll (.ofCapacity err) _ = report at hstored hrefused ⊢
  generalize Sink.writeAll (.ofCapacity out) _ = dump at htokens hcut ⊢
  obtain ⟨errSink, refused⟩ := report
  obtain ⟨outSink, cut⟩ := dump
  subst hrefused hcut
  constructor
  · intro h
    rw [h]
    exact ⟨rfl, hstored, rfl⟩
  · intro h
    have hwhole := Sink.upTo_of_not_exceeds h
    rw [hwhole] at hstored
    rw [h]
    cases hx : Sink.exceeds out (bytes (tokenDump source)) with
    | true => exact ⟨hstored, htokens, rfl⟩
    | false => exact ⟨hstored, htokens, rfl⟩

/-- A sink for faults that ends inside a letter of two bytes stops the run; two sinks that are exactly
filled do not. -/
theorem lexSource_fills_letter :
    Sink.exceeds (some 39) (bytes (faultReport "é1")) = true ∧
      (lexSource "é1" (.ofCapacity none) (.ofCapacity (some 39))).result = .error .full ∧
      (lexSource "é1" (.ofCapacity none) (.ofCapacity (some 39))).err.stored.toList =
        bytes "[line 1] Error: Unexpected character '" ++ [0xC3] ∧
      (lexSource "é1" (.ofCapacity none) (.ofCapacity (some 39))).out = .ofCapacity none ∧
      Sink.exceeds (some 43) (bytes (faultReport "é1")) = false ∧
      (lexSource "é1" (.ofCapacity (some 30)) (.ofCapacity (some 43))).out.stored.toList =
        bytes "NUMBER '1' 1.0 @ 1\nEOF '' @ 1\n" ∧
      (lexSource "é1" (.ofCapacity (some 30)) (.ofCapacity (some 43))).result = .ok true := by
  have hreport : faultReport "é1" = "[line 1] Error: Unexpected character 'é'.\n" := by
    decide +kernel
  have hdump : tokenDump "é1" = "NUMBER '1' 1.0 @ 1\nEOF '' @ 1\n" := by
    decide +kernel
  have hfaults : (lex "é1").faults ≠ [] := by
    decide +kernel
  have hcut : Sink.exceeds (some 39) (bytes (faultReport "é1")) = true := by
    rw [hreport]
    decide
  have hfull : Sink.exceeds (some 43) (bytes (faultReport "é1")) = false := by
    rw [hreport]
    decide
  have hwhole : Sink.exceeds (some 30) (bytes (tokenDump "é1")) = false := by
    rw [hdump]
    decide
  obtain ⟨hresult, hstored, hout⟩ := (lexSource_fills "é1" none (some 39)).1 hcut
  obtain ⟨-, htokens, hok⟩ := (lexSource_fills "é1" (some 30) (some 43)).2 hfull
  rw [hreport] at hstored
  rw [Sink.upTo_of_not_exceeds hwhole, hdump] at htokens
  rw [hwhole, if_neg Bool.false_ne_true, decide_eq_true hfaults] at hok
  exact ⟨hcut, hresult, hstored.trans (by decide), hout, hfull, htokens, hok⟩

end LoxFront
