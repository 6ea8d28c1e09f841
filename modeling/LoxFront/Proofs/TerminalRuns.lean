import LoxFront.Diagnostic.Terminal
import LoxFront.Proofs.Check
import LoxFront.Proofs.Sinks

/-! The diagnostics behind a refused write are tried again, but a sink that has refused a write is
full, so nothing of them can be stored. -/
namespace LoxFront
open Text

inductive EmitterStep where
  | emit (d : Diagnostic)
  | emitAll (ds : List Diagnostic)
  | summary (errors : Nat)
  | flush
deriving DecidableEq

namespace Emitter
variable {σ : Type}

def perform (e : Emitter σ) (state : σ) : EmitterStep → σ
  | .emit d => e.emit state d
  | .emitAll ds => e.emitAll state ds
  | .summary errors => e.summary state errors
  | .flush => e.flush state

def performAll (e : Emitter σ) (state : σ) (steps : List EmitterStep) : σ :=
  steps.foldl e.perform state

end Emitter

namespace Terminal

def stepText (color : Bool) : EmitterStep → String
  | .emit d => String.join (lines color d)
  | .emitAll ds => String.join (ds.map fun d => String.join (lines color d))
  | .summary errors => String.join (summaryLines color errors)
  | .flush => ""

def runText (color : Bool) (steps : List EmitterStep) : String :=
  String.join (steps.map (stepText color))

section Room
variable {color : Bool} {room : Option Nat} {s : Sink} {text : String}

theorem keeps_emitAll (h : s.Keeps room text) (ds : List Diagnostic) :
    ((emitter color).emitAll s ds).Keeps room
      (text ++ String.join (ds.map fun d => String.join (lines color d))) := by
  induction ds generalizing s text with
  | nil =>
    rw [List.map_nil, String.join_nil, String.append_empty]
    exact h
  | cons d ds ih =>
    have hfirst : ((emitter color).emit s d).Keeps room (text ++ String.join (lines color d)) :=
      h.writeAll (lines color d)
    rw [List.map_cons, String.join_cons, ← String.append_assoc]
    exact ih hfirst

theorem keeps_perform (h : s.Keeps room text) (step : EmitterStep) :
    ((emitter color).perform s step).Keeps room (text ++ stepText color step) := by
  cases step with
  | emit d => exact h.writeAll (lines color d)
  | emitAll ds => exact keeps_emitAll h ds
  | summary errors => exact h.writeAll (summaryLines color errors)
  | flush =>
    rw [stepText, String.append_empty]
    exact ⟨h.capacity, h.stored⟩

theorem keeps_performAll (h : s.Keeps room text) (steps : List EmitterStep) :
    ((emitter color).performAll s steps).Keeps room (text ++ runText color steps) := by
  induction steps generalizing s text with
  | nil =>
    rw [runText, List.map_nil, String.join_nil, String.append_empty]
    exact h
  | cons step steps ih =>
    rw [runText, List.map_cons, String.join_cons, ← String.append_assoc]
    exact ih (keeps_perform h step)

end Room

/-- What a run leaves in a sink that held nothing before. -/
theorem stored_performAll (color : Bool) (room : Option Nat) (steps : List EmitterStep) :
    ((emitter color).performAll (.ofCapacity room) steps).stored.toList =
      Sink.upTo room (bytes (runText color steps)) := by
  have h : ((emitter color).performAll (.ofCapacity room) steps).Keeps room
      ("" ++ runText color steps) :=
    keeps_performAll (Sink.keeps_ofCapacity room) steps
  rw [String.empty_append] at h
  exact h.stored

theorem stored_performAll_unlimited (color : Bool) (steps : List EmitterStep) :
    ((emitter color).performAll .unlimited steps).stored.toList = bytes (runText color steps) :=
  stored_performAll color none steps

end Terminal

def checkSteps (limits : Limits) (source : String) : List EmitterStep :=
  if (lex source).faults = [] then []
  else
    [.emitAll (docketOf limits (lex source).faults).sorted, .summary (lex source).faults.length,
      .flush]

section Check
variable {σ τ : Type} (limits : Limits) (source : String)

theorem checkSource_snd (emitter : Emitter σ) (state : σ) :
    (checkSource emitter limits source state).2 =
      emitter.performAll state (checkSteps limits source) := by
  by_cases h : (lex source).faults = []
  · rw [checkSource_of_clean emitter limits state h, checkSteps, if_pos h]
    rfl
  · rw [checkSource_of_pos emitter limits state (List.length_pos_iff.mpr h), checkSteps, if_neg h]
    rfl

/-- The result of a check depends neither on its emitter nor on what happens to it. -/
theorem checkSource_fst_eq (emitter : Emitter σ) (state : σ) (other : Emitter τ) (state' : τ) :
    (checkSource emitter limits source state).1 = (checkSource other limits source state').1 := by
  by_cases h : (lex source).faults = []
  · rw [checkSource_of_clean emitter limits state h, checkSource_of_clean other limits state' h]
  · have hpos := List.length_pos_iff.mpr h
    rw [checkSource_of_pos emitter limits state hpos, checkSource_of_pos other limits state' hpos]

end Check

/-- A run leaves in a sink of any capacity exactly as many bytes from the start of its output as the
capacity allows, and the capacity does not change the result of a check. -/
theorem capacity_only_truncates (color : Bool) (capacity : Nat) :
    (∀ steps : List EmitterStep,
      ((Terminal.emitter color).performAll (.ofCapacity (some capacity)) steps).stored.toList =
        ((Terminal.emitter color).performAll .unlimited steps).stored.toList.take capacity) ∧
    ∀ (limits : Limits) (source : String),
      (checkSource (Terminal.emitter color) limits source (.ofCapacity (some capacity))).1 =
        (checkSource (Terminal.emitter color) limits source .unlimited).1 ∧
      (checkSource (Terminal.emitter color) limits source
          (.ofCapacity (some capacity))).2.stored.toList =
        (checkSource (Terminal.emitter color) limits source .unlimited).2.stored.toList.take
          capacity := by
  have hcut (steps : List EmitterStep) :
      ((Terminal.emitter color).performAll (.ofCapacity (some capacity)) steps).stored.toList =
        ((Terminal.emitter color).performAll .unlimited steps).stored.toList.take capacity := by
    rw [Terminal.stored_performAll, Terminal.stored_performAll_unlimited]
    rfl
  refine ⟨hcut, fun limits source => ⟨checkSource_fst_eq limits source _ _ _ _, ?_⟩⟩
  rw [checkSource_snd, checkSource_snd]
  exact hcut (checkSteps limits source)

/-- The cut is in the first note. What comes behind it is shorter, but finds no room either. -/
example : Text.ofBytes ((Terminal.emitter false).performAll (.ofCapacity (some 20))
    [.emit ⟨.e0001, "a", none, ["b"]⟩, .emit ⟨.e0002, "c", none, []⟩, .summary 2]).stored.toList =
    "error[E0001]: a\n  = " := by
  decide +kernel

end LoxFront
