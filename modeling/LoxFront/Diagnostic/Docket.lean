import LoxFront.Diagnostic.Basic
import LoxFront.Diagnostic.Failed

/-! A docket keeps at most so many diagnostics of a run for display and folds repeats. Every
diagnostic offered to it is counted, kept or not. -/
namespace LoxFront

structure Limits where
  /-- The most diagnostics kept; 0 means any number. -/
  errorLimit : Nat
  deduplicate : Bool
deriving DecidableEq

namespace Limits

def standard : Limits :=
  ⟨10, true⟩

def unlimited : Limits :=
  ⟨0, false⟩

end Limits

structure Tally where
  shown : Nat
  overLimit : Nat
  repeated : Nat
deriving DecidableEq

def Tally.total (t : Tally) : Nat :=
  t.shown + t.overLimit + t.repeated

inductive Verdict where
  | kept
  | overLimit
  | repeated
deriving DecidableEq

abbrev Diagnostic.Key := Option UInt32 × Code × String

def Diagnostic.key (d : Diagnostic) : Diagnostic.Key :=
  (d.line, d.code, d.message)

structure Docket where
  limits : Limits
  kept : Array Diagnostic
  /-- The keys of the diagnostics offered, if repeats are folded. -/
  seen : List Diagnostic.Key
  tally : Tally

namespace Docket

def empty (limits : Limits) : Docket :=
  ⟨limits, #[], [], ⟨0, 0, 0⟩⟩

def limitReached (d : Docket) : Bool :=
  d.limits.errorLimit != 0 && d.limits.errorLimit ≤ d.tally.shown

def add (d : Docket) (diagnostic : Diagnostic) : Verdict × Docket :=
  if d.limitReached then
    (.overLimit, { d with tally := { d.tally with overLimit := d.tally.overLimit + 1 } })
  else
    (.kept,
      { d with
        kept := d.kept.push diagnostic
        tally := { d.tally with shown := d.tally.shown + 1 } })

/-- Offers a diagnostic. A repeat is folded before the limit is looked at, so it takes no place. A
diagnostic over the limit is remembered like one that is kept. -/
def push (d : Docket) (diagnostic : Diagnostic) : Verdict × Docket :=
  if d.limits.deduplicate then
    if d.seen.contains diagnostic.key then
      (.repeated, { d with tally := { d.tally with repeated := d.tally.repeated + 1 } })
    else { d with seen := diagnostic.key :: d.seen }.add diagnostic
  else d.add diagnostic

def pushAll (d : Docket) (diagnostics : List Diagnostic) : Docket :=
  diagnostics.foldl (fun d diagnostic => (d.push diagnostic).2) d

def failed? (d : Docket) : Option Failed :=
  Failed.ofCount? d.tally.total

/-- The place of a diagnostic in the order of lines. One without a line comes before all others. -/
def linePlace (d : Diagnostic) : Nat :=
  match d.line with
  | none => 0
  | some line => line.toNat + 1

/-- The kept diagnostics in the order of lines; those of one line stay in the order they came. -/
def sorted (d : Docket) : List Diagnostic :=
  d.kept.toList.mergeSort fun a b => linePlace a ≤ linePlace b

end Docket

end LoxFront
