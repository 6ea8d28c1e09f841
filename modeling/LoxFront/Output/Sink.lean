import LoxFront.Text.Utf8

/-! A sink may hold only so many bytes. A write that does not fit stores the part that does and is
refused. -/
namespace LoxFront

inductive Refusal where
  | full
  | brokenPipe
  | noSpace
deriving DecidableEq

def Refusal.message : Refusal → String
  | full => "sink full"
  | brokenPipe => "Broken pipe (os error 32)"
  | noSpace => "No space left on device (os error 28)"

structure Sink where
  stored : Array UInt8
  capacity : Option Nat
  refusal : Refusal
  flushes : Nat

namespace Sink

def unlimited : Sink :=
  ⟨#[], none, .full, 0⟩

def ofCapacity (capacity : Option Nat) : Sink :=
  ⟨#[], capacity, .full, 0⟩

def refusing (refusal : Refusal) : Sink :=
  ⟨#[], some 0, refusal, 0⟩

def fitting (s : Sink) (bytes : List UInt8) : List UInt8 :=
  match s.capacity with
  | none => bytes
  | some n => bytes.take (n - s.stored.size)

/-- Stores a text as far as it fits. Gives the refusal if some of it does not. -/
def write (s : Sink) (text : String) : Sink × Option Refusal :=
  let bytes := Text.bytes text
  let fits := s.fitting bytes
  let refused := if fits.length < bytes.length then some s.refusal else none
  ({ s with stored := s.stored ++ fits }, refused)

def writeAll (s : Sink) : List String → Sink × Option Refusal
  | [] => (s, none)
  | text :: texts =>
    match s.write text with
    | (t, none) => t.writeAll texts
    | (t, some refusal) => (t, some refusal)

def flush (s : Sink) : Sink :=
  { s with flushes := s.flushes + 1 }

end Sink

/-- The sink that behaves like a stream that took all that was written to it, or refused it. -/
def sinkOf (refused : Option Refusal) : Sink :=
  match refused with
  | none => Sink.unlimited
  | some refusal => Sink.refusing refusal

end LoxFront
