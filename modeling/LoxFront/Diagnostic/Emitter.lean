import LoxFront.Diagnostic.Basic

namespace LoxFront

/-- An emitter, by how its state changes when it is called. -/
structure Emitter (σ : Type) where
  emit : σ → Diagnostic → σ
  summary : σ → Nat → σ
  flush : σ → σ

def Emitter.emitAll {σ : Type} (e : Emitter σ) (state : σ) (diagnostics : List Diagnostic) : σ :=
  diagnostics.foldl e.emit state

inductive EmitterCall where
  | emit (d : Diagnostic)
  | summary (errors : Nat)
  | flush
deriving DecidableEq

def Emitter.recording : Emitter (Array EmitterCall) where
  emit calls d := calls.push (.emit d)
  summary calls errors := calls.push (.summary errors)
  flush calls := calls.push .flush

end LoxFront
