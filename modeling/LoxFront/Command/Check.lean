import LoxFront.Diagnostic.Docket
import LoxFront.Diagnostic.Emitter
import LoxFront.Diagnostic.OfFault
import LoxFront.Lexed

namespace LoxFront

def docketOf (limits : Limits) (faults : List Fault) : Docket :=
  (Docket.empty limits).pushAll (faults.map Diagnostic.ofFault)

/-- A source without faults gives its number of tokens, and the emitter is not called. Otherwise the
kept diagnostics are emitted in the order of lines, then the number of all faults. -/
def checkSource {σ : Type} (emitter : Emitter σ) (limits : Limits) (source : String) (state : σ) :
    Except Failed Nat × σ :=
  let lexed := lex source
  let docket := docketOf limits lexed.faults
  match docket.failed? with
  | none => (.ok lexed.tokens.length, state)
  | some failed =>
    let emitted := emitter.emitAll state docket.sorted
    (.error failed, emitter.flush (emitter.summary emitted docket.tally.total))

end LoxFront
