import LoxFront.Lexed
import LoxFront.Token.Dump

namespace LoxFront

def faultLine (line : UInt32) (message : String) : String :=
  "[line " ++ toString line.toNat ++ "] Error: " ++ message ++ "\n"

structure FaultLog where
  sink : Sink
  refused : Option Refusal

def FaultLog.report : Reporter FaultLog := fun log line message =>
  match log.refused with
  | some _ => log
  | none =>
    let (sink, refused) := log.sink.write (faultLine line message)
    ⟨sink, refused⟩

/-- Whether the source has faults, unless a write was refused. -/
structure LexOutcome where
  result : Except Refusal Bool
  out : Sink
  err : Sink

/-- Faults go to one sink as they are found, then the token dump to the other. If a fault cannot be
written, no token is. -/
def lexSource (source : String) (out err : Sink) : LexOutcome :=
  let (lexed, log) := lexWith FaultLog.report ⟨err, none⟩ source
  match log.refused with
  | some refusal => ⟨.error refusal, out, log.sink⟩
  | none =>
    match Token.writeDump out lexed.tokens with
    | (out, some refusal) => ⟨.error refusal, out, log.sink⟩
    | (out, none) => ⟨.ok lexed.hasFaults, out, log.sink⟩

end LoxFront
