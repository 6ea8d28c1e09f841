import LoxFront.Output.Sink
import LoxFront.Token.Basic

namespace LoxFront.Token

def dumpLines (tokens : List Token) : List String :=
  tokens.map fun t => t.dumpLine ++ "\n"

def writeDump (sink : Sink) (tokens : List Token) : Sink × Option Refusal :=
  sink.writeAll (dumpLines tokens)

end LoxFront.Token
