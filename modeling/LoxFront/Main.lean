import LoxFront.Command.Run

namespace LoxFront

def errorNumber (code : UInt32) : Nat :=
  if 0x80000000 ≤ code.toNat then UInt32.size - code.toNat else code.toNat

def readFaultOf (e : IO.Error) : ReadFault :=
  match e with
  | .noFileOrDirectory _ _ _ => .notFound
  | .permissionDenied _ _ _ => .permissionDenied
  | .inappropriateType _ code _ | .invalidArgument _ code _ | .resourceExhausted _ code _ =>
    match errorNumber code with
    | 20 => .notDirectory
    | 21 => .isDirectory
    | 36 => .nameTooLong
    | _ => .other e.toString
  | e => .other e.toString

def loadSource (path : String) : IO (Except ReadError String) := do
  if path.toList.contains '\x00' then return .error ⟨path, .nulInName⟩
  try
    let content ← IO.FS.readBinFile path
    return decodeContent path content.toList
  catch e => return .error ⟨path, readFaultOf e⟩

def deliver (stream : IO.FS.Stream) (bytes : List UInt8) : IO (Option Refusal) := do
  if bytes.isEmpty then return none
  try
    stream.write bytes.toByteArray
    stream.flush
    return none
  catch e =>
    match e with
    | .resourceVanished _ _ => return some .brokenPipe
    | _ => return some .noSpace

end LoxFront

open LoxFront in
/-- Runs the command on streams that take everything, and once more for each stream that turns out
not to. -/
def main (args : List String) : IO UInt32 := do
  let command := Command.ofArgs args
  let source ←
    match command.file? with
    | some path => loadSource path
    | none => pure (.error ⟨"", .notFound⟩)
  let stdout ← IO.getStdout
  let stderr ← IO.getStderr
  let isTerminal ← stderr.isTty
  let run := fun (out err : Option Refusal) =>
    command.run (fun _ => source) isTerminal ⟨sinkOf out, sinkOf err⟩
  let shown := (run none none).2.err.stored.toList
  let err ← deliver stderr shown
  let (status, console) := run none err
  let out ← deliver stdout console.out.stored.toList
  if out.isNone then return UInt32.ofNat status.code
  let (status, console) := run out err
  let _ ← deliver stderr (console.err.stored.toList.drop shown.length)
  return UInt32.ofNat status.code
