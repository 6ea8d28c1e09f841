import LoxFront.Command.Run
import LoxFront.Proofs.Check
import LoxFront.Proofs.LexSource

namespace LoxFront

namespace Session

/-- The status and the console with which a session ends that starts from a console. -/
def finish (s : Session Status) (console : Console) : Status × Console :=
  match s.run.run console with
  | (.ok status, console) => (status, console)
  | (.error status, console) => (status, console)

variable (console : Console) (lines : List String) (next : Unit → Session Status)

theorem finish_pure (status : Status) :
    (pure status : Session Status).finish console = (status, console) :=
  rfl

theorem finish_get (next : Console → Session Status) :
    (get >>= next).finish console = (next console).finish console :=
  rfl

theorem finish_set (console' : Console) :
    (set console' >>= next).finish console = (next ()).finish console' :=
  rfl

theorem finish_print : (print lines >>= next).finish console =
    match console.out.writeAll (lines.map (· ++ "\n")) with
    | (out, none) => (next ()).finish { console with out }
    | (out, some _) => (.crash, { console with out }) := by
  rw [print, bind_assoc, finish_get]
  rcases console.out.writeAll (lines.map (· ++ "\n")) with ⟨out, _ | refusal⟩
  · rfl
  · rfl

theorem finish_complain : (complain lines >>= next).finish console =
    match console.err.writeAll (lines.map (· ++ "\n")) with
    | (err, none) => (next ()).finish { console with err }
    | (err, some _) => (.crash, { console with err }) := by
  rw [complain, bind_assoc, finish_get]
  rcases console.err.writeAll (lines.map (· ++ "\n")) with ⟨err, _ | refusal⟩
  · rfl
  · rfl

end Session

namespace Command
open Session

theorem run_eq_finish (load : String → Except ReadError String) (isTerminal : Bool)
    (console : Console) (command : Command) :
    command.run load isTerminal console = (command.session load isTerminal).finish console :=
  rfl

def afterLex : Except Refusal Bool → Session Status
  | .ok false => pure .success
  | .ok true => pure .dataError
  | .error .brokenPipe => pure .success
  | .error refusal => do
    complain ["error: failed to write tokens: " ++ refusal.message]
    return .failure

theorem finish_runLex (source : String) (console : Console) :
    (runLex source).finish console =
      (afterLex (lexSource source console.out console.err).result).finish
        ⟨(lexSource source console.out console.err).out,
          (lexSource source console.out console.err).err⟩ := by
  rw [runLex, finish_get, finish_set]
  unfold afterLex
  rfl

theorem finish_runCheck (options : CheckOptions) (path source : String) (isTerminal : Bool)
    (console : Console) :
    (runCheck options path source isTerminal).finish console =
      match checkSource (Terminal.emitter (options.color.useColors isTerminal)) options.limits source
        console.err with
      | (.ok tokens, err) => (do
          print [path ++ ": ok (" ++ toString tokens ++ " tokens)"]
          return .success : Session Status).finish { console with err }
      | (.error _, err) => (.dataError, { console with err }) := by
  rw [runCheck, finish_get]
  dsimp only
  rcases checkSource (Terminal.emitter (options.color.useColors isTerminal)) options.limits source
    console.err with ⟨_ | _, err⟩
  · exact finish_set console _ { console with err }
  · exact finish_set console _ { console with err }

end Command

end LoxFront
