import LoxFront.Command.Check
import LoxFront.Command.Explain
import LoxFront.Command.Files
import LoxFront.Command.Lex
import LoxFront.Command.Options

/-! The command line: what some arguments ask for, and how it is done on a console. -/
namespace LoxFront

inductive Status where
  | success
  | failure
  | dataError
  /-- A message could not be printed. -/
  | crash
deriving DecidableEq

def Status.code : Status → Nat
  | success => 0
  | failure => 1
  | dataError => 65
  | crash => 101

inductive Misuse where
  | lexWithoutFile
  | checkOption (error : OptionError)
  | checkWithoutFile
  | explainWithoutCode
  | unknownCommand (name : String)
deriving DecidableEq

inductive Command where
  | usage
  | version
  | lex (path : String)
  | check (options : CheckOptions) (path : String)
  | explain (code : String)
  | misuse (m : Misuse)
deriving DecidableEq

namespace Command

/-- The check command with its arguments. A faulty option counts before a missing file. -/
def ofCheckArgs (args : List String) : Command :=
  match CheckOptions.ofArgs args with
  | .error e => .misuse (.checkOption e)
  | .ok options =>
    match positional? args with
    | some path => .check options path
    | none => .misuse .checkWithoutFile

def ofArgs : List String → Command
  | [] => .usage
  | "lex" :: args =>
    match positional? args with
    | some path => .lex path
    | none => .misuse .lexWithoutFile
  | "check" :: args => ofCheckArgs args
  | "explain" :: args | "--explain" :: args =>
    match args with
    | code :: _ => .explain code
    | [] => .misuse .explainWithoutCode
  | name :: _ =>
    if name ∈ ["help", "--help", "-h"] then .usage
    else if name ∈ ["version", "--version", "-V"] then .version
    else .misuse (.unknownCommand name)

def file? : Command → Option String
  | .lex path | .check _ path => some path
  | _ => none

end Command

structure Console where
  out : Sink
  err : Sink

/-- A run on a console. It can end before its last step. -/
abbrev Session := ExceptT Status (StateM Console)

namespace Session

/-- Prints lines. A stream that refuses one ends the run. -/
def print (lines : List String) : Session Unit := do
  let console ← get
  let (out, refused) := console.out.writeAll (lines.map (· ++ "\n"))
  set { console with out }
  if refused.isSome then throw .crash

def complain (lines : List String) : Session Unit := do
  let console ← get
  let (err, refused) := console.err.writeAll (lines.map (· ++ "\n"))
  set { console with err }
  if refused.isSome then throw .crash

end Session

namespace Command

def usageLines : List String :=
  ["Lox front end",
    "",
    "Usage: lox <command> [options]",
    "",
    "Commands:",
    "  lex <file.lox>       Tokenize and display tokens",
    "  check <file.lox>     Report lexical errors as diagnostics",
    "  explain <code>       Explain an error code (e.g., E0002)",
    "  help                 Show this help message",
    "  version              Show version information",
    "",
    "Check options:",
    "  --color=<mode>       Color output: auto, always, never",
    "  --error-limit=<n>    Stop after n errors (0 = unlimited, default 10)",
    "  --no-dedup           Show repeated identical errors",
    "",
    "Set RUST_LOG (e.g. RUST_LOG=debug) to enable tracing output."]

def checkUsageLines : List String :=
  ["Usage: lox check <file.lox> [options]",
    "",
    "Options:",
    "  --color=<mode>       Color output: auto, always, never",
    "  --error-limit=<n>    Stop after n errors (0 = unlimited)",
    "  --no-dedup           Show repeated identical errors"]

def versionLine : String :=
  "lox 0.1.0"

def runMisuse : Misuse → Session Status
  | .lexWithoutFile => do
    Session.complain ["Usage: lox lex <file.lox>"]
    return .failure
  | .checkOption e => do
    Session.complain ["error: " ++ e.message]
    return .failure
  | .checkWithoutFile => do
    Session.complain checkUsageLines
    return .failure
  | .explainWithoutCode => do
    Session.complain ["Usage: lox explain <ERROR_CODE>", "Example: lox explain E0002"]
    return .failure
  | .unknownCommand name => do
    Session.complain ["Unknown command: " ++ name, ""]
    Session.print usageLines
    return .failure

/-- Prints the token dump of a source. A reader who has gone away is no failure. -/
def runLex (source : String) : Session Status := do
  let console ← get
  let outcome := lexSource source console.out console.err
  set ({ out := outcome.out, err := outcome.err } : Console)
  match outcome.result with
  | .ok false => return .success
  | .ok true => return .dataError
  | .error .brokenPipe => return .success
  | .error refusal =>
    Session.complain ["error: failed to write tokens: " ++ refusal.message]
    return .failure

/-- Shows the diagnostics of a source. Diagnostics that cannot be written are lost. -/
def runCheck (options : CheckOptions) (path source : String) (isTerminal : Bool) :
    Session Status := do
  let console ← get
  let emitter := Terminal.emitter (options.color.useColors isTerminal)
  let (result, err) := checkSource emitter options.limits source console.err
  set { console with err }
  match result with
  | .ok tokens =>
    Session.print [path ++ ": ok (" ++ toString tokens ++ " tokens)"]
    return .success
  | .error _ => return .dataError

def runExplain (code : String) : Session Status := do
  match LoxFront.explain code with
  | .ok page =>
    Session.print [page]
    return .success
  | .error e =>
    Session.complain (("error: " ++ e.message) :: e.hints)
    return .failure

def withSource (source : Except ReadError String) (next : String → Session Status) :
    Session Status := do
  match source with
  | .ok text => next text
  | .error e =>
    Session.complain ["error: " ++ e.message]
    return .failure

/-- Does what a command asks for. Files are looked up in `load`, and `isTerminal` says whether the
stream for errors is a terminal. -/
def session (load : String → Except ReadError String) (isTerminal : Bool) :
    Command → Session Status
  | .usage => do
    Session.print usageLines
    return .success
  | .version => do
    Session.print [versionLine]
    return .success
  | .lex path => withSource (load path) runLex
  | .check options path =>
    withSource (load path) fun source => runCheck options path source isTerminal
  | .explain code => runExplain code
  | .misuse m => runMisuse m

def run (load : String → Except ReadError String) (isTerminal : Bool) (console : Console)
    (command : Command) : Status × Console :=
  match (command.session load isTerminal).run.run console with
  | (.ok status, console) => (status, console)
  | (.error status, console) => (status, console)

end Command

end LoxFront
