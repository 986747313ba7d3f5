import MatrixLisp.Console.Command

/-!
# The command line

Without a command the interactive session starts. All that the commands write is computed in
`MatrixLisp.Console.Command`; here arguments, files and streams are handled.
-/
namespace MatrixLisp.Main

open Console

inductive Request where
  | repl (history : Option String) (noHistory : Bool)
  | eval (expr : String)
  | run (path : String)
  | usage

structure Options where
  verbose : Bool
  quiet : Bool
  request : Request

/-- Reads the options of the interactive session. -/
def replRequest : List String → Option String → Bool → Request
  | [], history, noHistory => .repl history noHistory
  | "--no-history" :: rest, history, _ => replRequest rest history true
  | "--history" :: path :: rest, _, noHistory => replRequest rest (some path) noHistory
  | _, _, _ => .usage

def request : List String → Request
  | [] => .repl none false
  | "repl" :: rest => replRequest rest none false
  | ["eval", "--", expr] => .eval expr
  | ["eval", expr] => .eval expr
  | ["run", "--", path] => .run path
  | ["run", path] => .run path
  | _ => .usage

/-- Reads a command line; the two flags may stand anywhere before `--`. -/
def options (args : List String) : Options :=
  let flags := args.takeWhile (· != "--")
  let isVerbose (s : String) := s == "--verbose" || s == "-v"
  let isQuiet (s : String) := s == "--quiet" || s == "-q"
  { verbose := flags.any isVerbose
    quiet := flags.any isQuiet
    request :=
      request (flags.filter (fun s => !(isVerbose s || isQuiet s)) ++ args.drop flags.length) }

def usageText : String :=
  "Usage: mlisp [--verbose] [--quiet] [COMMAND]\n" ++
  "Commands: repl [--history FILE] [--no-history], eval EXPR, run FILE\n"

def errorReason : IO.Error → String
  | .noFileOrDirectory .. => "No such file or directory (os error 2)"
  | .permissionDenied .. => "Permission denied (os error 13)"
  | .inappropriateType .. => "Is a directory (os error 21)"
  | e => toString e

/-- Writes a transcript and gives its exit code. -/
def write (t : Transcript) : IO UInt32 := do
  IO.print t.out
  IO.eprint t.err
  return t.exit.toUInt32

/-- Answers the lines of standard input. -/
partial def interact (prompt : String) (m : Machine) (entered : List String) :
    IO (List String) := do
  let stdin ← IO.getStdin
  if ← stdin.isTty then
    IO.print prompt
    (← IO.getStdout).flush
  let line ← stdin.getLine
  if line.isEmpty then return entered
  let text := Text.trim line
  if text.isEmpty then interact prompt m entered
  else
    let (reply, m) := answer text m
    IO.print reply.out
    IO.eprint reply.err
    (← IO.getStdout).flush
    if reply.quit then return text :: entered
    interact prompt m (text :: entered)

/-- Runs an interactive session and saves what was entered. -/
def repl (settings : Settings) (seed : Nat) : IO UInt32 := do
  IO.print banner
  let entered ← interact settings.prompt (Session.start seed) []
  if let some path := settings.history then
    if !entered.isEmpty then
      try
        IO.FS.writeFile path (String.join (entered.reverse.map (· ++ "\n")))
      catch e => IO.eprint (historyWarning path (errorReason e))
  IO.print farewell
  return 0

/-- The content of a file, or the reason why it cannot be read. -/
def content (path : String) : IO (Except String String) := do
  try
    return .ok (← IO.FS.readFile path)
  catch e => return .error (errorReason e)

def run (args : List String) : IO UInt32 := do
  let o := options args
  let seed ← IO.rand 0 2147483647
  match o.request with
  | .repl history noHistory =>
    let fromEnv ← IO.getEnv historyVariable
    repl (.resolve history fromEnv noHistory) seed
  | .eval expr => write (evalCommand expr o.verbose o.quiet seed)
  | .run path => write (runCommand path (← content path) o.verbose o.quiet seed)
  | .usage =>
    IO.eprint usageText
    return 2

end MatrixLisp.Main

def main (args : List String) : IO UInt32 := MatrixLisp.Main.run args
