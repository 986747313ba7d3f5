import MatrixLisp.Console.Settings
import MatrixLisp.Session

/-!
# Console commands

Each command is a function from its input to what it writes. `eval` evaluates an expression and
writes its value, `run` evaluates a file, and the interactive session answers line by line. A line
that starts with a colon is a command of the session itself.
-/
namespace MatrixLisp.Console

inductive CommandError where
  | unreadable (path reason : String)
  | read (e : ReadError)
  | failed (f : Failure)

def haltText : Halt → String
  | .fault f => f.report.consoleText
  | .tooDeep => "evaluation is nested too deeply"
  | .crash .missingArgument => "a builtin lacks an argument"
  | .crash .refusedBounds => "a random number was drawn between bounds that allow none"

namespace CommandError

def text : CommandError → String
  | unreadable path reason => "cannot read file '" ++ path ++ "': " ++ reason
  | read e => "read error: " ++ e.text
  | failed f => haltText f.halt

/-- The diagnostic that tells of the error at its place in the source. -/
def diagnostic? : CommandError → Option Diagnostic
  | unreadable .. => none
  | read e => some e.diagnostic
  | failed ⟨.fault f, span⟩ => some (.ofReport f.report span)
  | failed _ => none

def isShown (e : CommandError) : Bool := e.diagnostic?.isSome

end CommandError

/-- What a command writes, and its exit code. -/
structure Transcript where
  exit : Nat
  out : String
  err : String
  deriving DecidableEq

def infoLine (message : String) : String := "\x1b[34minfo:\x1b[0m " ++ message ++ "\n"

def warningLine (message : String) : String := "\x1b[33mwarning:\x1b[0m " ++ message ++ "\n"

def errorLine (message : String) : String := "\x1b[31merror:\x1b[0m " ++ message ++ "\n"

def reportLine (r : Report) : String :=
  "\x1b[31m[" ++ r.kind.label ++ "]\x1b[0m: " ++ r.message ++ "\n"

def haltLine : Halt → String
  | .fault f => reportLine f.report
  | h => errorLine (haltText h)

def diagnosticLines (d : Diagnostic) : String :=
  let code := (d.code.map fun c => "[" ++ c.text ++ "] ").getD ""
  let labels := d.labels.map fun l => "  " ++ l.span.text ++ ": " ++ l.message ++ "\n"
  let notes := d.notes.map fun n => "  note: " ++ n ++ "\n"
  let help := (d.help.map fun h => "  help: " ++ h ++ "\n").getD ""
  code ++ d.message ++ "\n" ++ String.join labels ++ String.join notes ++ help

def errorText (quiet : Bool) (e : CommandError) : String :=
  match e.diagnostic? with
  | some d => diagnosticLines d
  | none => if quiet then "" else errorLine e.text

/-- Reads and evaluates a program on a fresh machine. What `announce` makes of the forms is written
before anything is evaluated. -/
def execute (source : String) (seed : Nat) (announce : List Reader.Form → String) :
    Except CommandError Value × String :=
  match Reader.readAll source with
  | .error e => (.error (.read e), "")
  | .ok forms =>
    match Program.evalForms forms .nil (Session.start seed) with
    | (.ok v, m) => (.ok v, announce forms ++ m.output)
    | (.error f, m) => (.error (.failed f), announce forms ++ m.output)

/-- Evaluates an expression and writes its value. -/
def evalCommand (expr : String) (verbose quiet : Bool) (seed : Nat) : Transcript :=
  let announce (forms : List Reader.Form) :=
    if verbose then String.join (forms.map fun form => infoLine ("form: " ++ form.1.render)) else ""
  match execute expr seed announce with
  | (.ok v, out) => ⟨0, out ++ v.render ++ "\n", ""⟩
  | (.error e, out) => ⟨1, out, errorText quiet e⟩

/-- Evaluates a file, given its content or the reason why it cannot be read. -/
def runCommand (path : String) (content : Except String String) (verbose quiet : Bool)
    (seed : Nat) : Transcript :=
  match content with
  | .error reason => ⟨1, "", errorText quiet (.unreadable path reason)⟩
  | .ok source =>
    let announce (forms : List Reader.Form) :=
      if verbose then infoLine s!"read {forms.length} forms from {path}" else ""
    match execute source seed announce with
    | (.ok v, out) =>
      let result := if verbose then infoLine ("result: " ++ v.render) else ""
      ⟨0, out ++ result, ""⟩
    | (.error e, out) => ⟨1, out, errorText quiet e⟩

def banner : String := "mlisp REPL v0.3.1\nType :help for help, :quit to exit\n\n"

def farewell : String := "Goodbye!\n"

def helpText : String :=
  "Commands:\n" ++
  "  :help, :h    Show this help\n" ++
  "  :quit, :q    Exit the REPL\n" ++
  "  :env         Show root bindings\n"

structure Reply where
  out : String
  err : String
  quit : Bool
  deriving DecidableEq

/-- Answers a command of the session itself. -/
def answerCommand (line : String) (m : Machine) : Reply :=
  if line = ":quit" ∨ line = ":q" then ⟨"", "", true⟩
  else if line = ":help" ∨ line = ":h" then ⟨helpText, "", false⟩
  else if line = ":env" then
    ⟨" ".intercalate (m.store.names Session.rootScope) ++ "\n", "", false⟩
  else ⟨"Unknown command: " ++ line ++ "\n", "", false⟩

/-- Answers a line that is neither empty nor surrounded by blanks. -/
def answer (line : String) (m : Machine) : Reply × Machine :=
  if line.startsWith ":" then (answerCommand line m, m)
  else
    match Session.evalLine line { m with output := "" } with
    | (.ok v, m) => (⟨m.output ++ v.render ++ "\n", "", false⟩, m)
    | (.error h, m) => (⟨m.output, haltLine h, false⟩, m)

structure SessionLog where
  out : String
  err : String
  entered : Bool

/-- Answers lines up to the end or to the command that quits. -/
def answerLines : List String → Machine → SessionLog → SessionLog
  | [], _, log => log
  | line :: rest, m, log =>
    let line := Text.trim line
    if line = "" then answerLines rest m log
    else
      let (reply, m) := answer line m
      let log := ⟨log.out ++ reply.out, log.err ++ reply.err, true⟩
      if reply.quit then log else answerLines rest m log

def historyWarning (path reason : String) : String :=
  warningLine ("could not save history to " ++ path ++ ": " ++ reason)

/-- An interactive session on a text that is entered line by line. The reason tells why a history
cannot be saved, if it cannot. -/
def replCommand (settings : Settings) (input : String) (unsaved : Option String) (seed : Nat) :
    Transcript :=
  let log := answerLines (Text.lines input) (Session.start seed) ⟨"", "", false⟩
  let warning :=
    match settings.history, unsaved with
    | some path, some reason => if log.entered then historyWarning path reason else ""
    | _, _ => ""
  ⟨0, banner ++ log.out ++ farewell, log.err ++ warning⟩

end MatrixLisp.Console
