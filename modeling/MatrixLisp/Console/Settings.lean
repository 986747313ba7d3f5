/-!
# Console settings

A setting comes from the command line, else from the environment, else from a default.
-/
namespace MatrixLisp.Console

/-- The environment variable that names the history file. -/
def historyVariable : String := "MLISP_HISTORY"

/-- The history file when nothing else names one. -/
def defaultHistory : String := "history.txt"

def defaultPrompt : String := "\x1b[36m>>> \x1b[0m"

structure Settings where
  /-- The file that keeps the history, if it is kept. -/
  history : Option String
  prompt : String
  deriving DecidableEq

/-- The settings from the flag, the environment variable and the wish for no history. An empty
variable counts as absent. -/
def Settings.resolve (flag fromEnv : Option String) (noHistory : Bool) : Settings where
  history :=
    if noHistory then none
    else some ((flag.or (fromEnv.filter (· != ""))).getD defaultHistory)
  prompt := defaultPrompt

end MatrixLisp.Console
