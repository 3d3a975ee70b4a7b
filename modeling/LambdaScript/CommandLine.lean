/-
LambdaScript/CommandLine.lean

The command line: a program to run with switches, or help.

The first argument names the program unless it is a switch.  The name is kept for
the session, so a later run without one takes the program again.  Without a
program the help texts are shown.
-/
import LambdaScript.Session

namespace LambdaScript

namespace CommandLine

def pauseOnExit : String := "-pauseOnExit"

def debugInternal : String := "-debugInternal"

def printInfo : String := "-printinfo"

def help : String := "-help"

/-- The arguments that are not the path of a program. -/
def switchNames : List String := [pauseOnExit, printInfo, debugInternal, help]

/-- The help texts that are shown when none is chosen. -/
def defaultHelp : List String := ["version.txt", "clargs.txt"]

/-- The help texts that can be chosen. -/
def helpTopics : List String := ["about", "clargs", "licence", "quick_start", "version"]

/-- The argument behind the first `-help`. -/
def helpTopic? (args : List String) : Option String :=
  ((args.dropWhile (· ≠ help)).drop 1).head?

/-- The files that a call for help shows. -/
def helpFiles (args : List String) : List String :=
  match helpTopic? args with
  | some topic => if helpTopics.contains topic then [topic ++ ".txt"] else defaultHelp
  | none => defaultHelp

/-- Shows the help that the arguments ask for. -/
def showHelp (args : List String) : Act Unit :=
  (helpFiles args).forM fun name => Act.showFile ("helptext/" ++ name)

/-- Takes the switches from the arguments. -/
def takeSwitches (args : List String) : Act Unit := do
  modify fun s =>
    { s with switches := { s.switches with
        pauseOnExit := args.contains pauseOnExit
        debug := args.contains debugInternal } }
  Act.debugLine "Internal Debugging enabled."
  modify fun s => { s with switches := { s.switches with info := args.contains printInfo } }

/-- Takes the program from the arguments. -/
def takeProgram (args : List String) : Act Unit :=
  match args.head? with
  | some path =>
    if switchNames.contains path then return ()
    else modify fun s => { s with program := some path }
  | none => return ()

/-- How a faulty program is reported. -/
def inputReport (e : InputError) : String :=
  let line := toString e.location.line
  "\nInputError (line " ++ line ++ "): " ++ e.problem.message
    ++ "\n(line " ++ line ++ ", column " ++ toString e.location.column ++ ")"

/-- How a program that is not there is reported. -/
def programReport (e : SessionError) : String :=
  "\nError: " ++ e.message ++ "\n" ++ e.kind ++ "\nFalse"

/-- Runs a program and reports what is wrong with its text. -/
def runProgram (path : String) : Act Unit :=
  tryCatch
    (do
      Act.runFile path
      Act.infoLine "No errors encountered.")
    fun
      | .input e => Act.sayLine (inputReport e)
      | .noProgram p => Act.sayLine (programReport (.noProgram p))
      | e => throw e

/-- Does what the arguments ask for. -/
def start (args : List String) : Act Unit := do
  takeProgram args
  match (← get).program with
  | some path => do
    takeSwitches args
    runProgram path
  | none => showHelp args

/-- The kind and text of an error. -/
def headline (e : SessionError) : String :=
  " " ++ e.kind ++ ": " ++ e.message ++ "\n"

/-- Reports an error and waits for a key: the space bar repeats the report, the
escape key lets the error pass. -/
def report (e : SessionError) : Act Unit := do
  Act.sayLine ("\n\n InternalException (line N):\n" ++ headline e)
  Act.sayLine "Press SPACE for stack trace, or ESC for unformatted traceback "
  let k ← Act.key
  if k = 32 then Act.sayLine ("\n" ++ headline e)
  else if k = 27 then throw e

/-- Waits for a key when the switch is set. -/
def pause : Act Unit := do
  if (← get).switches.pauseOnExit then
    Act.say "Press any key to continue . . . "
    let _ ← Act.key
    Act.say "\n"

/-- Does something and reports an error instead of failing; then there is nothing
to give back. -/
def guarded {α : Type} (act : Act α) : Act (Option α) := do
  let value ← tryCatch (some <$> act) fun e => do
    if e.isFatal then throw e
    report e
    return none
  Act.say "\n"
  pause
  return value

/-- Does what the arguments ask for, and reports errors instead of failing. -/
def startGuarded (args : List String) : Act Unit := do
  let _ ← guarded (start args)

end CommandLine

end LambdaScript
