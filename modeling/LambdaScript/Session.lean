/-
LambdaScript/Session.lean

A session: everything that lasts from one program to the next, and the running of
programs in it.

A program is read entry by entry, and every entry takes effect before the next is
read.  A definition is bound as it was written before it is reduced; when the
reduction fails, the definition stays, with its body as far as it has come.  The
location in the text is not set back between programs.
-/
import LambdaScript.Files
import LambdaScript.Reduction
import LambdaScript.Source.Routine
import LambdaScript.Text.Newline
import LambdaScript.Text.Quoted

namespace LambdaScript

/-- Why something that was to be done in a session was not. -/
inductive SessionError
  /-- The program text is faulty. -/
  | input (e : InputError)
  /-- The program to be run is not there. -/
  | noProgram (path : String)
  /-- A path leads to no text. -/
  | file (f : FileFault) (path : String)
  /-- There is no text to ask for anything. -/
  | noText (r : Request)
  /-- The text has been closed. -/
  | closedText
  /-- There is nothing under a name. -/
  | unknown (name : String)
  /-- An expression could not be dealt with. -/
  | fault (f : Fault)
  /-- Something refers to a name without a meaning. -/
  | undefined (name : String)
  /-- Reading would go on for ever. -/
  | endless
  deriving DecidableEq

namespace SessionError

/-- The kind under which a path that leads to no text is reported. -/
def fileKind : FileFault → String
  | .notFound => "FileNotFoundError"
  | .notAFolder => "NotADirectoryError"
  | .isAFolder => "IsADirectoryError"
  | .nameTooLong => "OSError"
  | .nullCharacter => "ValueError"

/-- The text with which a path that leads to no text is reported. -/
def fileMessage (f : FileFault) (path : String) : String :=
  match f with
  | .notFound => "[Errno 2] No such file or directory: " ++ Quoted.encode path
  | .notAFolder => "[Errno 20] Not a directory: " ++ Quoted.encode path
  | .isAFolder => "[Errno 21] Is a directory: " ++ Quoted.encode path
  | .nameTooLong => "[Errno 36] File name too long: " ++ Quoted.encode path
  | .nullCharacter => "embedded null byte"

/-- The kind under which an error is reported. -/
def kind : SessionError → String
  | input _ => "DefunctError_InputError"
  | noProgram _ => "DefunctError"
  | file f _ => fileKind f
  | noText _ => "AttributeError"
  | closedText => "ValueError"
  | unknown _ => "KeyError"
  | fault f => f.kind
  | undefined _ => "NameError"
  | endless => Fault.tooDeep.kind

/-- The text with which an error is reported. -/
def message : SessionError → String
  | input e => e.problem.message
  | noProgram path => "File not found at \"" ++ path ++ "\""
  | file f path => fileMessage f path
  | noText r =>
    "'" ++ Kind.missing.name ++ "' object has no attribute '" ++ r.name ++ "'"
  | closedText => "I/O operation on closed file."
  | unknown name => Quoted.encode name
  | fault f => f.message
  | undefined name => "name '" ++ name ++ "' is not defined"
  | endless => Fault.tooDeep.message

/-- The error ends the session: there is nothing to be told but that the work has
no end. -/
def isFatal : SessionError → Bool
  | fault .tooDeep => true
  | endless => true
  | _ => false

end SessionError

/-- What is told about a run besides its results. -/
structure Switches where
  /-- Wait for a key at the end. -/
  pauseOnExit : Bool
  /-- Tell every expression that is executed. -/
  debug : Bool
  /-- Tell which programs are run. -/
  info : Bool
  deriving DecidableEq

/-- The text that routines read from: there has been none yet, the last one has
been closed, or one is open, of which something has been read when `begun` is
set. -/
inductive TextState
  | absent
  | closed
  | opened (spot : Spot) (begun : Bool)
  deriving DecidableEq

/-- How far a reduction may go. -/
structure Limits where
  /-- The number of reductions inside one another. -/
  depth : Nat
  /-- The number of rounds that unrolling a recursive function may take. -/
  rounds : Nat
  deriving DecidableEq

/-- What a session has besides expressions: files, the text that is being read, how things
are printed, what the command line says, and what has been printed. -/
structure Surroundings where
  files : Files
  reading : Reading
  textState : TextState
  display : Display
  /-- The program that the command line names. -/
  program : Option String
  switches : Switches
  limits : Limits
  /-- The keys that will be pressed. -/
  keys : List Nat
  /-- What has been printed. -/
  output : String

/-- Everything that lasts from one program to the next. -/
structure Session extends Surroundings where
  table : Table
  trail : Trail

/-- Doing something in a session. -/
abbrev Act := EStateM SessionError Session

namespace Session

/-- A session at its beginning, in which reductions may go as far as `limits` says. -/
def starting (limits : Limits) : Session where
  files := .empty
  table := .empty
  trail := []
  reading := ⟨.ofText [], 0⟩
  textState := .absent
  display := .standard
  program := none
  switches := ⟨false, false, false⟩
  limits := limits
  keys := []
  output := ""

/-- The session at its beginning.  Its bound on the rounds of an unrolling is out of reach:
an unrolling that makes no headway is not cut short. -/
def fresh : Session :=
  starting ⟨2500, 1000000000000⟩

/-- The session in which what follows the character in hand is `text`. -/
def withRest (s : Session) (text : List Char) : Session :=
  { s with reading := { s.reading with scanner := { s.reading.scanner with rest := text } } }

/-- The session with a file written anew.  A text that is open and of which nothing
has been read changes with its file. -/
def withFile (s : Session) (path text : String) : Session :=
  let s := { s with files := s.files.write path text }
  if s.textState = .opened (.ofPath path) false then s.withRest (unifyLineEnds text.toList) else s

/-- The text of a file as it is read. -/
def text (s : Session) (path : String) : Except FileFault (List Char) := do
  return unifyLineEnds (← s.files.read path).toList

/-- The session with a file written and opened, and nothing read of it. -/
def opened (s : Session) (path text : String) : Session :=
  { s.withFile path text with
    reading := { s.reading with scanner := .ofText (unifyLineEnds text.toList) }
    textState := .opened (.ofPath path) false }

end Session

namespace Act

/-- Prints a text. -/
def say (text : String) : Act Unit :=
  modify fun s => { s with output := s.output ++ text }

/-- Prints a line. -/
def sayLine (line : String) : Act Unit :=
  say (line ++ "\n")

/-- Prints a line when debugging. -/
def debugLine (line : String) : Act Unit := do
  if (← get).switches.debug then sayLine line

/-- Prints a line when information is asked for. -/
def infoLine (line : String) : Act Unit := do
  if (← get).switches.info then sayLine line

/-- The next key pressed, or the return key when there is none. -/
def key : Act Nat :=
  modifyGet fun s => (s.keys.head?.getD 13, { s with keys := s.keys.tail })

/-- The result of an operation on expressions. -/
def ofFault {α : Type} : Except Fault α → Act α
  | .ok a => pure a
  | .error f => throw (.fault f)

/-- Reads from the program text. -/
def parse {α : Type} (p : Parse α) : Act α := fun s =>
  match p s.reading with
  | .ok a r => .ok a { s with reading := r }
  | .error (.input e) r => .error (.input e) { s with reading := r }
  | .error .endless r => .error .endless { s with reading := r }

/-- Makes an expression with binders from the supply. -/
def make (f : Nat → Term × Nat) : Act Term :=
  parse (Parse.make f)

/-- The session after a reduction. -/
def settle (s : Session) (e : Effects) : Session :=
  { s with
    reading := { s.reading with next := e.next }
    output := s.output ++ String.join (e.lines.map (· ++ "\n")) }

/-- Reduces the expression at a place, which is put on the trail as `v`. -/
def reduceAs (v : Visit) (execute : Bool) (mode : Mode) (place : Place) (t : Term) : Act Term :=
  fun s =>
  let setting : Setting := ⟨execute, s.display, s.limits.rounds⟩
  let c : Circumstance := ⟨mode, place, s.trail⟩
  match LambdaScript.reduceAs v setting s.limits.depth c t ⟨s.reading.next, []⟩ with
  | .ok (t', _) e => .ok t' (settle s e)
  | .error f e => .error (.fault f.fault) { settle s e with table := f.table, trail := f.trail }

/-- Reduces the expression at a place. -/
def reduce (execute : Bool) (mode : Mode) (place : Place) (t : Term) : Act Term :=
  reduceAs t.visit execute mode place t

/-- Reduces an expression that is part of no definition. -/
def simplify (execute : Bool) (mode : Mode) (t : Term) : Act Term := do
  reduce execute mode (.outside (← get).table) t

/-- Binds a name. -/
def bind (name : String) (body : Term) : Act Unit :=
  modify fun s => { s with table := s.table.bind name body }

/-- The text of an expression. -/
def textOf (t : Term) : Act String := do
  ofFault (t.print? (← get).display)

/-- Tells an expression when debugging. -/
def tell (label : String) (t : Term) : Act Unit := do
  debugLine (label ++ (← textOf t))

/-- Performs an entry. -/
def perform : Entry → Act Unit
  | .define name body reduced => do
    bind name body
    if reduced then
      let body' ← reduce false .normal (.whole (← get).table name) body
      bind name body'
  | .execute body => do
    tell "EXECUTE    " body
    let result ← simplify true .normal body
    tell "Finally    " result

/-- Reads an entry and performs it. -/
def entry : Act Unit := do
  perform (← parse Parse.entry)

/-- Reads and performs entries up to the end of the text. -/
def entries : Nat → Act Unit
  | 0 => throw .endless
  | n + 1 => do
    if (← parse Parse.current).isSome then
      entry
      entries n

/-- Takes up a program text, which is closed once it has been run, and goes to its
first entry. -/
def takeUp (text : List Char) : Act Unit := do
  modify fun s => { s.withRest text with textState := .closed }
  parse Parse.advance
  let _ ← parse Parse.skip

/-- Runs a program text from its beginning. -/
def runText (text : List Char) : Act Unit := do
  takeUp text
  entries (← parse Parse.bound)

/-- Runs the program of a file. -/
def runFile (path : String) : Act Unit := do
  infoLine ("Interpreting file at \"" ++ path ++ "\"...")
  match (← get).text path with
  | .error .notFound => throw (.noProgram path)
  | .error f => throw (.file f path)
  | .ok text => runText text
  infoLine ("Finished interpreting file at \"" ++ path ++ "\".")

/-- Shows a file. -/
def showFile (path : String) : Act Unit := do
  match (← get).text path with
  | .error f => throw (.file f path)
  | .ok text => say (String.ofList text)

/-- Performs an action on an expression, and gives what it stands for. -/
def announce (t : Term) : Act Term := do
  let s ← get
  sayLine (← ofFault (s.table.announce s.display t))
  make Term.identity

/-- Refuses a request when there is no open text, and notes that reading has
begun. -/
def admitRequest (request : Option Request) : Act Unit := do
  match request, (← get).textState with
  | none, _ => return ()
  | some r, .absent => throw (.noText r)
  | some _, .closed => throw .closedText
  | some _, .opened spot _ => modify fun s => { s with textState := .opened spot true }

/-- Calls a routine of reading. -/
def call (r : Routine) : Act Reply := do
  admitRequest (r.asks (← parse Parse.current))
  parse r.run

/-- Reads a definition and performs it. -/
def callDefinition : Act Reply := do
  admitRequest (Routine.definitionName.asks (← parse Parse.current))
  perform (← parse (Parse.definition true))
  return .nothing

/-- A constant.  The ones that are copied are to be had only where copying is
provided for. -/
def constant (copying : Bool) (c : Constant) : Act Term :=
  if c.isCopied && !copying then throw (.undefined "CopySub") else make c.expression

/-- Whether an expression belongs to a definition cannot be told: the question
rests on a name without a meaning. -/
def belongsTo (_ : Term) (_ : Definition) : Act Bool :=
  throw (.undefined "typeof")

end Act

end LambdaScript
