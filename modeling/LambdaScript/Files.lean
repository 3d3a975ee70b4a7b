/-
LambdaScript/Files.lean

A tree of files: texts in folders, and how a path leads to them.

A path is followed part by part from the working folder, or from the top when it
begins with a stroke.  An empty part and `.` stay where they are and `..` goes up;
above the working folder there are only folders.  Every part but the last has to
lead to a folder, and a stroke at the end asks for one there too.
-/

namespace LambdaScript

/-- Why a path leads to no text. -/
inductive FileFault
  | notFound
  | notAFolder
  | isAFolder
  | nameTooLong
  | nullCharacter
  deriving DecidableEq

/-- A place in the tree: the names that lead to it from the working folder.  The
name `..` occurs only at the beginning, and `/` alone stands for the top. -/
abbrev Spot := List String

namespace Spot

/-- The folder that a place lies in. -/
def up (s : Spot) : Spot :=
  if s.all (· == "..") then s ++ [".."] else if s == ["/"] then s else s.dropLast

/-- The place to which one part of a path leads. -/
def enter (here : Spot) (part : String) : Spot :=
  if part == "" || part == "." then here
  else if part == ".." then here.up
  else here ++ [part]

/-- The place from which a path is followed. -/
def start (path : String) : Spot :=
  if path.startsWith "/" then ["/"] else []

/-- The characters of a path, cut at its strokes. -/
def cut : List Char → List (List Char)
  | [] => [[]]
  | c :: rest =>
    if c = '/' then [] :: cut rest
    else match cut rest with
      | [] => [[c]]
      | part :: more => (c :: part) :: more

/-- The parts of a path. -/
def parts (path : String) : List String :=
  (cut path.toList).map String.ofList

/-- The place that a path means when there are folders all along it. -/
def ofPath (path : String) : Spot :=
  (parts path).foldl enter (start path)

/-- The places between the first and the last part of a path. -/
def between (here : Spot) : List String → List Spot
  | [] => []
  | [_] => []
  | part :: rest => here.enter part :: between (here.enter part) rest

end Spot

/-- Texts by their places, the newest first, and the folders made for them. -/
structure Files where
  texts : List (Spot × String)
  folders : List Spot

namespace Files

/-- No files. -/
def empty : Files := ⟨[], []⟩

/-- The length in bytes that no name may exceed. -/
def nameLimit : Nat := 255

/-- The length in bytes that no path may reach. -/
def pathLimit : Nat := 4096

/-- There is a folder at the place. -/
def isFolder (f : Files) (s : Spot) : Bool :=
  s.all (· == "..") || s == ["/"] || f.folders.contains s

/-- There is a text at the place. -/
def isText (f : Files) (s : Spot) : Bool :=
  (f.texts.lookup s).isSome

/-- The place to which the parts of a path lead. -/
def follow (f : Files) (here : Spot) : List String → Except FileFault Spot
  | [] => .ok here
  | part :: rest =>
    let next := here.enter part
    if !f.isFolder here then .error .notAFolder
    else if part.utf8ByteSize > nameLimit then .error .nameTooLong
    else if f.isFolder next || f.isText next then f.follow next rest
    else .error .notFound

/-- The text to which a path leads. -/
def read (f : Files) (path : String) : Except FileFault String :=
  if path.toList.contains '\x00' then .error .nullCharacter
  else if path.isEmpty then .error .notFound
  else if path.utf8ByteSize ≥ pathLimit then .error .nameTooLong
  else do
    let s ← f.follow (Spot.start path) (Spot.parts path)
    match f.texts.lookup s with
    | some text => return text
    | none => throw .isAFolder

/-- Writes a text anew, with the folders on the way to it. -/
def write (f : Files) (path text : String) : Files :=
  ⟨(Spot.ofPath path, text) :: f.texts,
    Spot.between (Spot.start path) (Spot.parts path) ++ f.folders⟩

end Files

end LambdaScript
