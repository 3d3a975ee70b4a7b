/-
LambdaScript/Source/Problem.lean

What can be wrong with a program text, and how it is worded.
-/
import LambdaScript.Source.Scanner

namespace LambdaScript

/-- What is wrong with a program text. -/
inductive Problem
  /-- Some text was to come, and another character did. -/
  | unexpected (text : String) (got : Option Char)
  /-- A name was to come, and another character did. -/
  | notAName (got : Option Char)
  /-- A keyword was to come, and another name did. -/
  | notAKeyword (name : String)
  /-- A name was to come, and a keyword did. -/
  | keyword (name : String)
  /-- An argument bears the name of an action. -/
  | actionAsArgument (name : String)
  /-- A definition bears the name of an action. -/
  | actionAsDefinition (name : String)
  deriving DecidableEq

namespace Problem

/-- The character in hand as text; nothing at the end. -/
def got (c : Option Char) : String :=
  String.ofList c.toList

/-- The wording of a problem. -/
def message : Problem → String
  | unexpected text c => "Expected '" ++ text ++ "', got '" ++ got c ++ "'."
  | notAName c => "Expected identifier, got '" ++ got c ++ "'."
  | notAKeyword name => "Expected keyword, got '" ++ name ++ "'"
  | keyword name => "Expected identifier, got keyword '" ++ name ++ "'"
  | actionAsArgument name => "Function Argument cannot have primitive name '" ++ name ++ "'"
  | actionAsDefinition name => "Expected identifier, got primitive '" ++ name ++ "'"

end Problem

/-- A problem and where reading had come when it was found. -/
structure InputError where
  problem : Problem
  location : Location
  deriving DecidableEq

end LambdaScript
