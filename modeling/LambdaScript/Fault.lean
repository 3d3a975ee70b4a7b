/-
LambdaScript/Fault.lean

What can go wrong while an expression is examined, compared or reduced, and how
each cause is worded.
-/

namespace LambdaScript

/-- The kinds of value that can lack a feature. -/
inductive Kind
  | missing
  | foreign
  | application
  deriving DecidableEq

/-- What an expression can be asked for: its two recursion marks, and the name of
its argument. -/
inductive Feature
  | recursive
  | containsRecursive
  | argumentName
  deriving DecidableEq

/-- Why an operation on expressions gave no result. -/
inductive Fault
  /-- A value was asked for a feature that values of its kind do not have. -/
  | lacking (kind : Kind) (feature : Feature)
  /-- Application of nothing. -/
  | nothingToApply
  /-- Application of an expression that is not an application. -/
  | notAnApplication
  /-- Two values that are no expressions were compared. -/
  | incomparable
  /-- The work goes deeper than its bound, or never ends. -/
  | tooDeep
  deriving DecidableEq

namespace Kind

/-- The name of a kind of value. -/
def name : Kind → String
  | missing => "NoneType"
  | foreign => "str"
  | application => "Bracket"

end Kind

namespace Feature

/-- The name of a feature. -/
def name : Feature → String
  | recursive => "recursive"
  | containsRecursive => "containsRecursive"
  | argumentName => "argname"

end Feature

namespace Fault

/-- The kind under which a fault is reported. -/
def kind : Fault → String
  | lacking _ _ => "AttributeError"
  | nothingToApply => "ValueError"
  | notAnApplication => "TypeError"
  | incomparable => "Exception"
  | tooDeep => "RecursionError"

/-- The text with which a fault is reported. -/
def message : Fault → String
  | lacking k f => "'" ++ k.name ++ "' object has no attribute '" ++ f.name ++ "'"
  | nothingToApply => "sub null"
  | notAnApplication => "sub not a Bracket"
  | incomparable => "should not get here"
  | tooDeep => "maximum recursion depth exceeded"

end Fault

end LambdaScript
