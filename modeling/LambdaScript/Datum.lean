/-
LambdaScript/Datum.lean

Plain data: what a report is made of, and the two small operations on lists of
them that reports use.
-/
import LambdaScript.Text.Quoted

namespace LambdaScript

/-- Plain data. -/
inductive Datum
  | null
  | flag (b : Bool)
  | number (n : Int)
  | text (s : String)
  | list (items : List Datum)
  | record (fields : List (String × Datum))
  deriving Inhabited

/-- Why items could not be joined. -/
inductive JoinFault
  | separatorNotText
  | itemsNotList
  deriving DecidableEq

namespace JoinFault

/-- The kind under which the fault is reported. -/
def kind : JoinFault → String
  | _ => "TypeError"

/-- The text with which the fault is reported. -/
def message : JoinFault → String
  | separatorNotText => "type(separator) should be str."
  | itemsNotList => "type(items) should be list."

end JoinFault

namespace Datum

/-- There is something to the datum: it is not null, false, zero or empty. -/
def isSubstantial : Datum → Bool
  | null => false
  | flag b => b
  | number n => n ≠ 0
  | text s => !s.isEmpty
  | list items => !items.isEmpty
  | record fields => !fields.isEmpty

/-- The list with one more item, if there is something to it. -/
def appendSubstantial (items : List Datum) (item : Datum) : List Datum :=
  if item.isSubstantial then items ++ [item] else items

mutual

/-- A datum written out, with texts in quotes. -/
def written : Datum → String
  | null => "None"
  | flag true => "True"
  | flag false => "False"
  | number n => toString n
  | text s => Quoted.encode s
  | list items => "[" ++ ", ".intercalate (writtenItems items) ++ "]"
  | record fields => "\x7b" ++ ", ".intercalate (writtenFields fields) ++ "\x7d"

/-- The items of a list written out. -/
def writtenItems : List Datum → List String
  | [] => []
  | d :: rest => d.written :: writtenItems rest

/-- The fields of a record written out. -/
def writtenFields : List (String × Datum) → List String
  | [] => []
  | (name, d) :: rest => (Quoted.encode name ++ ": " ++ d.written) :: writtenFields rest

end

/-- A datum as plain text: a text stands for itself. -/
def plain : Datum → String
  | text s => s
  | d => d.written

/-- The texts of the items of a list with a separator between them. -/
def join (separator items : Datum) : Except JoinFault String :=
  match separator, items with
  | text s, list l => .ok (s.intercalate (l.map plain))
  | text _, _ => .error .itemsNotList
  | _, _ => .error .separatorNotText

/-- What joining leaves of the items: the last one is taken out of a list that
can be joined. -/
def afterJoin (separator items : Datum) : Datum :=
  match separator, items with
  | text _, list l => list l.dropLast
  | _, d => d

end Datum

end LambdaScript
