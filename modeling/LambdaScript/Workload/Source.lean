/-
LambdaScript/Workload/Source.lean

A program that defines truth values, pairs, numerals, the predecessor and, with
the help of a recursive fixed point, the sum of the numbers from one to `n`.
-/

namespace LambdaScript

namespace Workload

/-- What comes before the first definition: a comment up to the end of its line, and one that
goes over two lines. -/
def headerLines : List String :=
  ["// Church numerals",
    "/* pairs and",
    "recursion */",
    ""]

/-- The definitions that come before the numerals. -/
def basicLines : List String :=
  ["def identity [x.x]   // gives back its argument",
    "def true  [y x. y]",
    "def false [y x. x]",
    "def ++  [w. [y x. y(w y x)]]",
    "def add [x y. y ++ x]",
    "def mul [x y. [z.x(y z)]]",
    "def pair    [a b. [z. z a b]]",
    "def pfirst  [p. p true]",
    "def psecond [p. p false]",
    "def 0 false"]

/-- The numerals from one up, each the successor of the one before it. -/
def numeralLines (numerals : Nat) : List String :=
  (List.range numerals).map fun i =>
    "def " ++ toString (i + 1) ++ " (++ " ++ toString i ++ ")"

/-- The definitions that come after the numerals. -/
def furtherLines : List String :=
  ["def_u succ ++",
    "def empty ()",
    "def --  [n. (n [p. [z. z (++ (pfirst p)) (pfirst p)]] [z. z 0 0]) false]",
    "def not [x. x false true]",
    "def eq0 [x. x false not false]"]

/-- The definitions that use recursion. -/
def recursionLines : List String :=
  ["def Y [y. [$q. y(q q)] [$q. y(q q)]]",
    "def sum1toN (Y [r. [n. eq0 n 0 (n ++ (r (-- n)))]])"]

/-- The program with the numerals up to `numerals`. -/
def source (numerals : Nat) : String :=
  "\n".intercalate (headerLines ++ basicLines ++ numeralLines numerals ++ furtherLines
    ++ recursionLines) ++ "\n"

end Workload

end LambdaScript
