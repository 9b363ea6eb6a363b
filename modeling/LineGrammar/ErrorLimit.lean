import LineGrammar.Analysis

/-! The error limit from the environment: a decimal number of at most 64 bits, possibly with a
plus sign and with blanks around it. -/

namespace LineGrammar

/-- A setting whose value is no number. -/
structure InvalidInteger where
  key : String
  value : String
deriving DecidableEq

def InvalidInteger.message (e : InvalidInteger) : String :=
  "invalid value '" ++ e.value ++ "' for " ++ e.key ++ ": expected a non-negative integer"

namespace ErrorLimit

/-- The variable that holds the limit. -/
def variableName : String := "YANTRA_MAX_ERRORS"

/-- The value of a run of decimal digits. -/
def decimal (digits : List Char) : Nat :=
  digits.foldl (fun n c => 10 * n + (c.toNat - '0'.toNat)) 0

/-- The largest number of 64 bits. -/
def largest : Nat := 18446744073709551615

def parse? (text : List Char) : Option Nat :=
  let digits := match text with
    | '+' :: rest => rest
    | _ => text
  if digits.isEmpty || !digits.all Char.isDigit || largest < decimal digits then none
  else some (decimal digits)

/-- The limit that a value of the variable sets, or the default if there is none. -/
def ofVariable (value : Option String) : Except InvalidInteger Nat :=
  match value with
  | none => .ok defaultErrorLimit
  | some value =>
    match parse? (Text.trim value.toList) with
    | some limit => .ok limit
    | none => .error { key := variableName, value }

end ErrorLimit

end LineGrammar
