import LineGrammar.Highlight
import LineGrammar.Line

/-! Names of code blocks: `@Walker::function` in front of the block that implements the function
for the rule above. -/

namespace LineGrammar

structure BlockName where
  marker : Lexeme
  /-- Missing when the line is malformed. -/
  walker? : Option Lexeme := none
  function? : Option Lexeme := none
  /-- The rule above. -/
  rule? : Option String
  span : Span
deriving DecidableEq

namespace BlockName

/-- The function that the block implements. -/
def functionName (n : BlockName) : String :=
  match n.function? with
  | some function => function.text
  | none => implicitFunction

/-- The key of the function, if one is named and there is a rule to which it belongs. -/
def functionKey? (n : BlockName) : Option (Lexeme × String) :=
  match n.walker?, n.function?, n.rule? with
  | some walker, some function, some rule =>
    some (function, functionKey rule walker.text function.text)
  | _, _, _ => none

def references (n : BlockName) : List (Lexeme × Symbol) :=
  (n.walker?.toList.map fun walker => (walker, .walker walker.text)) ++
    (n.functionKey?.toList.map fun (function, key) => (function, .function key))

def highlights (n : BlockName) : List Highlight :=
  n.marker.as .operator :: (n.walker?.toList.map fun l => l.as .walkerName) ++
    (n.function?.toList.map fun l => l.as .functionName)

def render (n : BlockName) : String :=
  match n.walker?, n.function? with
  | some walker, some function => "@" ++ walker.text ++ "::" ++ function.text
  | some walker, none => "@" ++ walker.text
  | none, _ => n.marker.text

end BlockName

end LineGrammar
