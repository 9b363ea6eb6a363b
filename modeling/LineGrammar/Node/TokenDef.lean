import LineGrammar.Highlight
import LineGrammar.Line

/-! Token definitions: `NAME := "literal"! [mode];`. -/

namespace LineGrammar

/-- The mode that stands for the one in which the token is met. -/
def currentMode : String := "^"

structure TokenDef where
  name : Lexeme
  operator : Lexeme
  /-- The literal with its quotes. -/
  literal? : Option Lexeme := none
  bang? : Option Lexeme := none
  mode? : Option Lexeme := none
  terminated : Bool := false
  span : Span
deriving DecidableEq

namespace TokenDef

def isNegated (t : TokenDef) : Bool := t.bang?.isSome

/-- The mode, unless it is the current one. -/
def lexerMode? (t : TokenDef) : Option Lexeme := t.mode?.filter fun mode => mode.text ≠ currentMode

def references (t : TokenDef) : List (Lexeme × Symbol) :=
  (t.name, .token t.name.text) ::
    t.lexerMode?.toList.map fun mode => (mode, .lexerMode mode.text)

/-- A token counts as defined when its literal is well formed and its line terminated. -/
def definitions (t : TokenDef) : List Definition :=
  match t.literal? with
  | some literal =>
    if t.terminated then [⟨.token t.name.text, t.name.span, t.span, .token literal.text⟩] else []
  | none => []

def highlights (t : TokenDef) : List Highlight :=
  [(t.name.as .tokenName).declared, t.operator.as .operator] ++
    (t.literal?.toList.map fun l => l.as .literal) ++
    (t.bang?.toList.map fun l => l.as .operator) ++
    (t.mode?.toList.map fun l => l.as .modeName)

/-- The line with its name padded to a width. -/
def render (width : Nat) (t : TokenDef) : String :=
  t.name.text ++ String.ofList (List.replicate (width - t.name.text.length) ' ') ++ " :=" ++
    (match t.literal? with | some literal => " " ++ literal.text | none => "") ++
    (if t.isNegated then "!" else "") ++
    (match t.mode? with | some mode => " [" ++ mode.text ++ "]" | none => "") ++
    (if t.terminated then ";" else "")

end TokenDef

end LineGrammar
