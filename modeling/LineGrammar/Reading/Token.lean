import LineGrammar.Reading

/-! Reading token definitions. The value after `:=` is a literal in quotes, a bang, a mode in
brackets and a terminator, of which only the literal must be there. A value that is not of this
shape, or is not terminated, defines nothing. -/

namespace LineGrammar

structure TokenValue where
  literal : Slice
  bang? : Option Slice
  mode? : Option Slice
  terminated : Bool

namespace Slice

/-- How many characters a literal takes after its first quote. A backslash keeps the character
after it from ending the literal. -/
def closingQuote? : List Char → Option Nat
  | [] => none
  | '"' :: _ => some 1
  | ['\\'] => none
  | '\\' :: _ :: cs => (closingQuote? cs).map (· + 2)
  | _ :: cs => (closingQuote? cs).map (· + 1)

def literal? (s : Slice) : Option (Slice × Slice) :=
  match s.chars with
  | '"' :: cs => (closingQuote? cs).map fun n => s.split (n + 1)
  | _ => none

/-- Accepts a mode in brackets and gives the mode. -/
def mode? (s : Slice) : Option (Slice × Slice) := do
  let (_, s) ← s.accept? "["
  let (mode, s) ← s.trimStart.accept? currentMode <|> s.trimStart.name?
  let (_, s) ← s.trimStart.accept? "]"
  return (mode, s)

def tokenValue? (s : Slice) : Option TokenValue := do
  let (literal, s) ← s.literal?
  let (bang?, s) := s.optional (·.accept? "!")
  let (mode?, s) := s.trimStart.optional mode?
  let terminated ← s.terminator?
  return { literal, bang?, mode?, terminated }

end Slice

namespace TokenDef

/-- The definition with the parts of its value filled in. -/
def fill (line : Line) (t : TokenDef) (value : TokenValue) : TokenDef :=
  { t with
    literal? := some (line.lexeme value.literal)
    bang? := value.bang?.map line.lexeme
    mode? := value.mode?.map line.lexeme
    terminated := value.terminated }

/-- Enters the definition; a mode that is not declared yet waits for its declaration. -/
def register (t : TokenDef) (ix : Index) : Index :=
  let ix := ix.enterAll t.definitions
  match t.lexerMode? with
  | some mode => ix.mention (.lexerMode mode.text) mode.span
  | none => ix

def read (line : Line) (name operator rest : Slice) (ix : Index) : Reading TokenDef :=
  let bare : TokenDef :=
    { name := line.lexeme name, operator := line.lexeme operator, span := line.span }
  match rest.tokenValue? with
  | none => { node := bare, problems := [line.problem .invalidTokenDefinition], index := ix }
  | some value =>
    let t := bare.fill line value
    { node := t
      problems := line.checkTerminator value.terminated
      index := if value.terminated then t.register ix else ix }

end TokenDef

end LineGrammar
