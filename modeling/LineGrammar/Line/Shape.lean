import LineGrammar.Slice

/-! The shapes of the lines that hold a node by themselves. A shape fixes the kind of the node
and where its parts are; whether the parts are well formed is for the node to say. The four
shapes exclude each other by their first characters. -/

namespace LineGrammar

inductive Shape
  | comment
  | pragma (keyword name params : Slice)
  | token (name operator rest : Slice)
  | rule (name : Slice) (alias? : Option Slice) (operator rest : Slice)

namespace Shape

/-- The rest of a line without the blanks around it; a line break cannot be inside. -/
def tail? (s : Slice) : Option Slice :=
  if '\n' ∈ s.trim.chars then none else some s.trim

def comment? (s : Slice) : Option Shape := do
  let (_, rest) ← s.accept? "//"
  if '\n' ∈ rest.chars then none else some .comment

def pragma? (s : Slice) : Option Shape := do
  let (_, rest) ← s.accept? "%"
  let (name, rest) ← rest.name?
  let params ← tail? rest
  return .pragma (s.split (name.chars.length + 1)).1 name params

def token? (s : Slice) : Option Shape := do
  let (name, s) ← s.spelled? isTokenStart isTokenChar
  let (operator, s) ← s.trimStart.accept? ":="
  let rest ← tail? s
  return .token name operator rest

def rule? (s : Slice) : Option Shape := do
  let (name, s) ← s.spelled? isRuleStart isNameChar
  let (alias?, s) := s.optional Slice.parenthesised?
  let (operator, s) ← s.trimStart.accept? ":="
  let rest ← tail? s
  return .rule name alias? operator rest

def of? (s : Slice) : Option Shape := comment? s <|> pragma? s <|> token? s <|> rule? s

end Shape

end LineGrammar
