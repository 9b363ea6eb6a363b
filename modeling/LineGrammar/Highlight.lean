import LineGrammar.Lexeme

/-! Highlights: spans of a document with the role that their text plays. -/

namespace LineGrammar

inductive Role
  | keyword
  | comment
  | literal
  | operator
  | blockMark
  | walkerName
  | typeName
  | functionName
  | ruleName
  | tokenName
  | modeName
  | aliasName
deriving DecidableEq

namespace Role

/-- The legend, in the order of the ordinals. -/
def all : List Role :=
  [keyword, comment, literal, operator, blockMark, walkerName, typeName, functionName, ruleName,
    tokenName, modeName, aliasName]

def ordinal : Role → Nat
  | keyword => 0
  | comment => 1
  | literal => 2
  | operator => 3
  | blockMark => 4
  | walkerName => 5
  | typeName => 6
  | functionName => 7
  | ruleName => 8
  | tokenName => 9
  | modeName => 10
  | aliasName => 11

/-- The role in the vocabulary of editors. -/
def label : Role → String
  | keyword => "keyword"
  | comment => "comment"
  | literal => "string"
  | operator => "operator"
  | blockMark => "macro"
  | walkerName => "type"
  | typeName => "class"
  | functionName => "function"
  | ruleName => "variable"
  | tokenName => "enumMember"
  | modeName => "namespace"
  | aliasName => "parameter"

end Role

structure Highlight where
  span : Span
  role : Role
  /-- Whether the text is the name in its own definition. -/
  isDeclaration : Bool := false
deriving DecidableEq

namespace Highlight

/-- The names of the modifiers, by bit. -/
def modifierNames : List String := ["declaration"]

/-- The modifiers as a bit set. -/
def modifiers (h : Highlight) : Nat := if h.isDeclaration then 1 else 0

def declared (h : Highlight) : Highlight := { h with isDeclaration := true }

end Highlight

/-- A lexeme in a role. -/
def Lexeme.as (l : Lexeme) (role : Role) : Highlight := { span := l.span, role }

end LineGrammar
