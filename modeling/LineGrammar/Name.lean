/-! The three spellings of names. Every name is an identifier of ASCII letters, digits and
underscores; its casing tells a token (`PLUS`) from a rule (`expr`). -/

namespace LineGrammar

def isNameStart (c : Char) : Bool := c.isAlpha || c == '_'

def isNameChar (c : Char) : Bool := c.isAlphanum || c == '_'

def isTokenStart (c : Char) : Bool := c.isUpper

def isTokenChar (c : Char) : Bool := c.isUpper || c.isDigit || c == '_'

def isRuleStart (c : Char) : Bool := c.isLower

/-- One character of the first class and then any number of the second. -/
def isSpelled (first rest : Char → Bool) : List Char → Bool
  | [] => false
  | c :: cs => first c && cs.all rest

def isName (name : String) : Bool := isSpelled isNameStart isNameChar name.toList

/-- Capitals throughout: the name of a token. -/
def isTokenName (name : String) : Bool := isSpelled isTokenStart isTokenChar name.toList

/-- A small letter first: the name of a rule. -/
def isRuleName (name : String) : Bool := isSpelled isRuleStart isNameChar name.toList

end LineGrammar
