import LineGrammar.Name
import LineGrammar.Span

/-! Symbols: what the names of a grammar stand for, how a symbol is written in messages, what a
definition records, and the compound names of functions and code blocks. -/

namespace LineGrammar

inductive SymbolKind
  | rule
  | token
  | function
  | walker
  | lexerMode
  | walkerInterface
  | codeBlock
deriving DecidableEq

namespace SymbolKind

def all : List SymbolKind :=
  [rule, token, function, walker, lexerMode, walkerInterface, codeBlock]

/-- The kind as messages call it. -/
def title : SymbolKind → String
  | rule => "rule"
  | token => "token"
  | function => "function"
  | walker => "walker"
  | lexerMode => "lexer mode"
  | walkerInterface => "walker interface"
  | codeBlock => "code block"

end SymbolKind

/-- A kind and a name. Symbols of different kinds may share a name. -/
structure Symbol where
  kind : SymbolKind
  name : String
deriving DecidableEq

namespace Symbol

def rule (name : String) : Symbol := ⟨.rule, name⟩

def token (name : String) : Symbol := ⟨.token, name⟩

def function (key : String) : Symbol := ⟨.function, key⟩

def walker (name : String) : Symbol := ⟨.walker, name⟩

def lexerMode (name : String) : Symbol := ⟨.lexerMode, name⟩

def walkerInterface (walker : String) : Symbol := ⟨.walkerInterface, walker⟩

def codeBlock (key : String) : Symbol := ⟨.codeBlock, key⟩

/-- The symbol as messages write it. -/
def display (s : Symbol) : String := s.kind.title ++ " '" ++ s.name ++ "'"

/-- The symbol that an element of a rule body stands for, told by the casing of its name. -/
def ofElement? (name : String) : Option Symbol :=
  if isTokenName name then some (token name)
  else if isRuleName name then some (rule name)
  else none

end Symbol

/-- What a definition records beside its name. -/
inductive Detail
  | plain
  | token (literal : String)
  | rule (internalName : String) (expectsBlocks : Bool)
  | function (rule walker function signature : String)
  | walkerInterface (typeName : String)
deriving DecidableEq

structure Definition where
  symbol : Symbol
  /-- Where the name is written. -/
  span : Span
  /-- Where the whole definition is written. -/
  fullSpan : Span
  detail : Detail
deriving DecidableEq

namespace Definition

/-- A rule body has a name of its own; every other definition goes by its symbol's name. -/
def internalName (d : Definition) : String :=
  match d.detail with
  | .rule internalName _ => internalName
  | _ => d.symbol.name

/-- Whether the definition is a rule body whose actions are given in code blocks. -/
def expectsBlocks (d : Definition) : Bool :=
  match d.detail with
  | .rule _ expectsBlocks => expectsBlocks
  | _ => false

end Definition

/-- The name of a function of a walker for a rule. -/
def functionKey (rule walker function : String) : String :=
  rule ++ "::" ++ walker ++ "::" ++ function

/-- The name of a code block: a function for one rule body, or a part of the walker itself. -/
def blockKey (rule : Option String) (walker function : String) : String :=
  match rule with
  | some rule => functionKey rule walker function
  | none => walker ++ "::" ++ function

/-- The function that a block implements when none is named. -/
def implicitFunction : String := "go"

/-- The part of a walker that a members block gives. -/
def membersPart : String := "Members"

end LineGrammar
