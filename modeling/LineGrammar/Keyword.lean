/-! The pragma keywords: their spelling, the parameters they take, and which of them are only
reserved. -/

namespace LineGrammar

inductive Keyword
  | className
  | walkers
  | defaultWalker
  | members
  | left
  | right
  | token
  | function
  | lexerMode
  | lexerInclude
  | walkerInterface
  | start
  | namespaceName
  | prologue
  | epilogue
  | inclusion
  | checkUnusedTokens
deriving DecidableEq

namespace Keyword

def all : List Keyword :=
  [className, walkers, defaultWalker, members, left, right, token, function, lexerMode,
    lexerInclude, walkerInterface, start, namespaceName, prologue, epilogue, inclusion,
    checkUnusedTokens]

/-- The word after the percent sign. -/
def word : Keyword → String
  | className => "class"
  | walkers => "walkers"
  | defaultWalker => "default_walker"
  | members => "members"
  | left => "left"
  | right => "right"
  | token => "token"
  | function => "function"
  | lexerMode => "lexer_mode"
  | lexerInclude => "lexer_include"
  | walkerInterface => "walker_interface"
  | start => "start"
  | namespaceName => "namespace"
  | prologue => "prologue"
  | epilogue => "epilogue"
  | inclusion => "include"
  | checkUnusedTokens => "check_unused_tokens"

def ofWord? (word : String) : Option Keyword := all.find? fun k => k.word = word

/-- The parameters as messages describe them. -/
def usage : Keyword → String
  | className => "ClassName;"
  | walkers => "Walker...;"
  | defaultWalker => "Walker;"
  | members => "Walker [%\x7b]"
  | left | right | token => "TOKEN...;"
  | function => "rule [Walker::]function(params) -> Type;"
  | lexerMode | lexerInclude => "mode;"
  | walkerInterface => "Walker Type;"
  | start => "rule;"
  | namespaceName | prologue | epilogue | inclusion | checkUnusedTokens => "..."

/-- A reserved keyword takes any parameters and has no effect. -/
def isReserved : Keyword → Bool
  | namespaceName | prologue | epilogue | inclusion | checkUnusedTokens => true
  | _ => false

end Keyword

end LineGrammar
