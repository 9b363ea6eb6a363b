import LineGrammar.Keyword
import LineGrammar.Node.CodeBlock

/-! Pragmas: `%keyword parameters`. The keyword decides what the parameters are; a pragma with
an unknown keyword or malformed parameters is kept as it stands. -/

namespace LineGrammar

/-- What an associativity pragma says of its tokens. -/
inductive Associativity
  | left
  | right
  | token
deriving DecidableEq

/-- The declaration `rule Walker::function(parameters) -> Type;`. -/
structure FunctionDecl where
  rule : Lexeme
  walker? : Option Lexeme
  function : Lexeme
  parameters : Lexeme
  returnType : Lexeme
  /-- The walker that has the function: the named one if it is declared, else the default. -/
  walkerName : Option String := none
  /-- Whether this declaration counts, which needs a walker and a new key. -/
  declared : Bool := false
deriving DecidableEq

namespace FunctionDecl

def key? (f : FunctionDecl) : Option String :=
  f.walkerName.map fun walker => functionKey f.rule.text walker f.function.text

/-- Parameters and return type as shown to a reader. -/
def signature (f : FunctionDecl) : String :=
  "(" ++ String.ofList (Text.collapse f.parameters.text.toList) ++ ") -> " ++ f.returnType.text

def references (f : FunctionDecl) : List (Lexeme × Symbol) :=
  (f.rule, .rule f.rule.text) ::
    (f.walker?.toList.map fun walker => (walker, .walker walker.text)) ++
    (f.key?.toList.map fun key => (f.function, .function key))

end FunctionDecl

inductive PragmaBody
  | className (name : Lexeme)
  | walkers (walkers : List Lexeme) (declared : Bool)
  | defaultWalker (walker : Lexeme)
  | members (walker : Lexeme) (opening : Option Lexeme) (block : Option CodeBlock)
  | associativity (associativity : Associativity) (tokens : List Lexeme)
  | function (decl : FunctionDecl)
  | lexerMode (mode : Lexeme)
  | lexerInclude (mode : Lexeme)
  | walkerInterface (walker typeName : Lexeme) (declared : Bool)
  | start (rule : Lexeme)
  | reserved
  | invalid
  | unknown
deriving DecidableEq

structure Pragma where
  /-- The keyword with its percent sign. -/
  mark : Lexeme
  name : Lexeme
  parameters : Lexeme
  keyword? : Option Keyword
  body : PragmaBody
  span : Span
deriving DecidableEq

namespace Pragma

def block? (p : Pragma) : Option CodeBlock :=
  match p.body with
  | .members _ _ block => block
  | _ => none

/-- Gives a block to the pragma that opened it. -/
def attach? (p : Pragma) (block : CodeBlock) : Option Pragma :=
  match p.body with
  | .members walker (some opening) none =>
    some { p with body := .members walker (some opening) (some block) }
  | _ => none

def lineSpan (p : Pragma) : Nat :=
  match p.block? with
  | some block => block.lineSpan
  | none => 1

def references (p : Pragma) : List (Lexeme × Symbol) :=
  match p.body with
  | .walkers walkers _ => walkers.map fun walker => (walker, .walker walker.text)
  | .defaultWalker walker | .members walker _ _ | .walkerInterface walker _ _ =>
    [(walker, .walker walker.text)]
  | .associativity _ tokens =>
    (tokens.filter fun token => isTokenName token.text).map fun token =>
      (token, .token token.text)
  | .function decl => decl.references
  | .lexerMode mode | .lexerInclude mode => [(mode, .lexerMode mode.text)]
  | .start rule => [(rule, .rule rule.text)]
  | .className _ | .reserved | .invalid | .unknown => []

def definitions (p : Pragma) : List Definition :=
  match p.body with
  | .walkers walkers true =>
    walkers.map fun walker => ⟨.walker walker.text, walker.span, p.span, .plain⟩
  | .function decl =>
    match decl.declared, decl.key?, decl.walkerName with
    | true, some key, some walker =>
      [⟨.function key, decl.function.span, p.span,
        .function decl.rule.text walker decl.function.text decl.signature⟩]
    | _, _, _ => []
  | .lexerMode mode => [⟨.lexerMode mode.text, mode.span, p.span, .plain⟩]
  | .walkerInterface walker typeName true =>
    [⟨.walkerInterface walker.text, walker.span, p.span, .walkerInterface typeName.text⟩]
  | .members _ _ (some block) => block.definitions
  | _ => []

/-- The parameters with the roles they play. -/
def parameterHighlights (p : Pragma) : List Highlight :=
  match p.body with
  | .className name => [name.as .typeName]
  | .walkers walkers _ => walkers.map fun walker => walker.as .walkerName
  | .defaultWalker walker => [walker.as .walkerName]
  | .members walker opening _ =>
    walker.as .walkerName :: opening.toList.map fun mark => mark.as .blockMark
  | .associativity _ tokens => tokens.map fun token => token.as .tokenName
  | .function decl =>
    decl.rule.as .ruleName :: (decl.walker?.toList.map fun walker => walker.as .walkerName) ++
      [decl.function.as .functionName, decl.returnType.as .typeName]
  | .lexerMode mode | .lexerInclude mode => [mode.as .modeName]
  | .walkerInterface walker typeName _ => [walker.as .walkerName, typeName.as .typeName]
  | .start rule => [rule.as .ruleName]
  | .reserved | .invalid | .unknown => []

/-- The keyword, the parameters, and the closing mark of an attached block. A highlight on the
span of one of the pragma's definitions is a declaration. -/
def highlights (p : Pragma) : List Highlight :=
  ((p.mark.as .keyword :: p.parameterHighlights).map fun h =>
    if p.definitions.any fun d => d.span = h.span then h.declared else h) ++
  (match p.block? with | some block => block.highlights | none => [])

/-- Parameters that are read are written with single spaces, all others as they stand. -/
def renderedParameters (p : Pragma) : String :=
  match p.keyword? with
  | some keyword =>
    if keyword.isReserved then p.parameters.text
    else String.ofList (Text.collapse p.parameters.text.toList)
  | none => p.parameters.text

def render (ind : Indentation) (p : Pragma) : List String :=
  (p.mark.text ++ if p.renderedParameters.isEmpty then "" else " " ++ p.renderedParameters) ::
    (match p.block? with | some block => block.render ind | none => [])

end Pragma

end LineGrammar
