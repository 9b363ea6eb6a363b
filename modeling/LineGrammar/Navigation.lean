import LineGrammar.Document

/-! Navigation: from a position to the name that is written there, and on to the definitions of
its symbol, to all its occurrences, to the edits that rename it and to what can be said about
it. -/

namespace LineGrammar

structure TextEdit where
  span : Span
  newText : String
deriving DecidableEq

structure Hover where
  contents : String
  kind : SymbolKind
  name : String
  definitionCount : Nat
  span : Span
deriving DecidableEq

namespace Document

/-- The name at a position and what it stands for. -/
def referenceAt? (d : Document) (p : Position) : Option (Lexeme × Symbol) :=
  (d.nodeAt? p.line).bind fun node => node.referenceAt? p

def definitionSpans (d : Document) (s : Symbol) : List Span :=
  (d.index.definitionsOf s).map Definition.span

/-- All places where a symbol is written, in order and each once. -/
def occurrences (d : Document) (s : Symbol) : List Span :=
  Span.dropRepeats <| Span.sort <|
    d.nodeList.flatMap fun node => (node.occurrences s).map Lexeme.span

def definitionsAt (d : Document) (p : Position) : List Span :=
  match d.referenceAt? p with
  | some (_, symbol) => d.definitionSpans symbol
  | none => []

def occurrencesAt (d : Document) (p : Position) : List Span :=
  match d.referenceAt? p with
  | some (_, symbol) => d.occurrences symbol
  | none => []

def renameAt (d : Document) (p : Position) (newName : String) : List TextEdit :=
  (d.occurrencesAt p).map fun span => { span, newText := newName }

/-- What one definition adds to a hover: the literal of a token, the signature of a function. -/
def hoverDetail (name : String) (definition : Definition) : String :=
  match definition.detail with
  | .token literal => "\n\n`" ++ literal ++ "`"
  | .function _ _ _ signature => "\n\n`" ++ name ++ signature ++ "`"
  | _ => ""

/-- A remark on a symbol that has no definition or several. -/
def hoverCount : Nat → String
  | 0 => "\n\n*not defined*"
  | 1 => ""
  | n => "\n\n" ++ toString n ++ " definitions"

/-- A remark on a walker that is implemented from outside. -/
def hoverInterface (ix : Index) (s : Symbol) : String :=
  if s.kind = .walker then
    match ix.interfaceOf s.name with
    | some interface => "\n\nimplemented by `" ++ interface ++ "`"
    | none => ""
  else ""

def hoverAt? (d : Document) (p : Position) : Option Hover :=
  (d.referenceAt? p).map fun (name, symbol) =>
    let definitions := d.index.definitionsOf symbol
    { contents :=
        "**" ++ symbol.kind.title ++ "** `" ++ name.text ++ "`" ++
          String.join (definitions.map (hoverDetail name.text)) ++
          hoverInterface d.index symbol ++ hoverCount definitions.length
      kind := symbol.kind
      name := name.text
      definitionCount := definitions.length
      span := name.span }

end Document

end LineGrammar
