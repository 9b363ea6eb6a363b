import LineGrammar.Reading
import LineGrammar.Tiling

/-! Reading rule definitions. A body is a sequence of elements with blanks between them; a body
that is anything else counts as empty. Each body of a rule gets a name of its own. A body
without terminator waits for a code block for every function that is declared for the rule,
unless the function's walker is implemented from outside. -/

namespace LineGrammar

structure ElementShape where
  anchor? : Option Slice
  name : Slice
  alias? : Option Slice

/-- Accepts one element and the blanks around it; the text ends there unless a blank
follows. -/
def Slice.element? (s : Slice) : Option (ElementShape × Slice) := do
  let (anchor?, s) := s.trimStart.optional (·.accept? "^")
  let (name, s) ← s.name?
  let (alias?, s) := s.optional Slice.parenthesised?
  let rest ← if s.isEmpty then some s else s.blanks?
  return ({ anchor?, name, alias? }, rest)

/-- The elements of a rule body without its terminator. -/
def Slice.elements? (s : Slice) : Option (List ElementShape) := s.sequence? Slice.element?

namespace RuleElement

def ofShape (line : Line) (e : ElementShape) : RuleElement :=
  ⟨e.anchor?.map line.lexeme, line.lexeme e.name, e.alias?.map line.lexeme⟩

/-- Only the first anchor of a body is allowed. -/
def anchorProblems (anchored : Bool) (e : RuleElement) : List Diagnostic :=
  match e.anchor? with
  | some anchor => if anchored then [.of .multipleAnchors anchor.span] else []
  | none => []

/-- An element is a token or a rule, and its alias has the same casing. -/
def nameProblems (e : RuleElement) : List Diagnostic :=
  match e.symbol? with
  | none => [.of (.invalidElementName e.name.text) e.name.span]
  | some symbol =>
    match e.alias? with
    | none => []
    | some l =>
      let sameCasing := if symbol.kind = .token then isTokenName l.text else isRuleName l.text
      if sameCasing then [] else [.of (.aliasCasing e.name.text l.text) l.span]

/-- The problems of the elements in order; `anchored` tells whether an anchor came before. -/
def problems (anchored : Bool) : List RuleElement → List Diagnostic
  | [] => []
  | e :: rest =>
    e.anchorProblems anchored ++ e.nameProblems ++ problems (anchored || e.anchor?.isSome) rest

end RuleElement

namespace RuleDef

/-- An element waits for its definition, unless it is the rule itself. -/
def mentionElement (r : RuleDef) (ix : Index) (e : RuleElement) : Index :=
  match e.symbol? with
  | none => ix
  | some symbol => if symbol = .rule r.name.text then ix else ix.mention symbol e.name.span

/-- The body waits for the block of a function. -/
def awaitBlock (r : RuleDef) (ix : Index) (d : Definition) : Index :=
  match d.detail with
  | .function _ walker function _ =>
    if (ix.interfaceOf walker).isSome then ix
    else ix.await (.codeBlock (blockKey (some r.internalName) walker function)) r.name.span
  | _ => ix

/-- Enters the body, and what it waits for, into the index. -/
def register (r : RuleDef) (ix : Index) : Index :=
  let ix := (r.elements.foldl r.mentionElement ix).enter r.definition
  if r.terminated then ix
  else (ix.functionsOfRule r.name.text).foldl r.awaitBlock ix

/-- What the body asks of the lines after it. -/
def sequel (r : RuleDef) : Sequel :=
  if r.terminated then .nothing
  else .rule { name := r.name, internalName := r.internalName, span := r.span }

def read (line : Line) (name : Slice) (alias? : Option Slice) (operator rest : Slice)
    (ix : Index) : Reading RuleDef :=
  let (list, terminated) := rest.cutTerminator
  let elements? := list.elements?
  let r : RuleDef :=
    { name := line.lexeme name
      alias? := alias?.map line.lexeme
      operator := line.lexeme operator
      elements := (elements?.getD []).map (RuleElement.ofShape line)
      terminated
      internalName := ix.nextInternalName name.text
      span := line.span }
  let malformed :=
    if elements?.isSome then [] else [.of .invalidRuleBody (line.lexeme list).span]
  { node := r
    problems := malformed ++ RuleElement.problems false r.elements
    index := r.register ix
    sequel := r.sequel }

end RuleDef

end LineGrammar
