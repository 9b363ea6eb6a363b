import LineGrammar.Highlight
import LineGrammar.Line

/-! Rule definitions: `name(alias) := ^element(alias) ... element;`. A body without terminator
has its actions in the code blocks that follow. -/

namespace LineGrammar

structure RuleElement where
  anchor? : Option Lexeme
  name : Lexeme
  alias? : Option Lexeme
deriving DecidableEq

namespace RuleElement

/-- What the element stands for, told by the casing of its name. -/
def symbol? (e : RuleElement) : Option Symbol := Symbol.ofElement? e.name.text

def highlights (e : RuleElement) : List Highlight :=
  let role := if isTokenName e.name.text then Role.tokenName else .ruleName
  (e.anchor?.toList.map fun l => l.as .operator) ++ [e.name.as role] ++
    (e.alias?.toList.map fun l => l.as .aliasName)

def render (e : RuleElement) : String :=
  (if e.anchor?.isSome then "^" else "") ++ e.name.text ++
    (match e.alias? with | some l => "(" ++ l.text ++ ")" | none => "")

end RuleElement

structure RuleDef where
  name : Lexeme
  alias? : Option Lexeme
  operator : Lexeme
  elements : List RuleElement
  terminated : Bool
  /-- The name of this body among all bodies of the rule. -/
  internalName : String
  span : Span
deriving DecidableEq

namespace RuleDef

def references (r : RuleDef) : List (Lexeme × Symbol) :=
  (r.name, .rule r.name.text) ::
    r.elements.filterMap fun e => e.symbol?.map fun s => (e.name, s)

def definition (r : RuleDef) : Definition :=
  ⟨.rule r.name.text, r.name.span, r.span, .rule r.internalName (!r.terminated)⟩

def highlights (r : RuleDef) : List Highlight :=
  [(r.name.as .ruleName).declared, r.operator.as .operator] ++
    (r.alias?.toList.map fun l => l.as .aliasName) ++
    r.elements.flatMap RuleElement.highlights

def render (r : RuleDef) : String :=
  r.name.text ++ (match r.alias? with | some l => "(" ++ l.text ++ ")" | none => "") ++ " :=" ++
    String.join (r.elements.map fun e => " " ++ e.render) ++
    (if r.terminated then ";" else "")

end RuleDef

end LineGrammar
