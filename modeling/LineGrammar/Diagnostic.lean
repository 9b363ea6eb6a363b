import LineGrammar.Keyword
import LineGrammar.Symbol

/-! Diagnostics. A diagnostic is a cause at a place; its code, its message and its usual
severity follow from the cause. -/

namespace LineGrammar

inductive Severity
  | error
  | warning
  | information
  | hint
deriving DecidableEq

/-- The number of a severity on the language server's scale. -/
def Severity.rank : Severity → Nat
  | .error => 1
  | .warning => 2
  | .information => 3
  | .hint => 4

/-- Everything that can be wrong with a document. -/
inductive Cause
  | unrecognisedLine
  | invalidTokenDefinition
  | invalidRuleBody
  | invalidParameters (pragma : Keyword)
  | missingTerminator
  | invalidBlockName
  | blockExpected
  | ruleNeedsBlock (rule : String)
  | unmatchedBlockEnd
  | unexpectedBlock
  | unexpectedBlockName
  | unclosedBlock
  | tooManyErrors (limit : Nat)
  | unknownPragma (name : String)
  | alreadySpecified (pragma : Keyword)
  | undefinedSymbol (symbol : Symbol)
  | duplicateFunction (key : String)
  | inlineImplementation (walker interface : String)
  | multipleAnchors
  | invalidElementName (name : String)
  | aliasCasing (element aliasName : String)
  | noDefaultWalker
  | notDefined (symbol : Symbol)
  | associativityAfterToken (token : String)
  | unknownWalker (walker : String)
  | unknownFunction (key : String)
deriving DecidableEq

namespace Cause

def code : Cause → String
  | unrecognisedLine => "E0101"
  | invalidTokenDefinition => "E0102"
  | invalidRuleBody => "E0103"
  | invalidParameters _ => "E0104"
  | missingTerminator => "E0105"
  | invalidBlockName => "E0106"
  | blockExpected => "E0201"
  | ruleNeedsBlock _ => "E0202"
  | unmatchedBlockEnd => "E0203"
  | unexpectedBlock => "E0204"
  | unexpectedBlockName => "E0205"
  | unclosedBlock => "E0206"
  | tooManyErrors _ => "E0207"
  | unknownPragma _ => "E0301"
  | alreadySpecified _ => "E0302"
  | undefinedSymbol _ => "E0303"
  | duplicateFunction _ => "E0304"
  | inlineImplementation .. => "E0305"
  | multipleAnchors => "E0306"
  | invalidElementName _ => "E0307"
  | aliasCasing .. => "E0308"
  | noDefaultWalker => "E0309"
  | notDefined _ => "W0301"
  | associativityAfterToken _ => "W0302"
  | unknownWalker _ => "W0303"
  | unknownFunction _ => "W0304"

/-- Uses of names that are missing are warnings; all else is an error. -/
def severity : Cause → Severity
  | notDefined _ | associativityAfterToken _ | unknownWalker _ | unknownFunction _ => .warning
  | _ => .error

def message : Cause → String
  | unrecognisedLine =>
    "syntax error: line is not a comment, pragma, token or rule definition"
  | invalidTokenDefinition =>
    "invalid token definition, expected NAME := \"literal\"[!] [[mode]];"
  | invalidRuleBody => "invalid rule body, expected a sequence of [^]name[(alias)] elements"
  | invalidParameters pragma =>
    "invalid parameters for %" ++ pragma.word ++ ", expected " ++ pragma.usage
  | missingTerminator => "missing terminating ';'"
  | invalidBlockName => "invalid code block name, expected @Walker[::Function]"
  | blockExpected => "a code block was expected"
  | ruleNeedsBlock rule => "rule '" ++ rule ++ "' has no terminating ';' and needs a code block"
  | unmatchedBlockEnd => "code block end without a start"
  | unexpectedBlock => "unexpected code block, only rules and %members take code blocks"
  | unexpectedBlockName => "unexpected code block name"
  | unclosedBlock => "code block is never closed"
  | tooManyErrors limit =>
    "too many errors (more than " ++ toString limit ++ "), analysis stopped"
  | unknownPragma name => "unknown pragma '%" ++ name ++ "'"
  | alreadySpecified pragma => pragma.word ++ " already specified"
  | undefinedSymbol symbol => symbol.display ++ " is not defined"
  | duplicateFunction key => "function '" ++ key ++ "' is already declared"
  | inlineImplementation walker interface =>
    "inline implementation invalid: walker '" ++ walker ++ "' is implemented by '" ++
      interface ++ "'"
  | multipleAnchors => "only one anchor '^' is allowed in a rule body"
  | invalidElementName name => "'" ++ name ++ "' is neither a TOKEN nor a rule name"
  | aliasCasing element aliasName =>
    "alias '" ++ aliasName ++ "' must use the same casing as '" ++ element ++ "'"
  | noDefaultWalker => "no default walker has been declared"
  | notDefined symbol => symbol.display ++ " has not been defined"
  | associativityAfterToken token => "declare associativity before the token '" ++ token ++ "'"
  | unknownWalker walker => "walker '" ++ walker ++ "' has not been declared"
  | unknownFunction key => "function '" ++ key ++ "' has not been declared"

end Cause

structure Diagnostic where
  cause : Cause
  span : Span
  severity : Severity
deriving DecidableEq

namespace Diagnostic

/-- A cause at a place, with its usual severity. -/
def of (cause : Cause) (span : Span) : Diagnostic := ⟨cause, span, cause.severity⟩

def code (d : Diagnostic) : String := d.cause.code

def message (d : Diagnostic) : String := d.cause.message

def isError (d : Diagnostic) : Bool := d.severity = .error

end Diagnostic

/-- How many of the diagnostics are errors. -/
def errorCount (ds : List Diagnostic) : Nat := ds.countP Diagnostic.isError

end LineGrammar
