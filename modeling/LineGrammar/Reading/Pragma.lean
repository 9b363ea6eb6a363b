import LineGrammar.Reading
import LineGrammar.Tiling

/-! Reading pragmas. The keyword chooses a reader for the parameters, which refuses those that
are malformed. What a well-formed pragma defines is entered afterwards, the same way for all
keywords. -/

namespace LineGrammar

structure FunctionShape where
  rule : Slice
  walker? : Option Slice
  function : Slice
  parameters : Slice
  returnType : Slice
  terminated : Bool

/-- The characters of a type, blanks included. -/
def isTypeChar (c : Char) : Bool :=
  isNameChar c || [':', '<', '>', ',', '*', '&'].contains c || isBlank c

/-- The characters of a type that is one word. -/
def isTypeWordChar (c : Char) : Bool := isNameChar c || c == ':' || c == '<' || c == '>'

namespace Slice

/-- One name; tells whether it is terminated. -/
def singleName? (s : Slice) : Option (Slice × Bool) := do
  let (name, s) ← s.name?
  let terminated ← s.terminator?
  return (name, terminated)

/-- Accepts a name and the blanks around it. -/
def listItem? (s : Slice) : Option (Slice × Slice) :=
  s.trimStart.name?.map fun (name, rest) => (name, rest.trimStart)

/-- One or more names with blanks between them; the terminator may be missing. -/
def nameList? (s : Slice) : Option (List Slice) :=
  let list := s.cutTerminator.1
  if list.chars.contains ';' then none
  else (list.sequence? listItem?).filter fun names => !names.isEmpty

/-- A walker, and then a terminator, the mark that opens a block, or neither. -/
def membersParameters? (s : Slice) : Option (Slice × Option Slice) := do
  let (walker, s) ← s.name?
  match s.trimStart.accept? openingMark with
  | some (mark, s) => if s.isEmpty then some (walker, some mark) else none
  | none =>
    let _ ← s.terminator?
    return (walker, none)

def functionParameters? (s : Slice) : Option FunctionShape := do
  let (rule, s) ← s.name?
  let s ← s.blanks?
  let (walker?, s) := s.optional fun s => do
    let (walker, s) ← s.name?
    let (_, s) ← s.accept? "::"
    return (walker, s)
  let (function, s) ← s.name?
  let (_, s) ← s.trimStart.accept? "("
  let (parameters, s) := s.splitWhile fun c => c != '(' && c != ')'
  let (_, s) ← s.accept? ")"
  let (_, s) ← s.trimStart.accept? "->"
  let (returnType, terminated) := s.trimStart.cutTerminator
  if isSpelled isNameStart isTypeChar returnType.chars then
    some { rule, walker?, function, parameters, returnType, terminated }
  else none

def interfaceParameters? (s : Slice) : Option (Slice × Slice) := do
  let (walker, s) ← s.name?
  let s ← s.blanks?
  let (typeName, s) ← s.spelled? isNameStart isTypeWordChar
  let _ ← s.terminator?
  return (walker, typeName)

end Slice

namespace PragmaBody

/-- A walker that is named must have been declared. -/
def checkWalker (ix : Index) (walker : Lexeme) : List Diagnostic :=
  if ix.isDefined (.walker walker.text) then []
  else [.of (.undefinedSymbol (.walker walker.text)) walker.span]

/-- The first class name counts. -/
def readClassName? (line : Line) (parameters : Slice) (ix : Index) :
    Option (Reading PragmaBody) := do
  let (name, terminated) ← parameters.singleName?
  let missing := line.checkTerminator terminated
  if ix.settings.className.isSome then
    return {
      node := .className (line.lexeme name)
      problems := missing ++ [line.problem (.alreadySpecified .className)]
      index := ix }
  else
    return {
      node := .className (line.lexeme name)
      problems := missing
      index := ix.adjust fun s => { s with className := some name.text } }

/-- The first list of walkers counts, and its first walker is the default until another is
specified. -/
def readWalkers? (line : Line) (parameters : Slice) (ix : Index) :
    Option (Reading PragmaBody) := do
  let names ← parameters.nameList?
  let walkers := names.map line.lexeme
  if ix.settings.walkersDeclared then
    return {
      node := .walkers walkers false
      problems := [line.problem (.alreadySpecified .walkers)]
      index := ix }
  else
    return {
      node := .walkers walkers true
      index := ix.adjust fun s =>
        { s with walkersDeclared := true, defaultWalker := walkers.head?.map Lexeme.text } }

/-- The first default that names a declared walker counts. -/
def readDefaultWalker? (line : Line) (parameters : Slice) (ix : Index) :
    Option (Reading PragmaBody) := do
  let (name, _) ← parameters.singleName?
  let walker := line.lexeme name
  if ix.settings.defaultWalkerSpecified then
    return {
      node := .defaultWalker walker
      problems := [line.problem (.alreadySpecified .defaultWalker)]
      index := ix }
  else if ix.isDefined (.walker walker.text) then
    return {
      node := .defaultWalker walker
      index := ix.adjust fun s =>
        { s with defaultWalker := some walker.text, defaultWalkerSpecified := true } }
  else
    return { node := .defaultWalker walker, problems := checkWalker ix walker, index := ix }

/-- The block of a members pragma opens at the end of its line or on the next one. -/
def readMembers? (line : Line) (parameters : Slice) (ix : Index) :
    Option (Reading PragmaBody) := do
  let (name, mark?) ← parameters.membersParameters?
  let walker := line.lexeme name
  let opening := mark?.map line.lexeme
  return {
    node := .members walker opening none
    problems := checkWalker ix walker
    index := ix
    sequel := match opening with
      | some opening => .body {
          opening
          name := some (blockKey none walker.text membersPart)
          walker := some walker.text
          isInline := true }
      | none => .block {
          walker := walker.text
          function := membersPart
          isMembers := true } }

/-- An associativity is declared before the token, whose definition is then awaited. -/
def checkAssociative (ix : Index) (token : Lexeme) : List Diagnostic :=
  if !isTokenName token.text then [.of (.invalidElementName token.text) token.span]
  else if ix.isDefined (.token token.text) then
    [.of (.associativityAfterToken token.text) token.span]
  else []

def awaitAssociative (ix : Index) (token : Lexeme) : Index :=
  if isTokenName token.text then ix.mention (.token token.text) token.span else ix

def readAssociativity? (associativity : Associativity) (line : Line) (parameters : Slice)
    (ix : Index) : Option (Reading PragmaBody) := do
  let names ← parameters.nameList?
  let tokens := names.map line.lexeme
  return {
    node := .associativity associativity tokens
    problems := tokens.flatMap (checkAssociative ix)
    index := tokens.foldl awaitAssociative ix }

/-- The walker that gets the function, with what is wrong about it. -/
def functionWalker (ix : Index) (decl : FunctionDecl) : Option String × List Diagnostic :=
  match decl.walker? with
  | some walker =>
    (if ix.isDefined (.walker walker.text) then some walker.text else none,
      checkWalker ix walker)
  | none =>
    match ix.settings.defaultWalker with
    | some walker => (some walker, [])
    | none => (none, [.of .noDefaultWalker decl.function.span])

/-- A body of the rule that takes blocks waits for the block of the function. -/
def awaitBlock (walker : String) (function : Lexeme) (ix : Index) (d : Definition) : Index :=
  if d.expectsBlocks then
    ix.await (.codeBlock (blockKey (some d.internalName) walker function.text)) function.span
  else ix

/-- The uses that a declared function makes: its rule, and a block for each body of the rule
that is already there, unless the walker is implemented from outside. -/
def registerFunction (decl : FunctionDecl) (walker : String) (ix : Index) : Index :=
  let ix := ix.mention (.rule decl.rule.text) decl.rule.span
  if (ix.interfaceOf walker).isSome then ix
  else (ix.definitionsOf (.rule decl.rule.text)).foldl (awaitBlock walker decl.function) ix

/-- A function needs a walker and a key that is not taken. -/
def readFunction? (line : Line) (parameters : Slice) (ix : Index) :
    Option (Reading PragmaBody) := do
  let shape ← parameters.functionParameters?
  let bare : FunctionDecl :=
    { rule := line.lexeme shape.rule
      walker? := shape.walker?.map line.lexeme
      function := line.lexeme shape.function
      parameters := line.lexeme shape.parameters
      returnType := line.lexeme shape.returnType }
  let (walkerName, walkerProblems) := functionWalker ix bare
  let decl := { bare with walkerName }
  let problems := line.checkTerminator shape.terminated ++ walkerProblems
  match walkerName, decl.key? with
  | some walker, some key =>
    if ix.isDefined (.function key) then
      return {
        node := .function decl
        problems := problems ++ [.of (.duplicateFunction key) decl.function.span]
        index := ix }
    else
      return {
        node := .function { decl with declared := true }
        problems
        index := registerFunction decl walker ix }
  | _, _ => return { node := .function decl, problems, index := ix }

def readLexerMode? (line : Line) (parameters : Slice) (ix : Index) :
    Option (Reading PragmaBody) := do
  let (name, _) ← parameters.singleName?
  return { node := .lexerMode (line.lexeme name), index := ix }

def readLexerInclude? (line : Line) (parameters : Slice) (ix : Index) :
    Option (Reading PragmaBody) := do
  let (name, _) ← parameters.singleName?
  let mode := line.lexeme name
  return { node := .lexerInclude mode, index := ix.mention (.lexerMode mode.text) mode.span }

def readWalkerInterface? (line : Line) (parameters : Slice) (ix : Index) :
    Option (Reading PragmaBody) := do
  let (name, typeName) ← parameters.interfaceParameters?
  let walker := line.lexeme name
  return {
    node := .walkerInterface walker (line.lexeme typeName) (ix.isDefined (.walker walker.text))
    problems := checkWalker ix walker
    index := ix }

/-- The last start rule counts. -/
def readStart? (line : Line) (parameters : Slice) (ix : Index) :
    Option (Reading PragmaBody) := do
  let (name, _) ← parameters.singleName?
  let rule := line.lexeme name
  return {
    node := .start rule
    index := (ix.adjust fun s => { s with startRule := some rule.text }).mention
      (.rule rule.text) rule.span }

/-- Reads the parameters that the keyword takes. -/
def read? (keyword : Keyword) (line : Line) (parameters : Slice) (ix : Index) :
    Option (Reading PragmaBody) :=
  match keyword with
  | .className => readClassName? line parameters ix
  | .walkers => readWalkers? line parameters ix
  | .defaultWalker => readDefaultWalker? line parameters ix
  | .members => readMembers? line parameters ix
  | .left => readAssociativity? .left line parameters ix
  | .right => readAssociativity? .right line parameters ix
  | .token => readAssociativity? .token line parameters ix
  | .function => readFunction? line parameters ix
  | .lexerMode => readLexerMode? line parameters ix
  | .lexerInclude => readLexerInclude? line parameters ix
  | .walkerInterface => readWalkerInterface? line parameters ix
  | .start => readStart? line parameters ix
  | .namespaceName | .prologue | .epilogue | .inclusion | .checkUnusedTokens =>
    some { node := .reserved, index := ix }

/-- Malformed parameters are reported where they stand, missing ones on the whole line. -/
def readInvalid (keyword : Keyword) (line : Line) (parameters : Slice) (ix : Index) :
    Reading PragmaBody :=
  let span := if parameters.isEmpty then line.span else (line.lexeme parameters).span
  { node := .invalid, problems := [.of (.invalidParameters keyword) span], index := ix }

def readUnknown (line : Line) (name : Slice) (ix : Index) : Reading PragmaBody :=
  { node := .unknown
    problems := [.of (.unknownPragma name.text) (line.lexeme name).span]
    index := ix }

end PragmaBody

namespace Pragma

def read (line : Line) (mark name parameters : Slice) (ix : Index) : Reading Pragma :=
  let keyword? := Keyword.ofWord? name.text
  let body : Reading PragmaBody :=
    match keyword? with
    | some keyword =>
      (PragmaBody.read? keyword line parameters ix).getD
        (PragmaBody.readInvalid keyword line parameters ix)
    | none => PragmaBody.readUnknown line name ix
  let p : Pragma :=
    { mark := line.lexeme mark
      name := line.lexeme name
      parameters := line.lexeme parameters
      keyword?
      body := body.node
      span := line.span }
  { body with node := p, index := body.index.enterAll p.definitions }

end Pragma

end LineGrammar
