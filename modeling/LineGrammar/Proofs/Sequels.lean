import LineGrammar.Proofs.Registration
import LineGrammar.Reading.BlockName

/-! What a line asks of the lines after it follows from its node alone: a rule body without terminator
takes blocks, the name of a block and a members pragma take one, and a members pragma with an opening
mark is inside of its block. Nothing else that is read on a line plays a part. -/

namespace LineGrammar

namespace PragmaBody

/-- What the parameters of a pragma ask of the lines after it. -/
def sequel : PragmaBody → Sequel
  | .members walker (some opening) none => .body {
      opening
      name := some (blockKey none walker.text membersPart)
      walker := some walker.text
      isInline := true }
  | .members walker none none => .block {
      walker := walker.text
      function := membersPart
      isMembers := true }
  | _ => .nothing

section
variable {line : Line} {parameters : Slice} {ix : Index} {r : Reading PragmaBody}

theorem sequel_readClassName? (h : readClassName? line parameters ix = some r) :
    r.sequel = r.node.sequel := by
  obtain ⟨⟨name, terminated⟩, -, h⟩ := Option.bind_eq_some_iff.1 h
  dsimp only at h
  split at h <;> cases h <;> rfl

theorem sequel_readWalkers? (h : readWalkers? line parameters ix = some r) :
    r.sequel = r.node.sequel := by
  obtain ⟨names, -, h⟩ := Option.bind_eq_some_iff.1 h
  dsimp only at h
  split at h <;> cases h <;> rfl

theorem sequel_readDefaultWalker? (h : readDefaultWalker? line parameters ix = some r) :
    r.sequel = r.node.sequel := by
  obtain ⟨⟨name, terminated⟩, -, h⟩ := Option.bind_eq_some_iff.1 h
  dsimp only at h
  split at h
  · cases h; rfl
  · split at h <;> cases h <;> rfl

theorem sequel_readMembers? (h : readMembers? line parameters ix = some r) :
    r.sequel = r.node.sequel := by
  obtain ⟨⟨name, mark?⟩, -, h⟩ := Option.bind_eq_some_iff.1 h
  cases h
  cases mark? <;> rfl

theorem sequel_functionReading (decl : FunctionDecl) (problems : List Diagnostic) :
    (functionReading ix decl problems).sequel = (functionReading ix decl problems).node.sequel := by
  unfold functionReading
  split
  · split <;> rfl
  · rfl

theorem sequel_readFunction? (h : readFunction? line parameters ix = some r) :
    r.sequel = r.node.sequel := by
  obtain ⟨shape, hshape, -⟩ := Option.bind_eq_some_iff.1 h
  rw [readFunction?_eq hshape] at h
  cases h
  exact sequel_functionReading _ _

theorem sequel_readWalkerInterface? (h : readWalkerInterface? line parameters ix = some r) :
    r.sequel = r.node.sequel := by
  obtain ⟨⟨name, typeName⟩, -, h⟩ := Option.bind_eq_some_iff.1 h
  cases h
  rfl

theorem sequel_read? {keyword : Keyword} (h : read? keyword line parameters ix = some r) :
    r.sequel = r.node.sequel := by
  cases keyword with
  | className => exact sequel_readClassName? h
  | walkers => exact sequel_readWalkers? h
  | defaultWalker => exact sequel_readDefaultWalker? h
  | members => exact sequel_readMembers? h
  | function => exact sequel_readFunction? h
  | walkerInterface => exact sequel_readWalkerInterface? h
  | left | right | token =>
    obtain ⟨names, -, h⟩ := Option.bind_eq_some_iff.1 h
    cases h
    rfl
  | lexerMode | lexerInclude | start =>
    obtain ⟨⟨name, terminated⟩, -, h⟩ := Option.bind_eq_some_iff.1 h
    cases h
    rfl
  | namespaceName | prologue | epilogue | inclusion | checkUnusedTokens =>
    cases h
    rfl

theorem sequel_readBody (line : Line) (name parameters : Slice) (ix : Index) :
    (readBody line name parameters ix).sequel = (readBody line name parameters ix).node.sequel := by
  unfold readBody
  split
  · next keyword _ =>
    cases h : read? keyword line parameters ix with
    | none => rfl
    | some r => exact sequel_read? h
  · rfl

end

end PragmaBody

namespace Node

/-- What a node asks of the lines after it. -/
def sequel : Node → Sequel
  | rule r => r.sequel
  | blockName n => .name n.target
  | pragma p => p.body.sequel
  | _ => .nothing

theorem sequel_read (line : Line) (ix : Index) (shape : Shape) :
    (Node.read line ix shape).sequel = (Node.read line ix shape).node.sequel := by
  cases shape with
  | comment => rfl
  | pragma mark name parameters => exact PragmaBody.sequel_readBody line name parameters ix
  | token name operator rest =>
    unfold Node.read TokenDef.read
    dsimp only
    split <;> rfl
  | rule name alias? operator rest => rfl

theorem sequel_readName (line : Line) (rule? : Option String) (ix : Index) :
    (BlockName.read line rule? ix).sequel = .name (BlockName.read line rule? ix).node.target := by
  unfold BlockName.read
  dsimp only
  split <;> rfl

theorem read_ne_blockName (line : Line) (ix : Index) (shape : Shape) (name : BlockName) :
    (Node.read line ix shape).node ≠ .blockName name := by
  cases shape <;> exact Node.noConfusion

/-- Whether a code block must come on the next line, or for a rule its name. -/
def expectsBlock : Node → Bool
  | rule r => !r.terminated
  | blockName _ => true
  | pragma p =>
    match p.body with
    | .members _ none _ => true
    | _ => false
  | comment _ | token _ | block _ => false

/-- What the block after the node implements, if the node says so. -/
def target? : Node → Option Target
  | blockName n => n.target
  | pragma p =>
    match p.body with
    | .members walker none _ => some {
        walker := walker.text
        function := membersPart
        isMembers := true }
    | _ => none
  | comment _ | token _ | rule _ | block _ => none

end Node

end LineGrammar
