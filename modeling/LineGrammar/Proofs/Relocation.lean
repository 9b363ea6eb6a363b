import LineGrammar.Proofs.RecastNodes
import LineGrammar.Proofs.RuleContent
import LineGrammar.Proofs.ShiftedParts
import LineGrammar.Proofs.TokenContent
import LineGrammar.Reading.Line

/-! Lines that are moved: to another number, or some columns to the right. What is read of a moved line
on a moved index is what was read before, with its places moved. -/

namespace LineGrammar

/-- Where each place of a document goes, what stands on a line then, and which lines a block has. -/
structure Relocation where
  place : Position → Position
  line : Line → Line := id
  body : Nat → List String → List String
  body_nil : ∀ start, body start [] = []

namespace Relocation

/-- Both ends of a span go their own ways. -/
def span (m : Relocation) (s : Span) : Span := ⟨m.place s.start, s.stop.map m.place⟩

def recast (m : Relocation) : Recast :=
  { span := m.span, line := m.line, body := m.body, body_nil := m.body_nil }

/-- A line that takes the place of another, with its text `d` columns further to the right. -/
structure Takes (m : Relocation) (l l' : Line) (d : Nat) : Prop where
  body : l'.body = l.body.shift d
  place : ∀ column, m.place ⟨l.number, column⟩ = ⟨l'.number, column + d⟩

namespace Takes

variable {m : Relocation} {l l' : Line} {d : Nat} (h : m.Takes l l' d)
include h

theorem span_onLine (start stop : Nat) :
    m.recast.span (.onLine l.number start stop) = .onLine l'.number (start + d) (stop + d) := by
  simp [recast, Relocation.span, Span.onLine, h.place]

theorem lexeme (s : Slice) : (l.lexeme s).recast m.recast = l'.lexeme (s.shift d) := by
  rw [Lexeme.recast, Line.lexeme, Slice.lexeme, h.span_onLine, Line.lexeme, Slice.lexeme,
    Slice.stop_shift]
  rfl

theorem lexemeType (s : Slice) : (l.lexeme s).recastType m.recast = l'.lexeme (s.shift d) :=
  h.lexeme s

theorem lexemes (ss : List Slice) :
    (ss.map l.lexeme).map (Lexeme.recast m.recast) = (ss.map (Slice.shift d)).map l'.lexeme := by
  rw [List.map_map, List.map_map]
  exact List.map_congr_left fun s _ => h.lexeme s

theorem lexeme? (s? : Option Slice) :
    (s?.map l.lexeme).map (Lexeme.recast m.recast) = (s?.map (Slice.shift d)).map l'.lexeme := by
  cases s? with
  | none => rfl
  | some s => exact congrArg some (h.lexeme s)

theorem whole : l.whole.recast m.recast = l'.whole := by rw [Line.whole, h.lexeme, ← h.body, Line.whole]

theorem lineSpan : m.recast.span l.span = l'.span := congrArg Lexeme.span h.whole

theorem problem (cause : Cause) : (l.problem cause).recast m.recast = l'.problem cause := by
  rw [Line.problem, recast_of, h.lineSpan, Line.problem]

theorem checkTerminator (terminated : Bool) :
    (l.checkTerminator terminated).map (Diagnostic.recast m.recast) =
      l'.checkTerminator terminated := by
  cases terminated with
  | true => rfl
  | false =>
    simp only [Line.checkTerminator, Line.endSpan, Bool.false_eq_true, if_false, List.map_cons,
      List.map_nil, recast_of, h.span_onLine, h.body, Slice.stop_shift]

theorem isBlank : l'.isBlank = l.isBlank := by rw [Line.isBlank, h.body]; rfl

theorem opensBlock : l'.opensBlock = l.opensBlock := by rw [Line.opensBlock, h.body]; rfl

theorem closesBlock : l'.closesBlock = l.closesBlock := by rw [Line.closesBlock, h.body]; rfl

theorem namesBlock : l'.namesBlock = l.namesBlock := by rw [Line.namesBlock, h.body]; rfl

end Takes

end Relocation

open Relocation

variable {m : Relocation} {l l' : Line} {d : Nat} (h : m.Takes l l' d)

/-- A pragma without a block, or with one whose span has been told again, defines the same. -/
theorem Pragma.definitions_relocated {p : Pragma} (hblock : p.block? = none) :
    (p.recast m.recast).definitions = p.definitions.map (Definition.recast m.recast) := by
  obtain ⟨mark, name, parameters, keyword?, body, span⟩ := p
  cases body with
  | walkers walkers declared =>
    cases declared with
    | false => rfl
    | true =>
      simp only [Pragma.recast, PragmaBody.recast, definitions, List.map_map]
      rfl
  | members walker opening block =>
    cases block with
    | none => rfl
    | some block => cases hblock
  | function decl =>
    simp only [Pragma.recast, PragmaBody.recast, definitions, FunctionDecl.key?_recast]
    have hdeclared : (decl.recast m.recast).declared = decl.declared := rfl
    have hwalker : (decl.recast m.recast).walkerName = decl.walkerName := rfl
    rw [hdeclared, hwalker]
    split <;> rfl
  | walkerInterface walker typeName declared => cases declared <;> rfl
  | _ => rfl

namespace PragmaBody

/-- A reading of a body with its places moved. -/
abbrev relocated (m : Relocation) (r : Reading PragmaBody) : Reading PragmaBody :=
  r.recast m.recast (recast m.recast)

include h

variable (s : Slice) (ix : Index)

theorem readClassName?_moved :
    readClassName? l' (s.shift d) (ix.recast m.recast) = (readClassName? l s ix).map (relocated m) := by
  unfold readClassName?
  rw [Slice.singleName?_shift]
  refine Slice.bind_of_map fun ⟨name, terminated⟩ => ?_
  dsimp only [Prod.map, id]
  rw [Index.settings_recast, ← h.lexeme, ← h.checkTerminator, ← h.problem]
  split
  · simp [Reading.recast, PragmaBody.recast, Sequel.recast]
  · rfl

theorem readWalkers?_moved :
    readWalkers? l' (s.shift d) (ix.recast m.recast) = (readWalkers? l s ix).map (relocated m) := by
  unfold readWalkers?
  rw [Slice.nameList?_shift]
  refine Slice.bind_of_map fun names => ?_
  dsimp only
  rw [Index.settings_recast, ← h.lexemes, ← h.problem]
  split
  · rfl
  · have hhead : ((names.map l.lexeme).map (Lexeme.recast m.recast)).head?.map Lexeme.text =
        (names.map l.lexeme).head?.map Lexeme.text := by
      cases names <;> rfl
    rw [hhead]
    rfl

theorem readDefaultWalker?_moved :
    readDefaultWalker? l' (s.shift d) (ix.recast m.recast) =
      (readDefaultWalker? l s ix).map (relocated m) := by
  unfold readDefaultWalker?
  rw [Slice.singleName?_shift]
  refine Slice.bind_of_map fun ⟨name, terminated⟩ => ?_
  dsimp only [Prod.map, id]
  rw [Index.settings_recast, ← h.lexeme, ← h.problem, Lexeme.text_recast, Index.isDefined_recast,
    ← recast_checkWalker]
  split
  · rfl
  · split <;> rfl

theorem readMembers?_moved :
    readMembers? l' (s.shift d) (ix.recast m.recast) = (readMembers? l s ix).map (relocated m) := by
  unfold readMembers?
  rw [Slice.membersParameters?_shift]
  refine Slice.bind_of_map fun ⟨name, mark?⟩ => ?_
  dsimp only [Prod.map]
  rw [← h.lexeme, ← h.lexeme?, Lexeme.text_recast, ← recast_checkWalker]
  cases mark? with
  | none => rfl
  | some mark =>
    refine congrArg some ?_
    simp only [Option.map_some, relocated, Reading.recast, Sequel.recast, CodeBlock.recast,
      m.recast.body_nil]
    rfl

theorem readAssociativity?_moved (associativity : Associativity) :
    readAssociativity? associativity l' (s.shift d) (ix.recast m.recast) =
      (readAssociativity? associativity l s ix).map (relocated m) := by
  unfold readAssociativity?
  rw [Slice.nameList?_shift]
  refine Slice.bind_of_map fun names => ?_
  dsimp only
  have hproblems : ((names.map l.lexeme).map (Lexeme.recast m.recast)).flatMap
      (checkAssociative (ix.recast m.recast)) =
        ((names.map l.lexeme).flatMap (checkAssociative ix)).map (Diagnostic.recast m.recast) := by
    rw [List.map_flatMap, List.flatMap_map]
    congr 1
    funext token
    exact (recast_checkAssociative m.recast ix token).symm
  rw [← h.lexemes, hproblems, ← Index.recast_foldl (recast_awaitAssociative m.recast)]
  rfl

theorem readFunction?_moved :
    readFunction? l' (s.shift d) (ix.recast m.recast) = (readFunction? l s ix).map (relocated m) := by
  cases hshape : s.functionParameters? with
  | none =>
    have hshape' : (s.shift d).functionParameters? = none := by
      rw [Slice.functionParameters?_shift, hshape, Option.map_none]
    simp only [readFunction?, hshape, hshape', Option.bind_eq_bind, Option.bind_none, Option.map_none]
  | some shape =>
    have hshape' : (s.shift d).functionParameters? = some (shape.shift d) := by
      rw [Slice.functionParameters?_shift, hshape, Option.map_some]
    have hbare : (shape.shift d).bare l' = (shape.bare l).recast m.recast := by
      simp only [FunctionShape.bare, FunctionShape.shift, FunctionDecl.recast, h.lexeme, h.lexemeType,
        h.lexeme?]
    rw [readFunction?_eq hshape, readFunction?_eq hshape', Option.map_some, relocated,
      recast_functionReading, hbare, functionWalker_recast, List.map_append, h.checkTerminator]
    rfl

theorem readLexerMode?_moved :
    readLexerMode? l' (s.shift d) (ix.recast m.recast) = (readLexerMode? l s ix).map (relocated m) := by
  unfold readLexerMode?
  rw [Slice.singleName?_shift]
  refine Slice.bind_of_map fun ⟨name, terminated⟩ => ?_
  dsimp only [Prod.map]
  rw [← h.lexeme]
  rfl

theorem readLexerInclude?_moved :
    readLexerInclude? l' (s.shift d) (ix.recast m.recast) =
      (readLexerInclude? l s ix).map (relocated m) := by
  unfold readLexerInclude?
  rw [Slice.singleName?_shift]
  refine Slice.bind_of_map fun ⟨name, terminated⟩ => ?_
  dsimp only [Prod.map]
  rw [← h.lexeme, Lexeme.text_recast, Lexeme.span_recast, ← Index.recast_mention]
  rfl

theorem readWalkerInterface?_moved :
    readWalkerInterface? l' (s.shift d) (ix.recast m.recast) =
      (readWalkerInterface? l s ix).map (relocated m) := by
  unfold readWalkerInterface?
  rw [Slice.interfaceParameters?_shift]
  refine Slice.bind_of_map fun ⟨name, typeName⟩ => ?_
  dsimp only [Slice.shiftBoth, Prod.map]
  rw [← h.lexeme, ← h.lexeme, Lexeme.text_recast, Index.isDefined_recast, ← recast_checkWalker]
  rfl

theorem readStart?_moved :
    readStart? l' (s.shift d) (ix.recast m.recast) = (readStart? l s ix).map (relocated m) := by
  unfold readStart?
  rw [Slice.singleName?_shift]
  refine Slice.bind_of_map fun ⟨name, terminated⟩ => ?_
  dsimp only [Prod.map]
  rw [← h.lexeme, Lexeme.text_recast, Lexeme.span_recast, ← Index.recast_adjust, ← Index.recast_mention]
  rfl

theorem read?_moved (keyword : Keyword) :
    read? keyword l' (s.shift d) (ix.recast m.recast) = (read? keyword l s ix).map (relocated m) := by
  cases keyword with
  | className => exact readClassName?_moved h s ix
  | walkers => exact readWalkers?_moved h s ix
  | defaultWalker => exact readDefaultWalker?_moved h s ix
  | members => exact readMembers?_moved h s ix
  | left | right | token => exact readAssociativity?_moved h s ix _
  | function => exact readFunction?_moved h s ix
  | lexerMode => exact readLexerMode?_moved h s ix
  | lexerInclude => exact readLexerInclude?_moved h s ix
  | walkerInterface => exact readWalkerInterface?_moved h s ix
  | start => exact readStart?_moved h s ix
  | namespaceName | prologue | epilogue | inclusion | checkUnusedTokens => rfl

theorem readInvalid_moved (keyword : Keyword) :
    readInvalid keyword l' (s.shift d) (ix.recast m.recast) = relocated m (readInvalid keyword l s ix) := by
  unfold readInvalid
  rw [← h.lexeme, ← h.lineSpan, Slice.isEmpty_shift]
  split <;> rfl

theorem readBody_moved (name parameters : Slice) :
    readBody l' (name.shift d) (parameters.shift d) (ix.recast m.recast) =
      relocated m (readBody l name parameters ix) := by
  unfold readBody
  rw [Slice.text_shift]
  cases Keyword.ofWord? name.text with
  | none =>
    dsimp only
    unfold readUnknown
    rw [← h.lexeme, Slice.text_shift]
    rfl
  | some keyword =>
    dsimp only
    rw [read?_moved h, readInvalid_moved h]
    cases read? keyword l parameters ix <;> rfl

end PragmaBody

include h

variable (ix : Index)

theorem Pragma.ofBody_moved (mark name parameters : Slice) (body : PragmaBody) :
    Pragma.ofBody l' (mark.shift d) (name.shift d) (parameters.shift d) (body.recast m.recast) =
      (Pragma.ofBody l mark name parameters body).recast m.recast := by
  unfold Pragma.ofBody Pragma.recast
  dsimp only
  rw [h.lexeme, h.lexeme, h.lineSpan, Slice.text_shift]
  congr 1
  exact (h.lexeme parameters).symm

theorem Pragma.read_moved (mark name parameters : Slice) :
    Pragma.read l' (mark.shift d) (name.shift d) (parameters.shift d) (ix.recast m.recast) =
      (Pragma.read l mark name parameters ix).recast m.recast (Pragma.recast m.recast) := by
  have hblock : (Pragma.ofBody l mark name parameters
      (PragmaBody.readBody l name parameters ix).node).block? = none := by
    have hbare := (PragmaBody.sound_readBody l name parameters ix).bare
    unfold Pragma.ofBody Pragma.block?
    dsimp only
    split
    · next walker opening block hbody =>
      cases block with
      | none => rfl
      | some block => exact absurd hbody (hbare walker opening block)
    · rfl
  rw [Pragma.read_eq, Pragma.read_eq]
  dsimp only
  rw [PragmaBody.readBody_moved h]
  dsimp only [PragmaBody.relocated, Reading.recast]
  rw [Pragma.ofBody_moved h, Pragma.definitions_relocated hblock, ← Index.recast_enterAll]

theorem TokenDef.read_moved (name operator rest : Slice) :
    TokenDef.read l' (name.shift d) (operator.shift d) (rest.shift d) (ix.recast m.recast) =
      (TokenDef.read l name operator rest ix).recast m.recast (TokenDef.recast m.recast) := by
  unfold TokenDef.read
  rw [Slice.tokenValue?_shift]
  cases rest.tokenValue? with
  | none =>
    dsimp only [Option.map_none]
    rw [← h.lexeme, ← h.lexeme, ← h.lineSpan, ← h.problem]
    rfl
  | some value =>
    dsimp only [Option.map_some]
    have hfill : ofValue l' (name.shift d) (operator.shift d) (value.shift d) =
        (ofValue l name operator value).recast m.recast := by
      simp only [ofValue, fill, TokenValue.shift, TokenDef.recast, h.lexeme, h.lexeme?, h.lineSpan,
        Option.map_some]
    unfold ofValue at hfill
    rw [hfill, ← h.checkTerminator, ← TokenDef.recast_register]
    dsimp only [TokenValue.shift]
    by_cases hterm : value.terminated = true
    · simp only [hterm, if_true]
      rfl
    · simp only [hterm]
      rfl

theorem RuleElement.ofShape_moved (e : ElementShape) :
    RuleElement.ofShape l' (e.shift d) = (RuleElement.ofShape l e).recast m.recast := by
  simp only [RuleElement.ofShape, ElementShape.shift, RuleElement.recast, h.lexeme, h.lexeme?]

theorem RuleDef.read_moved (name : Slice) (alias? : Option Slice) (operator rest : Slice) :
    RuleDef.read l' (name.shift d) (alias?.map (Slice.shift d)) (operator.shift d) (rest.shift d)
      (ix.recast m.recast) =
      (RuleDef.read l name alias? operator rest ix).recast m.recast (RuleDef.recast m.recast) := by
  have hrule : ∀ es terminated internalName,
      ofShapes l' (name.shift d) (alias?.map (Slice.shift d)) (operator.shift d)
        (es.map (ElementShape.shift d)) terminated internalName =
      (ofShapes l name alias? operator es terminated internalName).recast m.recast := by
    intro es terminated internalName
    simp only [ofShapes, RuleDef.recast, h.lexeme, h.lexeme?, h.lineSpan, List.map_map]
    congr 2
    funext e
    exact RuleElement.ofShape_moved h e
  have hcut := Slice.cutTerminator_shift d rest
  unfold RuleDef.read
  rw [hcut]
  rcases rest.cutTerminator with ⟨list, terminated⟩
  dsimp only [Prod.map, id]
  have helements : ((list.elements?.map (List.map (ElementShape.shift d))).getD []) =
      (list.elements?.getD []).map (ElementShape.shift d) := by
    cases list.elements? <;> rfl
  have hnode := hrule (list.elements?.getD []) terminated (ix.nextInternalName name.text)
  have hlist : ((list.elements?.getD []).map (ElementShape.shift d)).map (RuleElement.ofShape l') =
      ((list.elements?.getD []).map (RuleElement.ofShape l)).map (RuleElement.recast m.recast) :=
    congrArg RuleDef.elements hnode
  unfold ofShapes at hnode
  rw [Slice.elements?_shift, Slice.text_shift, Index.nextInternalName_recast, helements, hnode,
    ← recast_register, ← recast_sequel, Option.isSome_map, ← h.lexeme]
  unfold Reading.recast
  rw [List.map_append, RuleElement.recast_problems, hlist]
  split <;> rfl

theorem BlockName.read_moved (rule? : Option String) :
    BlockName.read l' rule? (ix.recast m.recast) =
      (BlockName.read l rule? ix).recast m.recast (BlockName.recast m.recast) := by
  have hmarker : l'.lexeme (l'.body.split 1).1 = (l.lexeme (l.body.split 1).1).recast m.recast := by
    rw [h.lexeme, h.body, Slice.split_shift]
    rfl
  have hname : l'.body.blockName? =
      l.body.blockName?.map (Prod.map (Slice.shift d) (Option.map (Slice.shift d))) := by
    rw [h.body, Slice.blockName?_shift]
  cases hparts : l.body.blockName? with
  | none =>
    rw [hparts] at hname
    simp only [BlockName.read, hparts, hname, Option.map_none, hmarker, ← h.lineSpan, ← h.problem]
    rfl
  | some parts =>
    obtain ⟨walker, function?⟩ := parts
    rw [hparts] at hname
    have hnode : ofParts l' rule? (walker.shift d) (function?.map (Slice.shift d)) =
        (ofParts l rule? walker function?).recast m.recast := by
      simp only [ofParts, BlockName.recast, hmarker, h.lexeme, h.lexeme?, h.lineSpan, Option.map_some]
    rw [BlockName.read_eq hparts, BlockName.read_eq hname, hnode, ← BlockName.recast_problems,
      BlockName.target_recast]
    rfl

/-- A moved line is read as the line was, with all places moved. -/
theorem Node.read_moved (shape : Shape) :
    Node.read l' (ix.recast m.recast) (shape.shift d) =
      (Node.read l ix shape).recast m.recast (Node.recast m.recast) := by
  cases shape with
  | comment =>
    simp only [Node.read, Shape.shift, Reading.recast, Node.recast, h.whole]
    rfl
  | pragma mark name parameters =>
    dsimp only [Node.read, Shape.shift]
    rw [Pragma.read_moved h]
    rfl
  | token name operator rest =>
    dsimp only [Node.read, Shape.shift]
    rw [TokenDef.read_moved h]
    rfl
  | rule name alias? operator rest =>
    dsimp only [Node.read, Shape.shift]
    rw [RuleDef.read_moved h]
    rfl

end LineGrammar
