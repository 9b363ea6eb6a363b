import LineGrammar.Proofs.FunctionText
import LineGrammar.Proofs.Owed
import LineGrammar.Reading.Line

/-! What reading a line does to the index. The definitions of its node are entered, in their order
and nothing else, and what the node owes is waited for, as far as it is missing in the end. A line
whose reading opens a block is a members pragma that still lacks it. -/

namespace LineGrammar

open Index

/-- None of the diagnostics says that a use was never defined. -/
def Quiet (ds : List Diagnostic) : Prop := ∀ d ∈ ds, d.code ≠ "W0301"

theorem quiet_nil : Quiet [] := by simp [Quiet]

theorem Quiet.append {ds es : List Diagnostic} (h : Quiet ds) (h' : Quiet es) :
    Quiet (ds ++ es) := by
  intro d hd
  rcases List.mem_append.1 hd with hd | hd
  · exact h d hd
  · exact h' d hd

theorem quiet_of {cause : Cause} (h : cause.code ≠ "W0301") (span : Span) :
    Quiet [.of cause span] := by
  intro d hd
  rw [List.mem_singleton.1 hd]; exact h

theorem quiet_checkTerminator (line : Line) (terminated : Bool) :
    Quiet (line.checkTerminator terminated) := by
  unfold Line.checkTerminator
  split
  · exact quiet_nil
  · exact quiet_of (by decide) _

/-- The declaration as it stands on its line. -/
def FunctionShape.bare (line : Line) (shape : FunctionShape) : FunctionDecl :=
  { rule := line.lexeme shape.rule
    walker? := shape.walker?.map line.lexeme
    function := line.lexeme shape.function
    parameters := line.lexeme shape.parameters
    returnType := line.lexeme shape.returnType }

namespace PragmaBody

/-- What holds of the parameters that a reader accepts. -/
structure Sound (line : Line) (ix : Index) (r : Reading PragmaBody) : Prop where
  buckets : r.index.buckets = ix.buckets
  opens : ∀ block, r.sequel = .body block →
    ∃ walker, r.node = .members walker (some block.opening) none ∧
      block.opening.line = line.number ∧ block.isInline = true ∧ block.closing = none ∧
      block.body = []
  bare : ∀ walker opening block, r.node ≠ .members walker opening (some block)
  quiet : Quiet r.problems
  fresh : ∀ decl, r.node = .function decl → decl.declared = true →
    ':' ∉ decl.rule.text.toList ∧ ∀ key, decl.key? = some key → ix.isDefined (.function key) = false
  owes : ∀ (missing : Symbol → Bool) (log : List Definition), ix.Records log → SoundLog log →
    ix.Covered missing →
      r.index.owed missing =
        ix.owed missing ++ (r.node.obligations log).filter fun use => missing use.symbol

theorem quiet_checkWalker (ix : Index) (walker : Lexeme) : Quiet (checkWalker ix walker) := by
  unfold checkWalker
  split
  · exact quiet_nil
  · exact quiet_of (by simp [Cause.code]) _

/-- A body that owes nothing and leaves the uses of the index alone. -/
theorem Sound.plain {line : Line} {ix : Index} {r : Reading PragmaBody}
    (hbuckets : r.index.buckets = ix.buckets) (hpending : r.index.pending = ix.pending)
    (hsequel : ∀ block, r.sequel ≠ .body block) (hquiet : Quiet r.problems)
    (hbare : ∀ walker opening block, r.node ≠ .members walker opening (some block))
    (hnode : ∀ decl, r.node ≠ .function decl) (howes : ∀ log, r.node.obligations log = []) :
    Sound line ix r where
  buckets := hbuckets
  opens := fun block h => absurd h (hsequel block)
  bare := hbare
  quiet := hquiet
  fresh := fun decl h => absurd h (hnode decl)
  owes := fun missing log _ _ _ => by rw [howes, owed_of_pending hpending]; simp

/-- A body that mentions one symbol. -/
theorem Sound.mention {line : Line} {ix ix' : Index} {node : PragmaBody} {s : Symbol} {span : Span}
    (hbuckets : ix'.buckets = ix.buckets) (hpending : ix'.pending = ix.pending)
    (hbare : ∀ walker opening block, node ≠ .members walker opening (some block))
    (hnode : ∀ decl, node ≠ .function decl) (howes : ∀ log, node.obligations log = [⟨s, span⟩]) :
    Sound line ix { node, index := ix'.mention s span } where
  buckets := by rw [buckets_mention, hbuckets]
  opens := fun block h => by cases h
  bare := hbare
  quiet := quiet_nil
  fresh := fun decl h => absurd h (hnode decl)
  owes := fun missing log _ _ hc => by
    rw [howes, owed_mention (fun h => hc s (by rwa [isDefined_congr hbuckets] at h)),
      owed_of_pending hpending]

section
variable {line : Line} {parameters : Slice} {ix : Index} {r : Reading PragmaBody}

theorem sound_readClassName? (h : readClassName? line parameters ix = some r) :
    Sound line ix r := by
  obtain ⟨⟨name, terminated⟩, -, h⟩ := Option.bind_eq_some_iff.1 h
  dsimp only at h
  split at h <;> cases h
  · exact .plain rfl rfl (by simp)
      ((quiet_checkTerminator _ _).append (quiet_of (by decide) _)) (by simp) (by simp) fun _ => rfl
  · exact .plain rfl rfl (by simp) (quiet_checkTerminator _ _) (by simp) (by simp) fun _ => rfl

theorem sound_readWalkers? (h : readWalkers? line parameters ix = some r) : Sound line ix r := by
  obtain ⟨names, -, h⟩ := Option.bind_eq_some_iff.1 h
  dsimp only at h
  split at h <;> cases h
  · exact .plain rfl rfl (by simp) (quiet_of (by decide) _) (by simp) (by simp) fun _ => rfl
  · exact .plain rfl rfl (by simp) quiet_nil (by simp) (by simp) fun _ => rfl

theorem sound_readDefaultWalker? (h : readDefaultWalker? line parameters ix = some r) :
    Sound line ix r := by
  obtain ⟨⟨name, terminated⟩, -, h⟩ := Option.bind_eq_some_iff.1 h
  dsimp only at h
  split at h
  · cases h; exact .plain rfl rfl (by simp) (quiet_of (by decide) _) (by simp) (by simp) fun _ => rfl
  · split at h <;> cases h
    · exact .plain rfl rfl (by simp) quiet_nil (by simp) (by simp) fun _ => rfl
    · exact .plain rfl rfl (by simp) (quiet_checkWalker _ _) (by simp) (by simp) fun _ => rfl

/-- Only a members pragma with an opening mark opens a block. -/
theorem sound_readMembers? (h : readMembers? line parameters ix = some r) : Sound line ix r := by
  obtain ⟨⟨name, mark?⟩, -, h⟩ := Option.bind_eq_some_iff.1 h
  cases h
  refine ⟨rfl, ?_, by simp, quiet_checkWalker _ _, by simp, by simp [obligations]⟩
  intro block hblock
  cases mark? with
  | none => cases hblock
  | some mark => cases hblock; exact ⟨_, rfl, rfl, rfl, rfl, rfl⟩

theorem quiet_checkAssociative (ix : Index) (token : Lexeme) :
    Quiet (checkAssociative ix token) := by
  unfold checkAssociative
  split
  · exact quiet_of (by simp [Cause.code]) _
  · split
    · exact quiet_of (by simp [Cause.code]) _
    · exact quiet_nil

theorem buckets_awaitAssociative (ix : Index) (token : Lexeme) :
    (awaitAssociative ix token).buckets = ix.buckets := by
  unfold awaitAssociative; split <;> simp

theorem owed_awaitAssociative {missing : Symbol → Bool} (tokens : List Lexeme) {ix : Index}
    (hc : ix.Covered missing) :
    (tokens.foldl awaitAssociative ix).owed missing = ix.owed missing ++
      (((tokens.filter fun token => isTokenName token.text).map fun token =>
        (⟨.token token.text, token.span⟩ : Pending)).filter fun use => missing use.symbol) := by
  rw [← List.filterMap_eq_map, List.filterMap_filter]
  refine owed_foldl buckets_awaitAssociative (fun ix' token h => ?_) tokens rfl
  unfold awaitAssociative
  split
  · rw [owed_mention (fun hs => hc _ (by rwa [isDefined_congr h] at hs))]; rfl
  · simp

theorem sound_readAssociativity? {associativity : Associativity}
    (h : readAssociativity? associativity line parameters ix = some r) : Sound line ix r := by
  obtain ⟨names, -, h⟩ := Option.bind_eq_some_iff.1 h
  cases h
  refine ⟨foldl_buckets buckets_awaitAssociative _ ix, by simp, by simp, ?_, by simp, ?_⟩
  · intro d hd
    obtain ⟨token, -, hd⟩ := List.mem_flatMap.1 hd
    exact quiet_checkAssociative ix token d hd
  · intro missing log _ _ hc
    exact owed_awaitAssociative _ hc

theorem quiet_functionWalker (ix : Index) (decl : FunctionDecl) :
    Quiet (functionWalker ix decl).2 := by
  unfold functionWalker
  split
  · exact quiet_checkWalker _ _
  · split
    · exact quiet_nil
    · exact quiet_of (by simp [Cause.code]) _

theorem buckets_awaitBlock (walker : String) (function : Lexeme) (ix : Index) (d : Definition) :
    (awaitBlock walker function ix d).buckets = ix.buckets := by
  unfold awaitBlock; split <;> rfl

theorem buckets_registerFunction (decl : FunctionDecl) (walker : String) (ix : Index) :
    (registerFunction decl walker ix).buckets = ix.buckets := by
  unfold registerFunction
  dsimp only
  split
  · exact buckets_mention ..
  · rw [foldl_buckets (buckets_awaitBlock _ _), buckets_mention]

theorem owed_awaitBlock {missing : Symbol → Bool} (walker : String) (function : Lexeme)
    (ds : List Definition) (ix : Index) :
    (ds.foldl (awaitBlock walker function) ix).owed missing = ix.owed missing ++
      (((ds.filter Definition.expectsBlocks).map fun d =>
        (⟨.codeBlock (blockKey (some d.internalName) walker function.text), function.span⟩ :
          Pending)).filter fun use => missing use.symbol) := by
  rw [← List.filterMap_eq_map, List.filterMap_filter]
  refine owed_foldl (i := ix) (buckets_awaitBlock _ _) (fun ix' d _ => ?_) ds rfl
  unfold awaitBlock
  split
  · exact owed_await ..
  · simp

theorem owed_registerFunction {missing : Symbol → Bool} {log : List Definition}
    (decl : FunctionDecl) (walker : String) (hix : ix.Records log) (hlog : SoundLog log)
    (hc : ix.Covered missing) :
    (registerFunction decl walker ix).owed missing = ix.owed missing ++
      ((⟨.rule decl.rule.text, decl.rule.span⟩ ::
        if hasInterface log walker then []
        else (log.filter fun d => d.symbol = .rule decl.rule.text && d.expectsBlocks).map fun d =>
          (⟨.codeBlock (blockKey (some d.internalName) walker decl.function.text),
            decl.function.span⟩ : Pending)).filter fun use => missing use.symbol) := by
  have hmention : (ix.mention (.rule decl.rule.text) decl.rule.span).buckets = ix.buckets :=
    buckets_mention ..
  unfold registerFunction
  dsimp only
  rw [interfaceOf_congr hmention, hix.interfaceOf_isSome hlog]
  split
  · exact owed_mention (hc _) _
  · rw [owed_awaitBlock, owed_mention (hc _), definitionsOf_congr hmention, hix.definitionsOf,
      List.filter_filter, List.append_assoc, ← List.filter_append]
    simp only [Bool.and_comm]
    rfl

/-- What is read of a function whose walker has been looked up. -/
def functionReading (ix : Index) (decl : FunctionDecl) (problems : List Diagnostic) :
    Reading PragmaBody :=
  match decl.walkerName, decl.key? with
  | some walker, some key =>
    if ix.isDefined (.function key) then
      { node := .function decl
        problems := problems ++ [.of (.duplicateFunction key) decl.function.span]
        index := ix }
    else
      { node := .function { decl with declared := true }
        problems
        index := registerFunction decl walker ix }
  | _, _ => { node := .function decl, problems, index := ix }

theorem readFunction?_eq {shape : FunctionShape}
    (h : parameters.functionParameters? = some shape) :
    readFunction? line parameters ix = some (functionReading ix
      { shape.bare line with walkerName := (functionWalker ix (shape.bare line)).1 }
      (line.checkTerminator shape.terminated ++ (functionWalker ix (shape.bare line)).2)) := by
  simp only [readFunction?, h, Option.bind_eq_bind, Option.bind_some, FunctionShape.bare]
  generalize functionWalker ix _ = owner
  obtain ⟨walkerName, problems⟩ := owner
  cases walkerName with
  | none => rfl
  | some walker =>
    simp only [functionReading, FunctionDecl.key?, Option.map_some]
    split <;> rfl

theorem sound_functionReading (decl : FunctionDecl) {problems : List Diagnostic}
    (hdeclared : decl.declared = false) (hcolon : ':' ∉ decl.rule.text.toList)
    (hquiet : Quiet problems) : Sound line ix (functionReading ix decl problems) := by
  unfold functionReading
  split
  · next walker key hwalker hkey =>
    split
    · exact ⟨rfl, by simp, by simp, hquiet.append (quiet_of (by simp [Cause.code]) _),
        by simp [hdeclared],
        fun missing log _ _ _ => by simp [obligations, FunctionDecl.obligations, hdeclared]⟩
    · next hfresh =>
      refine ⟨buckets_registerFunction _ _ _, by simp, by simp, hquiet, ?_, ?_⟩
      · rintro other hother -
        cases hother
        refine ⟨hcolon, fun key' hkey' => ?_⟩
        cases hkey.symm.trans hkey'
        simpa using hfresh
      · intro missing log hix hlog hc
        refine (owed_registerFunction _ walker hix hlog hc).trans ?_
        simp [obligations, FunctionDecl.obligations, hwalker]
  · exact ⟨rfl, by simp, by simp, hquiet, by simp [hdeclared],
      fun missing log _ _ _ => by simp [obligations, FunctionDecl.obligations, hdeclared]⟩

theorem sound_readFunction? (h : readFunction? line parameters ix = some r) : Sound line ix r := by
  obtain ⟨shape, hshape, -⟩ := Option.bind_eq_some_iff.1 h
  obtain ⟨f, hf, -, hholds⟩ := Slice.functionParameters?_eq_some hshape
  rw [readFunction?_eq hshape] at h
  cases h
  refine sound_functionReading _ rfl ?_
    ((quiet_checkTerminator _ _).append (quiet_functionWalker _ _))
  have hchars : (shape.bare line).rule.text.toList = f.rule := by
    simpa [FunctionShape.bare, Line.lexeme, Slice.lexeme, Slice.text] using hholds.rule
  rw [hchars]
  exact fun hm => absurd (hf.rule.chars ':' hm) (by decide)

theorem sound_readLexerMode? (h : readLexerMode? line parameters ix = some r) :
    Sound line ix r := by
  obtain ⟨⟨name, terminated⟩, -, h⟩ := Option.bind_eq_some_iff.1 h
  cases h
  exact .plain rfl rfl (by simp) quiet_nil (by simp) (by simp) fun _ => rfl

theorem sound_readLexerInclude? (h : readLexerInclude? line parameters ix = some r) :
    Sound line ix r := by
  obtain ⟨⟨name, terminated⟩, -, h⟩ := Option.bind_eq_some_iff.1 h
  cases h
  exact .mention rfl rfl (by simp) (by simp) fun _ => rfl

theorem sound_readWalkerInterface? (h : readWalkerInterface? line parameters ix = some r) :
    Sound line ix r := by
  obtain ⟨⟨name, typeName⟩, -, h⟩ := Option.bind_eq_some_iff.1 h
  cases h
  exact .plain rfl rfl (by simp) (quiet_checkWalker _ _) (by simp) (by simp) fun _ => rfl

theorem sound_readStart? (h : readStart? line parameters ix = some r) : Sound line ix r := by
  obtain ⟨⟨name, terminated⟩, -, h⟩ := Option.bind_eq_some_iff.1 h
  cases h
  exact .mention rfl rfl (by simp) (by simp) fun _ => rfl

theorem sound_read? {keyword : Keyword} (h : read? keyword line parameters ix = some r) :
    Sound line ix r := by
  cases keyword with
  | className => exact sound_readClassName? h
  | walkers => exact sound_readWalkers? h
  | defaultWalker => exact sound_readDefaultWalker? h
  | members => exact sound_readMembers? h
  | left | right | token => exact sound_readAssociativity? h
  | function => exact sound_readFunction? h
  | lexerMode => exact sound_readLexerMode? h
  | lexerInclude => exact sound_readLexerInclude? h
  | walkerInterface => exact sound_readWalkerInterface? h
  | start => exact sound_readStart? h
  | namespaceName | prologue | epilogue | inclusion | checkUnusedTokens =>
    cases h
    exact .plain rfl rfl (by simp) quiet_nil (by simp) (by simp) fun _ => rfl

theorem sound_readInvalid (keyword : Keyword) :
    Sound line ix (readInvalid keyword line parameters ix) :=
  .plain rfl rfl (by simp [readInvalid]) (quiet_of (by simp [Cause.code]) _)
    (by simp [readInvalid]) (by simp [readInvalid]) fun _ => rfl

theorem sound_readUnknown (name : Slice) : Sound line ix (readUnknown line name ix) :=
  .plain rfl rfl (by simp [readUnknown]) (quiet_of (by simp [Cause.code]) _)
    (by simp [readUnknown]) (by simp [readUnknown]) fun _ => rfl

end

/-- What a pragma of the given name reads as its body. -/
def readBody (line : Line) (name parameters : Slice) (ix : Index) : Reading PragmaBody :=
  match Keyword.ofWord? name.text with
  | some keyword =>
    (read? keyword line parameters ix).getD (readInvalid keyword line parameters ix)
  | none => readUnknown line name ix

theorem sound_readBody (line : Line) (name parameters : Slice) (ix : Index) :
    Sound line ix (readBody line name parameters ix) := by
  unfold readBody
  split
  · next keyword _ =>
    cases h : read? keyword line parameters ix with
    | none => exact sound_readInvalid keyword
    | some r => exact sound_read? h
  · exact sound_readUnknown name

end PragmaBody

/-- The pragma whose body has been read. -/
def Pragma.ofBody (line : Line) (mark name parameters : Slice) (body : PragmaBody) : Pragma :=
  { mark := line.lexeme mark
    name := line.lexeme name
    parameters := line.lexeme parameters
    keyword? := Keyword.ofWord? name.text
    body
    span := line.span }

theorem Pragma.read_eq (line : Line) (mark name parameters : Slice) (ix : Index) :
    Pragma.read line mark name parameters ix =
      let body := PragmaBody.readBody line name parameters ix
      let p := Pragma.ofBody line mark name parameters body.node
      { node := p
        problems := body.problems
        index := body.index.enterAll p.definitions
        sequel := body.sequel } := rfl

end LineGrammar
