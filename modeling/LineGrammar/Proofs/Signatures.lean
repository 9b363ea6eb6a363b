import LineGrammar.Proofs.Consistency
import LineGrammar.Proofs.Declarations
import LineGrammar.Proofs.Formatting
import LineGrammar.Proofs.Positions

/-! Signatures of functions under the layout. A signature shows its parameters with single blanks but its
return type as it is written, while a layout writes both with single blanks. So the signatures of a layout
are those of its text with single blanks throughout. -/

namespace LineGrammar

namespace FunctionText

/-- Parameters and return type as they are shown. -/
def signature (f : FunctionText) : List Char :=
  '(' :: (Text.collapse f.parameters ++ (')' :: ' ' :: '-' :: '>' :: ' ' :: f.returnType))

theorem collapse_signature {f : FunctionText} (hf : f.Valid) :
    Text.collapse f.signature = '(' :: (Text.collapse f.parameters ++
      (')' :: ' ' :: '-' :: '>' :: ' ' :: Text.squeeze false f.returnType)) := by
  have hparameters : Text.squeeze false (Text.collapse f.parameters) = Text.collapse f.parameters := by
    rw [← Text.collapse_eq_of_head (Text.trimmed_collapse _).head, Text.collapse_collapse]
  have hblank : ∀ c ∈ [' '], isBlank c = true := by simp [Text.isBlank_space]
  obtain ⟨c, cs, hcs⟩ := List.exists_cons_of_ne_nil (isSpelled_ne_nil hf.returnType)
  have hspelled := hf.returnType
  rw [hcs] at hspelled
  have hname := isNameChar_of_isNameStart (isSpelled_cons.1 hspelled).1
  have hsolid := isBlank_of_isNameChar hname
  have harrow : Text.squeeze false ([' '] ++ '-' :: '>' :: ' ' :: f.returnType) =
      ' ' :: '-' :: Text.squeeze false ('>' :: ' ' :: f.returnType) :=
    Text.squeeze_gap hblank (by decide) (by decide) _
  have htype : Text.squeeze false ([' '] ++ c :: cs) = ' ' :: c :: Text.squeeze false cs :=
    Text.squeeze_gap hblank hsolid (by rintro rfl; exact absurd hname (by decide)) _
  rw [signature, Text.collapse_eq_of_head (by simp; decide), Text.squeeze_inside (by decide),
    Text.squeeze_append_of_last (Text.trimmed_collapse _).last, hparameters,
    Text.squeeze_inside (by decide)]
  rw [List.singleton_append] at harrow htype
  rw [harrow, Text.squeeze_inside (by decide), hcs, htype, Text.squeeze_inside hsolid]

/-- Collapsing the text of a declaration collapses its signature. -/
theorem exists_collapse_signature {f : FunctionText} (hf : f.Valid) :
    ∃ g : FunctionText, g.Valid ∧ Text.collapse f.text = g.text ∧
      g.signature = Text.collapse f.signature := by
  obtain ⟨parameters, -, hsqueeze, hvalid, htext⟩ := exists_tight hf
  refine ⟨_, hvalid, htext, ?_⟩
  have hparameters : Text.collapse parameters = Text.collapse f.parameters :=
    Text.collapse_of_squeeze_mark (by decide) (by decide) (hsqueeze [])
  rw [collapse_signature hf, ← hparameters]
  rfl

/-- The text of a declaration has one signature, whichever way it is read. -/
theorem signature_eq_of_text {f g : FunctionText} (hf : f.Valid) (hg : g.Valid)
    (h : f.text = g.text) : f.signature = g.signature := by
  obtain ⟨shape, hshape, hholds⟩ := Slice.functionParameters?_text hf 0
  obtain ⟨shape', hshape', hholds'⟩ := Slice.functionParameters?_text hg 0
  rw [h] at hshape
  obtain rfl := Option.some.inj (hshape.symm.trans hshape')
  rw [signature, signature, ← hholds.parameters, ← hholds.returnType, hholds'.parameters,
    hholds'.returnType]

end FunctionText

namespace PragmaBody

variable {line : Line} {parameters : Slice} {ix : Index} {r : Reading PragmaBody} {decl : FunctionDecl}

/-- There is one keyword that declares functions. -/
theorem keyword_of_function {keyword : Keyword} (h : read? keyword line parameters ix = some r)
    (hnode : r.node = .function decl) : keyword = .function := by
  cases keyword with
  | function => rfl
  | namespaceName | prologue | epilogue | inclusion | checkUnusedTokens => cases h; cases hnode
  | className | walkers | defaultWalker =>
    obtain ⟨_, -, h⟩ := Option.bind_eq_some_iff.1 h
    dsimp only at h
    repeat' split at h
    all_goals cases h; cases hnode
  | _ =>
    obtain ⟨_, -, h⟩ := Option.bind_eq_some_iff.1 h
    cases h
    cases hnode

theorem signature_readFunction? (h : readFunction? line parameters ix = some r)
    (hnode : r.node = .function decl) :
    ∃ f : FunctionText, f.Valid ∧ parameters.chars = f.text ∧
      decl.signature.toList = f.signature := by
  obtain ⟨shape, hshape, -⟩ := Option.bind_eq_some_iff.1 h
  obtain ⟨f, hf, htext, hholds⟩ := Slice.functionParameters?_eq_some hshape
  rw [readFunction?_eq hshape] at h
  cases h
  have hparts := (written_functionReading ix
    { shape.bare line with walkerName := (functionWalker ix (shape.bare line)).1 }
    (line.checkTerminator shape.terminated ++ (functionWalker ix (shape.bare line)).2)).2
  rw [hnode] at hparts
  obtain ⟨hparameters, hparts⟩ := List.cons.inj hparts
  obtain ⟨htype, -⟩ := List.cons.inj hparts
  refine ⟨f, hf, htext, ?_⟩
  rw [FunctionDecl.signature, hparameters, htype, FunctionText.signature, ← hholds.parameters,
    ← hholds.returnType]
  simp [FunctionShape.bare, Line.lexeme, Slice.lexeme, Slice.text]

theorem signature_readBody {name : Slice}
    (hnode : (readBody line name parameters ix).node = .function decl) :
    Keyword.ofWord? name.text = some .function ∧ ∃ f : FunctionText, f.Valid ∧
      parameters.chars = f.text ∧ decl.signature.toList = f.signature := by
  unfold readBody at hnode
  split at hnode
  · next keyword hkeyword =>
    cases hr : read? keyword line parameters ix with
    | none => rw [hr] at hnode; cases hnode
    | some r =>
      rw [hr, Option.getD_some] at hnode
      obtain rfl := keyword_of_function hr hnode
      exact ⟨hkeyword, signature_readFunction? hr hnode⟩
  · cases hnode

end PragmaBody

/-- The function that the node declares, or tries to. -/
def Node.declaration? : Node → Option FunctionDecl
  | .pragma p =>
    match p.body with
    | .function decl => some decl
    | _ => none
  | _ => none

theorem Node.declaration?_eq_some {n : Node} {decl : FunctionDecl} (h : n.declaration? = some decl) :
    ∃ p, n = .pragma p ∧ p.body = .function decl := by
  unfold declaration? at h
  split at h
  · next p =>
    split at h
    · next hbody => cases h; exact ⟨p, rfl, hbody⟩
    · cases h
  · cases h

/-- A declaration is read from a line with its keyword, and has the signature of its text. -/
theorem Analysis.Origin.declaration {a : Analysis} {raw : String} {n : Node} {decl : FunctionDecl}
    (h : a.Origin raw n) (hdecl : n.declaration? = some decl) :
    ∃ (mark name parameters : Slice) (f : FunctionText),
      Shape.of? (a.nextLine raw).body = some (.pragma mark name parameters) ∧
      Keyword.ofWord? name.text = some .function ∧ f.Valid ∧ parameters.chars = f.text ∧
      decl.signature.toList = f.signature ∧
      n = .pragma (Pragma.ofBody (a.nextLine raw) mark name parameters (.function decl)) := by
  obtain ⟨p, rfl, hbody⟩ := Node.declaration?_eq_some hdecl
  cases h with
  | shape hblock shape hshape _ hbare _ =>
    rw [Node.bare_of_codeBlock? (by rw [Node.codeBlock?, Pragma.block?, hbody])] at hbare
    cases shape with
    | pragma mark name parameters =>
      change Node.pragma p = .pragma (Pragma.ofBody _ mark name parameters
        (PragmaBody.readBody _ name parameters _).node) at hbare
      obtain rfl := Node.pragma.inj hbare
      have hnode : (PragmaBody.readBody (a.nextLine raw) name parameters a.index).node =
        .function decl := hbody
      obtain ⟨hkeyword, f, hf, htext, hsignature⟩ := PragmaBody.signature_readBody hnode
      rw [hnode]
      exact ⟨mark, name, parameters, f, hshape, hkeyword, hf, htext, hsignature, rfl⟩
    | _ => cases hbare

namespace Analysis

variable {lines : List String} {line : Nat} {n : Node}

/-- The slots above a node are those of the lines above it. -/
theorem slots_split (hn : (after lines).slots.toList[line]?.join = some n)
    (houtside : (after (lines.take line)).reader.block? = none) :
    ∃ rest, (after lines).slots.toList =
      (after (lines.take line)).slots.toList ++ some n :: rest := by
  obtain ⟨hlt, hget⟩ := List.getElem?_eq_some_iff.1 (Option.join_eq_some_iff.1 hn)
  have hle : line ≤ lines.length := by
    rw [Array.length_toList, size_after] at hlt
    exact Nat.le_of_lt hlt
  have hsettled := (settled_after (lines.take line) (lines.drop line)).2
  rw [List.take_append_drop, take_settled houtside, settled_none houtside, size_after,
    List.length_take_of_le hle] at hsettled
  refine ⟨(after lines).slots.toList.drop (line + 1), ?_⟩
  rw [← hsettled, ← hget, ← List.drop_eq_getElem_cons hlt, List.take_append_drop]

/-- A node without a block is written on its own line. -/
theorem written_layoutSlots (hbreak : ∀ raw ∈ lines, '\n' ∉ raw.toList) (hclean : (after lines).Clean)
    (hn : (after lines).slots.toList[line]?.join = some n) (hblock : n.codeBlock? = none)
    (ind : Indentation) :
    ∃ s, (layoutSlots ind (after lines).slots.toList)[line]? = some s ∧ n.Written s := by
  obtain ⟨raw, hraw, horigin⟩ := originAt_after lines line n hn
  have houtside : (after (lines.take line)).reader.block? = none := by
    cases horigin with
    | shape hclosed => exact hclosed
    | name hclosed => exact hclosed
    | block b => cases hblock
  have hquiet : (after (lines.take line)).reader.diagnostics = [] := by
    have hkept := subset_diagnostics_after (lines.take line) (lines.drop line)
    rw [List.take_append_drop, hclean.diagnostics] at hkept
    exact List.subset_nil.1 hkept
  obtain ⟨slots, hsegment⟩ := segment_run (a := {}) rfl hquiet houtside
    fun raw hmem => hbreak raw (List.mem_of_mem_take hmem)
  have hfills : (after (lines.take line)).slots.toList = slots := hsegment.fills
  obtain ⟨rest, hsplit⟩ := slots_split hn houtside
  -- The lines above are a segment of their own, so their layout has as many lines.
  have hlaid := laidOut_layoutSlots ind (after lines).slots.toList
  rw [hsplit, hfills] at hlaid ⊢
  obtain ⟨front, back, hF, hlength, -, hback, -⟩ := hsegment.splits ind _ _ hlaid
  obtain ⟨s, more, rfl, hs, -⟩ := hback.of_line hblock
  rw [List.length_take_of_le (Nat.le_of_lt (List.getElem?_eq_some_iff.1 hraw).1)] at hlength
  exact ⟨s, by rw [hF, ← hlength]; simp, hs⟩

end Analysis

open Analysis

variable {limit : Nat} {text : String}

theorem written_layout (h : (analyze limit text).diagnostics = []) (ind : Indentation) {line : Nat}
    {n : Node} (hn : (analyze limit text).nodeAt? line = some n) (hblock : n.codeBlock? = none) :
    ∃ s, (layout ind (analyze limit text))[line]? = some s ∧ n.Written s := by
  rw [layout_eq_layoutSlots h]
  rw [analyze_eq_document h, Document.nodeAt?, Document.nodes] at hn
  refine written_layoutSlots (fun _ => Text.noBreak_lines) (clean_of_analyzeLines h) ?_ hblock ind
  rw [Array.getElem?_toList]
  exact hn

/-- In a layout the line of a declaration has the same text with single blanks. -/
theorem parameters_headLine {line line' : Line} {mark name parameters mark' name' parameters' : Slice}
    (hshape : Shape.of? line.body = some (.pragma mark name parameters))
    (hkeyword : Keyword.ofWord? name.text = some .function)
    (hshape' : Shape.of? line'.body = some (.pragma mark' name' parameters')) {body : PragmaBody}
    (hraw : line'.raw = (Pragma.ofBody line mark name parameters body).headLine) :
    parameters'.chars = Text.collapse parameters.chars := by
  have hneat := Pragma.neat_headLine hshape hkeyword body
  rw [← hraw] at hneat
  have hbody : line'.body.chars = (Pragma.ofBody line mark name parameters body).headLine.toList := by
    rw [Line.chars_body_of_neat hneat, hraw]
  obtain ⟨_, _, _, hread, -, -, hparameters⟩ := Pragma.shape_headLine hshape hkeyword body hbody
  cases hread.symm.trans hshape'
  exact hparameters

/-- A declaration has its signature with single blanks in a layout. -/
theorem signature_of_layout (h : (analyze limit text).diagnostics = []) (ind : Indentation) {line : Nat}
    {n n' : Node} {decl decl' : FunctionDecl} (hn : (analyze limit text).nodeAt? line = some n)
    (hn' : (analyze limit ("\n".intercalate (layout ind (analyze limit text)))).nodeAt? line = some n')
    (hdecl : n.declaration? = some decl) (hdecl' : n'.declaration? = some decl') :
    decl'.signature.toList = Text.collapse decl.signature.toList := by
  obtain ⟨raw, hraw, horigin⟩ := originAt_analyzeLines hn
  obtain ⟨mark, name, parameters, f, hshape, hkeyword, hf, htext, hsignature, rfl⟩ :=
    horigin.declaration hdecl
  obtain ⟨s, hs, hwritten⟩ := written_layout h ind hn rfl
  obtain ⟨raw', hraw', horigin'⟩ := originAt_analyzeLines hn'
  rw [lines_layout h, hs] at hraw'
  obtain rfl := Option.some.inj hraw'
  obtain ⟨_, _, _, f', hshape', -, hf', htext', hsignature', -⟩ := horigin'.declaration hdecl'
  have hcollapsed := parameters_headLine hshape hkeyword hshape' hwritten
  -- The same characters can be read as `f'` and as the collapsed `f`, which shows that these agree.
  obtain ⟨g, hg, hcollapse, hshown⟩ := FunctionText.exists_collapse_signature hf
  rw [htext', htext, hcollapse] at hcollapsed
  rw [hsignature', hsignature, FunctionText.signature_eq_of_text hf' hg hcollapsed, hshown]

/-- The signature that the definition of a function shows. -/
def Definition.signature? (d : Definition) : Option String :=
  match d.detail with
  | .function _ _ _ signature => some signature
  | _ => none

/-- A text with single blanks, and none around it or before a terminator. -/
def collapsed (s : String) : String := String.ofList (Text.collapse s.toList)

namespace Node

variable {n n' : Node} {decl : FunctionDecl} {key : String}

theorem definitions_of_no_declaration (h : n.declaration? = none) :
    n.definitions.filter (·.symbol = .function key) = [] := by
  rw [List.filter_eq_nil_iff]
  intro d hd hsymbol
  have hkind : d.symbol.kind = .function := by rw [of_decide_eq_true hsymbol]; rfl
  cases n with
  | pragma p =>
    rcases Pragma.definition_cases hd with
      ⟨_, -, hother⟩ | ⟨decl, hbody, -⟩ | ⟨_, _, -, hother⟩ | hother
    · cases hkind.symm.trans hother
    · simp [declaration?, hbody] at h
    · rw [hother] at hkind; cases hkind
    · rw [hkind] at hother; cases hother
  | token t => cases hkind.symm.trans (TokenDef.kind_of_definition hd)
  | rule r => rw [List.mem_singleton.1 hd] at hkind; cases hkind
  | block b => cases hkind.symm.trans (CodeBlock.kind_of_definition hd)
  | comment text => cases hd
  | blockName name => cases hd

theorem signatures_of_declaration (h : n.declaration? = some decl) :
    (n.definitions.filter (·.symbol = .function key)).map Definition.signature? =
      if decl.declared = true ∧ decl.key? = some key then [some decl.signature] else [] := by
  obtain ⟨p, rfl, hbody⟩ := declaration?_eq_some h
  rw [definitions, Pragma.definitions, hbody]
  dsimp only
  cases hwalker : decl.walkerName with
  | none => simp [FunctionDecl.key?, hwalker]
  | some walker =>
    cases hdeclared : decl.declared with
    | false => simp
    | true =>
      by_cases hkey : functionKey decl.rule.text walker decl.function.text = key
      · simp [FunctionDecl.key?, hwalker, hkey, Definition.signature?]
      · simp [FunctionDecl.key?, hwalker, hkey, Symbol.function]

theorem declaration?_content (n : Node) :
    n.content.declaration? = n.declaration?.map FunctionDecl.content := by
  cases n with
  | pragma p =>
    obtain ⟨mark, name, parameters, keyword?, body, span⟩ := p
    cases body <;> rfl
  | _ => rfl

/-- What becomes of the signatures of a node. -/
theorem signatures_of_content (hcontent : n'.content = n.content)
    (h : ∀ decl decl', n.declaration? = some decl → n'.declaration? = some decl' →
      decl'.signature.toList = Text.collapse decl.signature.toList) :
    (n'.definitions.filter (·.symbol = .function key)).map Definition.signature? =
      ((n.definitions.filter (·.symbol = .function key)).map Definition.signature?).map
        (Option.map collapsed) := by
  have hdecl : n'.declaration?.map FunctionDecl.content = n.declaration?.map FunctionDecl.content := by
    rw [← declaration?_content, hcontent, declaration?_content]
  cases hn : n.declaration? with
  | none =>
    rw [hn, Option.map_none, Option.map_eq_none_iff] at hdecl
    rw [definitions_of_no_declaration hn, definitions_of_no_declaration hdecl]
    rfl
  | some decl =>
    rw [hn, Option.map_some] at hdecl
    obtain ⟨decl', hn', hsame⟩ := Option.map_eq_some_iff.1 hdecl
    have hdeclared : decl'.content.declared = decl.content.declared := by rw [hsame]
    have hkey : decl'.content.key? = decl.content.key? := by rw [hsame]
    change decl'.declared = decl.declared at hdeclared
    rw [FunctionDecl.key?_content, FunctionDecl.key?_content] at hkey
    have hshown : decl'.signature = collapsed decl.signature :=
      String.toList_inj.1 (by rw [h decl decl' hn hn', collapsed, String.toList_ofList])
    rw [signatures_of_declaration hn, signatures_of_declaration hn', hdeclared, hkey, hshown]
    split <;> rfl

end Node

namespace Document

/-- What the functions with a key show, in the order of the lines. -/
def signatures (d : Document) (key : String) : List (Option String) :=
  (d.index.definitionsOf (.function key)).map Definition.signature?

theorem signatures_eq {d : Document} (h : d.index.Records d.definitions) (key : String) :
    d.signatures key = (List.range d.lineCount).flatMap fun line =>
      (d.nodeAt? line).toList.flatMap fun n =>
        (n.definitions.filter (·.symbol = .function key)).map Definition.signature? := by
  rw [signatures, h.definitionsOf, definitions, nodeList_eq, List.filterMap_eq_flatMap_toList,
    List.flatMap_assoc, List.filter_flatMap, List.map_flatMap]
  refine List.flatMap_congr fun line _ => ?_
  rw [List.filter_flatMap, List.map_flatMap]

end Document

theorem map_collapsed_eq_iff (shown : List (Option String)) :
    shown.map (Option.map collapsed) = shown ↔ ∀ s, some s ∈ shown → collapsed s = s := by
  have hfixed : shown.map (Option.map collapsed) = shown.map id ↔
      ∀ s? ∈ shown, s?.map collapsed = s? :=
    List.map_eq_map_iff
  rw [List.map_id] at hfixed
  rw [hfixed]
  refine ⟨fun h s hs => Option.some.inj (h _ hs), fun h s? hs => ?_⟩
  cases s? with
  | none => rfl
  | some s => exact congrArg some (h s hs)

/-- The functions of a layout show the signatures of the text with single blanks. These are the same
signatures just if they had single blanks before. -/
theorem signatures_layout (limit : Nat) (text : String) (ind : Indentation)
    (h : (analyze limit text).diagnostics = []) (key : String) :
    (analyze limit ("\n".intercalate (layout ind (analyze limit text)))).signatures key =
        ((analyze limit text).signatures key).map (Option.map collapsed) ∧
      ((analyze limit ("\n".intercalate (layout ind (analyze limit text)))).signatures key =
          (analyze limit text).signatures key ↔
        ∀ s, some s ∈ (analyze limit text).signatures key → collapsed s = s) := by
  have hsame := Document.sameMeaning_of_content (content_analyze_layout h ind)
  have hshown : (analyze limit ("\n".intercalate (layout ind (analyze limit text)))).signatures key =
      ((analyze limit text).signatures key).map (Option.map collapsed) := by
    rw [Document.signatures_eq (records_analyze limit _), Document.signatures_eq (records_analyze limit _),
      hsame.lineCount, List.map_flatMap]
    refine List.flatMap_congr fun line _ => ?_
    have hcontent := hsame.nodes line
    cases hn : (analyze limit text).nodeAt? line with
    | none =>
      rw [hn, Option.map_none, Option.map_eq_none_iff] at hcontent
      rw [hcontent]
      rfl
    | some n =>
      rw [hn, Option.map_some] at hcontent
      obtain ⟨n', hn', hcontent⟩ := Option.map_eq_some_iff.1 hcontent
      rw [hn', Option.toList_some, Option.toList_some, List.flatMap_singleton, List.flatMap_singleton]
      exact Node.signatures_of_content hcontent fun decl decl' => signature_of_layout h ind hn hn'
  exact ⟨hshown, by rw [hshown, map_collapsed_eq_iff]⟩

/-- A return type with two blanks in it. -/
def spacedText : String := "%walkers W;\n%function r f() -> unsigned  int;\nr := A;\nA := \"x\";"

theorem signatures_layout_spaced :
    (analyze 25 ("\n".intercalate (layout {} (analyze 25 spacedText)))).signatures "r::W::f" =
        ((analyze 25 spacedText).signatures "r::W::f").map (Option.map collapsed) ∧
      ((analyze 25 ("\n".intercalate (layout {} (analyze 25 spacedText)))).signatures "r::W::f" =
          (analyze 25 spacedText).signatures "r::W::f" ↔
        ∀ s, some s ∈ (analyze 25 spacedText).signatures "r::W::f" → collapsed s = s) :=
  signatures_layout 25 spacedText {} (by decide +kernel) "r::W::f"

/-- A layout changes what a function shows. -/
theorem signatures_spaced :
    (analyze 25 spacedText).diagnostics = [] ∧
      (analyze 25 spacedText).signatures "r::W::f" = [some "() -> unsigned  int"] ∧
      (analyze 25 ("\n".intercalate (layout {} (analyze 25 spacedText)))).signatures "r::W::f" =
        [some "() -> unsigned int"] := by
  decide +kernel

end LineGrammar
