import LineGrammar.Proofs.PragmaContent
import LineGrammar.Proofs.RecastNodes
import LineGrammar.Proofs.Shapes

/-! Reading a pragma again after it has been laid out. The first line of a pragma that was read without
problems is its keyword and its parameters with a blank between them; the line is read with the same
content, and what it defines is the same but for columns and blanks. -/

namespace LineGrammar

theorem CodeBlock.span_content (b : CodeBlock) : b.content.span = b.span.onLines := by
  obtain ⟨opening, closing, name, walker, body, isInline, external⟩ := b
  cases closing with
  | none => rfl
  | some mark =>
    obtain ⟨text, start, stop⟩ := mark
    cases stop <;> rfl

theorem CodeBlock.definitions_content (b : CodeBlock) :
    b.content.definitions = b.definitions.map Definition.content :=
  CodeBlock.definitions_recast .content b.span_content

theorem FunctionDecl.dense_signature (f : FunctionDecl) :
    Text.dense f.content.signature.toList = Text.dense f.signature.toList := by
  simp only [signature, content, Lexeme.denseContent, String.toList_append, String.toList_ofList,
    Text.dense_append, Text.dense_collapse, Text.dense_dense]

theorem FunctionDecl.key?_content (f : FunctionDecl) : f.content.key? = f.key? := rfl

theorem Pragma.definitions_content (p : Pragma) :
    p.content.definitions.map Definition.content = p.definitions.map Definition.content := by
  have honLines : ∀ (s : Symbol) (l : Lexeme) (span : Span) (detail : Detail),
      (⟨s, l.content.span, span.onLines, detail⟩ : Definition).content =
        (⟨s, l.span, span, detail⟩ : Definition).content := by
    intro s l span detail
    simp [Definition.content]
  obtain ⟨mark, name, parameters, keyword?, body, span⟩ := p
  cases body with
  | walkers walkers declared =>
    cases declared with
    | false => rfl
    | true =>
      simp only [content, PragmaBody.content, definitions, List.map_map]
      apply List.map_congr_left
      intro walker _
      exact honLines _ walker span _
  | members walker opening block =>
    cases block with
    | none => rfl
    | some block =>
      simp only [content, PragmaBody.content, Option.map_some, definitions,
        CodeBlock.definitions_content, List.map_map]
      apply List.map_congr_left
      intro d _
      exact d.content_content
  | function decl =>
    simp only [content, PragmaBody.content, definitions, FunctionDecl.key?_content]
    have hdeclared : decl.content.declared = decl.declared := rfl
    have hwalker : decl.content.walkerName = decl.walkerName := rfl
    rw [hdeclared, hwalker]
    split
    · simp only [List.map_cons, List.map_nil, Definition.content, Detail.content,
        FunctionDecl.dense_signature]
      simp [FunctionDecl.content]
    · rfl
  | lexerMode mode => exact congrArg (fun d => [d]) (honLines _ mode span _)
  | walkerInterface walker typeName declared =>
    cases declared with
    | false => rfl
    | true => exact congrArg (fun d => [d]) (honLines _ walker span _)
  | _ => rfl

/-- The parameters as they are laid out. -/
def Keyword.parameterText (keyword : Keyword) (parameters : List Char) : List Char :=
  if keyword.isReserved then parameters else Text.collapse parameters

theorem Keyword.parameterText_parameterText (keyword : Keyword) (cs : List Char) :
    keyword.parameterText (keyword.parameterText cs) = keyword.parameterText cs := by
  unfold parameterText
  split
  · rfl
  · exact Text.collapse_collapse cs

theorem Keyword.trimmed_parameterText (keyword : Keyword) {cs : List Char} (h : Text.Trimmed cs) :
    Text.Trimmed (keyword.parameterText cs) := by
  unfold parameterText
  split
  · exact h
  · exact Text.trimmed_collapse cs

theorem Keyword.noBreak_parameterText (keyword : Keyword) {cs : List Char} (h : '\n' ∉ cs) :
    '\n' ∉ keyword.parameterText cs := by
  unfold parameterText
  split
  · exact h
  · intro hmem
    rcases Text.mem_collapse hmem with hmem | hmem
    · exact h hmem
    · exact absurd hmem (by decide)

/-- A text with a blank before it, unless it is empty. -/
def offset (cs : List Char) : List Char := if cs.isEmpty then [] else ' ' :: cs

theorem trim_offset {cs : List Char} (h : Text.Trimmed cs) : Text.trim (offset cs) = cs := by
  cases cs with
  | nil => rfl
  | cons c cs => exact h.trim_blanks (b := [' ']) (by simp [Text.isBlank_space])

theorem head_offset (cs : List Char) : ∀ c ∈ (offset cs).head?, isNameChar c = false := by
  cases cs with
  | nil => simp [offset]
  | cons c cs => simp [offset]; decide

/-- A word, and a text after it. -/
theorem trimmed_append_offset {front cs : List Char} (hne : front ≠ [])
    (hfront : ∀ c ∈ front, isBlank c = false) (h : Text.Trimmed cs) :
    Text.Trimmed (front ++ offset cs) := by
  cases cs with
  | nil =>
    rw [show offset [] = [] from rfl, List.append_nil]
    exact ⟨fun c hc => hfront c (List.mem_of_mem_head? hc),
      fun c hc => hfront c (List.mem_of_getLast? hc)⟩
  | cons c cs =>
    exact Text.trimmed_append [' '] hne (by simp) (fun c hc => hfront c (List.mem_of_mem_head? hc))
      h.last

theorem noBreak_append_offset {front cs : List Char} (hfront : ∀ c ∈ front, isBlank c = false)
    (h : '\n' ∉ cs) : '\n' ∉ front ++ offset cs := by
  intro hmem
  rcases List.mem_append.1 hmem with hmem | hmem
  · exact absurd (hfront _ hmem) (by decide)
  · cases cs with
    | nil => cases hmem
    | cons c cs =>
      rcases List.mem_cons.1 hmem with hmem | hmem
      · exact absurd hmem (by decide)
      · exact h hmem

namespace PragmaBody

theorem read?_reserved {keyword : Keyword} (h : keyword.isReserved = true) (line : Line)
    (parameters : Slice) (ix : Index) :
    read? keyword line parameters ix = some { node := .reserved, index := ix } := by
  cases keyword <;> first | rfl | cases h

theorem alike_read?_parameterText {line line' : Line} (hline : line'.number = line.number)
    {keyword : Keyword} {parameters parameters' : Slice}
    (hs : parameters'.chars = keyword.parameterText parameters.chars) {ix ix' : Index}
    (hix : ix'.content = ix.content) {r : Reading PragmaBody}
    (h : read? keyword line parameters ix = some r) :
    ∃ r', read? keyword line' parameters' ix' = some r' ∧ Alike r' r := by
  cases hkeyword : keyword.isReserved with
  | false =>
    rw [Keyword.parameterText, hkeyword, if_neg Bool.false_ne_true] at hs
    exact alike_read? hline hs hix hkeyword h
  | true =>
    rw [read?_reserved hkeyword] at h
    cases h
    exact ⟨_, read?_reserved hkeyword line' parameters' ix', Reading.content_eq rfl rfl hix rfl⟩

end PragmaBody

namespace Pragma

section
variable {line : Line} {mark name parameters : Slice} {ix : Index} {keyword : Keyword}

theorem read_clean (h : (read line mark name parameters ix).problems = []) :
    ∃ keyword r, Keyword.ofWord? name.text = some keyword ∧
      PragmaBody.read? keyword line parameters ix = some r := by
  rw [read_eq] at h
  unfold PragmaBody.readBody at h
  dsimp only at h
  split at h
  · next keyword hkeyword =>
    cases hr : PragmaBody.read? keyword line parameters ix with
    | some r => exact ⟨keyword, r, hkeyword, hr⟩
    | none => rw [hr] at h; cases h
  · cases h

theorem readBody_eq {r : Reading PragmaBody} (hkeyword : Keyword.ofWord? name.text = some keyword)
    (hr : PragmaBody.read? keyword line parameters ix = some r) :
    PragmaBody.readBody line name parameters ix = r := by
  unfold PragmaBody.readBody
  rw [hkeyword]
  dsimp only
  rw [hr, Option.getD_some]

theorem renderedParameters_ofBody (hkeyword : Keyword.ofWord? name.text = some keyword)
    (body : PragmaBody) :
    (ofBody line mark name parameters body).renderedParameters =
      String.ofList (keyword.parameterText parameters.chars) := by
  unfold renderedParameters ofBody Keyword.parameterText
  dsimp only
  rw [hkeyword]
  dsimp only
  split <;> simp [Line.lexeme, Slice.lexeme, Slice.text]

theorem toList_headLine_ofBody (hkeyword : Keyword.ofWord? name.text = some keyword)
    (body : PragmaBody) :
    (ofBody line mark name parameters body).headLine.toList =
      mark.chars ++ offset (keyword.parameterText parameters.chars) := by
  have hmark : (ofBody line mark name parameters body).mark.text.toList = mark.chars := by
    simp [ofBody, Line.lexeme, Slice.lexeme, Slice.text]
  rw [headLine, renderedParameters_ofBody hkeyword, String.toList_append, hmark]
  cases keyword.parameterText parameters.chars with
  | nil => rfl
  | cons c cs => simp [offset]

end

theorem content_ofBody_congr {line line' : Line} (hline : line'.number = line.number)
    {mark mark' name name' parameters parameters' : Slice} (hmark : mark'.chars = mark.chars)
    (hname : name'.chars = name.chars) {keyword : Keyword}
    (hkeyword : Keyword.ofWord? name.text = some keyword)
    (hparameters : parameters'.chars = keyword.parameterText parameters.chars)
    {body body' : PragmaBody} (hbody : body'.content = body.content) :
    (ofBody line' mark' name' parameters' body').content =
      (ofBody line mark name parameters body).content := by
  have hword : name'.text = name.text := by rw [Slice.text, Slice.text, hname]
  unfold content
  rw [renderedParameters_ofBody hkeyword, renderedParameters_ofBody (hword ▸ hkeyword),
    hparameters, Keyword.parameterText_parameterText]
  simp only [ofBody, content_lexeme_congr hline hmark, content_lexeme_congr hline hname, hword,
    hbody, onLines_span_congr hline]
  simp [Line.lexeme, Slice.lexeme, hline]

section
variable {line : Line} {mark name parameters : Slice} {keyword : Keyword}
  (hshape : Shape.of? line.body = some (.pragma mark name parameters))
  (hkeyword : Keyword.ofWord? name.text = some keyword) (body : PragmaBody)
include hshape hkeyword

theorem neat_headLine : Neat (ofBody line mark name parameters body).headLine := by
  obtain ⟨_, _, _, hparts, hname, hmark, hbreak, more, -, hparameters, -⟩ :=
    Shape.pragma?_eq_some (Shape.pragma?_of_of? hshape)
  cases hparts
  have hsolid : ∀ c ∈ mark.chars, isBlank c = false := by
    rw [hmark]
    exact List.forall_mem_cons.2 ⟨by decide, hname.solid⟩
  constructor
  · rw [toList_headLine_ofBody hkeyword]
    exact trimmed_append_offset (by simp [hmark]) hsolid
      (keyword.trimmed_parameterText (hparameters ▸ Text.trimmed_trim more))
  · rw [toList_headLine_ofBody hkeyword]
    exact noBreak_append_offset hsolid (keyword.noBreak_parameterText hbreak)

/-- The first line of a pragma has its shape, with the parameters as they are laid out. -/
theorem shape_headLine {line' : Line}
    (hbody : line'.body.chars = (ofBody line mark name parameters body).headLine.toList) :
    ∃ mark' name' parameters', Shape.of? line'.body = some (.pragma mark' name' parameters') ∧
      mark'.chars = mark.chars ∧ name'.chars = name.chars ∧
      parameters'.chars = keyword.parameterText parameters.chars := by
  obtain ⟨_, _, _, hparts, hname, hmark, hbreak, more, -, hparameters, -⟩ :=
    Shape.pragma?_eq_some (Shape.pragma?_of_of? hshape)
  cases hparts
  have htrim := trim_offset (keyword.trimmed_parameterText (hparameters ▸ Text.trimmed_trim more))
  rw [toList_headLine_ofBody hkeyword, hmark, List.cons_append] at hbody
  obtain ⟨mark', name', parameters', hshape', hmark', hname', hparameters'⟩ :=
    Shape.of?_pragma hbody hname (head_offset _)
      (by rw [htrim]; exact keyword.noBreak_parameterText hbreak)
  exact ⟨mark', name', parameters', hshape', hmark'.trans hmark.symm, hname',
    hparameters'.trans htrim⟩

end

/-- The first line of a pragma that is laid out and read again. -/
theorem reread {line line' : Line} (hline : line'.number = line.number) {ix ix' : Index}
    (hix : ix'.content = ix.content) {mark name parameters : Slice}
    (hshape : Shape.of? line.body = some (.pragma mark name parameters))
    (hclean : (read line mark name parameters ix).problems = []) :
    Neat (read line mark name parameters ix).node.headLine ∧
      (line'.body.chars = (read line mark name parameters ix).node.headLine.toList →
        ∃ mark' name' parameters',
          Shape.of? line'.body = some (.pragma mark' name' parameters') ∧
          (read line' mark' name' parameters' ix').content Pragma.content =
            (read line mark name parameters ix).content Pragma.content) := by
  obtain ⟨keyword, r, hkeyword, hr⟩ := read_clean hclean
  rw [read_eq, readBody_eq hkeyword hr]
  refine ⟨neat_headLine hshape hkeyword r.node, fun hbody => ?_⟩
  obtain ⟨mark', name', parameters', hshape', hmark', hname', hparameters'⟩ :=
    shape_headLine hshape hkeyword r.node hbody
  obtain ⟨r', hr', halike⟩ := PragmaBody.alike_read?_parameterText hline hparameters' hix hr
  have hword : name'.text = name.text := by rw [Slice.text, Slice.text, hname']
  have hnode := content_ofBody_congr hline hmark' hname' hkeyword hparameters'
    (congrArg Reading.node halike)
  refine ⟨mark', name', parameters', hshape', ?_⟩
  rw [read_eq, readBody_eq (hword ▸ hkeyword) hr']
  refine Reading.content_eq hnode (congrArg Reading.problems halike) ?_
    (congrArg Reading.sequel halike)
  have hindex : r'.index.content = r.index.content := congrArg Reading.index halike
  have hdefinitions := definitions_content (ofBody line' mark' name' parameters' r'.node)
  rw [hnode, definitions_content] at hdefinitions
  dsimp only
  rw [Index.content_enterAll, Index.content_enterAll, hindex, hdefinitions]

end Pragma

end LineGrammar
