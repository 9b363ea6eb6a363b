import LineGrammar.Proofs.CleanRun
import LineGrammar.Proofs.Segments

/-! The layout of a document is a document of the same content. So laying it out once more changes
nothing, and no line, name or definition is lost. -/

namespace LineGrammar

open Analysis

def Document.content (d : Document) : Document :=
  { d with
    nodes := d.nodes.map (Option.map Node.content)
    index := d.index.content
    diagnostics := d.diagnostics.map Diagnostic.content }

theorem layout_content (ind : Indentation) (d : Document) : layout ind d.content = layout ind d := by
  have hempty : d.content.diagnostics.isEmpty = d.diagnostics.isEmpty := by simp [Document.content]
  have hslots : layoutSlots ind d.content.nodes.toList = layoutSlots ind d.nodes.toList := by
    rw [Document.content, Array.toList_map, layoutSlots_content]
  rw [layout, layout, hempty, hslots]

theorem layout_of_clean {d : Document} (h : d.diagnostics = []) (ind : Indentation) :
    layout ind d = layoutSlots ind d.nodes.toList := by
  rw [layout, h]
  rfl

theorem content_document (a : Analysis) : a.document.content = a.content.document := rfl

/-- A segment can be exchanged for the standard layout of its slots. -/
theorem Segment.layout {a : Analysis} {lines : List String} {slots : List (Option Node)}
    (h : Segment a lines slots) (ind : Indentation) :
    (layoutSlots ind slots).length = lines.length ∧
      (∀ f ∈ layoutSlots ind slots, FitsLine f) ∧
      ((layoutSlots ind slots).foldl step a).content = (lines.foldl step a).content := by
  have hlaid := laidOut_layoutSlots ind slots
  rw [← List.append_nil slots] at hlaid
  obtain ⟨G, H, hG, hlength, hfits, hrest, hcontent⟩ := h.splits ind [] _ hlaid
  cases hrest
  rw [List.append_nil, List.append_nil] at hG
  rw [hG]
  exact ⟨hlength, hfits, hcontent a rfl⟩

/-- A text in which nothing is wrong is one segment with all the slots. -/
theorem segment_of_clean {text : String} (h : ((Text.lines text).foldl step {}).Clean) :
    Segment {} (Text.lines text) ((Text.lines text).foldl step {}).slots.toList := by
  obtain ⟨slots, hsegment⟩ := segment_run (a := {}) rfl h.diagnostics h.closed
    fun _ => Text.noBreak_lines
  have hslots : ((Text.lines text).foldl step {}).slots.toList = slots := hsegment.fills
  rw [hslots]
  exact hsegment

variable {limit : Nat} {text : String}

theorem analyze_eq_document (h : (analyze limit text).diagnostics = []) :
    analyze limit text = ((Text.lines text).foldl step {}).document :=
  analyzeLines_of_clean (clean_of_analyzeLines h) limit

theorem layout_eq_layoutSlots (h : (analyze limit text).diagnostics = []) (ind : Indentation) :
    layout ind (analyze limit text) =
      layoutSlots ind ((Text.lines text).foldl step {}).slots.toList := by
  rw [layout_of_clean h, analyze_eq_document h]
  rfl

theorem length_layout (h : (analyze limit text).diagnostics = []) (ind : Indentation) :
    (layout ind (analyze limit text)).length = (analyze limit text).lineCount := by
  have hsegment := segment_of_clean (clean_of_analyzeLines h)
  rw [layout_eq_layoutSlots h, (hsegment.layout ind).1, ← hsegment.length, analyze_eq_document h]
  rfl

/-- A layout is read line by line. -/
theorem lines_layout (h : (analyze limit text).diagnostics = []) (ind : Indentation) :
    Text.lines ("\n".intercalate (layout ind (analyze limit text))) =
      layout ind (analyze limit text) := by
  obtain ⟨hlength, hfits, -⟩ := (segment_of_clean (clean_of_analyzeLines h)).layout ind
  rw [← layout_eq_layoutSlots h] at hlength hfits
  refine Text.lines_intercalate (fun hnil => ?_) hfits
  rw [hnil] at hlength
  exact Text.lines_ne_nil text (List.length_eq_zero_iff.1 hlength.symm)

/-- The layout of a text in which nothing is wrong has the content of the text. -/
theorem content_analyze_layout (h : (analyze limit text).diagnostics = []) (ind : Indentation) :
    (analyze limit ("\n".intercalate (layout ind (analyze limit text)))).content =
      (analyze limit text).content := by
  have hclean := clean_of_analyzeLines h
  have hcontent := ((segment_of_clean hclean).layout ind).2.2
  rw [← layout_eq_layoutSlots h] at hcontent
  have hagain : analyze limit ("\n".intercalate (layout ind (analyze limit text))) =
      ((layout ind (analyze limit text)).foldl step {}).document := by
    rw [analyze, lines_layout h]
    exact analyzeLines_of_clean (hclean.of_content hcontent) limit
  rw [hagain, content_document, hcontent, analyze_eq_document h, content_document]

/-- The lines of a block between their blanks. -/
def CodeBlock.trimmedBody (b : CodeBlock) : List (List Char) :=
  b.body.map fun line => Text.trim line.toList

theorem CodeBlock.trimmedBody_content (b : CodeBlock) : b.content.trimmedBody = b.trimmedBody := by
  rw [trimmedBody, trimmedBody, content, flush, reindent, List.map_map]
  apply List.map_congr_left
  intro line hline
  exact trim_reindentLine (le_leadingBlanks hline) 1

theorem Node.codeBlock?_content (n : Node) :
    n.content.codeBlock? = n.codeBlock?.map CodeBlock.content := by
  cases n with
  | pragma p => exact p.block?_content
  | _ => rfl

theorem Document.nodeAt?_content (d : Document) (line : Nat) :
    d.content.nodeAt? line = (d.nodeAt? line).map Node.content := by
  rw [nodeAt?, nodeAt?, content, Array.getElem?_map]
  cases d.nodes[line]? <;> rfl

/-- The second document says on each line what the first one says there, and defines the same
names. -/
structure Document.SameMeaning (d d' : Document) : Prop where
  lineCount : d'.lineCount = d.lineCount
  nodes : ∀ line, (d'.nodeAt? line).map Node.content = (d.nodeAt? line).map Node.content
  bodies : ∀ line, ((d'.nodeAt? line).bind Node.codeBlock?).map CodeBlock.trimmedBody =
    ((d.nodeAt? line).bind Node.codeBlock?).map CodeBlock.trimmedBody
  names : ∀ kind, d'.index.names kind = d.index.names kind
  definitions : ∀ s, (d'.index.definitionsOf s).map Definition.content =
    (d.index.definitionsOf s).map Definition.content
  definitionsOfKind : ∀ kind, (d'.index.definitionsOfKind kind).map Definition.content =
    (d.index.definitionsOfKind kind).map Definition.content
  settings : d'.index.settings = d.index.settings

theorem Document.sameMeaning_of_content {d d' : Document} (h : d'.content = d.content) :
    d.SameMeaning d' := by
  have hindex : d'.index.content = d.index.content := congrArg Document.index h
  have hnodes : ∀ line, (d'.nodeAt? line).map Node.content = (d.nodeAt? line).map Node.content := by
    intro line
    rw [← nodeAt?_content, h, nodeAt?_content]
  have hbodies : ∀ n? : Option Node, (n?.bind Node.codeBlock?).map CodeBlock.trimmedBody =
      ((n?.map Node.content).bind Node.codeBlock?).map CodeBlock.trimmedBody := by
    intro n?
    cases n? with
    | none => rfl
    | some n =>
      dsimp only [Option.bind_some, Option.map_some]
      rw [Node.codeBlock?_content, Option.map_map]
      exact congrArg (fun f => n.codeBlock?.map f)
        (funext fun b => b.trimmedBody_content.symm)
  constructor
  · have hsize := congrArg (fun d : Document => d.nodes.size) h
    simpa [content, lineCount] using hsize
  · exact hnodes
  · intro line
    rw [hbodies, hnodes, ← hbodies]
  · intro kind
    rw [← Index.names_content, hindex, Index.names_content]
  · intro s
    rw [← Index.definitionsOf_content, hindex, Index.definitionsOf_content]
  · intro kind
    rw [← Index.definitionsOfKind_content, hindex, Index.definitionsOfKind_content]
  · exact Index.settings_of_content hindex

/-- Nothing is wrong with the layout of a text in which nothing is wrong, and the layout is its
own layout. -/
theorem layout_analyze_layout (limit : Nat) (text : String) (ind : Indentation)
    (h : (analyze limit text).diagnostics = []) :
    (analyze limit ("\n".intercalate (layout ind (analyze limit text)))).diagnostics = [] ∧
      layout ind (analyze limit ("\n".intercalate (layout ind (analyze limit text)))) =
        layout ind (analyze limit text) := by
  have hcontent := content_analyze_layout h ind
  constructor
  · have hdiagnostics := congrArg Document.diagnostics hcontent
    dsimp only [Document.content] at hdiagnostics
    rw [h] at hdiagnostics
    exact List.map_eq_nil_iff.1 hdiagnostics
  · rw [← layout_content, hcontent, layout_content]

/-- Token definitions that are not in one column, and a rule with too many blanks. -/
def unevenText : String := "A := \"a\";\nLONG :=\"b\" ;\nlist :=  A   LONG(B) ;"

theorem layout_analyze_layout_uneven :
    (analyze 25 ("\n".intercalate (layout {} (analyze 25 unevenText)))).diagnostics = [] ∧
      layout {} (analyze 25 ("\n".intercalate (layout {} (analyze 25 unevenText)))) =
        layout {} (analyze 25 unevenText) :=
  layout_analyze_layout 25 unevenText {} (by decide +kernel)

/-- A layout has the lines of its text, and these mean the same. -/
theorem sameMeaning_layout (limit : Nat) (text : String) (ind : Indentation)
    (h : (analyze limit text).diagnostics = []) :
    (layout ind (analyze limit text)).length = (analyze limit text).lineCount ∧
      (analyze limit text).SameMeaning
        (analyze limit ("\n".intercalate (layout ind (analyze limit text)))) :=
  ⟨length_layout h ind, Document.sameMeaning_of_content (content_analyze_layout h ind)⟩

/-- A pragma with a block that is not at its margin. -/
def membersText : String := "%walkers Eval;\n%members  Eval %\x7b\n  x;\n    y;\n%\x7d"

theorem sameMeaning_layout_members :
    (layout {} (analyze 25 membersText)).length = (analyze 25 membersText).lineCount ∧
      (analyze 25 membersText).SameMeaning
        (analyze 25 ("\n".intercalate (layout {} (analyze 25 membersText)))) :=
  sameMeaning_layout 25 membersText {} (by decide +kernel)

end LineGrammar
