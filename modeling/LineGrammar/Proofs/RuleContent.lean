import LineGrammar.Proofs.ReadingContent
import LineGrammar.Proofs.RecastNodes
import LineGrammar.Proofs.RuleText

/-! Reading a rule again after it has been laid out. A body that was read without problems is written
with one blank before each element, and its elements are read again. -/

namespace LineGrammar

/-- The parts of an element as the content of one. -/
def ElementText.element (line : Nat) (e : ElementText) : RuleElement :=
  { anchor? := if e.anchored then some ⟨"^", .onLine line 0 0⟩ else none
    name := ⟨String.ofList e.name, .onLine line 0 0⟩
    alias? := e.alias?.map fun l => ⟨String.ofList l, .onLine line 0 0⟩ }

namespace RuleElement

theorem content_ofShape (line : Line) {e : ElementShape}
    (hanchor : ∀ anchor ∈ e.anchor?, anchor.chars = ['^']) :
    (ofShape line e).content = e.toText.element line.number := by
  obtain ⟨anchor?, name, alias?⟩ := e
  have hfirst : (anchor?.map line.lexeme).map Lexeme.content =
      if anchor?.isSome then some ⟨"^", .onLine line.number 0 0⟩ else none := by
    cases anchor? with
    | none => rfl
    | some anchor =>
      simp only [Option.map_some, Line.content_lexeme, Slice.text, hanchor anchor rfl]
      rfl
  simp only [ofShape, content, ElementShape.toText, ElementText.element, hfirst]
  cases alias? <;> rfl

theorem content_ofShapes (line : Line) {es : List ElementShape}
    (hanchor : ∀ e ∈ es, ∀ anchor ∈ e.anchor?, anchor.chars = ['^']) :
    (es.map (ofShape line)).map content =
      (es.map ElementShape.toText).map (ElementText.element line.number) := by
  rw [List.map_map, List.map_map]
  apply List.map_congr_left
  intro e he
  exact content_ofShape line (hanchor e he)

theorem toList_render_ofShape (line : Line) (e : ElementShape) :
    (ofShape line e).render.toList = e.toText.text := by
  obtain ⟨anchor?, name, alias?⟩ := e
  cases anchor? <;> cases alias? <;>
    simp [ofShape, render, ElementShape.toText, ElementText.text, Slice.markText, Slice.aliasText,
      Line.lexeme, Slice.lexeme, Slice.text]

theorem content_problems (anchored : Bool) (es : List RuleElement) :
    (problems anchored es).map Diagnostic.content = problems anchored (es.map content) :=
  recast_problems .content anchored es

end RuleElement

namespace RuleDef

theorem content_register (r : RuleDef) (ix : Index) :
    (r.register ix).content = r.content.register ix.content := r.recast_register .content ix

theorem content_sequel (r : RuleDef) : r.sequel.content = r.content.sequel := r.recast_sequel .content

/-- The definition that the parts of a line give. -/
def ofShapes (line : Line) (name : Slice) (alias? : Option Slice) (operator : Slice)
    (es : List ElementShape) (terminated : Bool) (internalName : String) : RuleDef :=
  { name := line.lexeme name
    alias? := alias?.map line.lexeme
    operator := line.lexeme operator
    elements := es.map (RuleElement.ofShape line)
    terminated
    internalName
    span := line.span }

/-- What reading the parts gives. -/
def reading (r : RuleDef) (ix : Index) : Reading RuleDef :=
  { node := r
    problems := RuleElement.problems false r.elements
    index := r.register ix
    sequel := r.sequel }

section
variable {line : Line} {name : Slice} {alias? : Option Slice} {operator rest : Slice} {ix : Index}

theorem read_clean (h : (read line name alias? operator rest ix).problems = []) :
    ∃ es, rest.cutTerminator.1.elements? = some es := by
  unfold read at h
  dsimp only at h
  cases helements : rest.cutTerminator.1.elements? with
  | some es => exact ⟨es, rfl⟩
  | none => rw [helements] at h; cases h

theorem read_eq {es : List ElementShape} {list : Slice} {terminated : Bool}
    (hcut : rest.cutTerminator = (list, terminated)) (helements : list.elements? = some es) :
    read line name alias? operator rest ix =
      reading (ofShapes line name alias? operator es terminated (ix.nextInternalName name.text))
        ix := by
  unfold read
  rw [hcut]
  dsimp only
  rw [helements]
  rfl

end

theorem toList_render_ofShapes (line : Line) (name : Slice) (alias? : Option Slice)
    (operator : Slice) (es : List ElementShape) (terminated : Bool) (internalName : String) :
    (ofShapes line name alias? operator es terminated internalName).render.toList =
      name.chars ++ (Slice.aliasText (alias?.map Slice.chars) ++ ([' '] ++ (':' :: '=' ::
        ElementText.spacedText (es.map ElementShape.toText) terminated))) := by
  have helements : (String.join ((es.map (RuleElement.ofShape line)).map fun e =>
      " " ++ e.render)).toList =
        ((es.map ElementShape.toText).map ElementText.text).flatMap (' ' :: ·) := by
    rw [String.toList_join, List.flatMap_map, List.flatMap_map, List.flatMap_map,
      List.flatMap_map]
    congr 1
    funext e
    rw [String.toList_append, RuleElement.toList_render_ofShape]
    rfl
  simp only [render, ofShapes, String.toList_append, helements]
  cases alias? <;> cases terminated <;>
    simp [ElementText.spacedText, Line.lexeme, Slice.lexeme, Slice.text, Slice.aliasText,
      Slice.terminator]

theorem content_ofShapes_congr {line line' : Line} (hline : line'.number = line.number)
    {name name' operator operator' : Slice} {alias? alias?' : Option Slice}
    (hname : name'.chars = name.chars) (halias : alias?'.map Slice.chars = alias?.map Slice.chars)
    (hoperator : operator'.chars = operator.chars) {es es' : List ElementShape}
    (hanchor : ∀ e ∈ es, ∀ anchor ∈ e.anchor?, anchor.chars = ['^'])
    (hanchor' : ∀ e ∈ es', ∀ anchor ∈ e.anchor?, anchor.chars = ['^'])
    (helements : es'.map ElementShape.toText = es.map ElementShape.toText)
    (terminated : Bool) (internalName : String) :
    (ofShapes line' name' alias?' operator' es' terminated internalName).content =
      (ofShapes line name alias? operator es terminated internalName).content := by
  simp only [ofShapes, content, content_lexeme_congr hline hname,
    content_lexeme_congr hline hoperator, content_lexeme?_congr hline halias,
    RuleElement.content_ofShapes line hanchor, RuleElement.content_ofShapes line' hanchor',
    helements, hline, onLines_span_congr hline]

theorem content_reading_congr {r r' : RuleDef} (hr : r'.content = r.content) {ix ix' : Index}
    (hix : ix'.content = ix.content) :
    (reading r' ix').content RuleDef.content = (reading r ix).content RuleDef.content := by
  refine Reading.content_eq hr ?_ ?_ ?_
  · have helements : r'.elements.map RuleElement.content = r.elements.map RuleElement.content :=
      congrArg RuleDef.elements hr
    dsimp only [reading]
    rw [RuleElement.content_problems, RuleElement.content_problems, helements]
  · dsimp only [reading]
    rw [content_register, content_register, hr, hix]
  · dsimp only [reading]
    rw [content_sequel, content_sequel, hr]

/-- A rule that is laid out and read again. -/
theorem reread {line line' : Line} (hline : line'.number = line.number) {ix ix' : Index}
    (hix : ix'.content = ix.content) {name operator rest : Slice} {alias? : Option Slice}
    (hshape : Shape.of? line.body = some (.rule name alias? operator rest))
    (hclean : (read line name alias? operator rest ix).problems = []) :
    Neat (read line name alias? operator rest ix).node.render ∧
      (line'.body.chars = (read line name alias? operator rest ix).node.render.toList →
        ∃ name' alias?' operator' rest',
          Shape.of? line'.body = some (.rule name' alias?' operator' rest') ∧
          (read line' name' alias?' operator' rest' ix').content RuleDef.content =
            (read line name alias? operator rest ix).content RuleDef.content) := by
  obtain ⟨_, _, _, _, hparts, hname, hoperator, -, al, -, -, hal, -⟩ :=
    Shape.rule?_eq_some (Shape.rule?_of_of? hshape)
  cases hparts
  obtain ⟨es, helements⟩ := read_clean hclean
  have hvalid : ∀ e ∈ es.map ElementShape.toText, e.Valid := by
    intro e he
    obtain ⟨shape, hs, rfl⟩ := List.mem_map.1 he
    exact (Slice.elements?_eq_some helements hs).1
  have haliasText : ∀ l ∈ alias?.map Slice.chars, IsNameText l := by
    intro l hl
    obtain ⟨found, rfl, rfl⟩ := Option.map_eq_some_iff.1 hl
    exact hal.1
  rcases hcut : rest.cutTerminator with ⟨list, terminated⟩
  rw [hcut] at helements
  have htext := toList_render_ofShapes line name alias? operator es terminated
    (ix.nextInternalName name.text)
  have htail := ElementText.trim_spacedText hvalid terminated
  have hbreak := ElementText.noBreak_spacedText hvalid terminated
  rw [read_eq hcut helements]
  refine ⟨?_, fun hbody => ?_⟩
  · have haliasBreak : '\n' ∉ Slice.aliasText (alias?.map Slice.chars) ++ [' '] := by
      simp [Slice.noBreak_aliasText haliasText]
    rw [← List.append_assoc (Slice.aliasText _)] at htext
    exact neat_of_parts htext (isSpelled_ne_nil hname) (isNameText_of_isRuleSpelled hname).solid
      haliasBreak (by simp) (by simp [hbreak]) (ElementText.last_spacedText hvalid terminated)
  · dsimp only [reading] at hbody
    rw [htext] at hbody
    obtain ⟨name', alias?', operator', rest', hshape', hname', halias', hoperator', hrest'⟩ :=
      Shape.of?_rule hbody hname haliasText (by simp; decide)
        (fun hmem => hbreak (Text.mem_of_mem_trim hmem))
    rw [htail] at hrest'
    obtain ⟨column, cs⟩ := rest'
    dsimp only at hrest'
    subst hrest'
    obtain ⟨es', helements', hmap⟩ := Slice.elements?_unwords hvalid column
    have hcut' := ElementText.cutTerminator_bodyText hvalid column terminated
    have hinternal : ix'.nextInternalName name'.text = ix.nextInternalName name.text := by
      rw [Index.nextInternalName_of_content hix, Slice.text, Slice.text, hname']
    refine ⟨name', alias?', operator', _, hshape', ?_⟩
    rw [read_eq hcut' helements', hinternal]
    refine content_reading_congr (content_ofShapes_congr hline hname' halias'
      (hoperator'.trans hoperator.symm) ?_ ?_ hmap _ _) hix
    · exact fun e he => (Slice.elements?_eq_some helements he).2
    · exact fun e he => (Slice.elements?_eq_some helements' he).2

end RuleDef

end LineGrammar
