import LineGrammar.Proofs.ReadingContent
import LineGrammar.Proofs.RecastNodes
import LineGrammar.Proofs.Recognition
import LineGrammar.Proofs.Scanners

/-! Reading the name of a code block again. A well-formed name has no blanks inside, so it is laid out
as it stands. -/

namespace LineGrammar

namespace Slice

/-- The function of a name, with the mark before it. -/
def functionText : Option (List Char) → List Char
  | some function => ':' :: ':' :: function
  | none => []

def blockNameText (walker : List Char) (function? : Option (List Char)) : List Char :=
  '@' :: (walker ++ functionText function?)

theorem solid_blockNameText {walker : List Char} (hwalker : IsNameText walker)
    {function? : Option (List Char)} (hfunction : ∀ f ∈ function?, IsNameText f) :
    ∀ c ∈ blockNameText walker function?, isBlank c = false := by
  intro c hc
  rcases List.mem_cons.1 hc with rfl | hc
  · decide
  · rcases List.mem_append.1 hc with hc | hc
    · exact hwalker.solid c hc
    · cases hf : function? with
      | none => rw [hf] at hc; cases hc
      | some f =>
        rw [hf, functionText, List.mem_cons, List.mem_cons] at hc
        rcases hc with rfl | rfl | hc
        · decide
        · decide
        · exact (hfunction f hf).solid c hc

theorem optional_markedFunction? (s : Slice) :
    (∀ f ∈ (s.optional markedFunction?).1, IsNameText f.chars) ∧
      s.chars = functionText ((s.optional markedFunction?).1.map Slice.chars) ++
        (s.optional markedFunction?).2.chars := by
  rcases hopt : s.optional markedFunction? with ⟨function?, rest⟩
  rcases optional_eq hopt with ⟨rfl, rfl, -⟩ | ⟨function, rfl, hfunction⟩
  · exact ⟨by simp, rfl⟩
  · obtain ⟨mark, s₁, hmark, hname⟩ := markedFunction?_steps.1 hfunction
    obtain ⟨hcut, hchars⟩ := accept?_eq_some hmark
    obtain ⟨hcut', htext, -⟩ := name?_eq_some hname
    refine ⟨by simpa using htext, ?_⟩
    rw [hcut.chars, hchars, hcut'.chars]; rfl

theorem blockName?_eq_some {s walker : Slice} {function? : Option Slice}
    (h : s.blockName? = some (walker, function?)) :
    IsNameText walker.chars ∧ (∀ f ∈ function?, IsNameText f.chars) ∧
      s.chars = blockNameText walker.chars (function?.map Slice.chars) := by
  obtain ⟨mark, s₁, s₂, hmark, hname, hempty, rfl⟩ := blockName?_steps.1 h
  obtain ⟨hcut, hchars⟩ := accept?_eq_some hmark
  obtain ⟨hcut', htext, -⟩ := name?_eq_some hname
  obtain ⟨hfunction, hs₂⟩ := optional_markedFunction? s₂
  have hnil : (s₂.optional markedFunction?).2.chars = [] := List.isEmpty_iff.1 hempty
  rw [hnil, List.append_nil] at hs₂
  refine ⟨htext, hfunction, ?_⟩
  rw [hcut.chars, hchars, hcut'.chars, hs₂]; rfl

theorem blockName?_text {walker : List Char} (hwalker : IsNameText walker)
    {function? : Option (List Char)} (hfunction : ∀ f ∈ function?, IsNameText f) (column : Nat) :
    ∃ (walker' : Slice) (found? : Option Slice),
      (⟨column, blockNameText walker function?⟩ : Slice).blockName? = some (walker', found?) ∧
        walker'.chars = walker ∧ found?.map Slice.chars = function? := by
  have hmark : (⟨column, blockNameText walker function?⟩ : Slice).accept? "@" =
      some (⟨column, ['@']⟩, ⟨column + 1, walker ++ functionText function?⟩) :=
    accept?_append "@" column _
  have hname := name?_append (r := functionText function?) (column + 1) hwalker <| by
    cases function? <;> simp [functionText]; decide
  have hopt : ∃ (found? : Option Slice) (rest : Slice), found?.map Slice.chars = function? ∧
      rest.isEmpty = true ∧ (⟨column + 1 + walker.length, functionText function?⟩ : Slice).optional
        markedFunction? = (found?, rest) := by
    cases function? with
    | none => exact ⟨none, _, rfl, rfl, rfl⟩
    | some f =>
      have hcolons : (⟨column + 1 + walker.length, ':' :: ':' :: f⟩ : Slice).accept? "::" =
          some (⟨column + 1 + walker.length, [':', ':']⟩, ⟨column + 1 + walker.length + 2, f⟩) :=
        accept?_append "::" _ f
      have hf := name?_append (r := []) (column + 1 + walker.length + 2) (hfunction f rfl) (by simp)
      rw [List.append_nil] at hf
      have hmarked := markedFunction?_steps.2 ⟨_, _, hcolons, hf⟩
      refine ⟨some ⟨column + 1 + walker.length + 2, f⟩,
        ⟨column + 1 + walker.length + 2 + f.length, []⟩, rfl, rfl, ?_⟩
      rw [functionText, optional, hmarked]
  obtain ⟨found?, rest, hfound, hempty, hopt⟩ := hopt
  refine ⟨⟨column + 1, walker⟩, found?, ?_, rfl, hfound⟩
  exact blockName?_steps.2 ⟨_, _, _, hmark, hname, by rw [hopt]; exact hempty, by rw [hopt]⟩

end Slice

namespace BlockName

theorem content_problems (n : BlockName) (ix : Index) :
    (n.problems ix).map Diagnostic.content = n.content.problems ix.content :=
  n.recast_problems .content ix

theorem target_content (n : BlockName) : n.content.target = n.target := n.target_recast .content

/-- The name that the parts of a line give. -/
def ofParts (line : Line) (rule? : Option String) (walker : Slice) (function? : Option Slice) :
    BlockName :=
  { marker := line.lexeme (line.body.split 1).1
    walker? := some (line.lexeme walker)
    function? := function?.map line.lexeme
    rule?
    span := line.span }

theorem read_clean {line : Line} {rule? : Option String} {ix : Index}
    (h : (read line rule? ix).problems = []) :
    ∃ walker function?, line.body.blockName? = some (walker, function?) := by
  unfold read at h
  split at h
  · cases h
  · next walker function? hname => exact ⟨walker, function?, hname⟩

theorem read_eq {line : Line} {walker : Slice} {function? : Option Slice}
    (h : line.body.blockName? = some (walker, function?)) (rule? : Option String) (ix : Index) :
    read line rule? ix =
      { node := ofParts line rule? walker function?
        problems := (ofParts line rule? walker function?).problems ix
        index := ix
        sequel := .name (ofParts line rule? walker function?).target } := by
  unfold read
  rw [h]
  rfl

theorem toList_render_ofParts (line : Line) (rule? : Option String) (walker : Slice)
    (function? : Option Slice) :
    (ofParts line rule? walker function?).render.toList =
      Slice.blockNameText walker.chars (function?.map Slice.chars) := by
  cases function? <;>
    simp [ofParts, render, Slice.blockNameText, Slice.functionText, Line.lexeme, Slice.lexeme,
      Slice.text]

/-- The name of a block that is laid out and read again. -/
theorem reread {line line' : Line} (hline : line'.number = line.number) {ix ix' : Index}
    (hix : ix'.content = ix.content) {rule? : Option String}
    (hclean : (read line rule? ix).problems = []) :
    Neat (read line rule? ix).node.render ∧
      (line'.body.chars = (read line rule? ix).node.render.toList →
        line'.namesBlock = true ∧ (read line' rule? ix').content BlockName.content =
          (read line rule? ix).content BlockName.content) := by
  obtain ⟨walker, function?, hname⟩ := read_clean hclean
  obtain ⟨hwalker, hfunction, hchars⟩ := Slice.blockName?_eq_some hname
  have hfunctions : ∀ f ∈ function?.map Slice.chars, IsNameText f := by
    intro f hf
    obtain ⟨found, hfound, rfl⟩ := Option.map_eq_some_iff.1 hf
    exact hfunction found hfound
  have htext := toList_render_ofParts line rule? walker function?
  have hsolid := Slice.solid_blockNameText hwalker hfunctions
  rw [read_eq hname]
  refine ⟨neat_of_solid (by dsimp only; rwa [htext]), fun hbody => ?_⟩
  dsimp only at hbody
  rw [htext] at hbody
  obtain ⟨walker', function?', hname', hwalker', hfunction'⟩ :=
    Slice.blockName?_text hwalker hfunctions line'.body.column
  rw [← hbody] at hname'
  have hmarker : (line'.body.split 1).1.chars = (line.body.split 1).1.chars := by
    simp only [Slice.split, hbody, hchars]
  have hnode : (ofParts line' rule? walker' function?').content =
      (ofParts line rule? walker function?).content := by
    simp only [ofParts, content, Option.map_some, content_lexeme_congr hline hmarker,
      content_lexeme_congr hline hwalker', content_lexeme?_congr hline hfunction',
      onLines_span_congr hline]
  refine ⟨by rw [Line.namesBlock, hbody]; rfl, ?_⟩
  rw [read_eq hname']
  refine Reading.content_eq hnode ?_ hix ?_
  · dsimp only
    rw [content_problems, content_problems, hnode, hix]
  · dsimp only
    rw [← target_content, hnode, target_content]

end BlockName

end LineGrammar
