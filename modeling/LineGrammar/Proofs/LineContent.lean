import LineGrammar.Proofs.BlockNameContent
import LineGrammar.Proofs.LaidOut
import LineGrammar.Proofs.PragmaLine
import LineGrammar.Proofs.RuleContent
import LineGrammar.Proofs.TokenContent
import LineGrammar.Reading.Line

/-! Reading any line again after its node has been laid out. A node that was read without problems
fills a line by itself, and that line has a shape of the same kind and is read with the same
content. -/

namespace LineGrammar

theorem Reading.content_map_congr {α β : Type} {f : α → β} {c : α → α} {d : β → β}
    (hf : ∀ a, d (f a) = f (c a)) {r r' : Reading α} (h : r'.content c = r.content c) :
    (r'.map f).content d = (r.map f).content d := by
  have hnode : c r'.node = c r.node := congrArg Reading.node h
  refine Reading.content_eq ?_ (congrArg Reading.problems h) (congrArg Reading.index h)
    (congrArg Reading.sequel h)
  rw [Reading.map, Reading.map, hf, hf, hnode]

namespace Line

theorem chars_body (l : Line) : l.body.chars = Text.trim l.raw.toList := Slice.chars_trim _

theorem chars_body_of_neat {l : Line} (h : Neat l.raw) : l.body.chars = l.raw.toList := by
  rw [chars_body, h.trimmed.trim]

/-- A line that is neither blank nor has to do with code blocks. -/
structure Ordinary (l : Line) : Prop where
  isBlank : l.isBlank = false
  opensBlock : l.opensBlock = false
  closesBlock : l.closesBlock = false
  namesBlock : l.namesBlock = false

theorem ordinary_of_name {l : Line} {c : Char} {cs : List Char} (hbody : l.body.chars = c :: cs)
    (hc : isNameChar c = true) : l.Ordinary := by
  have hne : ∀ d, isNameChar d = false → c ≠ d := by
    rintro d hd rfl
    exact absurd hc (by simp [hd])
  have hpercent := hne '%' (by decide)
  refine ⟨?_, ?_, ?_, ?_⟩
  · simp [Line.isBlank, Slice.isEmpty, hbody]
  · simp [Line.opensBlock, hbody, openingMark, hpercent]
  · simp [Line.closesBlock, hbody, closingMark, hpercent]
  · simpa [Line.namesBlock, hbody] using hne '@' (by decide)

theorem ordinary_of_shape {l : Line} {shape : Shape} (h : Shape.of? l.body = some shape) :
    l.Ordinary := by
  rcases Shape.of?_eq_some h with h | h | h | h
  · obtain ⟨-, rest, hbody, -⟩ := Shape.comment?_eq_some h
    refine ⟨?_, ?_, ?_, ?_⟩
    · simp [Line.isBlank, Slice.isEmpty, hbody]
    · simp [Line.opensBlock, hbody, openingMark]
    · simp [Line.closesBlock, hbody, closingMark]
    · simp [Line.namesBlock, hbody]
  · obtain ⟨-, name, -, -, hname, -, -, rest, hbody, -⟩ := Shape.pragma?_eq_some h
    obtain ⟨c, cs, hcs⟩ := List.exists_cons_of_ne_nil (isSpelled_ne_nil hname)
    have hc := hname.chars c (by simp [hcs])
    have hopen : c ≠ '\x7b' := by rintro rfl; exact absurd hc (by decide)
    have hclose : c ≠ '\x7d' := by rintro rfl; exact absurd hc (by decide)
    rw [hcs] at hbody
    refine ⟨?_, ?_, ?_, ?_⟩
    · simp [Line.isBlank, Slice.isEmpty, hbody]
    · simp [Line.opensBlock, hbody, openingMark, hopen]
    · simp [Line.closesBlock, hbody, closingMark, hclose]
    · simp [Line.namesBlock, hbody]
  · obtain ⟨name, -, -, -, hspelled, -, -, bl, tail, -, hbody, -⟩ := Shape.token?_eq_some h
    have hname := isNameText_of_isTokenSpelled hspelled
    obtain ⟨c, cs, hcs⟩ := List.exists_cons_of_ne_nil (isSpelled_ne_nil hname)
    rw [hcs, List.cons_append] at hbody
    exact ordinary_of_name hbody (hname.chars c (by simp [hcs]))
  · obtain ⟨name, -, -, -, -, hspelled, -, -, al, bl, tail, -, -, hbody, -⟩ :=
      Shape.rule?_eq_some h
    have hname := isNameText_of_isRuleSpelled hspelled
    obtain ⟨c, cs, hcs⟩ := List.exists_cons_of_ne_nil (isSpelled_ne_nil hname)
    rw [hcs, List.cons_append] at hbody
    exact ordinary_of_name hbody (hname.chars c (by simp [hcs]))

end Line

section
variable {line line' : Line} (hline : line'.number = line.number) {ix ix' : Index}
  (hix : ix'.content = ix.content)
include hline hix

theorem reread_comment (hshape : Shape.of? line.body = some .comment) :
    Neat line.whole.text ∧ (line'.body.chars = line.whole.text.toList →
      Shape.of? line'.body = some .comment ∧
        (Node.read line' ix' .comment).content Node.content =
          (Node.read line ix .comment).content Node.content) := by
  obtain ⟨-, rest, hbody, hbreak⟩ := Shape.comment?_eq_some (Shape.comment?_of_of? hshape)
  have htext : line.whole.text.toList = line.body.chars := by
    simp [Line.whole, Line.lexeme, Slice.lexeme, Slice.text]
  rw [htext]
  refine ⟨⟨?_, ?_⟩, fun hbody' => ⟨Shape.of?_comment (hbody'.trans hbody) hbreak, ?_⟩⟩
  · rw [htext, Line.chars_body]
    exact Text.trimmed_trim _
  · rw [htext, hbody]
    simp [hbreak]
  · exact Reading.content_eq (congrArg Node.comment (content_lexeme_congr hline hbody')) rfl hix rfl

/-- A line that is laid out and read again. -/
theorem Node.reread {shape : Shape} (hshape : Shape.of? line.body = some shape)
    (hclean : (Node.read line ix shape).problems = []) {s : String}
    (hs : (Node.read line ix shape).node.Written s) :
    Neat s ∧ (line'.body.chars = s.toList → ∃ shape', Shape.of? line'.body = some shape' ∧
      (Node.read line' ix' shape').content Node.content =
        (Node.read line ix shape).content Node.content) := by
  cases shape with
  | comment =>
    obtain ⟨hneat, hread⟩ := reread_comment hline hix hshape
    cases hs
    exact ⟨hneat, fun hbody => ⟨_, hread hbody⟩⟩
  | pragma mark name parameters =>
    obtain ⟨hneat, hread⟩ := Pragma.reread hline hix hshape hclean
    cases hs
    refine ⟨hneat, fun hbody => ?_⟩
    obtain ⟨_, _, _, hshape', halike⟩ := hread hbody
    exact ⟨_, hshape', Reading.content_map_congr (f := Node.pragma) (fun _ => rfl) halike⟩
  | token name operator rest =>
    obtain ⟨width, rfl⟩ := hs
    obtain ⟨hneat, hread⟩ := TokenDef.reread hline hix hshape hclean width
    refine ⟨hneat, fun hbody => ?_⟩
    obtain ⟨_, _, _, hshape', halike⟩ := hread hbody
    exact ⟨_, hshape', Reading.content_map_congr (f := Node.token) (fun _ => rfl) halike⟩
  | rule name alias? operator rest =>
    obtain ⟨hneat, hread⟩ := RuleDef.reread hline hix hshape hclean
    cases hs
    refine ⟨hneat, fun hbody => ?_⟩
    obtain ⟨_, _, _, _, hshape', halike⟩ := hread hbody
    exact ⟨_, hshape', Reading.content_map_congr (f := Node.rule) (fun _ => rfl) halike⟩

end

end LineGrammar
