import LineGrammar.Proofs.ReadingContent
import LineGrammar.Proofs.RecastNodes
import LineGrammar.Proofs.Shapes
import LineGrammar.Proofs.TokenText

/-! Reading a token definition again after it has been laid out. A definition that was read without
problems is written on one line, and whatever the width of its name column, the line is read with
the same content. -/

namespace LineGrammar

namespace TokenValue

/-- The value as it is laid out. -/
def text (v : TokenValue) : List Char :=
  Slice.valueText v.literal.chars v.bang?.isSome (v.mode?.map Slice.chars)

/-- A value that can be written on one line. -/
structure OneLine (v : TokenValue) : Prop where
  literal : Slice.IsLiteralText v.literal.chars
  noBreak : '\n' ∉ v.literal.chars
  bang : ∀ bang ∈ v.bang?, bang.chars = ['!']
  mode : ∀ mode ∈ v.mode?.map Slice.chars, Slice.IsModeText mode

theorem oneLine_of_tokenValue? {s : Slice} {v : TokenValue} (h : s.tokenValue? = some v)
    (hbreak : '\n' ∉ s.chars) : v.OneLine := by
  obtain ⟨hliteral, hfront, hbang, hmode⟩ := Slice.tokenValue?_eq_some h
  refine ⟨hliteral, fun hmem => hbreak (hfront.subset hmem), hbang, ?_⟩
  intro mode hm
  obtain ⟨found, hfound, rfl⟩ := Option.map_eq_some_iff.1 hm
  exact hmode found hfound

section
variable {v : TokenValue} (h : v.OneLine)
include h

theorem trimmed_text : Text.Trimmed v.text := by
  obtain ⟨body, hbody, -⟩ := h.literal
  rw [text, hbody]
  refine ⟨by simp [Slice.valueText]; decide, ?_⟩
  have hlast : (Slice.valueText ('"' :: body) v.bang?.isSome (v.mode?.map Slice.chars)).getLast? =
      some ';' := by
    rw [Slice.valueText, ← List.append_assoc, ← List.append_assoc, List.getLast?_concat]
  rw [hlast]
  simp; decide

theorem last_text : ∀ c ∈ (':' :: '=' :: ' ' :: v.text).getLast?, isBlank c = false := by
  have hne : v.text ≠ [] := by simp [text, Slice.valueText]
  rw [List.getLast?_cons_cons, List.getLast?_cons_cons, List.getLast?_cons_of_ne_nil hne]
  exact (trimmed_text h).last

theorem noBreak_text : '\n' ∉ v.text := by
  intro hmem
  rcases List.mem_append.1 hmem with hmem | hmem
  · exact h.noBreak hmem
  · rcases List.mem_append.1 hmem with hmem | hmem
    · cases hbang : v.bang?.isSome with
      | true => rw [hbang] at hmem; exact absurd hmem (by decide)
      | false => rw [hbang] at hmem; cases hmem
    · rcases List.mem_append.1 hmem with hmem | hmem
      · cases hm : v.mode?.map Slice.chars with
        | none => rw [hm] at hmem; cases hmem
        | some mode =>
          have htext : '\n' ∉ mode := by
            rcases h.mode mode hm with rfl | hname
            · decide
            · exact hname.noBreak
          rw [hm] at hmem
          simp [Slice.modeText, htext] at hmem
      · exact absurd hmem (by decide)

/-- A value that is laid out and read again. -/
theorem tokenValue?_text (column : Nat) :
    ∃ v' : TokenValue, (⟨column, v.text⟩ : Slice).tokenValue? = some v' ∧
      v'.literal.chars = v.literal.chars ∧ v'.bang?.map Slice.chars = v.bang?.map Slice.chars ∧
      v'.mode?.map Slice.chars = v.mode?.map Slice.chars ∧ v'.terminated = true := by
  obtain ⟨v', hvalue, hliteral, hbang, hmode, hterm⟩ :=
    Slice.tokenValue?_append h.literal v.bang?.isSome h.mode column
  refine ⟨v', hvalue, hliteral, ?_, hmode, hterm⟩
  rw [hbang]
  cases hb : v.bang? with
  | none => rfl
  | some bang => simp [h.bang bang hb]

end

end TokenValue

namespace TokenDef

theorem content_register (t : TokenDef) (ix : Index) :
    (t.register ix).content = t.content.register ix.content := t.recast_register .content ix

/-- The definition that a value gives. -/
def ofValue (line : Line) (name operator : Slice) (value : TokenValue) : TokenDef :=
  fill line { name := line.lexeme name, operator := line.lexeme operator, span := line.span } value

/-- A definition that has been read without problems. -/
theorem read_clean {line : Line} {name operator rest : Slice} {ix : Index}
    (h : (read line name operator rest ix).problems = []) :
    ∃ value, rest.tokenValue? = some value ∧ value.terminated = true := by
  unfold read at h
  split at h
  · cases h
  · next value hvalue =>
    refine ⟨value, hvalue, ?_⟩
    cases hterm : value.terminated with
    | true => rfl
    | false => rw [Line.checkTerminator, hterm] at h; cases h

theorem read_eq {line : Line} {name operator rest : Slice} {ix : Index} {value : TokenValue}
    (hvalue : rest.tokenValue? = some value) (hterm : value.terminated = true) :
    read line name operator rest ix =
      { node := ofValue line name operator value
        index := (ofValue line name operator value).register ix } := by
  rw [read, hvalue]
  simp [ofValue, Line.checkTerminator, hterm]

/-- Between the name and the operator there is at least one space. -/
theorem toList_render_ofValue (line : Line) (name operator : Slice) (width : Nat)
    {value : TokenValue} (hterm : value.terminated = true) :
    ∃ gap : List Char, (∀ c ∈ gap, c = ' ') ∧
      ((ofValue line name operator value).render width).toList =
        name.chars ++ (gap ++ ':' :: '=' :: ' ' :: value.text) := by
  refine ⟨List.replicate (width - name.chars.length) ' ' ++ [' '], ?_, ?_⟩
  · intro c hc
    rcases List.mem_append.1 hc with hc | hc
    · exact List.eq_of_mem_replicate hc
    · simpa using hc
  · cases hbang : value.bang? <;> cases hmode : value.mode? <;>
      simp [render, ofValue, fill, TokenValue.text, Slice.valueText, hterm, hbang, hmode, isNegated,
        Line.lexeme, Slice.lexeme, Slice.text, Slice.markText, Slice.modeText]

/-- The parts of two values with the same texts. -/
theorem content_ofValue_congr {line line' : Line} (hline : line'.number = line.number)
    {name name' operator operator' : Slice} (hname : name'.chars = name.chars)
    (hoperator : operator'.chars = operator.chars) {value value' : TokenValue}
    (hliteral : value'.literal.chars = value.literal.chars)
    (hbang : value'.bang?.map Slice.chars = value.bang?.map Slice.chars)
    (hmode : value'.mode?.map Slice.chars = value.mode?.map Slice.chars)
    (hterm : value'.terminated = value.terminated) :
    (ofValue line' name' operator' value').content = (ofValue line name operator value).content := by
  simp only [ofValue, fill, content, Option.map_some, content_lexeme_congr hline hname,
    content_lexeme_congr hline hoperator, content_lexeme_congr hline hliteral,
    content_lexeme?_congr hline hbang, content_lexeme?_congr hline hmode, hterm,
    onLines_span_congr hline]

/-- A definition that is laid out and read again. -/
theorem reread {line line' : Line} (hline : line'.number = line.number) {ix ix' : Index}
    (hix : ix'.content = ix.content) {name operator rest : Slice}
    (hshape : Shape.of? line.body = some (.token name operator rest))
    (hclean : (read line name operator rest ix).problems = []) (width : Nat) :
    Neat ((read line name operator rest ix).node.render width) ∧
      (line'.body.chars = ((read line name operator rest ix).node.render width).toList →
        ∃ name' operator' rest', Shape.of? line'.body = some (.token name' operator' rest') ∧
          (read line' name' operator' rest' ix').content TokenDef.content =
            (read line name operator rest ix).content TokenDef.content) := by
  obtain ⟨_, _, _, hparts, hname, hoperator, hbreak, -⟩ :=
    Shape.token?_eq_some (Shape.token?_of_of? hshape)
  cases hparts
  obtain ⟨value, hvalue, hterm⟩ := read_clean hclean
  have honeLine := TokenValue.oneLine_of_tokenValue? hvalue hbreak
  have htrim := TokenValue.trimmed_text honeLine
  have hvalueBreak := TokenValue.noBreak_text honeLine
  obtain ⟨gap, hgap, htext⟩ := toList_render_ofValue line name operator width hterm
  rw [read_eq hvalue hterm]
  refine ⟨?_, fun hbody => ?_⟩
  · have hgapBreak : '\n' ∉ gap := fun hmem => absurd (hgap _ hmem) (by decide)
    have hlast := TokenValue.last_text honeLine
    exact neat_of_parts htext (isSpelled_ne_nil hname) (isNameText_of_isTokenSpelled hname).solid
      hgapBreak (by simp) (by simp [hvalueBreak]) hlast
  · rw [htext] at hbody
    have htail : Text.trim (' ' :: value.text) = value.text :=
      htrim.trim_blanks (b := [' ']) (by simp; decide)
    obtain ⟨name', operator', rest', hshape', hname', hoperator', hrest'⟩ :=
      Shape.of?_token hbody hname (fun c hc => by rw [hgap c hc]; decide)
        (by rw [htail]; exact hvalueBreak)
    rw [htail] at hrest'
    obtain ⟨column, cs⟩ := rest'
    dsimp only at hrest'
    subst hrest'
    obtain ⟨value', hvalue', hliteral', hbang', hmode', hterm'⟩ :=
      TokenValue.tokenValue?_text honeLine column
    have hnode := content_ofValue_congr hline hname' (hoperator'.trans hoperator.symm) hliteral'
      hbang' hmode' (hterm'.trans hterm.symm)
    refine ⟨name', operator', _, hshape', ?_⟩
    rw [read_eq hvalue' hterm']
    refine Reading.content_eq hnode rfl ?_ rfl
    dsimp only
    rw [content_register, content_register, hnode, hix]

end TokenDef

end LineGrammar
