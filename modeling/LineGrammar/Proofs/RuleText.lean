import LineGrammar.Proofs.Collapse
import LineGrammar.Proofs.RuleBodies

/-! The body of a rule as it is laid out. The elements that have been read from a body can be written
with one blank between neighbours, and are read again. -/

namespace LineGrammar

/-- The parts of an element. -/
structure ElementText where
  anchored : Bool
  name : List Char
  alias? : Option (List Char)

namespace ElementText

structure Valid (e : ElementText) : Prop where
  name : IsNameText e.name
  aliasName : ∀ l ∈ e.alias?, IsNameText l

def text (e : ElementText) : List Char :=
  Slice.markText "^" e.anchored ++ (e.name ++ Slice.aliasText e.alias?)

end ElementText

/-- The parts of an element that has been read. -/
def ElementShape.toText (e : ElementShape) : ElementText :=
  ⟨e.anchor?.isSome, e.name.chars, e.alias?.map Slice.chars⟩

theorem IsElement.valid {column : Nat} {cs : List Char} {e : ElementShape}
    (h : IsElement column cs e) : e.toText.Valid ∧ ∀ anchor ∈ e.anchor?, anchor.chars = ['^'] := by
  induction h with
  | name hw => exact ⟨⟨hw, by simp [ElementShape.toText]⟩, by simp⟩
  | aliased hw _ hl => exact ⟨⟨hw, by simpa [ElementShape.toText] using hl⟩, by simp⟩
  | anchored _ ih => exact ⟨⟨ih.1.name, ih.1.aliasName⟩, by simp⟩

theorem ElementText.exists_isElement {e : ElementText} (he : e.Valid) (column : Nat) :
    ∃ shape, IsElement column e.text shape ∧ shape.toText = e := by
  have key : ∀ column, ∃ name alias?,
      IsElement column (e.name ++ Slice.aliasText e.alias?) ⟨none, name, alias?⟩ ∧
        name.chars = e.name ∧ alias?.map Slice.chars = e.alias? := by
    intro column
    cases halias : e.alias? with
    | none => exact ⟨_, _, by simpa [Slice.aliasText] using IsElement.name he.name, rfl, rfl⟩
    | some l =>
      exact ⟨_, _, .aliased he.name (List.forall_mem_nil _) (he.aliasName l halias)
        (List.forall_mem_nil _), rfl, rfl⟩
  rw [text]
  cases hanchor : e.anchored with
  | true =>
    obtain ⟨name, alias?, h, hname, halias⟩ := key (column + 1)
    exact ⟨_, .anchored h, by simp [ElementShape.toText, hname, halias, ← hanchor]⟩
  | false =>
    obtain ⟨name, alias?, h, hname, halias⟩ := key column
    exact ⟨_, h, by simp [ElementShape.toText, hname, halias, ← hanchor]⟩

/-- Elements with one blank between neighbours are a body. -/
theorem ElementText.exists_isBody {es : List ElementText} (h : ∀ e ∈ es, e.Valid) (column : Nat) :
    ∃ shapes, IsBody column (Text.unwords (es.map text)) shapes ∧
      shapes.map ElementShape.toText = es := by
  induction es generalizing column with
  | nil => exact ⟨[], .nil, rfl⟩
  | cons e es ih =>
    obtain ⟨shape, helement, hshape⟩ := exists_isElement (h e (by simp)) column
    obtain ⟨shapes, hbody, hmap⟩ := ih (fun f hf => h f (by simp [hf]))
      (column + e.text.length + [' '].length)
    cases shapes with
    | nil =>
      rw [← hmap, List.map_nil, List.map_cons, List.map_nil]
      exact ⟨[shape], .last helement, by rw [List.map_cons, hshape]; rfl⟩
    | cons next shapes =>
      refine ⟨shape :: next :: shapes, ?_, by rw [List.map_cons, hshape, hmap]⟩
      have hmore := IsBody.more helement (by simp) (by simp; decide) hbody
      rw [← hmap] at hmore ⊢
      exact hmore

namespace Slice

/-- Elements with one blank between neighbours are read as they were written. -/
theorem elements?_unwords {es : List ElementText} (h : ∀ e ∈ es, e.Valid) (column : Nat) :
    ∃ shapes, (⟨column, Text.unwords (es.map ElementText.text)⟩ : Slice).elements? = some shapes ∧
      shapes.map ElementShape.toText = es := by
  obtain ⟨shapes, hbody, hmap⟩ := ElementText.exists_isBody h column
  exact ⟨shapes, elements?_of_isBody hbody, hmap⟩

/-- Every element that has been read from a body is well formed. -/
theorem elements?_eq_some {s : Slice} {shapes : List ElementShape}
    (h : s.elements? = some shapes) {e : ElementShape} (he : e ∈ shapes) :
    e.toText.Valid ∧ ∀ anchor ∈ e.anchor?, anchor.chars = ['^'] :=
  forall_of_sequence? cuts_element?
    (P := fun e => e.toText.Valid ∧ ∀ anchor ∈ e.anchor?, anchor.chars = ['^'])
    (fun h => by
      obtain ⟨_, _, _, -, helement, -⟩ := element?_eq_some h
      exact helement.valid) h e he

end Slice

namespace ElementText

theorem plain {e : ElementText} (he : e.Valid) : ∀ c ∈ e.text, isBlank c = false ∧ c ≠ ';' := by
  intro c hc
  rcases List.mem_append.1 hc with hc | hc
  · cases hanchor : e.anchored with
    | true => rw [hanchor] at hc; rw [List.mem_singleton.1 hc]; decide
    | false => rw [hanchor] at hc; cases hc
  · rcases List.mem_append.1 hc with hc | hc
    · exact he.name.plain c hc
    · cases halias : e.alias? with
      | none => rw [halias] at hc; cases hc
      | some l =>
        rw [halias, Slice.aliasText, List.mem_cons, List.mem_append, List.mem_singleton] at hc
        rcases hc with rfl | hc | rfl
        · decide
        · exact (he.aliasName l halias).plain c hc
        · decide

theorem text_ne_nil {e : ElementText} (he : e.Valid) : e.text ≠ [] := by
  simp [text, isSpelled_ne_nil he.name]

def bodyText (es : List ElementText) (terminated : Bool) : List Char :=
  Text.unwords (es.map text) ++ Slice.terminator terminated

/-- The body as it is laid out behind the operator. -/
def spacedText (es : List ElementText) (terminated : Bool) : List Char :=
  (es.map text).flatMap (' ' :: ·) ++ Slice.terminator terminated

variable {es : List ElementText} (h : ∀ e ∈ es, e.Valid)
include h

theorem plain_texts : ∀ w ∈ es.map text, w ≠ [] ∧ ∀ c ∈ w, isBlank c = false ∧ c ≠ ';' := by
  intro w hw
  obtain ⟨e, he, rfl⟩ := List.mem_map.1 hw
  exact ⟨text_ne_nil (h e he), plain (h e he)⟩

theorem cutTerminator_bodyText (column : Nat) (terminated : Bool) :
    (⟨column, bodyText es terminated⟩ : Slice).cutTerminator =
      (⟨column, Text.unwords (es.map text)⟩, terminated) := by
  have hlast := Text.last_unwords (plain_texts h)
  have hcut := Slice.cutTerminator_append (b := []) column terminated
    (fun c hc => (hlast c hc).1) (by simp) fun _ hsemi => (hlast ';' hsemi).2 rfl
  rwa [List.append_nil] at hcut

theorem trimmed_bodyText (terminated : Bool) : Text.Trimmed (bodyText es terminated) := by
  have hhead := Text.head_unwords (plain_texts h)
  have hlast := Text.last_unwords (plain_texts h)
  unfold bodyText
  refine ⟨fun c hc => ?_, fun c hc => ?_⟩
  · rw [List.head?_append] at hc
    rcases Option.or_eq_some_iff.1 hc with hc | ⟨-, hc⟩
    · exact (hhead c hc).1
    · rw [Slice.head_terminator terminated c hc]; decide
  · cases terminated with
    | true =>
      rw [Slice.terminator, List.getLast?_concat] at hc
      rw [← Option.some.inj hc]
      decide
    | false =>
      rw [Slice.terminator, List.append_nil] at hc
      exact (hlast c hc).1

theorem trim_spacedText (terminated : Bool) :
    Text.trim (spacedText es terminated) = bodyText es terminated := by
  obtain ⟨bl, hbl, hspaced⟩ := Text.flatMap_space (es.map text)
  rw [spacedText, hspaced, List.append_assoc]
  exact (trimmed_bodyText h terminated).trim_blanks hbl

theorem noBreak_spacedText (terminated : Bool) : '\n' ∉ spacedText es terminated := by
  intro hmem
  rcases List.mem_append.1 hmem with hmem | hmem
  · obtain ⟨w, hw, hmem⟩ := List.mem_flatMap.1 hmem
    rcases List.mem_cons.1 hmem with hmem | hmem
    · exact absurd hmem (by decide)
    · exact absurd ((plain_texts h w hw).2 _ hmem).1 (by decide)
  · cases terminated with
    | true => exact absurd hmem (by decide)
    | false => cases hmem

theorem last_spacedText (terminated : Bool) :
    ∀ c ∈ (':' :: '=' :: spacedText es terminated).getLast?, isBlank c = false := by
  intro c hc
  cases terminated with
  | true =>
    have hlast : (':' :: '=' :: spacedText es true).getLast? = some ';' := by
      rw [spacedText, ← List.cons_append, ← List.cons_append]
      exact List.getLast?_concat
    rw [hlast] at hc
    rw [← Option.some.inj hc]
    decide
  | false =>
    rw [spacedText, Slice.terminator, List.append_nil] at hc
    cases es with
    | nil => rw [← Option.some.inj hc]; decide
    | cons e rest =>
      obtain ⟨bl, -, hspaced⟩ := Text.flatMap_space ((e :: rest).map text)
      have hne := Text.unwords_ne_nil (text_ne_nil (h e (by simp))) (rest.map text)
      rw [hspaced, ← List.cons_append, ← List.cons_append, List.getLast?_append] at hc
      obtain ⟨last, hl⟩ := Option.ne_none_iff_exists'.1 (mt List.getLast?_eq_none_iff.1 hne)
      rw [List.map_cons, hl, Option.some_or, ← hl] at hc
      exact (Text.last_unwords (plain_texts h) c hc).1

end ElementText

end LineGrammar
