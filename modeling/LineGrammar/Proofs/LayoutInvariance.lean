import LineGrammar.Proofs.BlockLines
import LineGrammar.Proofs.Positions
import LineGrammar.Proofs.RelocatedRuns

/-! The layout of the lines does not matter. A document is analysed as if there were no blanks around its
lines; the blanks in front of a line only say how far its columns stand to the right. -/

namespace LineGrammar

/-- The line without the blanks around it. -/
def trimmedLine (raw : String) : String := String.ofList (Text.trim raw.toList)

/-- From the lines without the blanks around them to the lines as they are written. -/
def Relocation.indent (lines : List String) : Relocation where
  place p := ⟨p.line, p.column + leadingBlanks (lines.getD p.line "")⟩
  line l := { l with raw := lines.getD l.number "" }
  body start body := (lines.drop (start + 1)).take body.length
  body_nil _ := List.take_zero

theorem Line.body_eq (l : Line) : l.body = ⟨leadingBlanks l.raw, Text.trim l.raw.toList⟩ := by
  have hchars := l.chars_body
  have hcolumn : l.body.column = leadingBlanks l.raw := by
    have htake : (l.raw.toList.take (l.raw.toList.takeWhile LineGrammar.isBlank).length).length =
        (l.raw.toList.takeWhile LineGrammar.isBlank).length := by
      rw [List.length_take]
      exact Nat.min_eq_left (List.takeWhile_prefix _).length_le
    exact (Nat.zero_add _).trans htake
  rw [← hchars, ← hcolumn]

theorem leadingBlanks_trimmed (cs : List Char) : leadingBlanks (String.ofList (Text.trim cs)) = 0 := by
  have hhead := (Text.trimmed_trim cs).head
  rw [leadingBlanks, String.toList_ofList]
  cases htrim : Text.trim cs with
  | nil => rfl
  | cons c rest =>
    rw [List.takeWhile_cons_of_neg (by simpa using hhead c (by simp [htrim]))]
    rfl

namespace Relocation

theorem keepsLines_indent (lines : List String) : (indent lines).KeepsLines := fun _ => rfl

/-- A line starts as far to the right of its text as there are blanks in front of it. -/
theorem takes_indent {lines : List String} {i : Nat} {raw : String} (h : lines.getD i "" = raw) :
    (indent lines).Takes { number := i, raw := trimmedLine raw }
      ((indent lines).line { number := i, raw := trimmedLine raw }) (leadingBlanks raw) where
  body := by
    subst h
    rw [Line.body_eq, Line.body_eq]
    dsimp only [trimmedLine, indent]
    rw [leadingBlanks_trimmed, Slice.shift, String.toList_ofList, (Text.trimmed_trim _).trim, Nat.zero_add]
  place column := by
    subst h
    rfl

end Relocation

namespace Analysis

theorem run_concat (limit : Nat) (front : List String) (raw : String) :
    run limit (front ++ [raw]) = (run limit front).advance limit raw := by
  rw [run, List.foldl_append]
  rfl

/-- The lines of a block are moved on their own. -/
theorem body_indent {front : List String} (raw : String) (rest : List String) {b : CodeBlock}
    (hlength : front.length = b.startLine + b.body.length + 1) :
    (Relocation.indent (front ++ raw :: rest)).body b.startLine (b.body ++ [trimmedLine raw]) =
      (Relocation.indent (front ++ raw :: rest)).body b.startLine b.body ++ [raw] := by
  have hfront : (front.drop (b.startLine + 1)).length = b.body.length := by
    rw [List.length_drop]
    omega
  have hdrop : (front ++ raw :: rest).drop (b.startLine + 1) =
      front.drop (b.startLine + 1) ++ raw :: rest := List.drop_append_of_le_length (by omega)
  dsimp only [Relocation.indent]
  rw [hdrop, List.length_append, List.length_singleton, ← hfront, List.take_left, List.take_append,
    List.take_of_length_le (Nat.le_succ _), Nat.add_sub_cancel_left]
  rfl

section
variable {lines front rest : List String} {raw : String} (hlines : front ++ raw :: rest = lines)
include hlines

/-- Coming to the next line, from the start of the document or from a run that has been moved. -/
theorem moveTo_indent {a' : Analysis} (hfront : front = [] → a' = {})
    (h : front ≠ [] → a' = (after (front.map trimmedLine)).recast (Relocation.indent lines).recast) :
    a'.moveTo raw = ((after (front.map trimmedLine)).moveTo (trimmedLine raw)).recast
      (Relocation.indent lines).recast := by
  have hraw : raw = lines[front.length]?.getD "" := by simp [← hlines]
  by_cases hne : front = []
  · rw [hfront hne]
    subst hne
    simp [moveTo, Reader.moveTo, recast, Reader.recast, Relocation.recast, Relocation.indent, after,
      Index.recast]
    exact hraw
  · rw [h hne]
    simp [moveTo, Reader.moveTo, recast, Reader.recast, Relocation.recast, Relocation.indent]
    exact hraw

theorem step_indent {a' : Analysis}
    (h : a'.moveTo raw = ((after (front.map trimmedLine)).moveTo (trimmedLine raw)).recast
      (Relocation.indent lines).recast) :
    a'.step raw = ((after (front.map trimmedLine)).step (trimmedLine raw)).recast
      (Relocation.indent lines).recast := by
  have hraw : lines.getD (after (front.map trimmedLine)).slots.size "" = raw := by simp [← hlines]
  rw [step_eq, step_eq, h, recast_readLine (Relocation.takes_indent hraw)
    (Relocation.keepsLines_indent lines)]
  intro b hb
  have hlength := length_of_open (front.map trimmedLine) hb
  rw [List.length_map] at hlength
  have hbody := body_indent raw rest hlength
  rw [hlines] at hbody
  have hline : ((Relocation.indent lines).line
      ((after (front.map trimmedLine)).moveTo (trimmedLine raw)).reader.line).raw = raw := hraw
  rw [hline]
  exact hbody

end

/-- A run over lines that are written with blanks around them. -/
theorem run_indent (limit : Nat) {lines front rest : List String} (hlines : front ++ rest = lines)
    (hfront : front ≠ []) :
    run limit front =
      (run limit (front.map trimmedLine)).recast (Relocation.indent lines).recast := by
  induction front using List.reverseRecOn generalizing rest with
  | nil => exact absurd rfl hfront
  | append_singleton front raw ih =>
    have hrest : front ++ raw :: rest = lines := by simpa using hlines
    have hrun := ih hrest
    rw [List.map_append, List.map_singleton, run_concat, run_concat, advance, advance]
    cases haborted : (run limit (front.map trimmedLine)).aborted with
    | true =>
      have hne : front ≠ [] := by
        rintro rfl
        cases haborted
      have haborted' : (run limit front).aborted = true := by
        rw [hrun hne]
        exact haborted
      rw [if_pos haborted', if_pos rfl, recast_endLine, hrun hne]
      rfl
    | false =>
      have haborted' : (run limit front).aborted = false := by
        by_cases hne : front = []
        · rw [hne]
          rfl
        · rw [hrun hne]
          exact haborted
      rw [run_of_running haborted] at hrun
      have hraw : lines.getD (after (front.map trimmedLine)).slots.size "" = raw := by simp [← hrest]
      have hline : ((after (front.map trimmedLine)).step (trimmedLine raw)).reader.line =
          (after (front.map trimmedLine)).nextLine (trimmedLine raw) :=
        line_turn (turn_step (coherent_after _) _)
      have hempty : front = [] → run limit front = {} := by
        rintro rfl
        rfl
      have hstep := step_indent hrest (moveTo_indent hrest hempty hrun)
      rw [haborted', if_neg Bool.false_ne_true, if_neg Bool.false_ne_true, run_of_running haborted, hstep,
        ← recast_checkLimit (by rw [hline]; exact Relocation.takes_indent hraw)]

/-- The line that a run has come to is kept. -/
theorem keepsLine_after {lines : List String} (h : lines ≠ []) :
    (Relocation.indent lines).recast.KeepsLine (after (lines.map trimmedLine)).reader.line := by
  have hne : lines.map trimmedLine ≠ [] := by simpa using h
  have hget := line_after hne
  generalize (after (lines.map trimmedLine)).reader.line = l at hget
  obtain ⟨number, trimmed⟩ := l
  rw [List.getElem?_map, Option.map_eq_some_iff] at hget
  obtain ⟨raw, hraw, rfl⟩ := hget
  have hgetD : lines.getD number "" = raw := by
    rw [List.getD_eq_getElem?_getD, hraw]
    rfl
  exact (Relocation.takes_indent hgetD).keepsLine

end Analysis

/-- A document of lines without blanks around them, moved to the lines as they are written. -/
def Document.writtenOn (lines : List String) (d : Document) : Document :=
  d.recast (Relocation.indent lines).recast

/-- A document is that of its lines without the blanks around them, with everything moved to where it is
written. -/
theorem analyzeLines_indent (limit : Nat) (lines : List String) :
    analyzeLines limit lines = (analyzeLines limit (lines.map trimmedLine)).writtenOn lines := by
  by_cases hlines : lines = []
  · subst hlines
    simp [analyzeLines, Analysis.run, Analysis.finish, Analysis.conclude, Document.writtenOn,
      Document.recast, Index.recast, Index.clearPending, Index.unresolved]
  · rw [analyzeLines, Analysis.run_indent limit (List.append_nil lines) hlines,
      ← Analysis.recast_finish (Relocation.keepsLines_indent lines)]
    · rfl
    · intro haborted _
      rw [Analysis.run_of_running haborted]
      exact Analysis.keepsLine_after hlines

/-- How the lines of a text are laid out does not matter. Two texts whose lines are the same but for the blanks
around them are analysed as those lines without the blanks: each column of a line stands further to the right
by the number of blanks in front, and each block has the lines as they are written. Lines may end in a carriage
return and a line feed or in a line feed alone. -/
theorem layout_invariant (limit : Nat) :
    (∀ text text' : String,
      (Text.lines text).map trimmedLine = (Text.lines text').map trimmedLine →
        analyze limit text =
            (analyzeLines limit ((Text.lines text).map trimmedLine)).writtenOn (Text.lines text) ∧
          analyze limit text' =
            (analyzeLines limit ((Text.lines text).map trimmedLine)).writtenOn (Text.lines text')) ∧
    ∀ lines : List String, (∀ l ∈ lines, '\n' ∉ l.toList) →
      (∀ l ∈ lines, l.toList.getLast? ≠ some '\r') →
        analyze limit ("\r\n".intercalate lines) = analyze limit ("\n".intercalate lines) := by
  constructor
  · intro text text' htrimmed
    refine ⟨analyzeLines_indent limit (Text.lines text), ?_⟩
    rw [htrimmed]
    exact analyzeLines_indent limit (Text.lines text')
  · intro lines hbreak hlast
    by_cases hlines : lines = []
    · subst hlines
      rfl
    · rw [analyze, analyze, Text.lines_intercalate_crlf hlines hbreak hlast,
        Text.lines_intercalate_lf hlines hbreak hlast]

/-- A token whose line has blanks in front in one text and at its end in the other. -/
theorem layout_invariant_token :
    (Text.lines "  A := \"a\";").map trimmedLine = (Text.lines "A := \"a\"; ").map trimmedLine ∧
      (analyze 25 "  A := \"a\";" =
          (analyzeLines 25 ((Text.lines "  A := \"a\";").map trimmedLine)).writtenOn
            (Text.lines "  A := \"a\";") ∧
        analyze 25 "A := \"a\"; " =
          (analyzeLines 25 ((Text.lines "  A := \"a\";").map trimmedLine)).writtenOn
            (Text.lines "A := \"a\"; ")) ∧
      analyze 25 ("\r\n".intercalate ["A := \"a\";", "%start r;"]) =
        analyze 25 ("\n".intercalate ["A := \"a\";", "%start r;"]) :=
  have hsame : (Text.lines "  A := \"a\";").map trimmedLine =
      (Text.lines "A := \"a\"; ").map trimmedLine := by decide +kernel
  ⟨hsame, (layout_invariant 25).1 _ _ hsame,
    (layout_invariant 25).2 _ (by decide +kernel) (by decide +kernel)⟩

end LineGrammar
