import LineGrammar.Node.CodeBlock
import LineGrammar.Proofs.Blanks

/-! Moving the lines of a block. Only the blanks around a line change, and moving twice is moving
once: the lines keep their distance from the least indented one, which is all that a second move
looks at. -/

namespace LineGrammar

open Text

theorem isBlankLine_eq_false {line : String} :
    isBlankLine line = false ↔ ∃ c ∈ line.toList, isBlank c = false := by
  simp [isBlankLine, List.all_eq_false]

theorem blank_of_mem_margin {ind : Indentation} {level : Nat} {c : Char}
    (h : c ∈ (ind.margin level).toList) : isBlank c = true := by
  unfold Indentation.margin at h
  split at h <;> rw [String.toList_ofList] at h <;> rw [List.eq_of_mem_replicate h] <;> decide

theorem noBreak_margin (ind : Indentation) (level : Nat) :
    '\n' ∉ (ind.margin level).toList := by
  intro h
  unfold Indentation.margin at h
  split at h <;> rw [String.toList_ofList] at h <;>
    exact absurd (List.eq_of_mem_replicate h) (by decide)

theorem commonIndent_le {lines : List String} {line : String} (h : line ∈ lines)
    (hline : isBlankLine line = false) : commonIndent lines ≤ leadingBlanks line := by
  have hmem : leadingBlanks line ∈ (lines.filter fun l => !isBlankLine l).map leadingBlanks :=
    List.mem_map_of_mem (List.mem_filter.2 ⟨h, by simp [hline]⟩)
  unfold commonIndent
  cases hmin : ((lines.filter fun l => !isBlankLine l).map leadingBlanks).min? with
  | none => exact Nat.zero_le _
  | some n => exact (List.min?_eq_some_iff.1 hmin).2 _ hmem

theorem exists_commonIndent {lines : List String} {line : String} (h : line ∈ lines)
    (hline : isBlankLine line = false) :
    ∃ l ∈ lines, isBlankLine l = false ∧ leadingBlanks l = commonIndent lines := by
  have hmem : leadingBlanks line ∈ (lines.filter fun l => !isBlankLine l).map leadingBlanks :=
    List.mem_map_of_mem (List.mem_filter.2 ⟨h, by simp [hline]⟩)
  unfold commonIndent
  cases hmin : ((lines.filter fun l => !isBlankLine l).map leadingBlanks).min? with
  | none => rw [List.min?_eq_none_iff.1 hmin] at hmem; cases hmem
  | some n =>
    obtain ⟨l, hl, hn⟩ := List.mem_map.1 (List.min?_eq_some_iff.1 hmin).1
    obtain ⟨hl, hblank⟩ := List.mem_filter.1 hl
    exact ⟨l, hl, by simpa using hblank, hn⟩

theorem commonIndent_eq {lines : List String} {line : String} (h : line ∈ lines)
    (hline : isBlankLine line = false)
    (hleast : ∀ l ∈ lines, isBlankLine l = false → leadingBlanks line ≤ leadingBlanks l) :
    commonIndent lines = leadingBlanks line := by
  obtain ⟨l, hl, hblank, hn⟩ := exists_commonIndent h hline
  have := commonIndent_le h hline
  have := hleast l hl hblank
  omega

/-- A line that is not blank, as its blanks and what follows them. -/
theorem exists_leadingBlanks {line : String} (h : isBlankLine line = false) :
    ∃ bl c cs, line.toList = bl ++ c :: cs ∧ (∀ d ∈ bl, isBlank d = true) ∧ isBlank c = false ∧
      bl.length = leadingBlanks line := by
  have hsplit : line.toList = line.toList.takeWhile isBlank ++ line.toList.dropWhile isBlank :=
    List.takeWhile_append_dropWhile.symm
  cases hrest : line.toList.dropWhile isBlank with
  | nil =>
    obtain ⟨c, hc, hblank⟩ := isBlankLine_eq_false.1 h
    rw [hsplit, hrest, List.append_nil] at hc
    exact absurd (List.all_eq_true.1 List.all_takeWhile c hc) (by simp [hblank])
  | cons c cs =>
    have hc : isBlank c = false := head_trimStart line.toList c (by rw [trimStart, hrest]; rfl)
    exact ⟨_, c, cs, by rw [← hrest]; exact hsplit, List.all_eq_true.1 List.all_takeWhile, hc, rfl⟩

theorem leadingBlanks_eq {line : String} {bl cs : List Char} {c : Char}
    (h : line.toList = bl ++ c :: cs) (hbl : ∀ d ∈ bl, isBlank d = true)
    (hc : isBlank c = false) : leadingBlanks line = bl.length := by
  rw [leadingBlanks, h, List.takeWhile_append_of_pos hbl]
  simp [hc]

theorem trimEnd_append_cons (bl : List Char) {c : Char} (hc : isBlank c = false)
    (cs : List Char) : trimEnd (bl ++ c :: cs) = bl ++ c :: (trimEnd (c :: cs)).tail := by
  induction bl with
  | nil =>
    simp only [List.nil_append, trimEnd]
    split
    · simp [hc]
    · rfl
  | cons b bl ih => rw [List.cons_append, trimEnd, ih]; cases bl <;> rfl

@[simp] theorem isBlankLine_empty : isBlankLine "" = true := rfl

theorem reindentLine_blank {line : String} (h : isBlankLine line = true) (margin : String)
    (common : Nat) : reindentLine margin common line = "" := if_pos h

/-- What moving makes of a line that is not blank. -/
theorem reindentLine_spec {line : String} (h : isBlankLine line = false) (margin : String)
    {common : Nat} (hcommon : common ≤ leadingBlanks line) :
    ∃ bl c cs rest, line.toList = bl ++ c :: cs ∧ (∀ d ∈ bl, isBlank d = true) ∧
      isBlank c = false ∧ bl.length = leadingBlanks line ∧ trimEnd (c :: cs) = c :: rest ∧
      (reindentLine margin common line).toList =
        margin.toList ++ (bl.drop common ++ c :: rest) := by
  obtain ⟨bl, c, cs, hline, hbl, hc, hlength⟩ := exists_leadingBlanks h
  refine ⟨bl, c, cs, (trimEnd (c :: cs)).tail, hline, hbl, hc, hlength,
    trimEnd_append_cons [] hc cs, ?_⟩
  have hdrop : line.toList.drop common = bl.drop common ++ c :: cs := by
    rw [hline, List.drop_append_of_le_length (by omega)]
  rw [reindentLine, h]
  simp [hdrop, trimEnd_append_cons _ hc]

section
variable {ind : Indentation} {common : Nat} {line : String}

theorem isBlankLine_reindentLine (h : isBlankLine line = false)
    (hcommon : common ≤ leadingBlanks line) (margin : String) :
    isBlankLine (reindentLine margin common line) = false := by
  obtain ⟨bl, c, cs, rest, -, -, hc, -, -, hmoved⟩ := reindentLine_spec h margin hcommon
  exact isBlankLine_eq_false.2 ⟨c, by rw [hmoved]; simp, hc⟩

theorem leadingBlanks_reindentLine (h : isBlankLine line = false)
    (hcommon : common ≤ leadingBlanks line) (level : Nat) :
    leadingBlanks (reindentLine (ind.margin level) common line) =
      (ind.margin level).toList.length + (leadingBlanks line - common) := by
  obtain ⟨bl, c, cs, rest, -, hbl, hc, hlength, -, hmoved⟩ :=
    reindentLine_spec h (ind.margin level) hcommon
  rw [← List.append_assoc] at hmoved
  rw [leadingBlanks_eq hmoved ?_ hc, List.length_append, List.length_drop, hlength]
  intro d hd
  rcases List.mem_append.1 hd with hd | hd
  · exact blank_of_mem_margin hd
  · exact hbl d (List.mem_of_mem_drop hd)

/-- Moving keeps the text between the blanks. -/
theorem trim_reindentLine (hcommon : isBlankLine line = false → common ≤ leadingBlanks line)
    (level : Nat) :
    trim (reindentLine (ind.margin level) common line).toList = trim line.toList := by
  cases h : isBlankLine line with
  | true =>
    rw [reindentLine_blank h, trim_eq_nil.2 fun c hc => List.all_eq_true.1 h c hc]
    rfl
  | false =>
    obtain ⟨bl, c, cs, rest, hline, hbl, hc, -, htrim, hmoved⟩ :=
      reindentLine_spec h (ind.margin level) (hcommon h)
    have hblanks : ∀ d ∈ (ind.margin level).toList ++ bl.drop common, isBlank d = true := by
      intro d hd
      rcases List.mem_append.1 hd with hd | hd
      · exact blank_of_mem_margin hd
      · exact hbl d (List.mem_of_mem_drop hd)
    have hidem : trimEnd (c :: rest) = c :: rest := by rw [← htrim, trimEnd_trimEnd]
    rw [hmoved, hline, ← List.append_assoc, trim, trim, trimStart_append_blanks hblanks,
      trimStart_append_blanks hbl, trimStart_cons hc, trimStart_cons hc, hidem, htrim]

theorem last_reindentLine (margin : String)
    (hcommon : isBlankLine line = false → common ≤ leadingBlanks line) :
    ∀ c ∈ (reindentLine margin common line).toList.getLast?, isBlank c = false := by
  cases h : isBlankLine line with
  | true => simp [reindentLine_blank h]
  | false =>
    obtain ⟨bl, c, cs, rest, -, -, -, -, htrim, hmoved⟩ := reindentLine_spec h margin (hcommon h)
    have hlast := last_trimEnd (c :: cs)
    rw [htrim] at hlast
    rw [hmoved, ← List.append_assoc, List.getLast?_append, List.getLast?_cons, Option.some_or]
    rwa [List.getLast?_cons] at hlast

theorem noBreak_reindentLine (h : '\n' ∉ line.toList) (level : Nat) :
    '\n' ∉ (reindentLine (ind.margin level) common line).toList := by
  unfold reindentLine
  split
  · exact List.not_mem_nil
  · rw [String.toList_append, String.toList_ofList]
    intro hmem
    rcases List.mem_append.1 hmem with hmem | hmem
    · exact noBreak_margin ind level hmem
    · obtain ⟨bl, -, hdrop⟩ := exists_trimEnd_blanks (line.toList.drop common)
      have hmem' : '\n' ∈ line.toList.drop common := by
        rw [hdrop]
        exact List.mem_append_left bl hmem
      exact h (List.mem_of_mem_drop hmem')

/-- A second move looks only at how far the line stands from the margin of the first. -/
theorem reindentLine_reindentLine (hcommon : isBlankLine line = false → common ≤ leadingBlanks line)
    (margin : String) (level : Nat) :
    reindentLine margin (ind.margin level).toList.length
        (reindentLine (ind.margin level) common line) = reindentLine margin common line := by
  cases h : isBlankLine line with
  | true => simp only [reindentLine_blank h, reindentLine_blank isBlankLine_empty]
  | false =>
    obtain ⟨bl, c, cs, rest, hline, -, hc, hlength, htrim, hmoved⟩ :=
      reindentLine_spec h (ind.margin level) (hcommon h)
    have hdrop : line.toList.drop common = bl.drop common ++ c :: cs := by
      rw [hline, List.drop_append_of_le_length (by rw [hlength]; exact hcommon h)]
    have hidem : trimEnd (c :: rest) = c :: rest := by rw [← htrim, trimEnd_trimEnd]
    have hrest : trimEnd (bl.drop common ++ c :: rest) = trimEnd (bl.drop common ++ c :: cs) := by
      rw [trimEnd_append_cons _ hc, trimEnd_append_cons _ hc, hidem, htrim]
    rw [reindentLine, isBlankLine_reindentLine h (hcommon h), if_neg (by simp), hmoved,
      List.drop_left, hrest, ← hdrop, reindentLine, h, if_neg (by simp)]

end

theorem le_leadingBlanks {lines : List String} {line : String} (h : line ∈ lines) :
    isBlankLine line = false → commonIndent lines ≤ leadingBlanks line :=
  commonIndent_le h

/-- After a move the least indented lines stand at the margin. -/
theorem commonIndent_reindent (ind : Indentation) {lines : List String} {line : String}
    (h : line ∈ lines) (hline : isBlankLine line = false) :
    commonIndent (reindent ind lines) = (ind.margin 1).toList.length := by
  obtain ⟨l, hl, hblank, hleast⟩ := exists_commonIndent h hline
  have hmoved := isBlankLine_reindentLine hblank (Nat.le_of_eq hleast.symm) (ind.margin 1)
  have hlead := @leadingBlanks_reindentLine ind _ _ hblank (Nat.le_of_eq hleast.symm) 1
  rw [reindent, commonIndent_eq (List.mem_map_of_mem hl) hmoved ?_, hlead]
  · omega
  · intro m hm hm'
    obtain ⟨k, hk, rfl⟩ := List.mem_map.1 hm
    have hkblank : isBlankLine k = false := by
      cases hkb : isBlankLine k with
      | false => rfl
      | true => simp [reindentLine_blank hkb] at hm'
    rw [hlead, leadingBlanks_reindentLine hkblank (commonIndent_le hk hkblank)]
    omega

/-- Moving twice is moving once. -/
theorem reindent_reindent (ind other : Indentation) (lines : List String) :
    reindent ind (reindent other lines) = reindent ind lines := by
  have hline : ∀ line ∈ lines,
      reindentLine (ind.margin 1) (commonIndent (reindent other lines))
        (reindentLine (other.margin 1) (commonIndent lines) line) =
      reindentLine (ind.margin 1) (commonIndent lines) line := by
    intro line h
    cases hblank : isBlankLine line with
    | true => simp only [reindentLine_blank hblank, reindentLine_blank isBlankLine_empty]
    | false =>
      rw [commonIndent_reindent other h hblank]
      exact reindentLine_reindentLine (le_leadingBlanks h) _ 1
  rw [reindent, reindent, reindent, List.map_map]
  exact List.map_congr_left hline

/-- What a move makes of a line: the text between its blanks stays and the blanks after it go, and the
line starts with the margin; nothing is left of a blank line. -/
def MovedTo (margin line moved : String) : Prop :=
  if isBlankLine line then moved = ""
  else trim moved.toList = trim line.toList ∧ trimEnd moved.toList = moved.toList ∧
    margin.toList <+: moved.toList

theorem zip_reindent (ind : Indentation) (lines : List String) :
    lines.zip (reindent ind lines) =
      lines.map fun line => (line, reindentLine (ind.margin 1) (commonIndent lines) line) :=
  List.map_prod_left_eq_zip.symm

theorem movedTo_reindentLine {ind : Indentation} {common : Nat} {line : String}
    (hcommon : isBlankLine line = false → common ≤ leadingBlanks line) (level : Nat) :
    MovedTo (ind.margin level) line (reindentLine (ind.margin level) common line) := by
  unfold MovedTo
  split
  · next h => exact reindentLine_blank h _ _
  · next h =>
    rw [Bool.not_eq_true] at h
    refine ⟨trim_reindentLine hcommon level, trimEnd_of_last (last_reindentLine _ hcommon), ?_⟩
    rw [reindentLine, h]
    simp

/-- The least indented line has the margin in front and no more. -/
theorem takeWhile_reindentLine {ind : Indentation} {line : String} (h : isBlankLine line = false)
    (level : Nat) :
    (reindentLine (ind.margin level) (leadingBlanks line) line).toList.takeWhile isBlank =
      (ind.margin level).toList := by
  obtain ⟨bl, c, cs, rest, -, -, hc, hlength, -, hmoved⟩ :=
    reindentLine_spec h (ind.margin level) (Nat.le_refl _)
  rw [hmoved, ← hlength, List.drop_length, List.nil_append,
    List.takeWhile_append_of_pos fun d hd => blank_of_mem_margin hd]
  simp [hc]

/-- Reindentation moves the lines of a body together, until one of them starts right behind the margin. It
changes nothing between the blanks of a line, and nothing when it is done once more. -/
theorem reindent_moves_together (ind : Indentation) (lines : List String) :
    (reindent ind lines).length = lines.length ∧
      (∀ p ∈ lines.zip (reindent ind lines), MovedTo (ind.margin 1) p.1 p.2) ∧
      (∀ p ∈ lines.zip (reindent ind lines), ∀ q ∈ lines.zip (reindent ind lines),
        isBlankLine p.1 = false → isBlankLine q.1 = false →
          (leadingBlanks p.2 : Int) - leadingBlanks q.2 = leadingBlanks p.1 - leadingBlanks q.1) ∧
      ((∃ line ∈ lines, isBlankLine line = false) →
        ∃ p ∈ lines.zip (reindent ind lines), isBlankLine p.1 = false ∧
          p.2.toList.takeWhile isBlank = (ind.margin 1).toList) ∧
      reindent ind (reindent ind lines) = reindent ind lines := by
  rw [zip_reindent]
  simp only [List.forall_mem_map]
  refine ⟨List.length_map _, fun line h => movedTo_reindentLine (le_leadingBlanks h) 1,
    fun line h line' h' hline hline' => ?_, ?_, reindent_reindent ind ind lines⟩
  · have hle := commonIndent_le h hline
    have hle' := commonIndent_le h' hline'
    rw [leadingBlanks_reindentLine hline hle, leadingBlanks_reindentLine hline' hle']
    omega
  · rintro ⟨line, h, hline⟩
    obtain ⟨l, hl, hblank, hleast⟩ := exists_commonIndent h hline
    refine ⟨_, List.mem_map_of_mem hl, hblank, ?_⟩
    rw [← hleast]
    exact takeWhile_reindentLine hblank 1

/-- A blank line in between is emptied, and takes no part in what the lines have in common. -/
example : reindent {} ["        int x = 1;", "", "          return x;  "] =
    ["    int x = 1;", "", "      return x;"] := by decide +kernel

end LineGrammar
