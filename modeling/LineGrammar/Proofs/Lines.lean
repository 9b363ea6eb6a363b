import LineGrammar.Proofs.Blanks
import LineGrammar.Text.Lines

/-! Lines and texts. No line has a line feed inside, and lines that do not end in a blank come back
when they are joined with line feeds and split again. -/

namespace LineGrammar

/-- A text that can be a line of a document. -/
structure FitsLine (s : String) : Prop where
  last : ∀ c ∈ s.toList.getLast?, isBlank c = false
  noBreak : '\n' ∉ s.toList

theorem fitsLine_empty : FitsLine "" := ⟨by simp, by simp⟩

namespace Text

theorem splitLines_cons {c : Char} (hc : c ≠ '\n') {cs line : List Char} {rest : List (List Char)}
    (h : splitLines cs = line :: rest) : splitLines (c :: cs) = (c :: line) :: rest := by
  rw [splitLines, if_neg hc, h]

/-- The first line ends at the first line feed. -/
theorem splitLines_append {line : List Char} (h : '\n' ∉ line) (cs : List Char) :
    splitLines (line ++ '\n' :: cs) = line :: splitLines cs := by
  induction line with
  | nil => rw [List.nil_append, splitLines, if_pos rfl]
  | cons c line ih =>
    rw [List.mem_cons, not_or] at h
    exact splitLines_cons (Ne.symm h.1) (ih h.2)

theorem splitLines_of_not_mem {line : List Char} (h : '\n' ∉ line) : splitLines line = [line] := by
  induction line with
  | nil => rfl
  | cons c line ih =>
    rw [List.mem_cons, not_or] at h
    exact splitLines_cons (Ne.symm h.1) (ih h.2)

theorem noBreak_splitLines {cs line : List Char} (h : line ∈ splitLines cs) : '\n' ∉ line := by
  induction cs generalizing line with
  | nil => rw [List.mem_singleton.1 h]; exact List.not_mem_nil
  | cons c cs ih =>
    by_cases hc : c = '\n'
    · rw [splitLines, if_pos hc] at h
      rcases List.mem_cons.1 h with rfl | h
      · exact List.not_mem_nil
      · exact ih h
    · obtain ⟨first, rest, hsplit⟩ := List.exists_cons_of_ne_nil (splitLines_ne_nil cs)
      rw [splitLines_cons hc hsplit] at h
      rcases List.mem_cons.1 h with rfl | h
      · intro hmem
        rcases List.mem_cons.1 hmem with hmem | hmem
        · exact hc hmem.symm
        · exact ih (by rw [hsplit]; exact List.mem_cons_self) hmem
      · exact ih (by rw [hsplit]; exact List.mem_cons_of_mem _ h)

theorem mem_of_mem_chomp {cs : List Char} {c : Char} (h : c ∈ chomp cs) : c ∈ cs := by
  induction cs using chomp.induct with
  | case1 => exact h
  | case2 => cases h
  | case3 d cs hd ih =>
    rw [chomp] at h
    · rcases List.mem_cons.1 h with rfl | h
      · exact List.mem_cons_self
      · exact List.mem_cons_of_mem d (ih h)
    · exact hd

theorem chomp_of_last {cs : List Char} (h : cs.getLast? ≠ some '\r') : chomp cs = cs := by
  induction cs using chomp.induct with
  | case1 => rfl
  | case2 => exact absurd rfl h
  | case3 d cs hd ih =>
    rw [chomp]
    · cases cs with
      | nil => rfl
      | cons e es => rw [ih (by rwa [List.getLast?_cons_cons] at h)]
    · exact hd

theorem chomp_concat (cs : List Char) : chomp (cs ++ ['\r']) = cs := by
  induction cs with
  | nil => rfl
  | cons c cs ih =>
    rw [List.cons_append, chomp, ih]
    simp

theorem noBreak_lines {text raw : String} (h : raw ∈ lines text) : '\n' ∉ raw.toList := by
  obtain ⟨line, hline, rfl⟩ := List.mem_map.1 h
  rw [String.toList_ofList]
  exact fun hmem => noBreak_splitLines hline (mem_of_mem_chomp hmem)

theorem splitLines_intercalate {ls : List (List Char)} (hne : ls ≠ []) (h : ∀ l ∈ ls, '\n' ∉ l) :
    splitLines (['\n'].intercalate ls) = ls := by
  induction ls with
  | nil => exact absurd rfl hne
  | cons line rest ih =>
    cases rest with
    | nil =>
      rw [List.intercalate_singleton]
      exact splitLines_of_not_mem (h line (by simp))
    | cons next rest =>
      rw [List.intercalate_cons_cons, List.append_assoc, List.singleton_append,
        splitLines_append (h line (by simp)), ih (by simp) fun l hl => h l (by simp [hl])]

/-- Lines that are joined and split again. -/
theorem lines_intercalate_lf {ls : List String} (hne : ls ≠ []) (hbreak : ∀ l ∈ ls, '\n' ∉ l.toList)
    (hlast : ∀ l ∈ ls, l.toList.getLast? ≠ some '\r') : lines ("\n".intercalate ls) = ls := by
  have hbreaks : ∀ l ∈ ls.map String.toList, '\n' ∉ l := List.forall_mem_map.2 hbreak
  have hline : ∀ l ∈ ls, String.ofList (chomp l.toList) = l := by
    intro l hl
    rw [chomp_of_last (hlast l hl), String.ofList_toList]
  rw [lines, String.toList_intercalate, show "\n".toList = ['\n'] from rfl,
    splitLines_intercalate (by simpa using hne) hbreaks, List.map_map]
  exact (List.map_congr_left hline).trans (List.map_id ls)

theorem lines_intercalate {ls : List String} (hne : ls ≠ []) (h : ∀ l ∈ ls, FitsLine l) :
    lines ("\n".intercalate ls) = ls :=
  lines_intercalate_lf hne (fun l hl => (h l hl).noBreak)
    fun l hl hr => absurd ((h l hl).last '\r' hr) (by decide)

/-- A carriage return before a line feed belongs to the end of the line. -/
theorem chomp_splitLines_intercalate {ls : List (List Char)} (hne : ls ≠ [])
    (hbreak : ∀ l ∈ ls, '\n' ∉ l) (hlast : ∀ l ∈ ls, l.getLast? ≠ some '\r') :
    (splitLines (['\r', '\n'].intercalate ls)).map chomp = ls := by
  induction ls with
  | nil => exact absurd rfl hne
  | cons line rest ih =>
    have hline := hbreak line (by simp)
    cases rest with
    | nil =>
      rw [List.intercalate_singleton, splitLines_of_not_mem hline, List.map_singleton,
        chomp_of_last (hlast line (by simp))]
    | cons next rest =>
      have hreturn : '\n' ∉ line ++ ['\r'] := by simp [hline]
      have hrest := ih (by simp) (fun l hl => hbreak l (by simp [hl])) fun l hl => hlast l (by simp [hl])
      rw [List.intercalate_cons_cons, show ['\r', '\n'] = ['\r'] ++ ['\n'] from rfl,
        ← List.append_assoc, List.append_assoc (line ++ ['\r']), List.singleton_append,
        splitLines_append hreturn, List.map_cons, chomp_concat]
      exact congrArg (line :: ·) hrest

theorem lines_intercalate_crlf {ls : List String} (hne : ls ≠ []) (hbreak : ∀ l ∈ ls, '\n' ∉ l.toList)
    (hlast : ∀ l ∈ ls, l.toList.getLast? ≠ some '\r') : lines ("\r\n".intercalate ls) = ls := by
  have hjoined : (splitLines (['\r', '\n'].intercalate (ls.map String.toList))).map chomp =
      ls.map String.toList :=
    chomp_splitLines_intercalate (by simpa using hne) (List.forall_mem_map.2 hbreak)
      (List.forall_mem_map.2 hlast)
  calc lines ("\r\n".intercalate ls)
      = ((splitLines (['\r', '\n'].intercalate (ls.map String.toList))).map chomp).map
          String.ofList := by
        rw [lines, String.toList_intercalate, List.map_map]
        rfl
    _ = ls := by simp [hjoined]

end Text

end LineGrammar
