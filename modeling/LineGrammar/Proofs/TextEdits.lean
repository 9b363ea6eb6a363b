import LineGrammar.Navigation
import LineGrammar.Proofs.Lines
import LineGrammar.Proofs.Rewriting

/-! Making edits in a text. An edit tells its place in the text as it stood, so the last one is made first.
Edits that replace one name by another leave the lines apart, each rewritten at the columns of its edits. -/

namespace LineGrammar

namespace Text

/-- How many characters stand before a line. -/
def lineStart : List Char → Nat → Nat
  | _, 0 => 0
  | [], _ + 1 => 0
  | c :: cs, line + 1 => (if c = '\n' then lineStart cs line else lineStart cs (line + 1)) + 1

/-- How many characters stand before a position. -/
def offset (cs : List Char) (p : Position) : Nat := lineStart cs p.line + p.column

def replace (start stop : Nat) (new cs : List Char) : List Char := cs.take start ++ new ++ cs.drop stop

end Text

open Text

/-- Replaces what the edit spans; an open span reaches to the end. -/
def TextEdit.apply (e : TextEdit) (cs : List Char) : List Char :=
  replace (offset cs e.span.start) ((e.span.stop.map (offset cs)).getD cs.length) e.newText.toList cs

/-- Makes all edits, the last one first. -/
def applyEdits (text : String) (edits : List TextEdit) : String :=
  String.ofList (edits.foldr TextEdit.apply text.toList)

namespace Text

theorem lineStart_append {line : List Char} (h : '\n' ∉ line) (cs : List Char) (k : Nat) :
    lineStart (line ++ '\n' :: cs) (k + 1) = line.length + 1 + lineStart cs k := by
  induction line with
  | nil => simp [lineStart, Nat.add_comm]
  | cons c line ih =>
    rw [List.mem_cons, not_or] at h
    rw [List.cons_append, lineStart, if_neg (Ne.symm h.1), ih h.2, List.length_cons]
    omega

theorem replace_append_left {start stop : Nat} {line : List Char} (h : start ≤ line.length)
    (h' : stop ≤ line.length) (new cs : List Char) :
    replace start stop new (line ++ cs) = replace start stop new line ++ cs := by
  rw [replace, replace, List.take_append_of_le_length h, List.drop_append_of_le_length h']
  simp

/-- What is replaced in the lines after the first one. -/
theorem replace_next {line : List Char} (h : '\n' ∉ line) (k start stop : Nat) (new cs : List Char) :
    replace (lineStart (line ++ '\n' :: cs) (k + 1) + start) (lineStart (line ++ '\n' :: cs) (k + 1) + stop)
        new (line ++ '\n' :: cs) =
      line ++ '\n' :: replace (lineStart cs k + start) (lineStart cs k + stop) new cs := by
  have hfront : ∀ i, line.length + 1 + lineStart cs k + i =
      (line ++ ['\n']).length + (lineStart cs k + i) := by
    intro i
    rw [List.length_append, List.length_singleton, Nat.add_assoc]
  rw [lineStart_append h, List.append_cons line '\n' cs, List.append_cons line '\n' (replace _ _ _ _),
    hfront, hfront, replace, List.take_length_add_append, List.drop_length_add_append, replace]
  simp only [List.append_assoc]

theorem intercalate_cons (line : List Char) {rest : List (List Char)} (h : rest ≠ []) :
    ['\n'].intercalate (line :: rest) = line ++ '\n' :: ['\n'].intercalate rest := by
  obtain ⟨next, more, rfl⟩ := List.exists_cons_of_ne_nil h
  rw [List.intercalate_cons_cons, List.append_assoc, List.singleton_append]

/-- Lines that are joined are split again at the same places. -/
theorem intercalate_splitLines (cs : List Char) : ['\n'].intercalate (splitLines cs) = cs := by
  induction cs with
  | nil => rfl
  | cons c cs ih =>
    by_cases hc : c = '\n'
    · subst hc
      rw [splitLines, if_pos rfl, intercalate_cons [] (splitLines_ne_nil cs), ih, List.nil_append]
    · obtain ⟨first, rest, hsplit⟩ := List.exists_cons_of_ne_nil (splitLines_ne_nil cs)
      rw [splitLines_cons hc hsplit]
      rw [hsplit] at ih
      cases rest with
      | nil => rw [List.intercalate_singleton] at ih ⊢; rw [ih]
      | cons next rest =>
        rw [intercalate_cons _ (by simp)] at ih ⊢
        rw [List.cons_append, ih]

end Text

/-- An edit in one line leaves the others alone. -/
theorem apply_onLine {ls : List (List Char)} (hbreak : ∀ l ∈ ls, '\n' ∉ l) {k : Nat} {cs : List Char}
    (hk : ls[k]? = some cs) {start stop : Nat} (hstart : start ≤ cs.length) (hstop : stop ≤ cs.length)
    (new : String) :
    TextEdit.apply { span := .onLine k start stop, newText := new } (['\n'].intercalate ls) =
      ['\n'].intercalate (ls.modify k (replace start stop new.toList)) := by
  change replace (lineStart _ k + start) (lineStart _ k + stop) new.toList _ = _
  induction ls generalizing k with
  | nil => cases hk
  | cons line rest ih =>
    cases k with
    | zero =>
      obtain rfl : line = cs := Option.some.inj hk
      simp only [lineStart, Nat.zero_add, List.modify_zero_cons]
      cases rest with
      | nil => rw [List.intercalate_singleton, List.intercalate_singleton]
      | cons next rest =>
        have hne : next :: rest ≠ [] := List.cons_ne_nil next rest
        rw [intercalate_cons line hne, intercalate_cons _ hne, replace_append_left hstart hstop]
    | succ k =>
      have hrest := ih (fun l hl => hbreak l (List.mem_cons_of_mem line hl)) hk
      have hne : rest ≠ [] := by
        rintro rfl
        cases hk
      have hmodified : rest.modify k (replace start stop new.toList) ≠ [] := by
        simpa [← List.length_pos_iff] using hne
      rw [List.modify_succ_cons, intercalate_cons line hne, intercalate_cons line hmodified,
        replace_next (hbreak line List.mem_cons_self), hrest]

namespace Rewriting

theorem text_congr {w w' : Rewriting} {i : Nat} (h : ∀ j, i ≤ j → w.out j = w'.out j) (cs : List Char) :
    w.text i cs = w'.text i cs := by
  induction cs generalizing i with
  | nil => rfl
  | cons c cs ih => rw [text, text, h i (Nat.le_refl i), ih fun j hj => h j (Nat.le_of_succ_le hj)]

/-- The order of the columns plays no part. -/
theorem text_of_columns {w w' : Rewriting} (hcolumns : ∀ i, i ∈ w.columns ↔ i ∈ w'.columns)
    (hold : w.old = w'.old) (hnew : w.new = w'.new) (i : Nat) (cs : List Char) :
    w.text i cs = w'.text i cs := by
  refine text_congr (fun j _ => funext fun c => ?_) cs
  have hcovers : w.covers j = w'.covers j := by
    rw [Bool.eq_iff_iff, covers, covers, List.any_eq_true, List.any_eq_true, hold]
    simp only [hcolumns]
  simp only [out, hcolumns, hcovers, hnew]

variable {w : Rewriting} {cs : List Char} {start : Nat}

/-- Behind a name it does not matter whether the name is replaced. -/
theorem text_behind (hold : 0 < w.old.length) {i : Nat} (hi : start + w.old.length ≤ i) (ds : List Char) :
    { w with columns := start :: w.columns }.text i ds = w.text i ds := by
  refine text_congr (fun j hj => funext fun c => ?_) ds
  have hne : j ≠ start := by omega
  have hnot : ¬(start < j ∧ j < start + w.old.length) := by omega
  simp [out, covers, hne, hnot]

/-- One more name is replaced, in front of those that have been. -/
theorem replace_text (hw : w.Fits cs) (hword : (⟨start, w.old⟩ : Slice).IsWord cs)
    (hlater : ∀ i ∈ w.columns, start < i) :
    start + w.old.length ≤ (w.text 0 cs).length ∧
      Text.replace start (start + w.old.length) w.new (w.text 0 cs) =
        { w with columns := start :: w.columns }.text 0 cs := by
  have hpos := hw.length_pos
  have hw' : { w with columns := start :: w.columns }.Fits cs :=
    ⟨hw.old, hw.new, by simpa using ⟨hword, hw.words⟩⟩
  have hfirst : ∀ i ∈ w.columns, start + w.old.length ≤ i := by
    intro i hi
    have hlt := hlater i hi
    rcases hword.eq_or_apart (hw.words i hi) with heq | hapart
    · exact absurd (congrArg Slice.column heq) (Nat.ne_of_lt hlt)
    · simp only [Slice.stop] at hapart
      omega
  obtain ⟨front, back, hcs, hcolumn, -, -⟩ := hword.whole
  replace hcs : cs = front ++ (w.old ++ back) := hcs
  replace hcolumn : start = 0 + front.length := hcolumn.trans (Nat.zero_add _).symm
  have hfront : w.text 0 front = front :=
    text_of_apart hw fun i hi => .inr (by have := hfirst i hi; omega)
  have hname : w.text start w.old = w.old := text_of_apart hw fun i hi => .inr (hfirst i hi)
  have hfront' : { w with columns := start :: w.columns }.text 0 front = front := by
    refine text_of_apart hw' fun i hi => .inr ?_
    rcases List.mem_cons.1 hi with rfl | hi
    · exact Nat.le_of_eq hcolumn.symm
    · have := hfirst i hi
      omega
  have hname' : { w with columns := start :: w.columns }.text start w.old = w.new :=
    text_old hw' List.mem_cons_self
  have htext : w.text 0 cs = front ++ (w.old ++ w.text (start + w.old.length) back) := by
    rw [hcs, text_append, text_append, hfront, ← hcolumn, hname]
  have htext' : { w with columns := start :: w.columns }.text 0 cs =
      front ++ (w.new ++ w.text (start + w.old.length) back) := by
    rw [hcs, text_append, text_append, hfront', ← hcolumn, hname', text_behind hpos (Nat.le_refl _)]
  rw [htext, htext', hcolumn, Nat.zero_add]
  refine ⟨by simp, ?_⟩
  rw [Text.replace, List.take_left, ← List.append_assoc front w.old, ← List.length_append, List.drop_left,
    List.append_assoc]

end Rewriting

/-- The edits in a line, as a rewriting of the line. -/
def rewritingOn (old new : String) (edits : List TextEdit) (k : Nat) : Rewriting where
  columns := (edits.filter fun e => e.span.start.line = k).map fun e => e.span.start.column
  old := old.toList
  new := new.toList

/-- The lines, each rewritten by its edits. -/
def rewriteLines (old new : String) (edits : List TextEdit) (ls : List (List Char)) : List (List Char) :=
  ls.mapIdx fun k cs => (rewritingOn old new edits k).text 0 cs

theorem getElem?_rewriteLines (old new : String) (edits : List TextEdit) (ls : List (List Char)) (k : Nat) :
    (rewriteLines old new edits ls)[k]? = ls[k]?.map ((rewritingOn old new edits k).text 0) :=
  List.getElem?_mapIdx

theorem rewriteLines_nil (old new : String) (ls : List (List Char)) : rewriteLines old new [] ls = ls := by
  refine List.ext_getElem? fun k => ?_
  rw [getElem?_rewriteLines]
  cases ls[k]? with
  | none => rfl
  | some cs => rw [Option.map_some, Rewriting.text_of_nil rfl]

theorem rewritingOn_cons_of_eq (old new : String) {e : TextEdit} {k : Nat} (h : e.span.start.line = k)
    (rest : List TextEdit) :
    rewritingOn old new (e :: rest) k = { rewritingOn old new rest k with
      columns := e.span.start.column :: (rewritingOn old new rest k).columns } := by
  simp [rewritingOn, h]

theorem rewritingOn_cons_of_ne (old new : String) {e : TextEdit} {k : Nat} (h : e.span.start.line ≠ k)
    (rest : List TextEdit) : rewritingOn old new (e :: rest) k = rewritingOn old new rest k := by
  simp [rewritingOn, h]

/-- The edit replaces an old name that stands in the lines. -/
def TextEdit.Renames (old new : String) (ls : List (List Char)) (e : TextEdit) : Prop :=
  ∃ k start cs, e = { span := .onLine k start (start + old.toList.length), newText := new } ∧
    ls[k]? = some cs ∧ (⟨start, old.toList⟩ : Slice).IsWord cs

section
variable {old new : String} {ls : List (List Char)}

/-- Edits after one on a line have their columns behind it. -/
theorem columns_later {rest : List TextEdit} (hwords : ∀ e ∈ rest, e.Renames old new ls)
    {k start : Nat} (hfirst : ∀ e ∈ rest, Span.onLine k start (start + old.toList.length) < e.span) :
    ∀ i ∈ (rewritingOn old new rest k).columns, start < i := by
  intro i hi
  obtain ⟨e, he, rfl⟩ := List.mem_map.1 hi
  obtain ⟨hmem, hline⟩ := List.mem_filter.1 he
  obtain ⟨k', start', cs, rfl, -, -⟩ := hwords e hmem
  obtain rfl : k' = k := of_decide_eq_true hline
  rcases hfirst _ hmem with (hlt | ⟨-, hlt⟩) | ⟨heq, hlt⟩
  · exact absurd hlt (Nat.lt_irrefl _)
  · exact hlt
  · obtain rfl : start = start' := congrArg Position.column heq
    rcases hlt with hlt | ⟨-, hlt⟩ <;> exact absurd hlt (Nat.lt_irrefl _)

variable (hold : isName old = true) (hnew : isName new = true)
include hold hnew

theorem fits_rewritingOn {edits : List TextEdit} (hedits : ∀ e ∈ edits, e.Renames old new ls) {k : Nat}
    {cs : List Char} (hk : ls[k]? = some cs) : (rewritingOn old new edits k).Fits cs where
  old := hold
  new := hnew
  words := by
    intro start hstart
    obtain ⟨e, he, rfl⟩ := List.mem_map.1 hstart
    obtain ⟨hmem, hline⟩ := List.mem_filter.1 he
    obtain ⟨k', start, cs', rfl, hk', hword⟩ := hedits e hmem
    obtain rfl : k' = k := of_decide_eq_true hline
    obtain rfl := Option.some.inj (hk'.symm.trans hk)
    exact hword

omit hold in
theorem noBreak_rewriteLines (hbreak : ∀ l ∈ ls, '\n' ∉ l) {edits : List TextEdit} {l : List Char}
    (hl : l ∈ rewriteLines old new edits ls) : '\n' ∉ l := by
  intro hmem
  obtain ⟨i, hi, rfl⟩ := List.mem_mapIdx.1 hl
  rcases Rewriting.mem_text hmem with hmem | hmem
  · exact hbreak _ (List.getElem_mem hi) hmem
  · have hname : IsNameText new.toList := hnew
    exact absurd (hname.chars _ hmem) (by decide)

/-- Edits from left to right and from line to line rewrite each line by itself. -/
theorem foldr_apply (hbreak : ∀ l ∈ ls, '\n' ∉ l) {edits : List TextEdit}
    (hedits : ∀ e ∈ edits, e.Renames old new ls) (hsorted : edits.Pairwise fun e e' => e.span < e'.span) :
    edits.foldr TextEdit.apply (['\n'].intercalate ls) =
      ['\n'].intercalate (rewriteLines old new edits ls) := by
  induction edits with
  | nil => rw [rewriteLines_nil, List.foldr_nil]
  | cons e rest ih =>
    obtain ⟨hfirst, hrest⟩ := List.pairwise_cons.1 hsorted
    have hwords : ∀ e ∈ rest, e.Renames old new ls := fun e he => hedits e (List.mem_cons_of_mem _ he)
    obtain ⟨k, start, cs, rfl, hk, hword⟩ := hedits e List.mem_cons_self
    have hfits := fits_rewritingOn hold hnew hwords hk
    obtain ⟨hlength, hreplace⟩ := Rewriting.replace_text hfits hword (columns_later hwords hfirst)
    replace hlength : start + old.toList.length ≤ ((rewritingOn old new rest k).text 0 cs).length := hlength
    have hk' : (rewriteLines old new rest ls)[k]? = some ((rewritingOn old new rest k).text 0 cs) := by
      rw [getElem?_rewriteLines, hk, Option.map_some]
    have hbreak' : ∀ l ∈ rewriteLines old new rest ls, '\n' ∉ l :=
      fun l hl => noBreak_rewriteLines hnew hbreak hl
    rw [List.foldr_cons, ih hwords hrest,
      apply_onLine hbreak' hk' (Nat.le_of_add_right_le hlength) hlength]
    refine congrArg _ (List.ext_getElem? fun m => ?_)
    rw [List.getElem?_modify, getElem?_rewriteLines, getElem?_rewriteLines]
    by_cases hm : k = m
    · subst hm
      rw [hk, rewritingOn_cons_of_eq (k := k) old new rfl]
      exact congrArg some ((if_pos rfl).trans hreplace)
    · rw [rewritingOn_cons_of_ne old new hm]
      simp [hm]

end

namespace Text

theorem chomp_cases (cs : List Char) :
    chomp cs = cs ∧ cs.getLast? ≠ some '\r' ∨ cs = chomp cs ++ ['\r'] := by
  rcases List.eq_nil_or_concat' cs with rfl | ⟨init, c, rfl⟩
  · exact .inl ⟨rfl, by simp⟩
  · by_cases hc : c = '\r'
    · subst hc
      exact .inr (by rw [chomp_concat])
    · have hlast : (init ++ [c]).getLast? ≠ some '\r' := by simpa using hc
      exact .inl ⟨chomp_of_last hlast, hlast⟩

end Text

theorem Slice.IsWord.concat {cs : List Char} {s : Slice} (h : s.IsWord cs) {c : Char}
    (hc : isNameChar c = false) : s.IsWord (cs ++ [c]) := by
  obtain ⟨⟨front, back, rfl, hcolumn, hstart, hstop⟩, htext⟩ := h
  have hne : s.chars ≠ [] := isSpelled_ne_nil htext
  refine ⟨⟨front, back ++ [c], by simp, hcolumn, ?_, ?_⟩, htext⟩
  · rw [← List.append_assoc]
    exact apart_append_right (by simp [hne]) hstart
  · by_cases hback : back = []
    · subst hback
      exact apart_of_head (by simpa using hc) _
    · exact apart_append_right hback hstop

theorem Slice.IsWord.of_chomp {cs : List Char} {s : Slice} (h : s.IsWord (chomp cs)) : s.IsWord cs := by
  rcases chomp_cases cs with ⟨heq, -⟩ | heq
  · rwa [heq] at h
  · rw [heq]
    exact h.concat (by decide)

/-- The end of a line is no part of what is rewritten. -/
theorem Rewriting.chomp_text {w : Rewriting} {cs : List Char} (hw : w.Fits (chomp cs)) :
    chomp (w.text 0 cs) = w.text 0 (chomp cs) := by
  rcases chomp_cases cs with ⟨heq, hlast⟩ | heq
  · rw [heq] at hw ⊢
    refine chomp_of_last fun hr => ?_
    obtain ⟨c, hc, rfl | ⟨-, hname⟩⟩ := last_slice hw (Slice.whole_self cs) '\r' hr
    · exact hlast hc
    · exact absurd hname (by decide)
  · have hend : w.text (0 + (chomp cs).length) ['\r'] = ['\r'] := by
      refine text_of_apart hw fun start hstart => .inl ?_
      obtain ⟨front, back, hcs, hcolumn, -, -⟩ := (hw.words start hstart).whole
      replace hcolumn : start = front.length := hcolumn
      rw [hcs, hcolumn]
      simp
    conv_lhs => rw [heq]
    rw [text_append, hend, chomp_concat]

theorem lines_ofList {ls : List (List Char)} (hne : ls ≠ []) (h : ∀ l ∈ ls, '\n' ∉ l) :
    lines (String.ofList (['\n'].intercalate ls)) = ls.map fun l => String.ofList (chomp l) := by
  rw [lines, String.toList_ofList, splitLines_intercalate hne h]

/-- Each line of the edited text is a line of the text, rewritten at the columns of its edits. -/
theorem lines_applyEdits {old new text : String} (hold : isName old = true) (hnew : isName new = true)
    {edits : List TextEdit} (hedits : ∀ e ∈ edits, e.Renames old new ((lines text).map String.toList))
    (hsorted : edits.Pairwise fun e e' => e.span < e'.span) :
    lines (applyEdits text edits) = (lines text).mapIdx fun k raw =>
      String.ofList ((rewritingOn old new edits k).text 0 raw.toList) := by
  have hchars : (lines text).map String.toList = (splitLines text.toList).map chomp := by
    simp [lines, Function.comp_def]
  rw [hchars] at hedits
  have hwhole : ∀ e ∈ edits, e.Renames old new (splitLines text.toList) := by
    intro e he
    obtain ⟨k, start, cs, rfl, hk, hword⟩ := hedits e he
    rw [List.getElem?_map] at hk
    obtain ⟨l, hl, rfl⟩ := Option.map_eq_some_iff.1 hk
    exact ⟨k, start, l, rfl, hl, hword.of_chomp⟩
  have hbreak : ∀ l ∈ splitLines text.toList, '\n' ∉ l := fun l hl => noBreak_splitLines hl
  have hfold := foldr_apply hold hnew hbreak hwhole hsorted
  rw [intercalate_splitLines] at hfold
  have hne : rewriteLines old new edits (splitLines text.toList) ≠ [] := by
    simpa [rewriteLines] using splitLines_ne_nil text.toList
  rw [applyEdits, hfold, lines_ofList hne fun l hl => noBreak_rewriteLines hnew hbreak hl]
  refine List.ext_getElem? fun k => ?_
  rw [List.getElem?_map, getElem?_rewriteLines, List.getElem?_mapIdx, lines, List.getElem?_map]
  cases hk : (splitLines text.toList)[k]? with
  | none => rfl
  | some cs =>
    have hfits := fits_rewritingOn hold hnew hedits (k := k) (by rw [List.getElem?_map, hk]; rfl)
    simp only [Option.map_some, String.toList_ofList, Rewriting.chomp_text hfits]

end LineGrammar
