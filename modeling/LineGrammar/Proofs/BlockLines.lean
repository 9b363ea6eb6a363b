import LineGrammar.Outline
import LineGrammar.Proofs.BlockOwners
import Mathlib.Data.List.Basic

/-! The lines of code blocks. A block takes the lines after its first one as they stand, up to the line
that closes it, and no slot among them is filled. So what can be folded away lies between the marks of a
closed block, and no two folds overlap. -/

namespace LineGrammar

/-- The lines after the first one of a block are its body and then the line that closes it, if there is
one. Their slots are empty. -/
structure Enclosed (lines : List String) (slots : List (Option Node)) (line : Nat) (b : CodeBlock)
    (closing? : Option String) : Prop where
  start : b.startLine = line
  verbatim : b.body ++ closing?.toList <+: lines.drop (line + 1)
  empty : List.replicate (b.body ++ closing?.toList).length none <+: slots.drop (line + 1)
  inner : ∀ raw ∈ b.body, closes raw = false
  ends : ∀ raw ∈ closing?, closes raw = true
  mark : b.closing = closing?.map fun raw => Line.whole { number := line + b.body.length + 1, raw }

/-- Every block is closed, among the lines and the slots. -/
def Encloses (lines : List String) (slots : List (Option Node)) : Prop :=
  ∀ line n b, slots[line]?.join = some n → n.codeBlock? = some b →
    ∃ raw, Enclosed lines slots line b (some raw)

theorem prefix_drop_append {α : Type} {part whole : List α} {k : Nat} (h : part <+: whole.drop k)
    (more : List α) : part <+: (whole ++ more).drop k := by
  rw [List.drop_append]
  exact h.trans (List.prefix_append _ _)

theorem Enclosed.append {lines : List String} {slots : List (Option Node)} {line : Nat} {b : CodeBlock}
    {closing? : Option String} (h : Enclosed lines slots line b closing?) (more : List String)
    (moreSlots : List (Option Node)) :
    Enclosed (lines ++ more) (slots ++ moreSlots) line b closing? :=
  ⟨h.start, prefix_drop_append h.verbatim more, prefix_drop_append h.empty moreSlots, h.inner, h.ends,
    h.mark⟩

namespace Encloses

variable {lines : List String} {slots : List (Option Node)}

theorem nil : Encloses [] [] := by simp [Encloses]

/-- A line by itself. -/
theorem line (h : Encloses lines slots) (raw : String) {node? : Option Node}
    (hbare : ∀ n, node? = some n → n.codeBlock? = none) :
    Encloses (lines ++ [raw]) (slots ++ [node?]) := by
  intro line n b hn hb
  have hold : slots[line]?.join = some n := by
    cases node? with
    | none => rwa [node_append_none] at hn
    | some m =>
      rcases (node_append_iff (k := 0)).1 hn with hn | ⟨-, rfl⟩
      · exact hn
      · exact absurd ((hbare n rfl).symm.trans hb) (by simp)
  obtain ⟨raw', henclosed⟩ := h line n b hold hb
  exact ⟨raw', henclosed.append _ _⟩

/-- The lines of a block. -/
theorem block {s k : Nat} {n : Node} (h : Encloses (lines.take s) slots)
    (hblock : ∀ b, n.codeBlock? = some b →
      ∃ raw, Enclosed lines (slots ++ some n :: List.replicate k none) slots.length b (some raw)) :
    Encloses lines (slots ++ some n :: List.replicate k none) := by
  intro line m b hm hb
  rcases node_append_iff.1 hm with hm | ⟨rfl, rfl⟩
  · obtain ⟨raw, henclosed⟩ := h line m b hm hb
    have hmore := henclosed.append (lines.drop s) (some n :: List.replicate k none)
    rw [List.take_append_drop] at hmore
    exact ⟨raw, hmore⟩
  · exact hblock b hb

end Encloses

theorem Placed.codeBlock? {b block : CodeBlock} {slot : Option Node} {n : Node}
    (h : Placed b block slot n) : n.codeBlock? = some block := by
  cases h <;> rfl

namespace Analysis

variable {a a' : Analysis} {lines : List String} {raw : String}

/-- No line of an open block closes it. -/
theorem inner_after (lines : List String) :
    ∀ b, (after lines).reader.block? = some b → ∀ raw ∈ b.body, closes raw = false := by
  induction lines using after_induction with
  | nil => exact fun b hb => by cases hb
  | turn lines raw a' ih hturn =>
    intro b hb
    cases hblock : (after lines).reader.block? with
    | none => simp [(block_of_turn hblock hturn hb).2]
    | some b₀ =>
      rcases turn_block hblock hturn with ⟨hraw, rfl⟩ | ⟨-, rfl⟩
      · rw [block?_inside hblock] at hb
        cases hb
        intro r hr
        rcases List.mem_append.1 hr with hr | hr
        · exact ih b₀ hblock r hr
        · rwa [List.mem_singleton.1 hr]
      · exact absurd ((block?_closing b₀).symm.trans hb) (by simp)

/-- Where an open block stands among the lines. -/
theorem length_of_open (lines : List String) {b : CodeBlock}
    (hb : (after lines).reader.block? = some b) :
    lines.length = b.startLine + b.body.length + 1 := by
  have hlt := ((accounted_after lines).reserved b hb).startLine_lt
  rw [Array.length_toList, size_after] at hlt
  rw [body_after lines hb, List.length_drop]
  omega

/-- What is settled has closed blocks only. -/
def SettledEncloses (lines : List String) (a : Analysis) : Prop :=
  Encloses (lines.take a.settled) (a.slots.toList.take a.settled)

/-- The line that closes a block completes it in its slot. -/
theorem encloses_closing {lines : List String} {b : CodeBlock}
    (hblock : (after lines).reader.block? = some b) (h : SettledEncloses lines (after lines))
    {raw : String} (hraw : closes raw = true) :
    SettledEncloses (lines ++ [raw]) ((((after lines).moveTo raw).closeBlock b).endLine none) := by
  obtain ⟨external, front, slot, k, n, slots', hfills, hslots'⟩ :=
    slots_closing (accounted_after lines) hblock raw
  have hlength : lines.length = b.startLine + b.body.length + 1 := length_of_open lines hblock
  have hbody := body_after lines hblock
  have hinner := inner_after lines b hblock
  have hcount : (after lines).slots.size = b.startLine + (k + 1) := hfills.length
  have hsize : ((((after lines).moveTo raw).closeBlock b).endLine none).slots.size =
      lines.length + 1 := by
    rw [size_turn (.closing b hblock hraw), size_after]
  rw [size_after] at hcount
  obtain rfl : k = b.body.length := by omega
  have hfront : (lines ++ [raw]).take front.length = lines.take b.startLine := by
    rw [hfills.start]
    exact List.take_append_of_le_length (by omega)
  rw [SettledEncloses, settled_block hblock, hfills.take_before, ← hfront] at h
  rw [SettledEncloses, take_settled (block?_closing b), settled_none (block?_closing b), hsize,
    List.take_of_length_le (by simp), hslots', hfills.after, List.append_assoc, List.cons_append,
    ← List.replicate_succ']
  apply h.block
  intro block hb
  obtain rfl := Option.some.inj (hfills.placed.codeBlock?.symm.trans hb)
  refine ⟨raw, ?_⟩
  constructor
  case start => exact hfills.start.symm
  case verbatim =>
    rw [hfills.start, List.drop_append_of_le_length (by omega), ← hbody]
    exact List.prefix_rfl
  case empty => simp [CodeBlock.close]
  case inner => exact hinner
  case ends =>
    intro r hr
    cases hr
    exact hraw
  case mark =>
    have hnumber : (after lines).slots.size = front.length + b.body.length + 1 := by
      rw [size_after, hfills.start, hlength]
    simp only [CodeBlock.close, nextLine, hnumber, Option.map_some]

/-- Outside of blocks no line has a block yet. -/
theorem bare_turn (hblock : a.reader.block? = none) (hturn : a.Turn raw a') :
    ∃ node?, a'.slots = a.slots.push node? ∧ ∀ n, node? = some n → n.codeBlock? = none := by
  cases hturn with
  | inside b hopen hraw => exact absurd (hblock.symm.trans hopen) (by simp)
  | closing b hopen hraw => exact absurd (hblock.symm.trans hopen) (by simp)
  | name hblock hexpects hraw => exact ⟨_, rfl, fun n hn => by cases hn; rfl⟩
  | node hblock shape hshape =>
    exact ⟨_, rfl, fun n hn => by cases hn; exact Node.codeBlock?_read _ _ _⟩
  | _ => exact ⟨none, rfl, by simp⟩

/-- A line of an open block settles nothing. -/
theorem encloses_inside {lines : List String} {b : CodeBlock}
    (hblock : (after lines).reader.block? = some b) (h : SettledEncloses lines (after lines))
    {raw : String} (hraw : closes raw = false) :
    SettledEncloses (lines ++ [raw]) (endLine none { (after lines).moveTo raw with
      reader := ((after lines).moveTo raw).reader.pushLine }) := by
  have hlength := length_of_open lines hblock
  have hlt : b.startLine < lines.length := by omega
  have hsettled := (settled_turn (accounted_after lines) (.inside b hblock hraw)).2
  rw [settled_block hblock] at hsettled
  rw [SettledEncloses, settled_block (block?_inside hblock),
    show (b.push raw).startLine = b.startLine from rfl, hsettled,
    List.take_append_of_le_length (Nat.le_of_lt hlt), ← settled_block hblock]
  exact h

theorem encloses_turn (h : SettledEncloses lines (after lines)) (hturn : (after lines).Turn raw a') :
    SettledEncloses (lines ++ [raw]) a' := by
  have hsize := size_after lines
  cases hblock : (after lines).reader.block? with
  | some b =>
    rcases turn_block hblock hturn with ⟨hraw, rfl⟩ | ⟨hraw, rfl⟩
    · exact encloses_inside hblock h hraw
    · exact encloses_closing hblock h hraw
  | none =>
    obtain ⟨node?, hslots, hbare⟩ := bare_turn hblock hturn
    rw [SettledEncloses, take_settled hblock, settled_none hblock, hsize, List.take_length] at h
    cases hnext : a'.reader.block? with
    | some b =>
      rw [SettledEncloses, settled_block hnext, (block_of_turn hblock hturn hnext).1, hslots,
        Array.toList_push, hsize, List.take_left, ← hsize, ← Array.length_toList, List.take_left]
      exact h
    | none =>
      rw [SettledEncloses, take_settled hnext, settled_none hnext, size_turn hturn, hsize, hslots,
        Array.toList_push, List.take_of_length_le (by simp)]
      exact h.line raw hbare

theorem encloses_after (lines : List String) : SettledEncloses lines (after lines) := by
  induction lines using after_induction with
  | nil => exact Encloses.nil
  | turn lines raw a' h hturn => exact encloses_turn h hturn

/-- At the end a block is closed, or takes all the lines that are left. -/
theorem enclosed_conclude (lines : List String) {line : Nat} {n : Node} {b : CodeBlock}
    (hn : (after lines).conclude.slots.toList[line]?.join = some n) (hb : n.codeBlock? = some b) :
    ∃ closing?, Enclosed lines (after lines).conclude.slots.toList line b closing? ∧
      (closing? = none → line + b.body.length + 1 = lines.length) := by
  have h := encloses_after lines
  rw [slots_conclude] at hn ⊢
  cases hblock : (after lines).reader.block? with
  | none =>
    rw [hblock] at hn
    rw [SettledEncloses, take_settled hblock, settled_none hblock, size_after, List.take_length] at h
    obtain ⟨raw, henclosed⟩ := h line n b hn hb
    exact ⟨some raw, henclosed, by simp⟩
  | some c =>
    have hlength : lines.length = c.startLine + c.body.length + 1 := length_of_open lines hblock
    have hreserved := (accounted_after lines).reserved c hblock
    obtain ⟨front, slot, k, m, hfills⟩ := hreserved.fills c rfl rfl
    have hcount : lines.length = c.startLine + (k + 1) := by
      rw [← size_after lines]
      exact hfills.length
    obtain rfl : k = c.body.length := by omega
    rw [hblock] at hn
    dsimp only at hn ⊢
    rw [hfills.after] at hn ⊢
    rw [SettledEncloses, settled_block hblock, hfills.take_before] at h
    rcases node_append_iff.1 hn with hold | ⟨rfl, rfl⟩
    · obtain ⟨raw, henclosed⟩ := h line n b hold hb
      have hmore := henclosed.append (lines.drop c.startLine)
        (some m :: List.replicate c.body.length none)
      rw [List.take_append_drop] at hmore
      exact ⟨some raw, hmore, by simp⟩
    · obtain rfl := Option.some.inj (hfills.placed.codeBlock?.symm.trans hb)
      refine ⟨none, ⟨hfills.start.symm, ?_, ?_, inner_after lines c hblock, by simp, hreserved.1⟩,
        fun _ => by rw [hfills.start, hlength]⟩
      · rw [hfills.start, ← body_after lines hblock]
        simp
      · simp

end Analysis

namespace Document

/-- What the lines of a document say of a block that opens on one of them. -/
structure BlockLines (d : Document) (lines : List String) (line : Nat) (b : CodeBlock) : Prop where
  start : b.startLine = line
  verbatim : (lines.drop (line + 1)).take b.body.length = b.body
  inner : ∀ raw ∈ b.body, closes raw = false
  empty : ∀ i, line < i → i ≤ line + b.body.length → d.nodeAt? i = none
  closed : b.isClosed = true →
    ∃ raw, lines[line + b.body.length + 1]? = some raw ∧ closes raw = true ∧
      d.nodeAt? (line + b.body.length + 1) = none ∧
      b.closing = some (Line.whole { number := line + b.body.length + 1, raw }) ∧
      b.lineSpan = b.body.length + 2
  unclosed : b.isClosed = false → d.aborted = true ∨ line + b.body.length + 1 = lines.length

/-- The lines of the closed block that opens on a line, from mark to mark. -/
def foldAt? (d : Document) (line : Nat) : Option (Nat × Nat) :=
  ((d.nodeAt? line).bind Node.codeBlock?).bind fun b =>
    if b.isClosed then some (line, line + b.body.length + 1) else none

end Document

namespace Enclosed

variable {lines : List String} {slots : List (Option Node)} {line : Nat} {b : CodeBlock}
  {closing? : Option String}

/-- The slots after the first line are empty up to the end of the block. -/
theorem slot_eq_none (h : Enclosed lines slots line b closing?) {i : Nat} (hi : line < i)
    (hend : i ≤ line + (b.body ++ closing?.toList).length) : slots[i]?.join = none := by
  obtain ⟨j, rfl⟩ := Nat.exists_eq_add_of_lt hi
  have hj : j < (b.body ++ closing?.toList).length := by omega
  obtain ⟨rest, hrest⟩ := h.empty
  rw [show line + j + 1 = line + 1 + j by omega, ← List.getElem?_drop, ← hrest,
    List.getElem?_append_left (by simpa using hj), List.getElem?_replicate_of_lt hj]
  rfl

/-- The lines after the first one, up to the end of the block. -/
theorem take_drop (h : Enclosed lines slots line b closing?) :
    (lines.drop (line + 1)).take b.body.length = b.body :=
  (List.prefix_iff_eq_take.1 ((List.prefix_append _ _).trans h.verbatim)).symm

/-- The line that closes the block. -/
theorem closing_line {raw : String} (h : Enclosed lines slots line b (some raw)) :
    lines[line + b.body.length + 1]? = some raw := by
  obtain ⟨rest, hrest⟩ := h.verbatim
  rw [show line + b.body.length + 1 = line + 1 + b.body.length by omega, ← List.getElem?_drop, ← hrest]
  simp

/-- More lines are read after the block. -/
theorem of_take {k : Nat} (h : Enclosed (lines.take k) slots line b closing?) :
    Enclosed lines slots line b closing? := by
  have hmore := h.append (lines.drop k) []
  rwa [List.take_append_drop, List.append_nil] at hmore

end Enclosed

open Analysis in
/-- The lines of a block of any document. -/
theorem blockLines_analyzeLines (limit : Nat) (lines : List String) {line : Nat} {n : Node}
    {b : CodeBlock} (hn : (analyzeLines limit lines).nodeAt? line = some n)
    (hb : n.codeBlock? = some b) : (analyzeLines limit lines).BlockLines lines line b := by
  obtain ⟨k, hk, hend⟩ : ∃ k, ReadsUpTo limit lines k ∧
      ((analyzeLines limit lines).aborted = true ∨ k = lines.length) := by
    rw [analyzeLines, aborted_finish]
    cases haborted : (run limit lines).aborted with
    | true =>
      obtain ⟨k, hk⟩ := exists_readsUpTo limit lines
      exact ⟨k, hk, .inl rfl⟩
    | false => exact ⟨_, readsUpTo_of_running haborted, .inr rfl⟩
  have hnodes := nodeAt?_of_readsUpTo hk
  rw [hnodes] at hn
  obtain ⟨closing?, henclosed, hlast⟩ := enclosed_conclude (lines.take k) hn hb
  rw [List.length_take_of_le hk.le] at hlast
  replace henclosed := henclosed.of_take
  have hempty : ∀ i, line < i → i ≤ line + (b.body ++ closing?.toList).length →
      (analyzeLines limit lines).nodeAt? i = none := fun i hi hi' => by
    rw [hnodes]
    exact henclosed.slot_eq_none hi hi'
  have hmark := henclosed.mark
  constructor
  case start => exact henclosed.start
  case verbatim => exact henclosed.take_drop
  case inner => exact henclosed.inner
  case empty =>
    intro i hi hi'
    apply hempty i hi
    rw [List.length_append]
    omega
  case closed =>
    intro hclosed
    cases closing? with
    | none => simp [CodeBlock.isClosed, hmark] at hclosed
    | some raw =>
      have hend : line + b.body.length + 1 ≤ line + (b.body ++ (some raw).toList).length := by
        rw [List.length_append]
        exact Nat.le_refl _
      have hstart : b.opening.line = line := henclosed.start
      refine ⟨raw, henclosed.closing_line, henclosed.ends raw rfl, hempty _ (by omega) hend, hmark, ?_⟩
      rw [CodeBlock.lineSpan, hmark, hstart]
      change line + b.body.length + 1 - line + 1 = b.body.length + 2
      omega
  case unclosed =>
    intro hopen
    cases closing? with
    | none => exact hend.imp_right fun hall => (hlast rfl).trans hall
    | some raw => simp [CodeBlock.isClosed, hmark] at hopen

namespace Document

variable {d : Document}

theorem nodeList_eq (d : Document) : d.nodeList = (List.range d.lineCount).filterMap d.nodeAt? := by
  have hslots : d.nodes.toList = (List.range d.lineCount).map d.nodeAt? := by
    refine List.ext_getElem? fun i => ?_
    rw [List.getElem?_map, Array.getElem?_toList]
    by_cases hi : i < d.lineCount
    · simp [List.getElem?_range hi, nodeAt?, Array.getElem?_eq_getElem (show i < d.nodes.size from hi)]
    · rw [List.getElem?_eq_none (by simpa using hi), Array.getElem?_eq_none (Nat.le_of_not_lt hi)]
      rfl
  rw [nodeList, hslots, List.filterMap_map]
  rfl

section
variable {lines : List String}
  (h : ∀ line n b, d.nodeAt? line = some n → n.codeBlock? = some b → d.BlockLines lines line b)
include h

/-- What is folded away is told by the bodies of the closed blocks. -/
theorem folds_eq : d.folds = (List.range d.lineCount).filterMap d.foldAt? := by
  rw [folds, nodeList_eq, List.filterMap_filterMap]
  refine List.filterMap_congr fun line _ => ?_
  rw [foldAt?]
  cases hn : d.nodeAt? line with
  | none => rfl
  | some n =>
    cases hb : n.codeBlock? with
    | none => simp [hb]
    | some b =>
      have hblock := h line n b hn hb
      cases hclosed : b.isClosed with
      | false =>
        have hmark : b.closing = none := by simpa [CodeBlock.isClosed] using hclosed
        simp [hb, hclosed, CodeBlock.span, hmark]
      | true =>
        obtain ⟨raw, -, -, -, hmark, -⟩ := hblock.closed hclosed
        have hstop : b.span.stop.map Position.line = some (line + b.body.length + 1) := by
          rw [CodeBlock.span, hmark]
          rfl
        obtain ⟨stop, hspan, hline⟩ := Option.map_eq_some_iff.1 hstop
        have hlater : line < line + b.body.length + 1 := by omega
        simp [hb, hclosed, hspan, hline, hblock.start, hlater]

/-- The folds follow one another. -/
theorem folds_apart : d.folds.Pairwise fun f g => f.1 < g.1 ∧ f.2 < g.1 := by
  rw [folds_eq h, List.pairwise_filterMap]
  refine List.pairwise_lt_range.imp fun {i j} hij f hf g hg => ?_
  obtain ⟨b, hb, hf⟩ := Option.bind_eq_some_iff.1 hf
  obtain ⟨n, hn, hb⟩ := Option.bind_eq_some_iff.1 hb
  obtain ⟨c, hc, hg⟩ := Option.bind_eq_some_iff.1 hg
  obtain ⟨m, hm, hc⟩ := Option.bind_eq_some_iff.1 hc
  split at hf <;> cases hf
  split at hg <;> cases hg
  next hclosed hclosed' =>
  refine ⟨hij, ?_⟩
  have hblock := h i n b hn hb
  obtain ⟨raw, -, -, hend, -⟩ := hblock.closed hclosed
  by_contra hle
  -- The second fold would start on a line of the first.
  have hnone : d.nodeAt? j = none := by
    by_cases hlast : j = i + b.body.length + 1
    · rwa [hlast]
    · exact hblock.empty j hij (by omega)
  exact absurd (hnone.symm.trans hm) (by simp)

end

end Document

/-- Every code block has the lines after its first one as they stand, up to the first line that closes
it, and these lines have no nodes; a block that is not closed is cut off by the end of the document or
of its analysis. The folds are the closed blocks in order, and each ends before the next one starts. -/
theorem code_blocks_verbatim (limit : Nat) (text : String) :
    (∀ line n b, (analyze limit text).nodeAt? line = some n → n.codeBlock? = some b →
      (analyze limit text).BlockLines (Text.lines text) line b) ∧
    (analyze limit text).folds =
      (List.range (analyze limit text).lineCount).filterMap (analyze limit text).foldAt? ∧
    (analyze limit text).folds.Pairwise fun f g => f.1 < g.1 ∧ f.2 < g.1 :=
  have hblocks : ∀ line n b, (analyze limit text).nodeAt? line = some n → n.codeBlock? = some b →
      (analyze limit text).BlockLines (Text.lines text) line b :=
    fun _ _ _ hn hb => blockLines_analyzeLines limit (Text.lines text) hn hb
  ⟨hblocks, Document.folds_eq hblocks, Document.folds_apart hblocks⟩

/-- A line like a pragma in a block that opens at the end of a pragma. -/
theorem code_blocks_verbatim_inline :
    ∃ n b,
      (analyze 25 "%walkers W;\n%members W %\x7b\n%start r;\n%\x7d\n%\x7b\n@W").nodeAt? 1 = some n ∧
      n.codeBlock? = some b ∧ b.body = ["%start r;"] ∧
      (analyze 25 "%walkers W;\n%members W %\x7b\n%start r;\n%\x7d\n%\x7b\n@W").BlockLines
        (Text.lines "%walkers W;\n%members W %\x7b\n%start r;\n%\x7d\n%\x7b\n@W") 1 b ∧
      (analyze 25 "%walkers W;\n%members W %\x7b\n%start r;\n%\x7d\n%\x7b\n@W").folds = [(1, 3)] := by
  obtain ⟨b, hb, hbody⟩ : ∃ b,
      ((analyze 25 "%walkers W;\n%members W %\x7b\n%start r;\n%\x7d\n%\x7b\n@W").nodeAt? 1).bind
        Node.codeBlock? = some b ∧ b.body = ["%start r;"] :=
    ⟨{ opening := ⟨"%\x7b", .onLine 1 11 13⟩
       closing := some ⟨"%\x7d", .onLine 3 0 2⟩
       name := some "W::Members"
       walker := some "W"
       body := ["%start r;"]
       isInline := true }, by decide +kernel, rfl⟩
  obtain ⟨n, hn, hb⟩ := Option.bind_eq_some_iff.1 hb
  exact ⟨n, b, hn, hb, hbody,
    (code_blocks_verbatim 25 "%walkers W;\n%members W %\x7b\n%start r;\n%\x7d\n%\x7b\n@W").1 1 n b hn hb,
    by decide +kernel⟩

end LineGrammar
