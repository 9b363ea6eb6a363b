import LineGrammar.Proofs.Remarks
import LineGrammar.Proofs.Slots

/-! No line is lost. The lines of a document are cut into pieces: the lines of one node, a blank line, or a
line that was refused and reported. The lines up to an open block are cut in this way after every turn,
and the lines of the block become one piece when it is closed, or at the end of the document. -/

namespace LineGrammar

/-- The line has been reported as none that stands by itself. -/
def Refused (ds : List Diagnostic) (line : Line) : Prop :=
  ∃ d ∈ ds, d.code ∈ ["E0101", "E0203", "E0205"] ∧ d.span = line.span

/-- The lines with their slots, piece by piece. -/
inductive Tiled (ds : List Diagnostic) : List String → List (Option Node) → Prop
  | nil : Tiled ds [] []
  | node {lines : List String} {slots : List (Option Node)} (h : Tiled ds lines slots) (n : Node)
    (raw : String) (more : List String) (hspan : n.lineSpan = more.length + 1) :
    Tiled ds (lines ++ raw :: more) (slots ++ some n :: List.replicate more.length none)
  | blank {lines : List String} {slots : List (Option Node)} (h : Tiled ds lines slots) (raw : String)
    (hraw : isBlankLine raw = true) : Tiled ds (lines ++ [raw]) (slots ++ [none])
  | refused {lines : List String} {slots : List (Option Node)} (h : Tiled ds lines slots) (raw : String)
    (hraw : Refused ds { number := lines.length, raw }) : Tiled ds (lines ++ [raw]) (slots ++ [none])

namespace Tiled

variable {ds : List Diagnostic} {lines : List String} {slots : List (Option Node)}

theorem mono {ds' : List Diagnostic} (h : Tiled ds lines slots) (hds : ds ⊆ ds') :
    Tiled ds' lines slots := by
  induction h with
  | nil => exact .nil
  | node h n raw more hspan ih => exact ih.node n raw more hspan
  | blank h raw hraw ih => exact ih.blank raw hraw
  | refused h raw hraw ih =>
    obtain ⟨d, hd, hrefused⟩ := hraw
    exact ih.refused raw ⟨d, hds hd, hrefused⟩

theorem length_eq (h : Tiled ds lines slots) : lines.length = slots.length := by
  induction h with
  | nil => rfl
  | _ => simp_all

/-- A node that takes one line. -/
theorem line (h : Tiled ds lines slots) {n : Node} (raw : String) (hspan : n.lineSpan = 1) :
    Tiled ds (lines ++ [raw]) (slots ++ [some n]) :=
  h.node n raw [] hspan

/-- A node takes all the lines that are left. -/
theorem rest {s : Nat} {slots' : List (Option Node)} (h : Tiled ds (lines.take s) slots') {n : Node}
    {k : Nat} (hlength : lines.length = s + (k + 1)) (hspan : n.lineSpan = k + 1) :
    Tiled ds lines (slots' ++ some n :: List.replicate k none) := by
  obtain ⟨raw, more, hmore⟩ : ∃ raw more, lines.drop s = raw :: more :=
    List.exists_cons_of_ne_nil (by simp; omega)
  have hk : more.length = k := by
    have hdrop := congrArg List.length hmore
    simp only [List.length_drop, List.length_cons] at hdrop
    omega
  have hnode := h.node n raw more (by omega)
  rwa [← hmore, List.take_append_drop, hk] at hnode

end Tiled

/-- The node of a line covers another. -/
def Covers (slots : List (Option Node)) (i line : Nat) : Prop :=
  ∃ n, slots[i]?.join = some n ∧ i ≤ line ∧ line < i + n.lineSpan

namespace Tiled

variable {ds : List Diagnostic} {lines : List String} {slots : List (Option Node)}

/-- Every node ends inside of the document. -/
theorem inside (h : Tiled ds lines slots) {i : Nat} {n : Node} (hn : slots[i]?.join = some n) :
    i + n.lineSpan ≤ slots.length := by
  induction h with
  | nil => simp at hn
  | node h m raw more hspan ih =>
    rcases node_append_iff.1 hn with hn | ⟨rfl, rfl⟩
    · exact Nat.le_trans (ih hn) (by simp)
    · simp [hspan]
  | blank h raw hraw ih | refused h raw hraw ih =>
    rw [node_append_none] at hn
    exact Nat.le_trans (ih hn) (by simp)

/-- A node ends before the next one. -/
theorem apart (h : Tiled ds lines slots) {i j : Nat} {n m : Node} (hij : i < j)
    (hn : slots[i]?.join = some n) (hm : slots[j]?.join = some m) : i + n.lineSpan ≤ j := by
  induction h with
  | nil => simp at hn
  | node h m' raw more hspan ih =>
    rcases node_append_iff.1 hn with hfirst | ⟨rfl, rfl⟩
    · rcases node_append_iff.1 hm with hsecond | ⟨rfl, rfl⟩
      · exact ih hfirst hsecond
      · exact h.inside hfirst
    · rcases node_append_iff.1 hm with hsecond | ⟨rfl, rfl⟩
      · rw [List.getElem?_eq_none (by omega)] at hsecond
        cases hsecond
      · omega
  | blank h raw hraw ih | refused h raw hraw ih =>
    rw [node_append_none] at hn hm
    exact ih hn hm

theorem covers_unique (h : Tiled ds lines slots) {i j line : Nat} (hi : Covers slots i line)
    (hj : Covers slots j line) : i = j := by
  obtain ⟨n, hn, hle, hlt⟩ := hi
  obtain ⟨m, hm, hle', hlt'⟩ := hj
  rcases Nat.lt_trichotomy i j with hij | rfl | hij
  · have := h.apart hij hn hm
    omega
  · rfl
  · have := h.apart hij hm hn
    omega

/-- A line belongs to a node, or to none and is blank or refused. -/
theorem classify (h : Tiled ds lines slots) {line : Nat} {raw : String}
    (hline : lines[line]? = some raw) :
    (∃ i, Covers slots i line) ∨
      (∀ i, ¬Covers slots i line) ∧ (isBlankLine raw = true ∨ Refused ds { number := line, raw }) := by
  induction h with
  | nil => simp at hline
  | @node lines slots h n head more hspan ih =>
    have hlength := h.length_eq
    by_cases hlt : line < lines.length
    · rw [List.getElem?_append_left hlt] at hline
      rcases ih hline with ⟨i, m, hm, hle, hend⟩ | ⟨hnone, hkind⟩
      · exact .inl ⟨i, m, node_append_iff.2 (.inl hm), hle, hend⟩
      · refine .inr ⟨fun i => ?_, hkind⟩
        rintro ⟨m, hm, hle, hend⟩
        rcases node_append_iff.1 hm with hm | ⟨rfl, rfl⟩
        · exact hnone i ⟨m, hm, hle, hend⟩
        · omega
    · have hin : line < lines.length + (more.length + 1) := by
        have hsome := (List.getElem?_eq_some_iff.1 hline).1
        simpa using hsome
      exact .inl ⟨slots.length, n, node_append_iff.2 (.inr ⟨rfl, rfl⟩), by omega, by omega⟩
  | @blank lines slots h head hraw ih | @refused lines slots h head hraw ih =>
    have hlength := h.length_eq
    have hsame : ∀ i, Covers (slots ++ [none]) i line ↔ Covers slots i line := by
      intro i
      rw [Covers, node_append_none]
      rfl
    simp only [hsame]
    by_cases hlt : line < lines.length
    · exact ih (by rwa [List.getElem?_append_left hlt] at hline)
    · have hin : line < lines.length + 1 := by
        have hsome := (List.getElem?_eq_some_iff.1 hline).1
        simpa using hsome
      obtain rfl : line = lines.length := by omega
      obtain rfl : head = raw := by simpa using hline
      refine .inr ⟨?_, by first | exact .inl hraw | exact .inr hraw⟩
      rintro i ⟨n, hn, hle, hend⟩
      have := h.inside hn
      omega

end Tiled

theorem Node.lineSpan_of_codeBlock? {n : Node} (h : n.codeBlock? = none) : n.lineSpan = 1 := by
  cases n with
  | pragma p => rw [Node.lineSpan, Pragma.lineSpan, show p.block? = none from h]
  | block b => cases h
  | _ => rfl

namespace Analysis

theorem lineSpan_close {b : CodeBlock} {mark : Lexeme} {external : Option String} :
    CodeBlock.lineSpan { b.close mark with external } = mark.line - b.startLine + 1 := rfl

/-- What is settled is cut into pieces. -/
def SettledTiled (lines : List String) (a : Analysis) : Prop :=
  Tiled a.reader.diagnostics (lines.take a.settled) (a.slots.toList.take a.settled)

variable {a a' : Analysis} {lines : List String} {raw : String}

/-- Inside of a block nothing new is settled before its end. -/
theorem tiled_inside (hacc : Accounted a) (hsize : a.slots.size = lines.length) {b : CodeBlock}
    (hblock : a.reader.block? = some b) (h : SettledTiled lines a) (hturn : a.Turn raw a')
    (hreported : a.reader.diagnostics ⊆ a'.reader.diagnostics) : SettledTiled (lines ++ [raw]) a' := by
  have hsettled := settled_turn hacc hturn
  have hlt : b.startLine < lines.length := hsize ▸ (hacc.reserved b hblock).startLine_lt
  have hfront : (lines ++ [raw]).take b.startLine = lines.take b.startLine :=
    List.take_append_of_le_length (Nat.le_of_lt hlt)
  rw [SettledTiled, settled_block hblock] at h
  rcases turn_inside hblock hturn with rfl | rfl
  · rw [settled_block hblock] at hsettled
    rw [SettledTiled, settled_block (block?_inside hblock),
      show (b.push raw).startLine = b.startLine from rfl, hsettled.2, hfront]
    exact h.mono hreported
  · obtain ⟨external, front, slot, k, n, slots', hfills, hslots'⟩ := slots_closing hacc hblock raw
    have hcount : a.slots.size = b.startLine + (k + 1) := hfills.length
    rw [hfills.take_before] at h
    have htiles : Tiled a.reader.diagnostics ((lines ++ [raw]).take b.startLine) front := by
      rw [hfront]
      exact h
    have hspan : n.lineSpan = k + 1 + 1 := by
      rw [hfills.placed.lineSpan, lineSpan_close]
      change a.slots.size - b.startLine + 1 = k + 1 + 1
      omega
    rw [SettledTiled, take_settled (block?_closing b), settled_none (block?_closing b),
      size_turn hturn, List.take_of_length_le (by simp [hsize]), hslots',
      hfills.after, List.append_assoc, List.cons_append, ← List.replicate_succ']
    exact (htiles.mono hreported).rest (by simp; omega) hspan

/-- Outside of blocks each line is a piece, unless it opens a block. -/
theorem tiled_outside (hsize : a.slots.size = lines.length) (hblock : a.reader.block? = none)
    (h : SettledTiled lines a) (hturn : a.Turn raw a')
    (hreported : a.reader.diagnostics ⊆ a'.reader.diagnostics) : SettledTiled (lines ++ [raw]) a' := by
  have hall : Tiled a'.reader.diagnostics lines a.slots.toList := by
    rw [SettledTiled, take_settled hblock, settled_none hblock, hsize, List.take_length] at h
    exact h.mono hreported
  obtain ⟨node?, hslots⟩ := slots_turn hblock hturn
  cases hnext : a'.reader.block? with
  | some b =>
    rw [SettledTiled, settled_block hnext, (block_of_turn hblock hturn hnext).1, hslots,
      Array.toList_push, hsize, List.take_left, ← hsize, ← Array.length_toList, List.take_left]
    exact hall
  | none =>
    rw [SettledTiled, take_settled hnext, settled_none hnext, size_turn hturn, hsize, hslots,
      Array.toList_push, List.take_of_length_le (by simp)]
    have hpush : ∀ {x : Option Node}, a.slots.push node? = a.slots.push x → node? = x :=
      fun hsame => Array.push_inj_right.1 hsame
    cases hturn with
    | inside b hopen hraw => exact absurd (hblock.symm.trans hopen) (by simp)
    | closing b hopen hraw => exact absurd (hblock.symm.trans hopen) (by simp)
    | name hblock hexpects hraw =>
      rw [hpush (hslots.symm.trans rfl)]
      exact hall.line raw rfl
    | opening hblock hraw =>
      exact absurd (block?_opening.symm.trans hnext) (by simp)
    | blank hblock hraw =>
      rw [hpush (hslots.symm.trans rfl)]
      exact hall.blank raw hraw
    | refused hblock hraw hopens hname cause hcause =>
      rw [hpush (hslots.symm.trans rfl)]
      refine hall.refused raw ⟨(a.nextLine raw).problem cause, ?_, ?_, ?_⟩
      · exact List.mem_append_right _ (List.mem_singleton.2 rfl)
      · have hcode : ∀ cause ∈ refusals, cause.code ∈ ["E0101", "E0203", "E0205"] := by decide
        exact hcode cause hcause
      · rw [← hsize]
        rfl
    | node hblock shape hshape =>
      rw [hpush (hslots.symm.trans rfl)]
      exact hall.line raw (Node.lineSpan_of_codeBlock? (Node.codeBlock?_read _ _ _))

theorem tiled_after (lines : List String) : SettledTiled lines (after lines) := by
  induction lines using after_induction with
  | nil => exact .nil
  | turn lines raw a' h hturn =>
    obtain ⟨ds, hds, -⟩ := diagnostics_turn hturn
    have hreported : (after lines).reader.diagnostics ⊆ a'.reader.diagnostics := by
      rw [hds, List.append_assoc]
      exact List.subset_append_left _ _
    cases hblock : (after lines).reader.block? with
    | some b => exact tiled_inside (accounted_after lines) (size_after lines) hblock h hturn hreported
    | none => exact tiled_outside (size_after lines) hblock h hturn hreported

/-- An open block takes the lines that are left. -/
theorem tiled_conclude (lines : List String) :
    Tiled (after lines).conclude.reader.diagnostics lines (after lines).conclude.slots.toList := by
  have htiled := tiled_after lines
  have hreported : (after lines).reader.diagnostics ⊆ (after lines).conclude.reader.diagnostics := by
    rw [diagnostics_conclude_of_running (aborted_after lines)]
    exact List.subset_append_left _ _
  have hsize := size_after lines
  have hbody : ∀ b, (after lines).reader.block? = some b → b.body = lines.drop (b.startLine + 1) :=
    fun _ hb => body_after lines hb
  have hreserved := (accounted_after lines).reserved
  generalize after lines = a at *
  cases hblock : a.reader.block? with
  | none =>
    rw [SettledTiled, take_settled hblock, settled_none hblock, hsize, List.take_length] at htiled
    rw [slots_conclude, hblock]
    exact htiled.mono hreported
  | some b =>
    obtain ⟨front, slot, k, n, hfills⟩ := (hreserved b hblock).fills b rfl rfl
    have hcount : lines.length = b.startLine + (k + 1) := hsize ▸ hfills.length
    have hspan : n.lineSpan = k + 1 := by
      rw [hfills.placed.lineSpan, CodeBlock.lineSpan, (hreserved b hblock).1, hbody b hblock]
      simp
      omega
    rw [SettledTiled, settled_block hblock, hfills.take_before] at htiled
    rw [slots_conclude, hblock]
    dsimp only
    rw [hfills.after]
    exact (htiled.mono hreported).rest hcount hspan

/-- Only lines that are not blank are refused. -/
theorem nonblank_of_refused (lines : List String) {d : Diagnostic}
    (hd : d ∈ (after lines).finish.diagnostics) (hcode : d.code ∈ ["E0101", "E0203", "E0205"]) :
    ∃ number raw, lines[number]? = some raw ∧ isBlankLine raw = false ∧
      d.span = Line.span { number, raw } := by
  have hdisjoint : ∀ codes : List String, (∀ code ∈ codes, code ∉ ["E0101", "E0203", "E0205"]) →
      d.code ∉ codes := fun codes hcodes hmem => hcodes _ hmem hcode
  obtain ⟨ds, hds, hlast⟩ := diagnostics_finish_eq (after lines)
  rw [hds] at hd
  replace hd : d ∈ (after lines).reader.diagnostics := by
    rcases List.mem_append.1 hd with hd | hd
    · exact hd
    · exact absurd (hlast d hd) (hdisjoint _ (by decide))
  clear hds hlast
  induction lines using after_induction with
  | nil => cases hd
  | turn lines raw a' ih hturn =>
    obtain ⟨remarks, hreported, hremarks⟩ := diagnostics_turn hturn
    rw [hreported] at hd
    rcases List.mem_append.1 hd with hd | hd
    · rcases List.mem_append.1 hd with hd | hd
      · obtain ⟨number, text, htext, hnonblank, hspan⟩ := ih hd
        refine ⟨number, text, ?_, hnonblank, hspan⟩
        rw [List.getElem?_append_left (List.getElem?_eq_some_iff.1 htext).1]
        exact htext
      · unfold due at hd
        split at hd
        · exact absurd (by simpa using code_of_overdue hd)
            (hdisjoint ["E0201", "E0202"] (by decide))
        · cases hd
    · cases hremarks d hd with
      | own hown hline =>
        have hforeign := Cause.code_of_isOwn hown
        simp only [Diagnostic.code, List.mem_cons, List.not_mem_nil, or_false] at hcode hforeign
        tauto
      | refusal cause hcause hraw =>
        refine ⟨lines.length, raw, by simp, hraw, ?_⟩
        rw [← size_after]
        rfl
      | unexpected => exact absurd hcode (by simp [Cause.code])
      | external walker interface span =>
        exact absurd hcode (by simp [Cause.code])

end Analysis

/-- The node of a line covers another line. -/
def Document.Covers (d : Document) (i line : Nat) : Prop :=
  ∃ n, d.nodeAt? i = some n ∧ i ≤ line ∧ line < i + n.lineSpan

/-- Exactly one of three. -/
def OneOf (p q r : Prop) : Prop := (p ∧ ¬q ∧ ¬r) ∨ (¬p ∧ q ∧ ¬r) ∨ (¬p ∧ ¬q ∧ r)

open Analysis in
/-- The nodes lie inside of the document and apart from each other, and every line belongs to exactly
one of them, or is blank, or is reported as none that stands by itself. -/
theorem lines_partitioned (limit : Nat) (text : String) (h : (analyze limit text).aborted = false) :
    (analyze limit text).lineCount = (Text.lines text).length ∧
      (∀ i n, (analyze limit text).nodeAt? i = some n →
        i + n.lineSpan ≤ (analyze limit text).lineCount) ∧
      (∀ i j n m, i < j → (analyze limit text).nodeAt? i = some n →
        (analyze limit text).nodeAt? j = some m → i + n.lineSpan ≤ j) ∧
      ∀ line raw, (Text.lines text)[line]? = some raw →
        OneOf (∃! i, (analyze limit text).Covers i line)
          ((∀ i, ¬(analyze limit text).Covers i line) ∧ isBlankLine raw = true)
          ((∀ i, ¬(analyze limit text).Covers i line) ∧
            Refused (analyze limit text).diagnostics { number := line, raw }) := by
  have hrun : analyze limit text = (after (Text.lines text)).finish := analyzeLines_of_running h
  rw [hrun]
  generalize Text.lines text = lines
  have htiled := tiled_conclude lines
  have hreported : (after lines).conclude.reader.diagnostics ⊆ (after lines).finish.diagnostics :=
    List.subset_append_left _ _
  replace htiled := htiled.mono hreported
  have hcount : (after lines).finish.lineCount = (after lines).conclude.slots.toList.length := rfl
  have hcovers : ∀ i line, (after lines).finish.Covers i line ↔
      Covers (after lines).conclude.slots.toList i line := by
    intro i line
    rw [Document.Covers, nodeAt?_finish]
    rfl
  simp only [hcovers, nodeAt?_finish, hcount]
  refine ⟨htiled.length_eq.symm, fun i n hn => htiled.inside hn,
    fun i j n m hij hn hm => htiled.apart hij hn hm, fun line raw hline => ?_⟩
  have hexclusive : Refused (after lines).finish.diagnostics { number := line, raw } →
      isBlankLine raw = false := by
    rintro ⟨d, hd, hcode, hspan⟩
    obtain ⟨number, raw', hraw', hnonblank, hspan'⟩ := nonblank_of_refused lines hd hcode
    obtain rfl : number = line := congrArg (fun s : Span => s.start.line) (hspan'.symm.trans hspan)
    obtain rfl : raw = raw' := Option.some.inj (hline.symm.trans hraw')
    exact hnonblank
  rcases htiled.classify hline with ⟨i, hi⟩ | ⟨hnone, hblank | hrefused⟩
  · exact .inl ⟨⟨i, hi, fun j hj => htiled.covers_unique hj hi⟩, fun hb => hb.1 i hi,
      fun hc => hc.1 i hi⟩
  · refine .inr (.inl ⟨fun ⟨i, hi, _⟩ => hnone i hi, ⟨hnone, hblank⟩, fun hc => ?_⟩)
    exact absurd (hblank.symm.trans (hexclusive hc.2)) (by simp)
  · refine .inr (.inr ⟨fun ⟨i, hi, _⟩ => hnone i hi, fun hb => ?_, ⟨hnone, hrefused⟩⟩)
    exact absurd (hb.2.symm.trans (hexclusive hrefused)) (by simp)

/-- A line of a block that opens late, after a line that was refused. -/
theorem lines_partitioned_late :
    (analyze 25 "?\nr := A\n\n%\x7b\n x\n%\x7d").aborted = false ∧
      OneOf (∃! i, (analyze 25 "?\nr := A\n\n%\x7b\n x\n%\x7d").Covers i 4)
        ((∀ i, ¬(analyze 25 "?\nr := A\n\n%\x7b\n x\n%\x7d").Covers i 4) ∧ isBlankLine " x" = true)
        ((∀ i, ¬(analyze 25 "?\nr := A\n\n%\x7b\n x\n%\x7d").Covers i 4) ∧
          Refused (analyze 25 "?\nr := A\n\n%\x7b\n x\n%\x7d").diagnostics
            { number := 4, raw := " x" }) :=
  ⟨by decide +kernel,
    (lines_partitioned 25 "?\nr := A\n\n%\x7b\n x\n%\x7d" (by decide +kernel)).2.2.2 4 " x"
      (by decide +kernel)⟩

end LineGrammar
