import LineGrammar.Proofs.StepContent

/-! Reading a code block again. While a block is open its lines are only collected, so a run over all of
them is one step; reindented lines are collected as a block of the same content. -/

namespace LineGrammar

/-- Whether a line closes a block, wherever it stands. -/
def closes (raw : String) : Bool := Text.trim raw.toList == closingMark.toList

theorem Line.closesBlock_eq (l : Line) : l.closesBlock = closes l.raw := by
  rw [Line.closesBlock, chars_body, closes]

theorem chars_of_closes {l : Line} (h : closes l.raw = true) : l.body.chars = closingMark.toList := by
  rw [Line.chars_body]
  simpa [closes] using h

theorem closes_reindent (ind : Indentation) {lines : List String}
    (h : ∀ raw ∈ lines, closes raw = false) : ∀ raw ∈ reindent ind lines, closes raw = false := by
  intro raw hraw
  obtain ⟨line, hline, rfl⟩ := List.mem_map.1 hraw
  rw [closes, trim_reindentLine (le_leadingBlanks hline)]
  exact h line hline

theorem flush_eq_nil {lines : List String} : flush lines = [] ↔ lines = [] := by
  simp [flush, reindent]

theorem content_close_congr {b b' : CodeBlock} (h : b'.content = b.content)
    {lines lines' : List String} (hlines : flush (b'.body ++ lines') = flush (b.body ++ lines))
    {mark mark' : Lexeme} (hmark : mark'.content = mark.content) :
    (({ b' with body := b'.body ++ lines' } : CodeBlock).close mark').content =
      (({ b with body := b.body ++ lines } : CodeBlock).close mark).content := by
  have hclose : ∀ (b : CodeBlock) (lines : List String) (mark : Lexeme),
      (({ b with body := b.body ++ lines } : CodeBlock).close mark).content =
        { b.content with closing := some mark.content, body := flush (b.body ++ lines) } :=
    fun _ _ _ => rfl
  rw [hclose, hclose, h, hlines, hmark]

namespace Analysis

/-- A line inside of a block is collected. -/
theorem step_collecting {a : Analysis} {b : CodeBlock} (hb : a.reader.block? = some b) {raw : String}
    (hraw : closes raw = false) :
    a.step raw = endLine none { a.moveTo raw with reader := (a.moveTo raw).reader.pushLine } := by
  have hline : (a.moveTo raw).reader.line.closesBlock = false := by
    rw [Line.closesBlock_eq]; exact hraw
  rw [step_inside hb, if_neg (by simp [hline])]

/-- The line that ends a block. -/
theorem step_closing {a : Analysis} {b : CodeBlock} (hb : a.reader.block? = some b) {raw : String}
    (hraw : closes raw = true) : a.step raw = ((a.moveTo raw).closeBlock b).endLine none := by
  have hline : (a.moveTo raw).reader.line.closesBlock = true := by
    rw [Line.closesBlock_eq]; exact hraw
  rw [step_inside hb, if_pos hline]

/-- The lines of an open block have been collected. -/
def collect (b : CodeBlock) (body : List String) (a : Analysis) : Analysis :=
  { a with
    reader := { a.reader with block? := some { b with body := b.body ++ body } }
    slots := a.slots ++ (List.replicate body.length none).toArray }

theorem moveTo_collect_push (b : CodeBlock) (raw closing : String) (rest : List String)
    (a : Analysis) :
    ((endLine none { a.moveTo raw with reader := (a.moveTo raw).reader.pushLine }).collect
        (b.push raw) rest).moveTo closing = (a.collect b (raw :: rest)).moveTo closing := by
  have hslots : a.slots.push none ++ (List.replicate rest.length (none : Option Node)).toArray =
      a.slots ++ (List.replicate (raw :: rest).length none).toArray := by
    apply Array.toList_inj.1
    simp [List.replicate_succ]
  unfold collect moveTo endLine CodeBlock.push
  dsimp only [Reader.pushLine, Reader.moveTo]
  rw [hslots, List.append_assoc]
  rfl

/-- A run over lines inside of a block, up to the line where it stands. -/
theorem moveTo_foldl_inside {a : Analysis} {b : CodeBlock} (hb : a.reader.block? = some b)
    {body : List String} (hbody : ∀ raw ∈ body, closes raw = false) (next : String) :
    (body.foldl step a).moveTo next = (a.collect b body).moveTo next := by
  induction body generalizing a b with
  | nil =>
    have hcollect : a.collect b [] = a := by
      unfold collect
      simp [← hb]
    rw [hcollect]
    rfl
  | cons raw rest ih =>
    have hpush : (endLine none { a.moveTo raw with
        reader := (a.moveTo raw).reader.pushLine }).reader.block? = some (b.push raw) := by
      simp [endLine, Reader.pushLine, moveTo, Reader.moveTo, hb]
    rw [List.foldl_cons, step_collecting hb (hbody raw (by simp)),
      ih hpush fun r hr => hbody r (by simp [hr]), moveTo_collect_push]

/-- Inside of a block nothing is reported, and only the block has more lines. -/
theorem foldl_inside_spec {a : Analysis} {b : CodeBlock} (hb : a.reader.block? = some b)
    {body : List String} (hbody : ∀ raw ∈ body, closes raw = false) :
    (body.foldl step a).reader.block? = some { b with body := b.body ++ body } ∧
      (body.foldl step a).reader.diagnostics = a.reader.diagnostics ∧
      (body.foldl step a).slots = a.slots ++ (List.replicate body.length none).toArray := by
  have hmove := moveTo_foldl_inside hb hbody ""
  have hopen := congrArg (fun a : Analysis => a.reader.block?) hmove
  have hreports := congrArg (fun a : Analysis => a.reader.diagnostics) hmove
  have hslots := congrArg Analysis.slots hmove
  exact ⟨hopen, hreports, hslots⟩

/-- A run from a line inside of a block to the end of the block. -/
theorem foldl_block {a : Analysis} {b : CodeBlock} (hb : a.reader.block? = some b)
    {body : List String} (hbody : ∀ raw ∈ body, closes raw = false) {closing : String}
    (hclosing : closes closing = true) :
    (body ++ [closing]).foldl step a =
      (((a.collect b body).moveTo closing).closeBlock { b with body := b.body ++ body }).endLine
        none := by
  obtain ⟨hopen, -, -⟩ := foldl_inside_spec hb hbody
  rw [List.foldl_append, List.foldl_cons, List.foldl_nil, step_closing hopen hclosing,
    moveTo_foldl_inside hb hbody]

theorem content_collect {b : CodeBlock} (hb : b.body = []) (body : List String) (a : Analysis) :
    (a.collect b body).content = a.content.collect b.content (flush body) := by
  have hnil : b.content.body = [] := flush_eq_nil.2 hb
  have hlength : (flush body).length = body.length := by simp [flush, reindent]
  unfold collect
  rw [hb, hnil, hlength]
  simp [content, Reader.content, CodeBlock.content]

/-- The block of the same content, when its lines are reindented. -/
theorem content_foldl_block {a a' : Analysis} (h : a'.content = a.content) {b : CodeBlock}
    (hb : a.reader.block? = some b) (hnil : b.body = []) {body : List String}
    (hbody : ∀ raw ∈ body, closes raw = false) {closing : String}
    (hclosing : closes closing = true) (ind : Indentation) :
    ((reindent ind body ++ [closingMark]).foldl step a').content =
      ((body ++ [closing]).foldl step a).content := by
  have hblock : a'.reader.block?.map CodeBlock.content = a.reader.block?.map CodeBlock.content :=
    congrArg (fun a : Analysis => a.reader.block?) h
  rw [hb, Option.map_some, Option.map_eq_some_iff] at hblock
  obtain ⟨b', hb', hsame⟩ := hblock
  have hnil' : b'.body = [] := by
    have hflush : flush b'.body = flush b.body := congrArg CodeBlock.body hsame
    exact flush_eq_nil.1 (hflush.trans (flush_eq_nil.2 hnil))
  have hsize : ((a'.collect b' (reindent ind body)).moveTo closingMark).reader.line.number =
      ((a.collect b body).moveTo closing).reader.line.number := by
    simp [collect, moveTo, Reader.moveTo, size_of_content h, reindent]
  have hmark : closes closingMark = true := by decide
  have hchars : ((a'.collect b' (reindent ind body)).moveTo closingMark).reader.line.body.chars =
      ((a.collect b body).moveTo closing).reader.line.body.chars := by
    rw [chars_of_closes (l := ((a.collect b body).moveTo closing).reader.line) hclosing]
    exact chars_of_closes hmark
  have hwhole :
      ((a'.collect b' (reindent ind body)).moveTo closingMark).reader.line.whole.content =
        ((a.collect b body).moveTo closing).reader.line.whole.content :=
    content_lexeme_congr hsize hchars
  have hflush : flush (b'.body ++ reindent ind body) = flush (b.body ++ body) := by
    rw [hnil, hnil', List.nil_append, List.nil_append, flush_reindent]
  have hclosed := content_close_congr hsame hflush hwhole
  rw [foldl_block hb' (closes_reindent ind hbody) hmark, foldl_block hb hbody hclosing,
    content_endLine, content_endLine, closeBlock_eq, closeBlock_eq, content_settleBlock,
    content_settleBlock, content_moveTo, content_moveTo, content_collect hnil',
    content_collect hnil, flush_reindent, h, hsame, hclosed]

theorem rejectExternal_spec (b : CodeBlock) (a : Analysis) :
    ∃ external a', a.rejectExternal b = ({ b with external }, a') ∧ a'.slots = a.slots := by
  unfold rejectExternal
  split
  · exact ⟨_, _, rfl, rfl⟩
  · exact ⟨b.external, a, rfl, rfl⟩

/-- The lines of a closed block after its opening mark. -/
theorem slots_foldl_block {a : Analysis} {b : CodeBlock} (hb : a.reader.block? = some b)
    (hnil : b.body = []) {front : List (Option Node)} {slot : Option Node}
    (hslots : a.slots.toList = front ++ [slot]) (hstart : b.startLine = front.length)
    {body : List String} (hbody : ∀ raw ∈ body, closes raw = false) {closing : String}
    (hclosing : closes closing = true) :
    ((body ++ [closing]).foldl step a).reader.block? = none ∧
      ∃ block : CodeBlock, block.isInline = b.isInline ∧ block.opening = b.opening ∧
        block.body = body ∧ block.isClosed = true ∧ block.lineSpan = body.length + 2 ∧
        ((body ++ [closing]).foldl step a).slots.toList =
          front ++ placeBlock block slot :: List.replicate (body.length + 1) none := by
  have hcollected : ((a.collect b body).moveTo closing).slots.toList =
      front ++ slot :: List.replicate body.length none := by
    simp [collect, moveTo, hslots]
  have hnumber : ((a.collect b body).moveTo closing).reader.line.number =
      front.length + 1 + body.length := by
    have hsize := congrArg List.length hslots
    simp only [Array.length_toList, List.length_append, List.length_singleton] at hsize
    simp [collect, moveTo, Reader.moveTo, hsize]
  rw [foldl_block hb hbody hclosing, closeBlock_eq]
  generalize (a.collect b body).moveTo closing = c at hcollected hnumber
  generalize hclosed : ({ b with body := b.body ++ body } : CodeBlock).close c.reader.line.whole =
    block
  obtain ⟨external, c', hreject, hsame⟩ := rejectExternal_spec block c
  have hopening : block.opening = b.opening := by rw [← hclosed]; rfl
  have hlines : block.body = body := by
    rw [← hclosed]
    exact congrArg (· ++ body) hnil
  have hspan : block.lineSpan = c.reader.line.number - b.startLine + 1 := by rw [← hclosed]; rfl
  have hmodify : (c'.slots.toList.modify block.startLine (placeBlock { block with external })) =
      front ++ placeBlock { block with external } slot :: List.replicate body.length none := by
    rw [hsame, hcollected, show block.startLine = front.length by
      rw [CodeBlock.startLine, hopening]; exact hstart]
    exact modify_append_cons _ _ _ _
  unfold settleBlock
  rw [hreject]
  refine ⟨(expectMore_spec _ _).1, { block with external }, by rw [← hclosed]; rfl, hopening, hlines,
    by rw [← hclosed]; rfl, ?_, ?_⟩
  · exact hspan.trans (by omega)
  · simp only [endLine, place, Array.toList_push, Array.toList_modify]
    rw [show ({ block with external } : CodeBlock).startLine = block.startLine from rfl, hmodify,
      List.replicate_succ']
    simp

end Analysis

end LineGrammar
