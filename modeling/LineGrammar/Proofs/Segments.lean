import LineGrammar.Proofs.BlockContent
import LineGrammar.Proofs.LaidOut
import LineGrammar.Proofs.Lines

/-! A run over a text in which nothing is wrong, cut into lines and code blocks. Each piece fills its
own slots, and any layout of these slots can be read in its place with the same content; so can a layout
of all of them. -/

namespace LineGrammar

open Analysis

theorem Neat.fitsLine {s : String} (h : Neat s) : FitsLine s := ⟨h.trimmed.last, h.noBreak⟩

theorem fitsLine_reindent (ind : Indentation) {lines : List String}
    (h : ∀ raw ∈ lines, '\n' ∉ raw.toList) : ∀ f ∈ reindent ind lines, FitsLine f := by
  intro f hf
  obtain ⟨line, hline, rfl⟩ := List.mem_map.1 hf
  exact ⟨last_reindentLine _ (le_leadingBlanks hline), noBreak_reindentLine (h line hline) 1⟩

/-- The lines fill the slots, and can be exchanged for a layout of these. -/
structure Segment (a : Analysis) (lines : List String) (slots : List (Option Node)) : Prop where
  length : slots.length = lines.length
  fills : (lines.foldl step a).slots.toList = a.slots.toList ++ slots
  splits : ∀ ind more F, LaidOut ind (slots ++ more) F → ∃ G H, F = G ++ H ∧
    G.length = lines.length ∧ (∀ g ∈ G, FitsLine g) ∧ LaidOut ind more H ∧
    ∀ a', a'.content = a.content → (G.foldl step a').content = (lines.foldl step a).content

namespace Segment

theorem nil (a : Analysis) : Segment a [] [] where
  length := rfl
  fills := by simp
  splits := fun _ _ F h => ⟨[], F, rfl, rfl, by simp, h, fun _ h => h⟩

theorem append {a : Analysis} {lines lines' : List String} {slots slots' : List (Option Node)}
    (h : Segment a lines slots) (h' : Segment (lines.foldl step a) lines' slots') :
    Segment a (lines ++ lines') (slots ++ slots') where
  length := by rw [List.length_append, List.length_append, h.length, h'.length]
  fills := by rw [List.foldl_append, h'.fills, h.fills, List.append_assoc]
  splits := by
    intro ind more F hF
    rw [List.append_assoc] at hF
    obtain ⟨G, H, rfl, hlength, hfits, hH, hagain⟩ := h.splits ind _ F hF
    obtain ⟨G', H', rfl, hlength', hfits', hH', hagain'⟩ := h'.splits ind more H hH
    refine ⟨G ++ G', H', by simp, by simp [hlength, hlength'], ?_, hH', fun a' ha => ?_⟩
    · intro g hg
      rcases List.mem_append.1 hg with hg | hg
      · exact hfits g hg
      · exact hfits' g hg
    · rw [List.foldl_append, List.foldl_append]
      exact hagain' _ (hagain a' ha)

end Segment

theorem segment_blank {a : Analysis} (hblock : a.reader.block? = none) {raw : String}
    (h : (a.nextLine raw).isBlank = true) : Segment a [raw] [none] where
  length := rfl
  fills := by
    have hslots := (prepare_spec (a.moveTo raw)).2.2.1
    rw [List.foldl_cons, List.foldl_nil, step_blank hblock h, endLine, hslots]
    simp [moveTo]
  splits := by
    intro ind more F hF
    obtain ⟨rest, rfl, hrest⟩ := hF.of_empty
    refine ⟨[""], rest, rfl, rfl, by simpa using fitsLine_empty, hrest, fun a' ha => ?_⟩
    exact content_step_blank ha hblock h rfl

/-- A line of which the node is written again. -/
theorem segment_line {a : Analysis} {raw : String} {n : Node} (hn : n.codeBlock? = none)
    (hslots : (a.step raw).slots = a.slots.push (some n))
    (hread : ∀ s, n.Written s → Neat s ∧
      ∀ a' : Analysis, a'.content = a.content → (a'.step s).content = (a.step raw).content) :
    Segment a [raw] [some n] where
  length := rfl
  fills := by simp [hslots]
  splits := by
    intro ind more F hF
    obtain ⟨s, rest, rfl, hs, hrest⟩ := hF.of_line hn
    obtain ⟨hneat, hagain⟩ := hread s hs
    exact ⟨[s], rest, rfl, rfl, by simpa using hneat.fitsLine, hrest, hagain⟩

theorem slots_accept (reading : Reading Node) (a : Analysis) :
    (a.accept reading).slots = a.slots.push (some reading.node) := rfl

theorem segment_name {a : Analysis} (hblock : a.reader.block? = none) {raw : String}
    (hexpects : a.reader.expectsName = true) (hnames : (a.nextLine raw).namesBlock = true)
    (hclean : (BlockName.read (a.nextLine raw) (a.reader.rule?.map fun rule => rule.name.text)
      a.index).problems = []) :
    ∃ n, Segment a [raw] [some n] := by
  refine ⟨.blockName (BlockName.read (a.nextLine raw)
    (a.reader.rule?.map fun rule => rule.name.text) a.index).node, segment_line rfl ?_ ?_⟩
  · rw [step_name hblock hexpects hnames, slots_accept]
    rfl
  · rintro s rfl
    have hneat := (BlockName.reread (number_of_content rfl raw raw) (rfl : a.index.content = _)
      hclean).1
    refine ⟨hneat, fun a' ha => ?_⟩
    have hbody := Line.chars_body_of_neat (l := a'.nextLine _) hneat
    obtain ⟨hnames', hread⟩ := (BlockName.reread (number_of_content ha raw _)
      (congrArg Analysis.index ha) hclean).2 hbody
    exact content_step_name ha hblock hexpects hnames hnames' hread

/-- The node of a line that has a shape. -/
theorem step_shape_reads {a : Analysis} (hblock : a.reader.block? = none) {raw : String}
    {shape : Shape} (hshape : Shape.of? (a.nextLine raw).body = some shape)
    (hclean : (Node.read (a.nextLine raw) a.index shape).problems = []) {s : String}
    (hs : (Node.read (a.nextLine raw) a.index shape).node.Written s) :
    Neat s ∧
      ∀ a' : Analysis, a'.content = a.content → (a'.step s).content = (a.step raw).content := by
  have hneat := (Node.reread (number_of_content rfl raw raw) (rfl : a.index.content = _) hshape hclean
    hs).1
  refine ⟨hneat, fun a' ha => ?_⟩
  have hbody := Line.chars_body_of_neat (l := a'.nextLine s) hneat
  obtain ⟨shape', hshape', hread⟩ := (Node.reread (number_of_content ha raw s)
    (congrArg Analysis.index ha) hshape hclean hs).2 hbody
  exact content_step_shape ha hblock hshape hshape' hread

theorem slots_step_shape {a : Analysis} (hblock : a.reader.block? = none) {raw : String}
    {shape : Shape} (hshape : Shape.of? (a.nextLine raw).body = some shape) :
    (a.step raw).slots =
      a.slots.push (some (Node.read (a.nextLine raw) a.index shape).node) := by
  have hslots : (a.moveTo raw).prepare.slots = a.slots := (prepare_spec _).2.2.1
  rw [step_shape hblock hshape, slots_accept, hslots]

theorem Node.codeBlock?_read (line : Line) (ix : Index) (shape : Shape) :
    (Node.read line ix shape).node.codeBlock? = none := by
  cases shape with
  | pragma mark name parameters =>
    have hbare := (PragmaBody.sound_readBody line name parameters ix).bare
    rw [Node.read, Pragma.read_eq]
    dsimp only [Reading.map, Node.codeBlock?, Pragma.block?, Pragma.ofBody]
    split
    · next block hbody =>
      cases block with
      | none => rfl
      | some block => exact absurd hbody (hbare _ _ block)
    · rfl
  | _ => rfl

theorem segment_shape {a : Analysis} (hblock : a.reader.block? = none) {raw : String}
    {shape : Shape} (hshape : Shape.of? (a.nextLine raw).body = some shape)
    (hclean : (Node.read (a.nextLine raw) a.index shape).problems = []) :
    ∃ n, Segment a [raw] [some n] :=
  ⟨_, segment_line (Node.codeBlock?_read _ _ _) (slots_step_shape hblock hshape)
    fun _ hs => step_shape_reads hblock hshape hclean hs⟩

/-- The lines of a closed block after its first one. -/
def CodeBlock.innerLines (ind : Indentation) (b : CodeBlock) : List String :=
  reindent ind b.body ++ if b.isClosed then [closingMark] else []

/-- A line that opens a block, and the lines of the block. The slot of the first line takes the block
when that is closed, and is written as a line that opens the block again. -/
theorem segment_block {a : Analysis} {raw head : String} {b : CodeBlock} {slot : Option Node}
    (hb : (a.step raw).reader.block? = some b) (hnil : b.body = [])
    (hstart : b.startLine = a.slots.size) (hslots : (a.step raw).slots = a.slots.push slot)
    (hplace : ∀ block : CodeBlock, block.isInline = b.isInline → block.opening = b.opening →
      ∃ n, placeBlock block slot = some n ∧ (∀ t, n ≠ .token t) ∧ n.lineSpan = block.lineSpan ∧
        ∀ ind, n.render ind = head :: block.innerLines ind)
    (hhead : FitsLine head)
    (hread : ∀ a' : Analysis, a'.content = a.content →
      (a'.step head).content = (a.step raw).content)
    {body : List String} (hbody : ∀ raw ∈ body, closes raw = false)
    (hbreak : ∀ raw ∈ body, '\n' ∉ raw.toList) {closing : String}
    (hclosing : closes closing = true) :
    ((raw :: (body ++ [closing])).foldl step a).reader.block? = none ∧
      ∃ slots, Segment a (raw :: (body ++ [closing])) slots := by
  have htoList : (a.step raw).slots.toList = a.slots.toList ++ [slot] := by
    rw [hslots, Array.toList_push]
  have hfront : b.startLine = a.slots.toList.length := by rw [hstart, Array.length_toList]
  obtain ⟨hafter, block, hinline, hopening, hlines, hclosed, hspan, hfilled⟩ :=
    slots_foldl_block hb hnil htoList hfront hbody hclosing
  obtain ⟨n, hn, htoken, hnspan, hrender⟩ := hplace block hinline hopening
  rw [hn] at hfilled
  refine ⟨hafter, some n :: List.replicate (body.length + 1) none, by simp, hfilled, ?_⟩
  intro ind more F hF
  rw [List.cons_append] at hF
  obtain ⟨H, rfl, hH⟩ := hF.of_node htoken
  have hempty : n.lineSpan - 1 = (List.replicate (body.length + 1) (none : Option Node)).length := by
    rw [hnspan, hspan, List.length_replicate]
    omega
  rw [hempty, List.drop_left] at hH
  have hinner : block.innerLines ind = reindent ind body ++ [closingMark] := by
    rw [CodeBlock.innerLines, hlines, hclosed, if_pos rfl]
  rw [hrender, hinner]
  refine ⟨head :: (reindent ind body ++ [closingMark]), H, rfl, by simp [reindent], ?_, hH,
    fun a' ha => ?_⟩
  · intro g hg
    rcases List.mem_cons.1 hg with rfl | hg
    · exact hhead
    · rcases List.mem_append.1 hg with hg | hg
      · exact fitsLine_reindent ind hbreak g hg
      · rw [List.mem_singleton.1 hg]
        exact (neat_of_solid solid_closingMark).fitsLine
  · rw [List.foldl_cons, List.foldl_cons]
    exact content_foldl_block (hread a' ha) hb hnil hbody hclosing ind

theorem openAt_spec (opening : Lexeme) (a : Analysis) :
    (a.openAt opening).slots = a.slots ∧ ∃ b, (a.openAt opening).reader.block? = some b ∧
      b.opening = opening ∧ b.body = [] ∧ b.isInline = false := by
  unfold openAt
  exact ⟨rfl, _, rfl, rfl, rfl, rfl⟩

theorem opensBlock_openingMark (a : Analysis) : (a.nextLine openingMark).opensBlock = true := by
  rw [Line.opensBlock, Line.chars_body]
  exact (by decide : (Text.trim openingMark.toList == openingMark.toList) = true)

/-- A block that opens on a line of its own. -/
theorem segment_opening {a : Analysis} (hblock : a.reader.block? = none) {raw : String}
    (h : (a.nextLine raw).opensBlock = true) {body : List String}
    (hbody : ∀ raw ∈ body, closes raw = false) (hbreak : ∀ raw ∈ body, '\n' ∉ raw.toList)
    {closing : String} (hclosing : closes closing = true) :
    ((raw :: (body ++ [closing])).foldl step a).reader.block? = none ∧
      ∃ slots, Segment a (raw :: (body ++ [closing])) slots := by
  obtain ⟨hslots, b, hb, hopening, hnil, hinline⟩ :=
    openAt_spec (a.nextLine raw).whole (a.moveTo raw).prepare
  have hprepared : (a.moveTo raw).prepare.slots = a.slots := (prepare_spec _).2.2.1
  rw [hprepared] at hslots
  have hstep := step_opening hblock h
  have hopened : (a.step raw).reader.block? = some b := by rw [hstep]; exact hb
  have hstart : b.startLine = a.slots.size := by rw [CodeBlock.startLine, hopening]; rfl
  have hpush : (a.step raw).slots = a.slots.push none := by rw [hstep, endLine, hslots]
  have hplace : ∀ block : CodeBlock, block.isInline = b.isInline → block.opening = b.opening →
      ∃ n, placeBlock block none = some n ∧ (∀ t, n ≠ .token t) ∧ n.lineSpan = block.lineSpan ∧
        ∀ ind, n.render ind = openingMark :: block.innerLines ind := by
    intro block hkind _
    refine ⟨.block block, rfl, by simp, rfl, fun ind => ?_⟩
    rw [Node.render, CodeBlock.render, hkind, hinline, List.append_assoc]
    rfl
  have hread : ∀ a' : Analysis, a'.content = a.content →
      (a'.step openingMark).content = (a.step raw).content :=
    fun a' ha => content_step_opening ha hblock h (opensBlock_openingMark _)
  have hmark : FitsLine openingMark := (neat_of_solid solid_openingMark).fitsLine
  exact segment_block hopened hnil hstart hpush hplace hmark hread hbody hbreak hclosing

/-- A block that opens at the end of a pragma. -/
theorem segment_inline {a : Analysis} (hblock : a.reader.block? = none) {raw : String}
    {shape : Shape} (hshape : Shape.of? (a.nextLine raw).body = some shape)
    (hclean : (Node.read (a.nextLine raw) a.index shape).problems = []) {b : CodeBlock}
    (hb : (a.step raw).reader.block? = some b) {body : List String}
    (hbody : ∀ raw ∈ body, closes raw = false) (hbreak : ∀ raw ∈ body, '\n' ∉ raw.toList)
    {closing : String} (hclosing : closes closing = true) :
    ((raw :: (body ++ [closing])).foldl step a).reader.block? = none ∧
      ∃ slots, Segment a (raw :: (body ++ [closing])) slots := by
  have hregisters : Registers (a.nextLine raw) a.index
      (Node.read (a.nextLine raw) a.index shape) := registers_read hshape
  have hnode := Node.codeBlock?_read (a.nextLine raw) a.index shape
  have hwritten := fun s => step_shape_reads (s := s) hblock hshape hclean
  have hslots := slots_step_shape hblock hshape
  have hstep := step_shape hblock hshape
  generalize Node.read (a.nextLine raw) a.index shape = r at *
  have hsequel : r.sequel = .body b := by
    rw [hstep] at hb
    rcases Reader.block?_follow hb with hs | hb
    · exact hs
    · have hprepared : (a.moveTo raw).prepare.reader.block? = a.reader.block? :=
        (prepare_spec _).2.2.2.1
      rw [Reader.reportAll, hprepared, hblock] at hb
      cases hb
  obtain ⟨p, walker, hpragma, hmembers, hopening, hinline, -, hnil⟩ := hregisters.opens b hsequel
  rw [hpragma] at hslots hwritten
  have hplace : ∀ block : CodeBlock, block.isInline = b.isInline → block.opening = b.opening →
      ∃ n, placeBlock block (some (.pragma p)) = some n ∧ (∀ t, n ≠ .token t) ∧
        n.lineSpan = block.lineSpan ∧ ∀ ind, n.render ind = p.headLine :: block.innerLines ind := by
    intro block hkind _
    have hplaced : placeBlock block (some (.pragma p)) = some (.pragma
        { p with body := .members walker (some b.opening) (some block) }) := by
      simp [placeBlock, hkind, hinline, Pragma.attach?, hmembers]
    refine ⟨_, hplaced, by simp, rfl, fun ind => ?_⟩
    have hrender : block.render ind = block.innerLines ind := by
      rw [CodeBlock.render, hkind, hinline, if_pos rfl, List.nil_append]
      rfl
    rw [← hrender]
    rfl
  obtain ⟨hneat, hread⟩ := hwritten p.headLine rfl
  exact segment_block hb hnil hopening hslots hplace hneat.fitsLine hread hbody hbreak hclosing

/-- An open block that is closed in the end is closed by one of the lines. -/
theorem exists_closing {a : Analysis} {b : CodeBlock} (hb : a.reader.block? = some b)
    {lines : List String} (h : (lines.foldl step a).reader.block? = none) :
    ∃ body closing rest, lines = body ++ closing :: rest ∧ (∀ raw ∈ body, closes raw = false) ∧
      closes closing = true := by
  induction lines generalizing a b with
  | nil => exact absurd (hb.symm.trans h) (by simp)
  | cons raw rest ih =>
    cases hraw : closes raw with
    | true => exact ⟨[], raw, rest, rfl, by simp, hraw⟩
    | false =>
      have hline : (a.moveTo raw).reader.line.closesBlock = false := by
        rw [Line.closesBlock_eq]; exact hraw
      have hpush : (a.step raw).reader.block? = some (b.push raw) := by
        rw [step_inside hb, if_neg (by simp [hline])]
        simp [endLine, Reader.pushLine, moveTo, Reader.moveTo, hb]
      obtain ⟨body, closing, more, rfl, hbody, hclosing⟩ := ih hpush h
      refine ⟨raw :: body, closing, more, rfl, ?_, hclosing⟩
      intro r hr
      rcases List.mem_cons.1 hr with rfl | hr
      · exact hraw
      · exact hbody r hr

theorem BlockName.sequel_read (line : Line) (rule? : Option String) (ix : Index) :
    ∃ target?, (BlockName.read line rule? ix).sequel = .name target? := by
  unfold BlockName.read
  split
  · exact ⟨_, rfl⟩
  · exact ⟨_, rfl⟩

section
variable {a : Analysis} (hblock : a.reader.block? = none) {raw : String}
include hblock

theorem block?_step_blank (h : (a.nextLine raw).isBlank = true) :
    (a.step raw).reader.block? = none := by
  have hprepared : (a.moveTo raw).prepare.reader.block? = a.reader.block? :=
    (prepare_spec _).2.2.2.1
  rw [step_blank hblock h]
  exact hprepared.trans hblock

theorem block?_step_name (hexpects : a.reader.expectsName = true)
    (hnames : (a.nextLine raw).namesBlock = true) : (a.step raw).reader.block? = none := by
  cases hb : (a.step raw).reader.block? with
  | none => rfl
  | some b =>
    rw [step_name hblock hexpects hnames] at hb
    rcases Reader.block?_follow hb with hs | hb
    · obtain ⟨target?, hsequel⟩ := BlockName.sequel_read (a.nextLine raw)
        (a.reader.rule?.map fun rule => rule.name.text) a.index
      cases hsequel.symm.trans hs
    · cases hblock.symm.trans hb

theorem block?_step_opening (h : (a.nextLine raw).opensBlock = true) :
    (a.step raw).reader.block? ≠ none := by
  obtain ⟨-, b, hb, -⟩ := openAt_spec (a.nextLine raw).whole (a.moveTo raw).prepare
  rw [step_opening hblock h]
  exact fun hnone => absurd (hb.symm.trans hnone) (by simp)

/-- The first segment of a run in which nothing is wrong. -/
theorem exists_segment {rest : List String}
    (hclean : ((raw :: rest).foldl step a).reader.diagnostics = [])
    (hafter : ((raw :: rest).foldl step a).reader.block? = none)
    (hbreak : ∀ raw ∈ rest, '\n' ∉ raw.toList) :
    ∃ front more slots, raw :: rest = front ++ more ∧ more.length ≤ rest.length ∧
      (front.foldl step a).reader.block? = none ∧ Segment a front slots := by
  have hstep : (a.step raw).reader.diagnostics = [] := by
    have hgrows := diagnostics_foldl rest (a.step raw)
    rw [List.foldl_cons] at hclean
    rw [hclean] at hgrows
    exact List.prefix_nil.1 hgrows
  have hline := cleanLine_of_step hblock hstep
  cases hopened : (a.step raw).reader.block? with
  | none =>
    refine ⟨[raw], rest, ?_⟩
    cases hline with
    | blank h => exact ⟨_, rfl, Nat.le_refl _, hopened, segment_blank hblock h⟩
    | opening h => exact absurd hopened (block?_step_opening hblock h)
    | name hexpects hnames hread =>
      obtain ⟨n, hsegment⟩ := segment_name hblock hexpects hnames hread
      exact ⟨_, rfl, Nat.le_refl _, hopened, hsegment⟩
    | shape shape hshape hread =>
      obtain ⟨n, hsegment⟩ := segment_shape hblock hshape hread
      exact ⟨_, rfl, Nat.le_refl _, hopened, hsegment⟩
  | some b =>
    obtain ⟨body, closing, more, rfl, hbody, hclosing⟩ := exists_closing hopened hafter
    have hbodyBreak : ∀ raw ∈ body, '\n' ∉ raw.toList := fun r hr => hbreak r (by simp [hr])
    have hlines : raw :: (body ++ closing :: more) = (raw :: (body ++ [closing])) ++ more := by simp
    have hmore : more.length ≤ (body ++ closing :: more).length := by simp; omega
    cases hline with
    | blank h => cases hopened.symm.trans (block?_step_blank hblock h)
    | opening h =>
      obtain ⟨hclosed, slots, hsegment⟩ := segment_opening hblock h hbody hbodyBreak hclosing
      exact ⟨_, more, slots, hlines, hmore, hclosed, hsegment⟩
    | name hexpects hnames hread =>
      cases hopened.symm.trans (block?_step_name hblock hexpects hnames)
    | shape shape hshape hread =>
      obtain ⟨hclosed, slots, hsegment⟩ :=
        segment_inline hblock hshape hread hopened hbody hbodyBreak hclosing
      exact ⟨_, more, slots, hlines, hmore, hclosed, hsegment⟩

end

/-- A run in which nothing is wrong is made of segments. -/
theorem segment_run {a : Analysis} (hblock : a.reader.block? = none) {lines : List String}
    (hclean : (lines.foldl step a).reader.diagnostics = [])
    (hafter : (lines.foldl step a).reader.block? = none)
    (hbreak : ∀ raw ∈ lines, '\n' ∉ raw.toList) : ∃ slots, Segment a lines slots := by
  induction hn : lines.length using Nat.strongRecOn generalizing a lines with
  | ind n ih =>
    cases lines with
    | nil => exact ⟨[], Segment.nil a⟩
    | cons raw rest =>
      obtain ⟨front, more, slots, hlines, hmore, hfront, hsegment⟩ :=
        exists_segment hblock hclean hafter fun r hr => hbreak r (by simp [hr])
      rw [hlines] at hclean hafter hbreak ⊢
      rw [List.foldl_append] at hclean hafter
      have hlength : more.length < n := by
        rw [← hn, List.length_cons]
        omega
      obtain ⟨slots', hsegment'⟩ := ih more.length hlength hfront hclean hafter
        (fun r hr => hbreak r (by simp [hr])) rfl
      exact ⟨slots ++ slots', hsegment.append hsegment'⟩

end LineGrammar
