import LineGrammar.Analysis
import LineGrammar.Proofs.RecastNodes

/-! An analysis told again with other places. Apart from the current line nothing in it depends on them, so
every operation that does not look at that line can be done on the analysis told again. -/

namespace LineGrammar

def Reader.recast (ρ : Recast) (r : Reader) : Reader :=
  { r with
    line := ρ.line r.line
    rule? := r.rule?.map (OpenRule.recast ρ)
    block? := r.block?.map (CodeBlock.recast ρ)
    diagnostics := r.diagnostics.map (Diagnostic.recast ρ) }

def Analysis.recast (ρ : Recast) (a : Analysis) : Analysis :=
  { a with
    reader := a.reader.recast ρ
    index := a.index.recast ρ
    slots := a.slots.map (Option.map (Node.recast ρ)) }

def Document.recast (ρ : Recast) (d : Document) : Document :=
  { d with
    nodes := d.nodes.map (Option.map (Node.recast ρ))
    index := d.index.recast ρ
    diagnostics := d.diagnostics.map (Diagnostic.recast ρ) }

/-- The line is told again with its own place. -/
def Recast.KeepsLine (ρ : Recast) (l : Line) : Prop := ρ.span l.span = (ρ.line l).span

variable {ρ : Recast}

namespace Reader

theorem recast_reportAll (ds : List Diagnostic) (r : Reader) :
    (r.reportAll ds).recast ρ = (r.recast ρ).reportAll (ds.map (Diagnostic.recast ρ)) := by
  simp [reportAll, recast]

theorem recast_reportAt (cause : Cause) (span : Span) (r : Reader) :
    (r.reportAt cause span).recast ρ = (r.recast ρ).reportAt cause (ρ.span span) :=
  recast_reportAll _ r

theorem recast_report {r : Reader} (h : ρ.KeepsLine r.line) (cause : Cause) :
    (r.report cause).recast ρ = (r.recast ρ).report cause := by
  rw [report, recast_reportAt, show ρ.span r.line.span = (ρ.line r.line).span from h]
  rfl

theorem recast_foldl_report {r : Reader} (h : ρ.KeepsLine r.line) (causes : List Cause) :
    (causes.foldl (fun r cause => r.report cause) r).recast ρ =
      causes.foldl (fun r cause => r.report cause) (r.recast ρ) := by
  induction causes generalizing r with
  | nil => rfl
  | cons cause rest ih =>
    have hline : ρ.KeepsLine (r.report cause).line := h
    rw [List.foldl_cons, List.foldl_cons, ih hline, recast_report h]

theorem recast_refuseRule (r : Reader) :
    r.refuseRule.recast ρ = (r.recast ρ).refuseRule := by
  obtain ⟨current, rule?, block?, target?, expectsName, expectsBlock, diagnostics⟩ := r
  cases rule? with
  | none => rfl
  | some rule =>
    have h := recast_reportAt (ρ := ρ) (.ruleNeedsBlock rule.name.text) rule.span
      ⟨current, some rule, block?, target?, expectsName, expectsBlock, diagnostics⟩
    exact congrArg finishRule h

theorem recast_abandonBlock (r : Reader) :
    r.abandonBlock.recast ρ = (r.recast ρ).abandonBlock := by
  have hrefuse := recast_refuseRule (ρ := ρ) r
  unfold abandonBlock
  cases hr : r.rule? with
  | none =>
    have hnone : (r.recast ρ).rule? = none := by rw [recast, hr]; rfl
    rw [hnone]; rfl
  | some rule =>
    have hsome : (r.recast ρ).rule? = some (rule.recast ρ) := by rw [recast, hr]; rfl
    rw [hsome]
    by_cases hb : rule.blocks = 0
    · dsimp only [OpenRule.recast]
      rw [if_pos hb, if_pos hb, hrefuse]
    · dsimp only [OpenRule.recast]
      rw [if_neg hb, if_neg hb]
      rfl

theorem recast_countBlock (r : Reader) : r.countBlock.recast ρ = (r.recast ρ).countBlock := by
  unfold countBlock recast
  cases r.rule? <;> rfl

theorem recast_follow (sequel : Sequel) (r : Reader) :
    (r.follow sequel).recast ρ = (r.recast ρ).follow (sequel.recast ρ) := by
  cases sequel <;> rfl

end Reader

theorem Pragma.attach?_recast (p : Pragma) (block : CodeBlock) :
    (p.recast ρ).attach? (block.recast ρ) = (p.attach? block).map (Pragma.recast ρ) := by
  obtain ⟨mark, name, parameters, keyword?, body, span⟩ := p
  cases body with
  | members walker opening attached => cases opening <;> cases attached <;> rfl
  | _ => rfl

theorem recast_placeBlock (block : CodeBlock) (slot : Option Node) :
    (placeBlock block slot).map (Node.recast ρ) =
      placeBlock (block.recast ρ) (slot.map (Node.recast ρ)) := by
  cases slot with
  | none => rfl
  | some n =>
    cases n with
    | pragma p =>
      have hinline : (block.recast ρ).isInline = block.isInline := rfl
      dsimp only [placeBlock, Option.map_some, Node.recast]
      rw [hinline, Pragma.attach?_recast]
      split
      · cases p.attach? block <;> rfl
      · rfl
    | _ => rfl

theorem map_modify {α β : Type} {f : α → α} {g : β → β} {c : α → β} (h : ∀ x, c (f x) = g (c x))
    (i : Nat) (l : List α) : (l.modify i f).map c = (l.map c).modify i g := by
  induction l generalizing i with
  | nil => simp
  | cons x l ih =>
    cases i with
    | zero => simp [h]
    | succ i => simp [ih]

theorem blockOwner_recast (r : Reader) (ix : Index) (lateBlock : Bool) :
    blockOwner (r.recast ρ) (ix.recast ρ) lateBlock = blockOwner r ix lateBlock := by
  obtain ⟨current, rule?, block?, target?, expectsName, expectsBlock, diagnostics⟩ := r
  cases target? <;> cases rule? <;> rfl

namespace Analysis

theorem recast_endLine (node? : Option Node) (a : Analysis) :
    (a.endLine node?).recast ρ = (a.recast ρ).endLine (node?.map (Node.recast ρ)) := by
  simp [endLine, recast, Array.map_push]

theorem recast_accept (reading : Reading Node) (a : Analysis) :
    (a.accept reading).recast ρ =
      (a.recast ρ).accept (reading.recast ρ (Node.recast ρ)) := by
  unfold accept
  rw [recast_endLine]
  dsimp only [recast, Reading.recast, Option.map_some]
  rw [Reader.recast_follow, Reader.recast_reportAll]

theorem recast_place {block : CodeBlock} (h : (block.recast ρ).startLine = block.startLine)
    (a : Analysis) : (place block a).recast ρ = place (block.recast ρ) (a.recast ρ) := by
  have hslots : (a.slots.modify block.startLine (placeBlock block)).map (Option.map (Node.recast ρ)) =
      (a.slots.map (Option.map (Node.recast ρ))).modify block.startLine
        (placeBlock (block.recast ρ)) := by
    apply Array.toList_inj.1
    rw [Array.toList_map, Array.toList_modify, Array.toList_modify, Array.toList_map]
    exact map_modify (recast_placeBlock block) _ _
  unfold place recast
  dsimp only
  rw [h, hslots]

/-- Opens a block whose mark is given. -/
def openAt (opening : Lexeme) (a : Analysis) : Analysis :=
  let (reader, name, walker) :=
    match blockOwner a.reader a.index a.lateBlock with
    | .ok (name, walker) => (a.reader, some name, some walker)
    | .error causes => (causes.foldl (fun r cause => r.report cause) a.reader, none, none)
  { a with
    reader := (reader.aimAt none).openBlock { opening, name, walker, isInline := false }
    lateBlock := false }

theorem openBlock_eq (a : Analysis) : a.openBlock = a.openAt a.reader.line.whole := rfl

theorem recast_openAt {a : Analysis} (h : ρ.KeepsLine a.reader.line) (opening : Lexeme) :
    (a.openAt opening).recast ρ = (a.recast ρ).openAt (opening.recast ρ) := by
  have hempty : ∀ name walker, CodeBlock.recast ρ { opening, name, walker, isInline := false } =
      { opening := opening.recast ρ, name, walker, isInline := false } := by
    intro name walker
    simp only [CodeBlock.recast, ρ.body_nil, Option.map_none]
  have howner : blockOwner (a.recast ρ).reader (a.recast ρ).index (a.recast ρ).lateBlock =
      blockOwner a.reader a.index a.lateBlock := blockOwner_recast _ _ _
  unfold openAt
  rw [howner]
  cases blockOwner a.reader a.index a.lateBlock with
  | ok owner =>
    dsimp only
    rw [← hempty]
    rfl
  | error causes =>
    have hreports := Reader.recast_foldl_report h causes
    dsimp only [recast] at hreports ⊢
    rw [← hreports, ← hempty]
    rfl

/-- Ends a block that has been closed. -/
def settleBlock (block : CodeBlock) (a : Analysis) : Analysis :=
  let (block, a) := a.rejectExternal block
  place block
    { a with
      reader := expectMore block a.reader.dropBlock
      index := a.index.enterAll block.definitions }

theorem closeBlock_eq (block : CodeBlock) (a : Analysis) :
    a.closeBlock block = a.settleBlock (block.close a.reader.line.whole) := rfl

theorem recast_rejectExternal (block : CodeBlock) (a : Analysis) :
    (a.recast ρ).rejectExternal (block.recast ρ) =
      ((a.rejectExternal block).1.recast ρ, (a.rejectExternal block).2.recast ρ) := by
  obtain ⟨opening, closing, name, walker, body, isInline, external⟩ := block
  cases walker with
  | none => rfl
  | some walker =>
    have hinterface := a.index.interfaceOf_recast ρ walker
    unfold rejectExternal
    dsimp only [CodeBlock.recast, recast, Option.bind_some]
    rw [hinterface]
    cases a.index.interfaceOf walker with
    | none => rfl
    | some interface =>
      dsimp only
      rw [Reader.recast_reportAt]
      rfl

theorem recast_expectMore (block : CodeBlock) (r : Reader) :
    (expectMore block r).recast ρ = expectMore (block.recast ρ) (r.recast ρ) := by
  have hrule : (r.recast ρ).rule?.isSome = r.rule?.isSome := Option.isSome_map
  have hinline : (block.recast ρ).isInline = block.isInline := rfl
  unfold expectMore
  rw [hrule, hinline]
  split
  · rw [← Reader.recast_countBlock]; rfl
  · rfl

theorem recast_settleBlock {block : CodeBlock} (hstart : (block.recast ρ).startLine = block.startLine)
    (hspan : (block.recast ρ).span = ρ.span block.span) (a : Analysis) :
    (a.settleBlock block).recast ρ = (a.recast ρ).settleBlock (block.recast ρ) := by
  have hreject : (a.rejectExternal block).1.opening = block.opening ∧
      (a.rejectExternal block).1.closing = block.closing := by
    unfold rejectExternal
    split <;> exact ⟨rfl, rfl⟩
  unfold settleBlock
  rw [recast_rejectExternal]
  generalize a.rejectExternal block = rejected at hreject ⊢
  obtain ⟨settled, a⟩ := rejected
  obtain ⟨hopening, hclosing⟩ := hreject
  dsimp only at hopening hclosing ⊢
  have hstart' : (settled.recast ρ).startLine = settled.startLine := by
    rw [CodeBlock.startLine, CodeBlock.recast, CodeBlock.startLine, hopening]
    exact hstart
  have hspan' : (settled.recast ρ).span = ρ.span settled.span := by
    rw [CodeBlock.span, CodeBlock.recast, CodeBlock.span, hopening, hclosing]
    exact hspan
  rw [recast_place hstart']
  dsimp only [recast]
  rw [recast_expectMore, Index.recast_enterAll, ← CodeBlock.definitions_recast ρ hspan']
  rfl

/-- Comes to the next line. -/
def moveTo (raw : String) (a : Analysis) : Analysis :=
  { a with reader := a.reader.moveTo { number := a.slots.size, raw } }

theorem recast_leaveName (a : Analysis) : a.leaveName.recast ρ = (a.recast ρ).leaveName := by
  unfold leaveName
  have hname : (a.recast ρ).reader.expectsName = a.reader.expectsName := rfl
  have hblock : (a.recast ρ).reader.expectsBlock = a.reader.expectsBlock := rfl
  rw [hname]
  split
  · dsimp only
    rw [hblock]
    split <;> rfl
  · rfl

/-- Reports a block that does not come on a line that opens one or not, and is blank or not. -/
def expectBlock (opens blank : Bool) (a : Analysis) : Analysis :=
  if opens then a
  else if a.reader.expectsBlock then
    { a with reader := (a.reader.report .blockExpected).abandonBlock, lateBlock := blank }
  else if blank then a
  else { a with lateBlock := false }

theorem checkExpectation_eq (a : Analysis) :
    a.checkExpectation = a.expectBlock a.reader.line.opensBlock a.reader.line.isBlank := rfl

theorem recast_expectBlock {a : Analysis} (h : ρ.KeepsLine a.reader.line)
    (opens blank : Bool) :
    (a.expectBlock opens blank).recast ρ = (a.recast ρ).expectBlock opens blank := by
  have hblock : (a.recast ρ).reader.expectsBlock = a.reader.expectsBlock := rfl
  unfold expectBlock
  rw [hblock]
  split
  · rfl
  · split
    · dsimp only [recast]
      rw [Reader.recast_abandonBlock, Reader.recast_report h]
    · split <;> rfl

end Analysis

end LineGrammar
