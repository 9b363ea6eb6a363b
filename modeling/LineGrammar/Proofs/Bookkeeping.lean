import LineGrammar.Analysis
import LineGrammar.Proofs.LineRegistration
import LineGrammar.Proofs.NodeDefinitions

/-! The books of an analysis. Whatever has been read, the index records the definitions of the nodes
placed so far, in the order of their lines, and what waits is what these nodes owe. A block is
entered when it is closed, but placed where it was opened; the books still balance because its slot
was kept for it and no line between defined anything. -/

namespace LineGrammar

open Index

/-- The index agrees with the nodes. -/
structure Books (ix : Index) (nodes : List Node) : Prop where
  records : ix.Records (nodes.flatMap Node.definitions)
  sound : SoundLog (nodes.flatMap Node.definitions)
  owed : ∀ missing : Symbol → Bool, ix.Covered missing →
    ix.owed missing = (obligationsFrom [] nodes).filter fun use => missing use.symbol

theorem books_nil : Books {} [] := ⟨records_nil, soundLog_nil, fun _ _ => rfl⟩

/-- A line that gives a node. -/
theorem Books.node {line : Line} {ix : Index} {nodes : List Node} {r : Reading Node}
    (h : Books ix nodes) (hr : Registers line ix r) : Books r.index (nodes ++ [r.node]) := by
  have hlog : (nodes ++ [r.node]).flatMap Node.definitions =
      nodes.flatMap Node.definitions ++ r.node.definitions := by simp
  have hrecords := h.records.append hr.buckets
  refine ⟨by rw [hlog]; exact hrecords, by rw [hlog]; exact hr.sound _ h.records h.sound, ?_⟩
  intro missing hc
  rw [hr.owes missing _ h.records h.sound hc, h.owed missing (.of_records h.records hrecords hc),
    obligationsFrom_concat, List.filter_append]
  rfl

theorem CodeBlock.fits_definitions {b : CodeBlock} {d : Definition} (h : d ∈ b.definitions) :
    d.Fits ∧ d.symbol.kind ≠ .function := by
  obtain ⟨name, -, -, -, rfl⟩ := CodeBlock.mem_definitions.1 h
  simp [Definition.Fits, Symbol.codeBlock]

/-- A block that is placed among the nodes and entered at the end of the index. -/
theorem Books.block {ix : Index} {nodes nodes' : List Node} {b : CodeBlock} (h : Books ix nodes)
    (hlog : nodes'.flatMap Node.definitions = nodes.flatMap Node.definitions ++ b.definitions)
    (howed : obligationsFrom [] nodes' = obligationsFrom [] nodes) :
    Books (ix.enterAll b.definitions) nodes' := by
  refine ⟨?_, ?_, fun missing hc => ?_⟩
  · rw [hlog]; exact h.records.append (buckets_enterAll ..)
  · rw [hlog]
    exact h.sound.append (fun d hd => (CodeBlock.fits_definitions hd).1)
      fun d hd => (CodeBlock.fits_definitions hd).2
  · obtain ⟨hentered, hc⟩ := hc.enterAll h.records rfl
    rw [hentered, h.owed missing hc, howed]

/-- The slot that is kept for a block: the pragma that opened it, or nothing yet. -/
def Keeps (b : CodeBlock) (slot : Option Node) : Prop :=
  if b.isInline then
    ∃ p walker, slot = some (.pragma p) ∧ p.body = .members walker (some b.opening) none
  else slot = none

/-- The block is open, its slot is kept for it, and the slots after it are empty. -/
def Reserved (b : CodeBlock) (slots : List (Option Node)) : Prop :=
  b.closing = none ∧ ∃ front slot k, slots = front ++ slot :: List.replicate k none ∧
    front.length = b.startLine ∧ Keeps b slot

theorem Reserved.empty {b : CodeBlock} {slots : List (Option Node)} (h : Reserved b slots) :
    Reserved b (slots ++ [none]) := by
  obtain ⟨hopen, front, slot, k, rfl, hlength, hslot⟩ := h
  refine ⟨hopen, front, slot, k + 1, ?_, hlength, hslot⟩
  rw [List.append_assoc, List.cons_append, ← List.replicate_succ']

/-- The block goes into its slot, and nothing else changes for it. -/
theorem Keeps.placeBlock {b block : CodeBlock} {slot : Option Node} (h : Keeps b slot)
    (hinline : block.isInline = b.isInline) :
    (∀ n ∈ slot, n.definitions = [] ∧ ∀ above, n.obligations above = []) ∧
    ∃ n, placeBlock block slot = some n ∧ n.definitions = block.definitions ∧
      ∀ above, n.obligations above = [] := by
  unfold Keeps at h
  split at h
  · next hb =>
    obtain ⟨p, walker, rfl, hbody⟩ := h
    refine ⟨by simp [Node.definitions, Pragma.definitions, Node.obligations, hbody,
      PragmaBody.obligations], ?_⟩
    refine ⟨.pragma { p with body := .members walker (some b.opening) (some block) }, ?_, rfl,
      fun above => rfl⟩
    simp [LineGrammar.placeBlock, hinline, hb, Pragma.attach?, hbody]
  · subst h
    exact ⟨by simp, .block block, rfl, rfl, fun above => rfl⟩

theorem modify_append_cons {α : Type} (f : α → α) (front : List α) (x : α) (rest : List α) :
    (front ++ x :: rest).modify front.length f = front ++ f x :: rest := by
  induction front with
  | nil => rfl
  | cons y front ih => simp [ih]

/-- Placing a block into the slot that is kept for it. -/
theorem Reserved.place {b block : CodeBlock} {slots : List (Option Node)} (h : Reserved b slots)
    (hopening : block.opening = b.opening) (hinline : block.isInline = b.isInline) :
    ((slots.modify block.startLine (placeBlock block)).filterMap id).flatMap Node.definitions =
        (slots.filterMap id).flatMap Node.definitions ++ block.definitions ∧
      obligationsFrom [] ((slots.modify block.startLine (placeBlock block)).filterMap id) =
        obligationsFrom [] (slots.filterMap id) := by
  obtain ⟨-, front, slot, k, rfl, hlength, hslot⟩ := h
  obtain ⟨hbefore, n, hplace, hdefinitions, hobligations⟩ := hslot.placeBlock hinline
  have hstart : block.startLine = front.length := by
    rw [hlength, CodeBlock.startLine, hopening]; rfl
  rw [hstart, modify_append_cons, hplace]
  cases slot with
  | none =>
    simp [hdefinitions, obligationsFrom_concat, hobligations]
  | some m =>
    obtain ⟨hdm, hom⟩ := hbefore m rfl
    simp [hdefinitions, obligationsFrom_concat, hobligations, hdm, hom]

namespace Reader

@[simp] theorem diagnostics_follow (s : Sequel) (r : Reader) :
    (r.follow s).diagnostics = r.diagnostics := by cases s <;> rfl

/-- Only a line that opens a block by itself changes which block is open. -/
theorem block?_follow {s : Sequel} {r : Reader} {b : CodeBlock} (h : (r.follow s).block? = some b) :
    s = .body b ∨ r.block? = some b := by
  cases s with
  | body block => exact Or.inl (by rw [Option.some.inj h])
  | _ => exact Or.inr h

@[simp] theorem block?_abandonBlock (r : Reader) : r.abandonBlock.block? = r.block? := by
  unfold abandonBlock refuseRule
  split <;> try rfl
  split <;> rfl

@[simp] theorem line_abandonBlock (r : Reader) : r.abandonBlock.line = r.line := by
  unfold abandonBlock refuseRule
  split <;> try rfl
  split <;> rfl

theorem quiet_foldl_report {causes : List Cause} (h : ∀ cause ∈ causes, cause.code ≠ "W0301")
    {r : Reader} (hr : Quiet r.diagnostics) :
    Quiet (causes.foldl (fun r cause => r.report cause) r).diagnostics := by
  induction causes generalizing r with
  | nil => exact hr
  | cons cause rest ih =>
    exact ih (fun c hc => h c (by simp [hc])) (hr.append (quiet_of (h cause (by simp)) _))

theorem quiet_abandonBlock {r : Reader} (h : Quiet r.diagnostics) :
    Quiet r.abandonBlock.diagnostics := by
  unfold abandonBlock refuseRule
  split
  · split
    · exact h.append (quiet_of (by simp [Cause.code]) _)
    · exact h
  · exact h

end Reader

structure Accounted (a : Analysis) : Prop where
  books : Books a.index (a.slots.toList.filterMap id)
  reserved : ∀ b, a.reader.block? = some b → Reserved b a.slots.toList
  quiet : Quiet a.reader.diagnostics

/-- The uses without a definition are those that the nodes owe. -/
theorem Accounted.unresolved_eq {a : Analysis} (h : Accounted a) :
    a.index.unresolved = (obligationsFrom [] (a.slots.toList.filterMap id)).filter
      fun use => !a.index.isDefined use.symbol :=
  h.books.owed (fun s => !a.index.isDefined s) fun s hs => by simp [hs]

theorem accounted_empty : Accounted {} := ⟨books_nil, by simp, quiet_nil⟩

/-- A change that leaves the index, the slots and the open block alone. -/
theorem Accounted.same {a a' : Analysis} (h : Accounted a) (hindex : a'.index = a.index)
    (hslots : a'.slots = a.slots) (hblock : a'.reader.block? = a.reader.block?)
    (hquiet : Quiet a'.reader.diagnostics) : Accounted a' :=
  ⟨by rw [hindex, hslots]; exact h.books, by rw [hblock, hslots]; exact h.reserved, hquiet⟩

theorem Accounted.report {a : Analysis} (h : Accounted a) {cause : Cause}
    (hcause : cause.code ≠ "W0301") : Accounted (a.report cause) :=
  h.same rfl rfl rfl (h.quiet.append (quiet_of hcause _))

/-- A line without a node. -/
theorem Accounted.emptyLine {a : Analysis} (h : Accounted a) : Accounted (a.endLine none) := by
  refine ⟨?_, fun b hb => ?_, h.quiet⟩
  · simpa [Analysis.endLine] using h.books
  · simpa [Analysis.endLine] using (h.reserved b hb).empty

/-- An analysis that has come to a line outside of all blocks. -/
structure AtLine (a : Analysis) : Prop where
  accounted : Accounted a
  outside : a.reader.block? = none
  number : a.reader.line.number = a.slots.size

theorem AtLine.same {a a' : Analysis} (h : AtLine a) (hindex : a'.index = a.index)
    (hslots : a'.slots = a.slots) (hblock : a'.reader.block? = a.reader.block?)
    (hline : a'.reader.line = a.reader.line) (hquiet : Quiet a'.reader.diagnostics) : AtLine a' :=
  ⟨h.accounted.same hindex hslots hblock hquiet, hblock.trans h.outside,
    by rw [hline, hslots]; exact h.number⟩

theorem AtLine.leaveName {a : Analysis} (h : AtLine a) : AtLine a.leaveName := by
  unfold Analysis.leaveName
  split
  · dsimp only
    split <;> exact h.same rfl rfl rfl rfl h.accounted.quiet
  · exact h

theorem AtLine.checkExpectation {a : Analysis} (h : AtLine a) : AtLine a.checkExpectation := by
  unfold Analysis.checkExpectation
  dsimp only
  split
  · exact h
  · split
    · refine h.same rfl rfl (Reader.block?_abandonBlock _) (Reader.line_abandonBlock _)
        (Reader.quiet_abandonBlock ?_)
      exact h.accounted.quiet.append (quiet_of (by simp [Cause.code]) _)
    · split
      · exact h
      · exact h.same rfl rfl rfl rfl h.accounted.quiet

theorem AtLine.accept {a : Analysis} (h : AtLine a) {r : Reading Node}
    (hr : Registers a.reader.line a.index r) : Accounted (a.accept r) := by
  refine ⟨?_, fun b hb => ?_, ?_⟩
  · simpa [Analysis.accept, Analysis.endLine] using h.accounted.books.node hr
  · rcases Reader.block?_follow hb with hs | hb
    · obtain ⟨p, walker, hnode, hbody, hopening, hinline, hclosing, -⟩ := hr.opens b hs
      refine ⟨hclosing, a.slots.toList, some r.node, 0, by simp [Analysis.accept, Analysis.endLine],
        ?_, ?_⟩
      · rw [CodeBlock.startLine, hopening, h.number, Array.length_toList]
      · rw [Keeps, if_pos hinline]
        exact ⟨p, walker, by rw [hnode], hbody⟩
    · exact absurd (h.outside.symm.trans hb) (by simp)
  · change Quiet ((a.reader.reportAll r.problems).follow r.sequel).diagnostics
    rw [Reader.diagnostics_follow]
    exact h.accounted.quiet.append hr.quiet

/-- A block that opens on a line of its own keeps the empty slot of this line. -/
theorem AtLine.openBlock {a : Analysis} (h : AtLine a) : Accounted (a.openBlock.endLine none) := by
  refine ⟨?_, fun b hb => ?_, ?_⟩
  · simpa [Analysis.openBlock, Analysis.endLine] using h.accounted.books
  · cases hb
    refine ⟨rfl, a.slots.toList, none, 0, by simp [Analysis.openBlock, Analysis.endLine], ?_, ?_⟩
    · rw [Array.length_toList, ← h.number]; rfl
    · rw [Keeps, if_neg (by simp)]
  · unfold Analysis.openBlock
    cases howner : blockOwner a.reader a.index a.lateBlock with
    | ok owner => exact h.accounted.quiet
    | error causes =>
      refine Reader.quiet_foldl_report ?_ h.accounted.quiet
      unfold blockOwner at howner
      dsimp only at howner
      split at howner
      · cases howner
      · split at howner
        · split at howner <;> cases howner
          simp [Cause.code]
        · cases howner
          split <;> simp [Cause.code]

theorem AtLine.dispatch {a : Analysis} (h : AtLine a) : Accounted a.dispatch := by
  unfold Analysis.dispatch
  dsimp only
  split
  · exact h.accounted.emptyLine
  · split
    · exact h.openBlock
    · split
      · exact (h.accounted.report (by simp [Cause.code])).emptyLine
      · split
        · exact (h.accounted.report (by simp [Cause.code])).emptyLine
        · split
          · next hshape => exact h.accept (registers_read hshape)
          · exact (h.accounted.report (by simp [Cause.code])).emptyLine

theorem expectMore_spec (block : CodeBlock) (r : Reader) :
    (Analysis.expectMore block r).block? = r.block? ∧
      (Analysis.expectMore block r).diagnostics = r.diagnostics := by
  unfold Analysis.expectMore
  split <;> exact ⟨rfl, rfl⟩

theorem Accounted.place {a : Analysis} {b block : CodeBlock} (h : Accounted a)
    (hb : a.reader.block? = some b) (hopening : block.opening = b.opening)
    (hinline : block.isInline = b.isInline) {reader : Reader} (hreader : reader.block? = none)
    (hquiet : Quiet reader.diagnostics) :
    Accounted (Analysis.place block
      { a with reader, index := a.index.enterAll block.definitions }) := by
  obtain ⟨hlog, howed⟩ := (h.reserved b hb).place hopening hinline
  refine ⟨?_, fun c hc => absurd (hreader.symm.trans hc) (by simp), hquiet⟩
  simp only [Analysis.place, Array.toList_modify]
  exact h.books.block hlog howed

/-- Marking a block that is implemented from outside keeps its place. -/
theorem Accounted.rejectExternal {a : Analysis} (h : Accounted a) (block : CodeBlock) :
    ∃ block' a', a.rejectExternal block = (block', a') ∧ block'.opening = block.opening ∧
      block'.isInline = block.isInline ∧ Accounted a' ∧ a'.reader.block? = a.reader.block? := by
  unfold Analysis.rejectExternal
  split
  · exact ⟨_, _, rfl, rfl, rfl,
      h.same rfl rfl rfl (h.quiet.append (quiet_of (by simp [Cause.code]) _)), rfl⟩
  · exact ⟨_, _, rfl, rfl, rfl, h, rfl⟩

theorem Accounted.closeBlock {a : Analysis} (h : Accounted a) {b : CodeBlock}
    (hb : a.reader.block? = some b) : Accounted (a.closeBlock b) := by
  obtain ⟨block, a', hreject, hopening, hinline, h', hb'⟩ :=
    h.rejectExternal (b.close a.reader.line.whole)
  obtain ⟨hblock, hdiagnostics⟩ := expectMore_spec block a'.reader.dropBlock
  rw [Analysis.closeBlock, hreject]
  exact h'.place (hb'.trans hb) hopening hinline hblock (by rw [hdiagnostics]; exact h'.quiet)

theorem Accounted.pushLine {a : Analysis} (h : Accounted a) :
    Accounted { a with reader := a.reader.pushLine } := by
  refine ⟨h.books, fun c hc => ?_, h.quiet⟩
  obtain ⟨b, hb, rfl⟩ := Option.map_eq_some_iff.1 hc
  exact h.reserved b hb

theorem Accounted.step {a : Analysis} (h : Accounted a) (raw : String) : Accounted (a.step raw) := by
  unfold Analysis.step
  dsimp only
  have hmoved : Accounted { a with reader := a.reader.moveTo { number := a.slots.size, raw } } :=
    h.same rfl rfl rfl h.quiet
  split
  · next b hb =>
    split
    · exact (hmoved.closeBlock hb).emptyLine
    · exact hmoved.pushLine.emptyLine
  · next hb =>
    have hline : AtLine { a with reader := a.reader.moveTo { number := a.slots.size, raw } } :=
      ⟨hmoved, hb, rfl⟩
    split
    · exact hline.accept (registers_blockName _ _ _)
    · exact hline.leaveName.checkExpectation.dispatch

theorem Accounted.checkLimit {a : Analysis} (h : Accounted a) (limit : Nat) :
    Accounted (a.checkLimit limit) := by
  unfold Analysis.checkLimit
  split
  · exact h.same rfl rfl rfl (h.quiet.append (quiet_of (by simp [Cause.code]) _))
  · exact h

theorem Accounted.advance {a : Analysis} (h : Accounted a) (limit : Nat) (raw : String) :
    Accounted (a.advance limit raw) := by
  unfold Analysis.advance
  split
  · exact h.emptyLine
  · exact (h.step raw).checkLimit limit

theorem accounted_run (limit : Nat) (lines : List String) : Accounted (Analysis.run limit lines) := by
  have hfrom : ∀ a : Analysis, Accounted a → Accounted (lines.foldl (Analysis.advance limit) a) := by
    induction lines with
    | nil => exact fun a h => h
    | cons raw rest ih => exact fun a h => ih _ (h.advance limit raw)
  exact hfrom {} accounted_empty

/-- Also when the last block is still open: then it is placed as it is and defines nothing. -/
theorem Accounted.conclude {a : Analysis} (h : Accounted a) : Accounted a.conclude := by
  unfold Analysis.conclude
  split
  · next b hb =>
    have hnone : b.definitions = [] := by
      simp only [CodeBlock.definitions, CodeBlock.isClosed, (h.reserved b hb).1]
      split <;> rfl
    have hquiet : Quiet (if a.aborted then a.reader
        else a.reader.reportAt .unclosedBlock b.opening.span).diagnostics := by
      split
      · exact h.quiet
      · exact h.quiet.append (quiet_of (by simp [Cause.code]) _)
    generalize (if a.aborted then a.reader
      else a.reader.reportAt .unclosedBlock b.opening.span) = reader at hquiet
    have hplace := h.place hb rfl rfl (show reader.dropBlock.block? = none from rfl) hquiet
    rw [hnone] at hplace
    exact hplace
  · next hb =>
    split
    · refine h.same rfl rfl (Reader.block?_abandonBlock _) (Reader.quiet_abandonBlock ?_)
      exact h.quiet.append (quiet_of (by simp [Cause.code]) _)
    · exact h

end LineGrammar
