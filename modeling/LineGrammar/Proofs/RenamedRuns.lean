import LineGrammar.Proofs.BodyNames
import LineGrammar.Proofs.Positions
import LineGrammar.Proofs.RenamedReadings

/-! The analysis of a document whose names are renamed. What it remembers after each line follows what the
analysis of the document as it stood remembers there, and it reports nothing if that reports nothing. -/

namespace LineGrammar

theorem Placed.references {b block : CodeBlock} {slot : Option Node} {n : Node}
    (h : Placed b block slot n) : slot.toList.flatMap Node.references = n.references := by
  cases h with
  | alone => rfl
  | attached p walker hkind hbody => simp [Node.references, Pragma.references, hbody]

namespace Analysis

/-- The names that have been read on a line, with what they stand for. -/
def referencesOn (a : Analysis) (line : Nat) : List (Lexeme × Symbol) :=
  a.slots.toList[line]?.join.toList.flatMap Node.references

theorem node_push {a a' : Analysis} {node? : Option Node} (h : a'.slots = a.slots.push node?) :
    a'.slots.toList[a.slots.size]?.join = node? := by
  rw [h, Array.toList_push, ← Array.length_toList, List.getElem?_concat_length, Option.join_some]

theorem referencesOn_push {a a' : Analysis} {node? : Option Node} (h : a'.slots = a.slots.push node?) :
    (∀ line < a.slots.size, a'.referencesOn line = a.referencesOn line) ∧
      a'.referencesOn a.slots.size = node?.toList.flatMap Node.references := by
  refine ⟨fun line hlt => ?_, by rw [referencesOn, node_push h]⟩
  rw [referencesOn, referencesOn, h, Array.toList_push, List.getElem?_append_left (by simpa using hlt)]

/-- A line that opens a block refers to nothing. -/
theorem referencesOn_opening {a c : Analysis} (hslots : c.slots = a.slots) (opening : Lexeme) :
    ((c.openAt opening).endLine none).referencesOn a.slots.size = [] := by
  have hpush : ((c.openAt opening).endLine none).slots = a.slots.push none := hslots ▸ rfl
  exact (referencesOn_push hpush).2

/-- A block that is put into its slot leaves the references alone. -/
theorem referencesOn_closing {a : Analysis} (h : Accounted a) {b : CodeBlock}
    (hblock : a.reader.block? = some b) (raw : String) :
    (∀ line < a.slots.size,
      (((a.moveTo raw).closeBlock b).endLine none).referencesOn line = a.referencesOn line) ∧
    (((a.moveTo raw).closeBlock b).endLine none).referencesOn a.slots.size = [] := by
  obtain ⟨external, front, slot, k, n, slots', hfills, hslots'⟩ := slots_closing h hblock raw
  have hlength : slots'.length = a.slots.size := by
    rw [← Array.length_toList, hfills.before, hfills.after]
    simp
  simp only [referencesOn, hslots']
  refine ⟨fun line hlt => ?_, ?_⟩
  · rw [List.getElem?_append_left (by omega), hfills.before, hfills.after]
    rcases Nat.lt_trichotomy line front.length with hline | rfl | hline
    · rw [List.getElem?_append_left hline, List.getElem?_append_left hline]
    · simpa using hfills.placed.references.symm
    · obtain ⟨i, rfl⟩ := Nat.exists_eq_add_of_lt hline
      simp [List.getElem?_append_right, Nat.add_assoc]
  · rw [← hlength, List.getElem?_concat_length]
    rfl

theorem referencesOn_turn {a a' : Analysis} (h : Accounted a) {raw : String} (hturn : a.Turn raw a')
    {line : Nat} (hline : line < a.slots.size) : a'.referencesOn line = a.referencesOn line := by
  cases hblock : a.reader.block? with
  | none =>
    obtain ⟨node?, hslots⟩ := slots_turn hblock hturn
    exact (referencesOn_push hslots).1 line hline
  | some b =>
    rcases turn_inside hblock hturn with rfl | rfl
    · exact (referencesOn_push rfl).1 line hline
    · exact (referencesOn_closing h hblock raw).1 line hline

/-- The references on a line are known as soon as the line is read. -/
theorem referencesOn_after (lines rest : List String) {line : Nat} (hline : line < lines.length) :
    (after (lines ++ rest)).referencesOn line = (after lines).referencesOn line := by
  induction rest using List.reverseRecOn with
  | nil => rw [List.append_nil]
  | append_singleton rest raw ih =>
    rw [← List.append_assoc, after_concat, ← ih]
    refine referencesOn_turn (accounted_after _) (turn_step (coherent_after _) raw) ?_
    rw [size_after, List.length_append]
    omega

/-- A block whose walker is not implemented from outside is closed as it stands. -/
theorem closeBlock_of_own {a : Analysis} {b : CodeBlock} (h : b.walker.bind a.index.interfaceOf = none) :
    a.closeBlock b = place (b.close a.reader.line.whole)
      { a with
        reader := expectMore (b.close a.reader.line.whole) a.reader.dropBlock
        index := a.index.enterAll (b.close a.reader.line.whole).definitions } := by
  have hreject : a.rejectExternal (b.close a.reader.line.whole) = (b.close a.reader.line.whole, a) := by
    unfold rejectExternal
    rw [show (b.close a.reader.line.whole).walker = b.walker from rfl, h]
    cases b.walker <;> rfl
  rw [closeBlock, hreject]

theorem own_of_clean {a : Analysis} {b : CodeBlock} (h : (a.closeBlock b).reader.diagnostics = []) :
    b.walker.bind a.index.interfaceOf = none := by
  cases hinterface : b.walker.bind a.index.interfaceOf with
  | none => rfl
  | some interface =>
    obtain ⟨walker, hwalker, -⟩ := Option.bind_eq_some_iff.1 hinterface
    have hreports : (a.closeBlock b).reader.diagnostics =
        (a.rejectExternal (b.close a.reader.line.whole)).2.reader.diagnostics :=
      (expectMore_spec _ _).2
    have hreject : (a.rejectExternal (b.close a.reader.line.whole)).2.reader =
        a.reader.reportAt (.inlineImplementation walker interface) b.opening.span := by
      unfold rejectExternal
      rw [show (b.close a.reader.line.whole).walker = b.walker from rfl, hinterface, hwalker]
      rfl
    rw [hreports, hreject] at h
    exact absurd (List.append_eq_nil_iff.1 h).2 (by simp)

end Analysis

theorem Reserved.getElem? {b : CodeBlock} {slots : List (Option Node)} (h : Reserved b slots) :
    ∃ slot, slots[b.startLine]? = some slot ∧ Keeps b slot := by
  obtain ⟨-, front, slot, k, rfl, hlength, hslot⟩ := h
  exact ⟨slot, by simp [← hlength], hslot⟩

namespace Renaming

variable {ρ : Renaming}

/-- How a line with these references is written anew. -/
def rewriting (ρ : Renaming) (refs : List (Lexeme × Symbol)) : Rewriting where
  columns := (refs.filter fun ref => ref.2 = ρ.source).map fun ref => ref.1.start
  old := ρ.old.toList
  new := ρ.new.toList

def line (ρ : Renaming) (refs : List (Lexeme × Symbol)) (raw : String) : String :=
  String.ofList ((ρ.rewriting refs).text 0 raw.toList)

/-- A line without names stays. -/
@[simp] theorem line_nil (ρ : Renaming) (raw : String) : ρ.line [] raw = raw := by
  rw [line, Rewriting.text_of_nil rfl, String.ofList_toList]

theorem renames_of_standsOn {line line' : Line} {n : Node} (hn : n.bare.StandsOn line)
    (hfresh : ∀ ref ∈ n.references, ref.2 ≠ ρ.target) (hnumber : line'.number = line.number)
    (hraw : line'.raw = ρ.line n.references line.raw) :
    ρ.Renames (ρ.rewriting n.references) n.references line line' where
  old := rfl
  new := rfl
  columns := fun start => by
    simp only [rewriting, List.mem_map, List.mem_filter, decide_eq_true_eq, and_assoc]
  number := hnumber
  raw := by rw [hraw, Renaming.line, String.toList_ofList]
  words := fun ref href => hn.words ref.1 (Node.words_bare n ▸ Node.mem_words href)
  written := fun ref href => Node.isWritten_reference href
  distinct := fun ref href ref' href' heq => hn.eq_of_reference href href' heq
  fresh := hfresh

/-- The name of the rule that is open. -/
def openName? (r : Reader) : Option String := r.rule?.map fun rule => rule.name.text

structure SendsReader (ρ : Renaming) (r r' : Reader) : Prop where
  rule : Option.Rel ρ.SendsOpenRule r.rule? r'.rule?
  block : Option.Rel ρ.SendsBlock r.block? r'.block?
  target : Option.Rel (ρ.SendsTarget (openName? r)) r.target? r'.target?
  expectsName : r'.expectsName = r.expectsName
  expectsBlock : r'.expectsBlock = r.expectsBlock
  clean : r'.diagnostics = []

structure SendsAnalysis (ρ : Renaming) (a a' : Analysis) : Prop where
  reader : ρ.SendsReader a.reader a'.reader
  slots : List.Forall₂ (Option.Rel ρ.SendsNode) a.slots.toList a'.slots.toList
  settings : ρ.SendsSettings a.index.settings a'.index.settings
  lateBlock : a'.lateBlock = a.lateBlock

theorem sendsAnalysis_empty : ρ.SendsAnalysis {} {} where
  reader := ⟨.none, .none, .none, rfl, rfl, rfl⟩
  slots := .nil
  settings := ⟨rfl, rfl, .none, rfl⟩
  lateBlock := rfl

/-- Does what a line asks for; a rule that opens finds nothing to be implemented. -/
theorem SendsReader.follow {r r' : Reader} {s s' : Sequel} (h : ρ.SendsReader r r')
    (hs : ρ.SendsSequel (openName? r) s s') (hrule : ∀ o, s = .rule o → r.target? = none) :
    ρ.SendsReader (r.follow s) (r'.follow s') := by
  cases hs with
  | nothing => exact h
  | rule ho => exact ⟨.some ho, h.block, rel_of_none h.target (hrule _ rfl), rfl, rfl, h.clean⟩
  | body hb => exact ⟨h.rule, .some hb, h.target, rfl, rfl, h.clean⟩
  | name ht => exact ⟨h.rule, h.block, ht, rfl, rfl, h.clean⟩
  | block ht => exact ⟨h.rule, h.block, .some ht, h.expectsName, rfl, h.clean⟩

theorem SendsBlock.push {b b' : CodeBlock} (h : ρ.SendsBlock b b') (raw raw' : String) :
    ρ.SendsBlock (b.push raw) (b'.push raw') :=
  ⟨h.startLine, h.isInline, h.name, h.walker, h.external, h.external'⟩

theorem SendsBlock.definitions {b b' : CodeBlock} (h : ρ.SendsBlock b b') (mark mark' : Lexeme) :
    ρ.SendsDefinitions (b.close mark).definitions (b'.close mark').definitions := by
  have hname := h.name
  have hexternal := h.external
  have hexternal' := h.external'
  obtain ⟨opening, closing, name, walker, body, isInline, external⟩ := b
  obtain ⟨opening', closing', name', walker', body', isInline', external'⟩ := b'
  dsimp only at hname hexternal hexternal'
  subst hexternal hexternal'
  cases hname with
  | none => exact .nil
  | some hkey => exact .cons ⟨hkey, .plain⟩ .nil

/-- A block that is put into its slot. -/
theorem SendsNode.placed {b b' block block' : CodeBlock} {slot slot' : Option Node} {n n' : Node}
    (hslot : Option.Rel ρ.SendsNode slot slot')
    (hblock : ρ.SendsDefinitions block.definitions block'.definitions)
    (hn : Placed b block slot n) (hn' : Placed b' block' slot' n') : ρ.SendsNode n n' where
  references := by
    rw [← hn.references, ← hn'.references]
    cases hslot with
    | none => exact .nil
    | some h => simpa using h.references
  definitions := by
    have hsame : ∀ {b block : CodeBlock} {slot : Option Node} {n : Node}, Placed b block slot n →
        n.definitions = block.definitions := by
      intro b block slot n h
      cases h <;> rfl
    rwa [hsame hn, hsame hn']
  obligations := by
    have hnothing : ∀ {b block : CodeBlock} {slot : Option Node} {n : Node}, Placed b block slot n →
        ∀ above, n.obligations above = [] := by
      intro b block slot n h above
      cases h <;> rfl
    intro log log' _
    rw [hnothing hn, hnothing hn']
    exact .nil

theorem forall₂_modify {α β : Type} {R : α → β → Prop} {f : α → α} {g : β → β} {as : List α} {bs : List β}
    (h : List.Forall₂ R as bs) {i : Nat}
    (hfg : ∀ a b, as[i]? = some a → bs[i]? = some b → R a b → R (f a) (g b)) :
    List.Forall₂ R (as.modify i f) (bs.modify i g) := by
  induction h generalizing i with
  | nil => simp
  | cons hab hrest ih =>
    cases i with
    | zero => exact .cons (hfg _ _ rfl rfl hab) hrest
    | succ i => exact .cons hab (ih hfg)

section
variable {a b : Analysis} (h : ρ.SendsAnalysis a b)
include h

theorem SendsAnalysis.size_eq : b.slots.size = a.slots.size := by
  rw [← Array.length_toList, ← Array.length_toList, h.slots.length_eq]

theorem SendsAnalysis.nodes :
    List.Forall₂ ρ.SendsNode (a.slots.toList.filterMap id) (b.slots.toList.filterMap id) :=
  List.rel_filterMap (R := Option.Rel ρ.SendsNode) (fun _ _ hslot => hslot) h.slots

theorem SendsAnalysis.index (ha : Accounted a) (hb : Accounted b) : ρ.SendsIndex a.index b.index where
  records := ⟨_, _, ha.books.records, ha.books.sound, hb.books.records, hb.books.sound,
    List.rel_flatMap (R := ρ.SendsNode) h.nodes fun _ _ hn => hn.definitions⟩
  settings := h.settings

/-- The line ends, with a node or without. -/
theorem SendsAnalysis.endLine {node? node?' : Option Node} (hnode : Option.Rel ρ.SendsNode node? node?') :
    ρ.SendsAnalysis (a.endLine node?) (b.endLine node?') where
  reader := h.reader
  slots := by
    simp only [Analysis.endLine, Array.toList_push]
    exact List.rel_append h.slots (.cons hnode .nil)
  settings := h.settings
  lateBlock := h.lateBlock

/-- Takes over what was read. -/
theorem SendsAnalysis.accept {r r' : Reading Node}
    (hr : ρ.SendsReading (openName? a.reader) ρ.SendsNode r r')
    (hrule : ∀ o, r.sequel = .rule o → a.reader.target? = none) :
    ρ.SendsAnalysis (a.accept r) (b.accept r') := by
  have hreported : ρ.SendsReader (a.reader.reportAll r.problems) (b.reader.reportAll r'.problems) :=
    ⟨h.reader.rule, h.reader.block, h.reader.target, h.reader.expectsName, h.reader.expectsBlock, by
      rw [Reader.reportAll, h.reader.clean, hr.problems]; rfl⟩
  have hread : ρ.SendsAnalysis
      { a with reader := (a.reader.reportAll r.problems).follow r.sequel, index := r.index }
      { b with reader := (b.reader.reportAll r'.problems).follow r'.sequel, index := r'.index } :=
    ⟨hreported.follow hr.sequel hrule, h.slots, hr.settings, h.lateBlock⟩
  exact hread.endLine (.some hr.node)

end

/-- A block without a name would not be for the renamed function. -/
def Spares (ρ : Renaming) (r : Reader) (ix : Index) : Prop :=
  ∀ o walker, r.rule? = some o → r.target? = none → ix.settings.defaultWalker = some walker →
    ρ.source ≠ .function (functionKey o.name.text walker implicitFunction)

/-- A block that opens belongs to what follows its owner, or is refused for the same causes. -/
theorem sends_blockOwner {r r' : Reader} {ix ix' : Index} (hr : ρ.SendsReader r r')
    (hsettings : ρ.SendsSettings ix.settings ix'.settings) (hspares : ρ.Spares r ix) (late : Bool) :
    (∃ key x key' y, blockOwner r ix late = .ok (key, x) ∧ blockOwner r' ix' late = .ok (key', y) ∧
      ρ.Sends (.codeBlock key) (.codeBlock key') ∧ ρ.SendsPart .walker x y) ∨
    ∃ causes, blockOwner r ix late = .error causes ∧ blockOwner r' ix' late = .error causes := by
  have hrule := hr.rule
  have htarget := hr.target
  have hdefault := hsettings.defaultWalker
  unfold openName? at htarget
  unfold Spares at hspares
  unfold blockOwner
  generalize r.rule? = rule? at hrule htarget hspares
  generalize r'.rule? = rule?' at hrule
  generalize r.target? = target? at htarget hspares
  generalize r'.target? = target?' at htarget
  generalize ix.settings.defaultWalker = x? at hdefault hspares
  generalize ix'.settings.defaultWalker = y? at hdefault
  cases htarget with
  | @some t t' ht =>
    refine .inl ⟨_, _, _, _, rfl, rfl, ?_, ht.walker⟩
    rw [ht.function, ht.isMembers]
    cases hrule with
    | none =>
      cases t.isMembers <;> exact .members ht.walker ht.plain
    | some ho =>
      cases t.isMembers with
      | true => exact .members ht.walker ht.plain
      | false => exact .body ho ht.walker ht.plain
  | none =>
    cases hrule with
    | none => exact .inr ⟨_, rfl, rfl⟩
    | some ho =>
      cases hdefault with
      | none => exact .inr ⟨_, rfl, rfl⟩
      | some hwalker =>
        refine .inl ⟨_, _, _, _, rfl, rfl, ?_, hwalker⟩
        have hsends := Sends.body ho hwalker isPlain_implicitFunction
        rwa [apply_eq_self (hspares _ _ rfl rfl rfl)] at hsends

section
variable {a b : Analysis} (h : ρ.SendsAnalysis a b) (raw raw' : String)
include h

theorem SendsAnalysis.giveUp (hclean : (a.giveUp raw).reader.diagnostics = [])
    (hblank : isBlankLine raw' = isBlankLine raw) : ρ.SendsAnalysis (a.giveUp raw) (b.giveUp raw') where
  reader := by
    refine ⟨.none, .none, .none, rfl, rfl, ?_⟩
    have hexpects : a.reader.expectsBlock = false := by
      cases hexpects : a.reader.expectsBlock with
      | false => rfl
      | true =>
        have hoverdue := (List.append_eq_nil_iff.1 hclean).2
        simp [Reader.overdue, Analysis.moveTo, Reader.moveTo, hexpects] at hoverdue
    have hexpects' := h.reader.expectsBlock.trans hexpects
    simp [Analysis.giveUp, h.reader.clean, Reader.overdue, Analysis.moveTo, Reader.moveTo, hexpects']
  slots := h.slots
  settings := h.settings
  lateBlock := by
    simp only [Analysis.giveUp, hblank, h.reader.expectsBlock, h.lateBlock]

end

theorem SendsReader.expectMore {r r' : Reader} {b b' : CodeBlock} (h : ρ.SendsReader r r')
    (hinline : b'.isInline = b.isInline) :
    ρ.SendsReader (Analysis.expectMore b r) (Analysis.expectMore b' r') := by
  unfold Analysis.expectMore
  rw [hinline, isSome_of_rel h.rule]
  split
  · have hname : openName? r.countBlock = openName? r := by
      simp [openName?, Reader.countBlock, Function.comp_def]
    refine ⟨rel_map_option h.rule fun _ _ ho => ho, h.block, ?_, rfl, h.expectsBlock, h.clean⟩
    change Option.Rel (ρ.SendsTarget (openName? r.countBlock)) r.target? r'.target?
    rw [hname]
    exact h.target
  · exact h

section
variable {a b : Analysis} (h : ρ.SendsAnalysis a b) (hρ : ρ.Valid) (ha : Accounted a) (hb : Accounted b)
include h

theorem SendsAnalysis.moveTo (raw raw' : String) : ρ.SendsAnalysis (a.moveTo raw) (b.moveTo raw') :=
  ⟨⟨h.reader.rule, h.reader.block, h.reader.target, h.reader.expectsName, h.reader.expectsBlock,
    h.reader.clean⟩, h.slots, h.settings, h.lateBlock⟩

/-- One more line of an open block. -/
theorem SendsAnalysis.inside {block : CodeBlock} (hblock : a.reader.block? = some block) {raw : String}
    (hraw : closes raw = false) :
    ρ.SendsAnalysis (Analysis.endLine none { a.moveTo raw with reader := (a.moveTo raw).reader.pushLine })
      (b.step raw) := by
  obtain ⟨block', hblock', hsend⟩ := exists_of_rel_some (hblock ▸ h.reader.block)
  rw [Analysis.step_collecting hblock' hraw]
  have hpushed : ρ.SendsAnalysis { a.moveTo raw with reader := (a.moveTo raw).reader.pushLine }
      { b.moveTo raw with reader := (b.moveTo raw).reader.pushLine } := by
    refine ⟨⟨h.reader.rule, ?_, h.reader.target, h.reader.expectsName, h.reader.expectsBlock,
      h.reader.clean⟩, h.slots, h.settings, h.lateBlock⟩
    exact rel_map_option h.reader.block fun _ _ hb => hb.push raw raw
  exact hpushed.endLine .none

/-- A block goes into the slot that was kept for it. -/
theorem SendsAnalysis.place {block block' : CodeBlock} (hreserved : Reserved block a.slots.toList)
    (hreserved' : Reserved block' b.slots.toList) (hblock : ρ.SendsBlock block block') (mark mark' : Lexeme) :
    ρ.SendsAnalysis (a.place (block.close mark)) (b.place (block'.close mark')) := by
  refine ⟨h.reader, ?_, h.settings, h.lateBlock⟩
  obtain ⟨slot, hslot, hkeeps⟩ := hreserved.getElem?
  obtain ⟨slot', hslot', hkeeps'⟩ := hreserved'.getElem?
  have hinline : (block.close mark).isInline = block.isInline := rfl
  have hinline' : (block'.close mark').isInline = block'.isInline := rfl
  obtain ⟨n, hn, hplaced⟩ := hkeeps.placed hinline
  obtain ⟨n', hn', hplaced'⟩ := hkeeps'.placed hinline'
  simp only [Analysis.place, Array.toList_modify]
  rw [show (block'.close mark').startLine = (block.close mark).startLine from hblock.startLine]
  refine forall₂_modify h.slots fun x y hx hy hxy => ?_
  obtain rfl := Option.some.inj (hslot.symm.trans hx)
  obtain rfl := Option.some.inj (hslot'.symm.trans (hblock.startLine ▸ hy))
  rw [hn, hn']
  exact .some (.placed hxy (hblock.definitions mark mark') hplaced hplaced')

include ha hb

/-- The end of an open block. -/
theorem SendsAnalysis.closing {block : CodeBlock} (hblock : a.reader.block? = some block) {raw : String}
    (hraw : closes raw = true) (hclean : ((a.moveTo raw).closeBlock block).reader.diagnostics = []) :
    ρ.SendsAnalysis (((a.moveTo raw).closeBlock block).endLine none) (b.step raw) := by
  obtain ⟨block', hblock', hsend⟩ := exists_of_rel_some (hblock ▸ h.reader.block)
  have hown : block.walker.bind a.index.interfaceOf = none :=
    Analysis.own_of_clean (a := a.moveTo raw) hclean
  have hown' : block'.walker.bind b.index.interfaceOf = none := by
    have hwalker := hsend.walker
    generalize block.walker = x? at hwalker hown
    generalize block'.walker = y? at hwalker
    cases hwalker with
    | none => rfl
    | some hx =>
      have hisSome := (h.index ha hb).interfaceOf hx
      simp only [Option.bind_some] at hown ⊢
      rwa [hown, Option.isSome_none, Option.isSome_eq_false_iff, Option.isNone_iff_eq_none] at hisSome
  rw [Analysis.step_closing hblock' hraw, Analysis.closeBlock_of_own (a := a.moveTo raw) hown,
    Analysis.closeBlock_of_own (a := b.moveTo raw) hown']
  generalize (a.moveTo raw).reader.line.whole = mark
  generalize (b.moveTo raw).reader.line.whole = mark'
  have hdropped : ρ.SendsReader (a.moveTo raw).reader.dropBlock (b.moveTo raw).reader.dropBlock :=
    ⟨h.reader.rule, .none, h.reader.target, h.reader.expectsName, h.reader.expectsBlock, h.reader.clean⟩
  have hentered : ρ.SendsAnalysis
      { a.moveTo raw with
        reader := Analysis.expectMore (block.close mark) (a.moveTo raw).reader.dropBlock
        index := (a.moveTo raw).index.enterAll (block.close mark).definitions }
      { b.moveTo raw with
        reader := Analysis.expectMore (block'.close mark') (b.moveTo raw).reader.dropBlock
        index := (b.moveTo raw).index.enterAll (block'.close mark').definitions } :=
    ⟨hdropped.expectMore hsend.isInline, h.slots, by simpa using (h.moveTo raw raw).settings, h.lateBlock⟩
  have hreserved := ha.reserved block hblock
  have hreserved' := hb.reserved block' hblock'
  exact (hentered.place hreserved hreserved' hsend mark mark').endLine .none

end

/-- What a renaming needs of a line: its new name stands for nothing there, the body of a rule is known, and no
block is left to the renamed function without its name. -/
structure Admits (ρ : Renaming) (a a' : Analysis) : Prop where
  fresh : ∀ ref ∈ a'.referencesOn a.slots.size, ref.2 ≠ ρ.target
  body : ∀ r, a'.slots.toList[a.slots.size]?.join = some (.rule r) → ρ.IsBody r.name.text r.internalName
  named : ∀ n, a'.slots.toList[a.slots.size]?.join = some (.blockName n) →
    ∀ key ∈ n.impliedKey?, ρ.source ≠ .function key
  unnamed : a.reader.block? = none → a.reader.expectsBlock = true →
    ∀ b, a'.reader.block? = some b → b.isInline = false → ρ.Spares a.reader a.index

section
variable {a b : Analysis} (h : ρ.SendsAnalysis a b) {raw : String}
include h

/-- A block that opens on a line of its own. -/
theorem SendsAnalysis.openAt {opening opening' : Lexeme} (hline : opening'.line = opening.line)
    (hspares : ρ.Spares a.reader a.index) (hclean : (a.openAt opening).reader.diagnostics = []) :
    ρ.SendsAnalysis (a.openAt opening) (b.openAt opening') := by
  rw [Analysis.openAt_eq] at hclean ⊢
  rw [Analysis.openAt_eq]
  have howner := sends_blockOwner h.reader h.settings hspares a.lateBlock
  rw [h.lateBlock]
  rcases howner with ⟨key, x, key', y, hx, hy, hkey, hwalker⟩ | ⟨causes, hx, hy⟩
  · rw [hx, hy]
    refine ⟨⟨h.reader.rule, ?_, .none, rfl, rfl, ?_⟩, h.slots, h.settings, rfl⟩
    · exact .some ⟨hline, rfl, .some hkey, .some hwalker, rfl, rfl⟩
    · simp [Reader.openBlock, h.reader.clean, Analysis.ownerProblems]
  · rw [hx] at hclean
    have hcauses : causes = [] := List.map_eq_nil_iff.1 (List.append_eq_nil_iff.1 hclean).2
    rw [hx, hy, hcauses]
    refine ⟨⟨h.reader.rule, ?_, .none, rfl, rfl, ?_⟩, h.slots, h.settings, rfl⟩
    · exact .some ⟨hline, rfl, .none, .none, rfl, rfl⟩
    · simp [Reader.openBlock, h.reader.clean, Analysis.ownerProblems]

/-- The line that opens it. -/
theorem SendsAnalysis.opening (hca : a.reader.Coherent a.lateBlock) (hcb : b.reader.Coherent b.lateBlock)
    (hblock : a.reader.block? = none) (hraw : opens raw = true)
    (hspares : a.reader.expectsBlock = true → ρ.Spares a.reader a.index)
    (hclean : (Analysis.openAt (a.nextLine raw).whole
      { a with
        reader := { a.reader with
          line := a.nextLine raw
          rule? := if a.reader.expectsBlock then a.reader.rule? else none
          expectsName := false } }).reader.diagnostics = []) :
    ρ.SendsAnalysis ((Analysis.openAt (a.nextLine raw).whole
      { a with
        reader := { a.reader with
          line := a.nextLine raw
          rule? := if a.reader.expectsBlock then a.reader.rule? else none
          expectsName := false } }).endLine none) (b.step raw) := by
  have hblock' : b.reader.block? = none := eq_none_of_rel h.reader.block hblock
  rw [Analysis.step_opening hblock' ((Line.opensBlock_eq _).trans hraw),
    Analysis.prepare_of_opens hcb hblock' hraw]
  have hline : (b.nextLine raw).whole.line = (a.nextLine raw).whole.line := h.size_eq
  have hprepared : ρ.SendsAnalysis
      { a with
        reader := { a.reader with
          line := a.nextLine raw
          rule? := if a.reader.expectsBlock then a.reader.rule? else none
          expectsName := false } }
      { b with
        reader := { b.reader with
          line := b.nextLine raw
          rule? := if b.reader.expectsBlock then b.reader.rule? else none
          expectsName := false } } := by
    rw [h.reader.expectsBlock]
    cases hexpects : a.reader.expectsBlock with
    | true =>
      exact ⟨⟨h.reader.rule, h.reader.block, h.reader.target, rfl, h.reader.expectsBlock, h.reader.clean⟩,
        h.slots, h.settings, h.lateBlock⟩
    | false =>
      exact ⟨⟨.none, h.reader.block, rel_of_none h.reader.target (hca.unaimed hexpects), rfl,
        h.reader.expectsBlock, h.reader.clean⟩, h.slots, h.settings, h.lateBlock⟩
  refine (hprepared.openAt hline (fun o walker ho htarget hdefault => ?_) hclean).endLine .none
  dsimp only at ho
  split at ho
  · next hexpects => exact hspares hexpects o walker ho htarget hdefault
  · cases ho

/-- A blank line. -/
theorem SendsAnalysis.blank (hcb : b.reader.Coherent b.lateBlock) (hblock : a.reader.block? = none)
    (hraw : isBlankLine raw = true) (hclean : (a.giveUp raw).reader.diagnostics = []) :
    ρ.SendsAnalysis ((a.giveUp raw).endLine none) (b.step raw) := by
  have hblock' : b.reader.block? = none := eq_none_of_rel h.reader.block hblock
  rw [Analysis.step_blank hblock' ((Line.isBlank_eq _).trans hraw),
    Analysis.prepare_of_not_opens hcb hblock' (Analysis.not_opens_of_blank hraw).1]
  exact (h.giveUp raw raw hclean rfl).endLine .none

section
variable (hρ : ρ.Valid) (ha : Accounted a) (hb : Accounted b)
include hρ ha hb

/-- A line by itself. -/
theorem SendsAnalysis.node (hcb : b.reader.Coherent b.lateBlock) (hblock : a.reader.block? = none)
    {shape : Shape} (hshape : Shape.of? (a.nextLine raw).body = some shape)
    (hclean : ((a.giveUp raw).accept (Node.read (a.nextLine raw) a.index shape)).reader.diagnostics = [])
    (hfresh : ∀ ref ∈ (Node.read (a.nextLine raw) a.index shape).node.references, ref.2 ≠ ρ.target)
    (hbody : ∀ r, (Node.read (a.nextLine raw) a.index shape).node = .rule r →
      ρ.IsBody r.name.text r.internalName) {raw' : String}
    (hraw' : raw' = ρ.line (Node.read (a.nextLine raw) a.index shape).node.references raw) :
    ρ.SendsAnalysis ((a.giveUp raw).accept (Node.read (a.nextLine raw) a.index shape)) (b.step raw') := by
  have hblock' : b.reader.block? = none := eq_none_of_rel h.reader.block hblock
  rw [Analysis.diagnostics_accept] at hclean
  obtain ⟨hgiven, hproblems⟩ := List.append_eq_nil_iff.1 hclean
  have hstands := Node.standsOn_read hshape a.index
  rw [← Node.bare_of_codeBlock? (Node.codeBlock?_read _ _ _)] at hstands
  have hnumber : (b.nextLine raw').number = (a.nextLine raw).number := h.size_eq
  have hrenames := renames_of_standsOn hstands hfresh hnumber hraw'
  obtain ⟨hshape', hread⟩ := sends_read hrenames hρ (h.index ha hb) hshape rfl hbody hproblems
  have hordinary := Line.ordinary_of_shape hshape
  have hordinary' := Line.ordinary_of_shape hshape'
  have hopens : opens raw' = false := (Line.opensBlock_eq (b.nextLine raw')).symm.trans hordinary'.opensBlock
  have hblank : isBlankLine raw = false := (Line.isBlank_eq (a.nextLine raw)).symm.trans hordinary.isBlank
  have hblank' : isBlankLine raw' = false :=
    (Line.isBlank_eq (b.nextLine raw')).symm.trans hordinary'.isBlank
  rw [Analysis.step_shape hblock' hshape', Analysis.prepare_of_not_opens hcb hblock' hopens]
  exact (h.giveUp raw raw' hgiven (hblank'.trans hblank.symm)).accept hread fun _ _ => rfl

/-- The name of a block after a rule. -/
theorem SendsAnalysis.name (hblock : a.reader.block? = none) {rule : OpenRule}
    (hrule : a.reader.rule? = some rule) (hexpects : a.reader.expectsName = true) (hraw : names raw = true)
    (hclean : (BlockName.read (a.nextLine raw) (some rule.name.text) a.index).problems = [])
    (hfresh : ∀ ref ∈ (Node.blockName (BlockName.read (a.nextLine raw) (some rule.name.text)
      a.index).node).references, ref.2 ≠ ρ.target)
    (himplied : ∀ key ∈ (BlockName.read (a.nextLine raw) (some rule.name.text) a.index).node.impliedKey?,
      ρ.source ≠ .function key)
    {raw' : String} (hraw' : raw' = ρ.line (Node.blockName (BlockName.read (a.nextLine raw)
      (some rule.name.text) a.index).node).references raw) :
    ρ.SendsAnalysis
      ((a.moveTo raw).accept ((BlockName.read (a.nextLine raw) (some rule.name.text) a.index).map .blockName))
      (b.step raw') := by
  have hblock' : b.reader.block? = none := eq_none_of_rel h.reader.block hblock
  obtain ⟨rule', hrule', hopen⟩ := exists_of_rel_some (hrule ▸ h.reader.rule)
  have hmark : (a.nextLine raw).namesBlock = true := (Line.namesBlock_eq _).trans hraw
  have hstands := Node.standsOn_blockName hmark (some rule.name.text) a.index
  have hnumber : (b.nextLine raw').number = (a.nextLine raw).number := h.size_eq
  have hrenames := renames_of_standsOn hstands hfresh hnumber hraw'
  obtain ⟨hnames, hread⟩ := sends_blockName hrenames hρ (h.index ha hb) hopen.name rfl himplied hclean
  have hsequel : (BlockName.read (a.nextLine raw) (some rule.name.text) a.index).sequel =
      .name (BlockName.read (a.nextLine raw) (some rule.name.text) a.index).node.target := by
    unfold BlockName.read
    split <;> rfl
  rw [Analysis.step_name hblock' (h.reader.expectsName.trans hexpects) hnames, hrule', Option.map_some]
  refine (h.moveTo raw raw').accept ?_ fun o ho => by cases hsequel.symm.trans ho
  rw [openName?, show (a.moveTo raw).reader.rule? = some rule from hrule, Option.map_some]
  exact hread.map

/-- Whatever the line is, it is written anew at its references. -/
theorem SendsAnalysis.turn (hca : a.reader.Coherent a.lateBlock) (hcb : b.reader.Coherent b.lateBlock)
    {a' : Analysis} (hturn : a.Turn raw a') (hclean : a'.reader.diagnostics = []) (hadmits : ρ.Admits a a') :
    ρ.SendsAnalysis a' (b.step (ρ.line (a'.referencesOn a.slots.size) raw)) := by
  have hfresh := hadmits.fresh
  cases hturn with
  | inside block hblock hraw =>
    rw [(Analysis.referencesOn_push rfl).2, Option.toList_none, List.flatMap_nil, line_nil]
    exact h.inside hblock hraw
  | closing block hblock hraw =>
    rw [(Analysis.referencesOn_closing ha hblock raw).2, line_nil]
    exact h.closing ha hb hblock hraw hclean
  | name hblock hexpects hraw =>
    obtain ⟨rule, hrule⟩ := Option.isSome_iff_exists.1 (hca.named hexpects)
    have himplied := hadmits.named _ (Analysis.node_push rfl)
    rw [(Analysis.referencesOn_push rfl).2] at hfresh ⊢
    rw [hrule, Option.map_some] at hclean hfresh himplied ⊢
    rw [Analysis.diagnostics_accept] at hclean
    rw [Option.toList_some, List.flatMap_singleton] at hfresh ⊢
    exact h.name hρ ha hb hblock hrule hexpects hraw (List.append_eq_nil_iff.1 hclean).2 hfresh himplied rfl
  | opening hblock hraw =>
    rw [Analysis.referencesOn_opening rfl, line_nil]
    exact h.opening hca hcb hblock hraw
      (fun hexpects => hadmits.unnamed hblock hexpects _ Analysis.block?_opening rfl) hclean
  | blank hblock hraw =>
    rw [(Analysis.referencesOn_push (a := a) rfl).2, Option.toList_none, List.flatMap_nil, line_nil]
    exact h.blank hcb hblock hraw hclean
  | refused hblock hraw hopens hname cause hcause =>
    exact absurd hclean (Analysis.report_ne_nil _ _)
  | node hblock shape hshape =>
    have hbody : ∀ r, (Node.read (a.nextLine raw) a.index shape).node = .rule r →
        ρ.IsBody r.name.text r.internalName :=
      fun r hr => hadmits.body r (hr ▸ Analysis.node_push (a := a) rfl)
    rw [(Analysis.referencesOn_push (a := a) rfl).2, Option.toList_some, List.flatMap_singleton] at hfresh ⊢
    exact h.node hρ ha hb hcb hblock hshape hclean hfresh hbody rfl

end

end

/-- The lines, written anew at the references that the analysis knows of. -/
def lines (ρ : Renaming) (a : Analysis) (raws : List String) : List String :=
  raws.mapIdx fun line raw => ρ.line (a.referencesOn line) raw

theorem lines_concat (ρ : Renaming) (a : Analysis) (raws : List String) (raw : String) :
    ρ.lines a (raws ++ [raw]) = ρ.lines a raws ++ [ρ.line (a.referencesOn raws.length) raw] := by
  simp [lines, List.mapIdx_append]

/-- What a renaming needs of a document. -/
structure AdmitsDocument (ρ : Renaming) (d : Document) : Prop where
  fresh : ∀ n ∈ d.nodeList, ∀ ref ∈ n.references, ref.2 ≠ ρ.target
  bodies : ∀ r ∈ d.rules, ρ.IsBody r.name.text r.internalName
  implied : ∀ key ∈ d.impliedKeys, ρ.source ≠ .function key

open Analysis in
/-- What a document admits is admitted by each of its lines. -/
theorem AdmitsDocument.line {front rest : List String} {raw : String}
    (hclean : (after (front ++ [raw] ++ rest)).Clean)
    (h : ρ.AdmitsDocument (after (front ++ [raw] ++ rest)).document) :
    ρ.Admits (after front) (after (front ++ [raw])) := by
  have hquiet : (after front).reader.diagnostics = [] := by
    have hkept := subset_diagnostics_after front ([raw] ++ rest)
    rw [← List.append_assoc, hclean.diagnostics] at hkept
    exact List.subset_nil.1 hkept
  have hnode : ∀ (lines : List String) (i : Nat),
      (after lines).document.nodeAt? i = (after lines).slots.toList[i]?.join :=
    fun lines i => by rw [Array.getElem?_toList]; rfl
  have hsize := size_after front
  have hrefs : (after (front ++ [raw] ++ rest)).referencesOn front.length =
      (after (front ++ [raw])).referencesOn front.length := referencesOn_after _ _ (by simp)
  have hstays := fun {i : Nat} {n : Node} => @node_after (front ++ [raw]) rest i n
  constructor
  case fresh =>
    intro ref href
    rw [hsize, ← hrefs, referencesOn, ← hnode] at href
    obtain ⟨n, hn, href⟩ := List.mem_flatMap.1 href
    exact h.fresh n (Document.mem_nodeList.2 ⟨_, Option.mem_toList.1 hn⟩) ref href
  case body =>
    intro r hr
    have hfinal := Document.mem_nodeList.2 ⟨_, (hnode _ _).trans (hstays hr (by simp))⟩
    exact h.bodies r (List.mem_flatMap.2 ⟨_, hfinal, List.mem_singleton_self _⟩)
  case named =>
    intro n hn key hkey
    exact h.implied key (Document.mem_impliedKeys_of_name ((hnode _ _).trans (hstays hn (by simp))) hkey)
  case unnamed =>
    intro hblock hexpects b hb hkind o walker ho htarget hdefault
    obtain ⟨r, hlast, hname⟩ := rule_of_unnamed front hquiet hblock hexpects htarget ho
    obtain ⟨c, hc, hwalker⟩ := exists_block_of_open (front ++ [raw]) rest hb hkind hclean.closed
    have hturn := turn_step (coherent_after front) raw
    rw [← after_concat] at hturn
    have hopened := (opened_after (front ++ [raw])).pending b hb hkind
    rw [(block_of_turn hblock hturn hb).1, hsize] at hc hopened
    have howner : (after front).nextOwner =
        .ok (blockKey (some o.internalName) walker implicitFunction, walker) := by
      simp [nextOwner, hexpects, blockOwner, ho, htarget, hdefault]
    have hdefaults : b.walker = some walker := by
      rw [hopened.walker, List.take_left, howner]
      rfl
    -- The rule is on the line above the block.
    have htake : (front ++ ([raw] ++ rest)).take front.length = front := List.take_left
    have hsettled := settled_after front ([raw] ++ rest)
    rw [settled_none hblock, hsize] at hsettled
    have habove := nodeAbove?_eq (d := (after (front ++ ([raw] ++ rest))).document) (by rw [htake])
      fun i hi => by rw [htake, hnode, getElem?_of_take_eq hsettled.2 hi]
    rw [htake, hlast, ← List.append_assoc] at habove
    rw [← hname]
    exact h.implied _
      (Document.mem_impliedKeys_of_block habove ((hnode _ _).trans hc) (hwalker.trans hdefaults))

open Analysis in
/-- A document in which nothing is wrong is followed line by line, if it admits the renaming. -/
theorem sends_after (hρ : ρ.Valid) {raws : List String} (hclean : (after raws).Clean)
    (hadmits : ρ.AdmitsDocument (after raws).document) :
    ρ.SendsAnalysis (after raws) (after (ρ.lines (after raws) raws)) := by
  have hprefixes : ∀ front rest, raws = front ++ rest →
      ρ.SendsAnalysis (after front) (after (ρ.lines (after raws) front)) := by
    intro front
    induction front using List.reverseRecOn with
    | nil => exact fun _ _ => sendsAnalysis_empty
    | append_singleton front raw ih =>
      intro rest hraws
      have hsize := size_after front
      have hrefs : (after raws).referencesOn front.length =
          ((after front).step raw).referencesOn front.length := by
        rw [← after_concat, hraws]
        exact referencesOn_after _ rest (by simp)
      have hquiet : ((after front).step raw).reader.diagnostics = [] := by
        have hkept := subset_diagnostics_after (front ++ [raw]) rest
        rw [← hraws, hclean.diagnostics, after_concat] at hkept
        exact List.subset_nil.1 hkept
      have hline : ρ.Admits (after front) ((after front).step raw) := by
        rw [hraws] at hclean hadmits
        rw [← after_concat]
        exact hadmits.line hclean
      rw [lines_concat, after_concat, after_concat, hrefs, ← hsize]
      exact (ih ([raw] ++ rest) (by simp [hraws])).turn hρ (accounted_after _) (accounted_after _)
        (coherent_after _) (coherent_after _) (turn_step (coherent_after _) raw) hquiet hline
  exact hprefixes raws [] (List.append_nil raws).symm

end Renaming

end LineGrammar
