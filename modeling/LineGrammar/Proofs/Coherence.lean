import LineGrammar.Analysis
import LineGrammar.Proofs.Sequels

/-! What the reader remembers from one line to the next fits together. The open rule, the target, the two
expectations and the open block are written by many kinds of lines, yet only few of their combinations
ever occur. -/

namespace LineGrammar

namespace Reader

/-- Nothing is waited for. -/
structure Idle (r : Reader) : Prop where
  rule : r.rule? = none
  target : r.target? = none
  name : r.expectsName = false
  block : r.expectsBlock = false

/-- The combinations that occur. `late` tells whether a block would only be late. -/
structure Coherent (r : Reader) (late : Bool) : Prop where
  inside : r.block?.isSome → r.expectsName = false ∧ r.expectsBlock = false ∧ r.target? = none
  waiting : r.block? = none → r.rule?.isSome → r.expectsName = true ∨ r.expectsBlock = true
  named : r.expectsName = true → r.rule?.isSome
  aimed : r.target?.isSome → r.expectsBlock = true
  members : r.expectsBlock = true → r.rule? = none → ∃ t, r.target? = some t ∧ t.isMembers = true
  ruleless : ∀ t, r.target? = some t → t.isMembers = true → r.rule? = none
  late : late = true → r.block? = none ∧ r.Idle
  /-- A block at the end of a pragma belongs to no rule. -/
  inline : ∀ b, r.block? = some b → b.isInline = true → r.rule? = none
  /-- A rule that has had no block still needs one. -/
  fresh : ∀ rule, r.block? = none → r.rule? = some rule → rule.blocks = 0 → r.expectsBlock = true

theorem coherent_of_idle {r : Reader} (hblock : r.block? = none) (h : r.Idle) (late : Bool) :
    r.Coherent late where
  inside := by simp [hblock]
  waiting := by simp [h.rule]
  named := by simp [h.name]
  aimed := by simp [h.target]
  members := by simp [h.block]
  ruleless := by simp [h.rule]
  late := fun _ => ⟨hblock, h⟩
  inline := by simp [hblock]
  fresh := by simp [h.rule]

/-- The diagnostics and the current line play no part. -/
theorem Coherent.same {r r' : Reader} {late : Bool} (h : r.Coherent late) (hrule : r'.rule? = r.rule?)
    (hblock : r'.block? = r.block?) (htarget : r'.target? = r.target?)
    (hname : r'.expectsName = r.expectsName) (hexpects : r'.expectsBlock = r.expectsBlock) :
    r'.Coherent late := by
  obtain ⟨line, rule?, block?, target?, expectsName, expectsBlock, diagnostics⟩ := r
  obtain ⟨line', rule?', block?', target?', expectsName', expectsBlock', diagnostics'⟩ := r'
  dsimp only at hrule hblock htarget hname hexpects
  subst hrule hblock htarget hname hexpects
  exact ⟨h.inside, h.waiting, h.named, h.aimed, h.members, h.ruleless,
    fun hl => ⟨(h.late hl).1, ⟨(h.late hl).2.rule, (h.late hl).2.target, (h.late hl).2.name,
      (h.late hl).2.block⟩⟩, h.inline, h.fresh⟩

/-- Inside of a block no other one is expected. -/
theorem Coherent.outside {r : Reader} {late : Bool} (h : r.Coherent late)
    (hexpects : r.expectsBlock = true) : r.block? = none := by
  cases hblock : r.block? with
  | none => rfl
  | some b => simpa [hexpects] using (h.inside (by simp [hblock])).2.1

theorem Coherent.unaimed {r : Reader} {late : Bool} (h : r.Coherent late)
    (hexpects : r.expectsBlock = false) : r.target? = none := by
  cases htarget : r.target? with
  | none => rfl
  | some target => simpa [hexpects] using h.aimed (by simp [htarget])

/-- Without expectations nothing is waited for. -/
theorem Coherent.idle {r : Reader} {late : Bool} (h : r.Coherent late) (hblock : r.block? = none)
    (hname : r.expectsName = false) (hexpects : r.expectsBlock = false) : r.Idle where
  rule := by
    cases hrule : r.rule? with
    | none => rfl
    | some rule => simpa [hname, hexpects] using h.waiting hblock (by simp [hrule])
  target := h.unaimed hexpects
  name := hname
  block := hexpects

theorem Coherent.not_late_of_block {r : Reader} {late : Bool} (h : r.Coherent late) {b : CodeBlock}
    (hblock : r.block? = some b) : late = false := by
  cases late with
  | false => rfl
  | true => exact absurd ((h.late rfl).1.symm.trans hblock) (by simp)

theorem Coherent.not_late_of_name {r : Reader} {late : Bool} (h : r.Coherent late)
    (hname : r.expectsName = true) : late = false := by
  cases late with
  | false => rfl
  | true => exact absurd ((h.late rfl).2.name.symm.trans hname) (by simp)

/-- A block that opens ends all expectations. -/
theorem coherent_openBlock {r : Reader} {block : CodeBlock} (htarget : r.target? = none)
    (hinline : block.isInline = true → r.rule? = none) : (r.openBlock block).Coherent false where
  inside := fun _ => ⟨rfl, rfl, htarget⟩
  waiting := by simp [openBlock]
  named := by simp [openBlock]
  aimed := by simp [openBlock, htarget]
  members := by simp [openBlock]
  ruleless := by simp [openBlock, htarget]
  late := by simp
  inline := by rintro b ⟨⟩ hb; exact hinline hb
  fresh := by simp [openBlock]

/-- A block that closes leaves nothing to wait for but more blocks of its rule. -/
theorem coherent_expectMore {r : Reader} {late : Bool} {b block : CodeBlock} (h : r.Coherent late)
    (hblock : r.block? = some b) (hinline : block.isInline = b.isInline) (ds : List Diagnostic) :
    (Analysis.expectMore block { r with block? := none, diagnostics := ds }).Coherent late := by
  have hlate : late = false := h.not_late_of_block hblock
  obtain ⟨hname, hexpects, htarget⟩ := h.inside (by simp [hblock])
  unfold Analysis.expectMore
  split
  · next hmore =>
    obtain ⟨-, hrule⟩ := Bool.and_eq_true_iff.1 hmore
    obtain ⟨rule, hrule⟩ := Option.isSome_iff_exists.1 hrule
    dsimp only at hrule
    constructor <;> simp [countBlock, hexpects, htarget, hrule, hlate]
  · next hmore =>
    have hrule : r.rule? = none := by
      cases hkind : b.isInline with
      | true => exact h.inline b hblock hkind
      | false => simpa [hinline, hkind] using hmore
    exact coherent_of_idle (r := { r with block? := none, diagnostics := ds }) rfl
      ⟨hrule, htarget, hname, hexpects⟩ late

/-- What a node asks of the lines after it, when nothing else is waited for. -/
theorem coherent_follow {r : Reader} (hblock : r.block? = none) (h : r.Idle) {n : Node}
    (hname : ∀ name, n ≠ .blockName name) : (r.follow n.sequel).Coherent false := by
  have hrest := coherent_of_idle hblock h false
  cases n with
  | rule d =>
    rw [Node.sequel, RuleDef.sequel]
    split
    · exact hrest
    · constructor <;> simp [follow, beginRule, hblock, h.target]
  | blockName name => exact absurd rfl (hname name)
  | pragma p =>
    rw [Node.sequel]
    unfold PragmaBody.sequel
    split
    · exact coherent_openBlock h.target fun _ => h.rule
    · constructor <;> simp [follow, hblock, h.rule, h.name]
    · exact hrest
  | _ => exact hrest

/-- The name of a block asks for the block. -/
theorem coherent_follow_name {r : Reader} (hblock : r.block? = none) (hrule : r.rule?.isSome)
    (name : BlockName) : (r.follow (.name name.target)).Coherent false := by
  have hmembers : ∀ t, name.target = some t → t.isMembers = false := by
    intro t ht
    obtain ⟨walker, -, rfl⟩ := Option.map_eq_some_iff.1 ht
    rfl
  obtain ⟨rule, hrule⟩ := Option.isSome_iff_exists.1 hrule
  constructor <;> simp [follow, hblock, hrule]
  exact hmembers

end Reader

end LineGrammar
