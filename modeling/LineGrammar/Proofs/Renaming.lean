import LineGrammar.Proofs.Keys
import LineGrammar.Reading
import Mathlib.Data.List.Forall2

/-! Renaming the symbols of an index. A name of some kind, or a function of a walker, gets another name; the
keys of functions and blocks follow, since names are their parts. A renaming is told as a relation between
symbols. It is one to one on all names, so a look-up in a renamed index answers as before; blocks only have
to stay with what they were for. -/

namespace LineGrammar

/-- The kinds of symbols that have no compound names. -/
def SymbolKind.isSimple : SymbolKind → Bool
  | rule | token | walker | lexerMode => true
  | function | walkerInterface | codeBlock => false

/-- What a name can be for: for all that goes by it, or for a function of a walker and a rule. -/
inductive Subject
  | named (kind : SymbolKind)
  | function (rule walker : String)
deriving DecidableEq

namespace Subject

def symbol (name : String) : Subject → Symbol
  | named kind => ⟨kind, name⟩
  | function rule walker => .function (functionKey rule walker name)

/-- A subject whose parts are no compound names. -/
def IsSimple : Subject → Prop
  | named kind => kind.isSimple = true
  | function rule walker => IsPlain rule ∧ IsPlain walker

theorem symbol_inj {subject subject' : Subject} (h : subject.IsSimple) (h' : subject'.IsSimple)
    {x y : String} (heq : subject.symbol x = subject'.symbol y) : subject = subject' ∧ x = y := by
  cases subject with
  | named kind =>
    cases subject' with
    | named kind' =>
      cases heq
      exact ⟨rfl, rfl⟩
    | function rule' walker' =>
      obtain rfl : kind = .function := congrArg Symbol.kind heq
      cases h
  | function rule walker =>
    cases subject' with
    | named kind' =>
      obtain rfl : kind' = .function := (congrArg Symbol.kind heq).symm
      cases h'
    | function rule' walker' =>
      obtain ⟨rfl, rfl, rfl⟩ := functionKey_inj h.1 h'.1 h.2 h'.2 (congrArg Symbol.name heq)
      exact ⟨rfl, rfl⟩

/-- The rule to whose blocks the subject under a name belongs. -/
def rule? (name : String) : Subject → Option String
  | named kind => if kind = .rule then some name else none
  | function rule _ => some rule

end Subject

/-- A new name for a subject that has an old one. -/
structure Renaming where
  subject : Subject
  old : String
  new : String
  /-- The rules that have a body of the given name. -/
  IsBody : String → String → Prop

namespace Renaming

/-- The symbol that is renamed. -/
def source (ρ : Renaming) : Symbol := ρ.subject.symbol ρ.old

/-- The symbol that it becomes. -/
def target (ρ : Renaming) : Symbol := ρ.subject.symbol ρ.new

/-- The new name is spelled as the subject asks for, and no other rule has bodies of the same names. -/
structure Valid (ρ : Renaming) : Prop where
  subject : ρ.subject.IsSimple
  old : isName ρ.old = true
  new : isName ρ.new = true
  token : ρ.subject = .named .token → isTokenName ρ.new = true
  rule : ρ.subject = .named .rule → isRuleName ρ.new = true
  bodies : ∀ rule ∈ ρ.subject.rule? ρ.old,
    ∀ {other body : String}, ρ.IsBody rule body → ρ.IsBody other body → other = rule

/-- The new name of a subject. -/
def apply (ρ : Renaming) (subject : Subject) (name : String) : String :=
  if ρ.subject = subject ∧ name = ρ.old then ρ.new else name

/-- What a name becomes that is not the new one before. -/
structure SendsName (ρ : Renaming) (subject : Subject) (x y : String) : Prop where
  fresh : subject.symbol x ≠ ρ.target
  eq : y = ρ.apply subject x

/-- What a name becomes that is a part of keys. -/
structure SendsPart (ρ : Renaming) (kind : SymbolKind) (x y : String) : Prop where
  name : ρ.SendsName (.named kind) x y
  plain : IsPlain x
  plain' : IsPlain y

/-- What the name of a rule body becomes. -/
structure SendsBodyName (ρ : Renaming) (rule rule' body body' : String) : Prop where
  name : ρ.SendsPart .rule rule rule'
  known : ρ.IsBody rule body
  numbered : ∃ i, body = bodyName rule i ∧ body' = bodyName rule' i

/-- What a symbol becomes: a name by itself, or a key by the names in it. -/
inductive Sends (ρ : Renaming) : Symbol → Symbol → Prop
  | name {kind : SymbolKind} (hkind : kind.isSimple = true) {x y : String}
    (h : ρ.SendsName (.named kind) x y) : ρ.Sends ⟨kind, x⟩ ⟨kind, y⟩
  | interface {x y : String} (h : ρ.SendsPart .walker x y) :
    ρ.Sends (.walkerInterface x) (.walkerInterface y)
  | function {rule rule' walker walker' x y : String} (hrule : ρ.SendsPart .rule rule rule')
    (hwalker : ρ.SendsPart .walker walker walker') (h : ρ.SendsName (.function rule walker) x y) :
    ρ.Sends (.function (functionKey rule walker x)) (.function (functionKey rule' walker' y))
  | members {x y part : String} (h : ρ.SendsPart .walker x y) (hpart : IsPlain part) :
    ρ.Sends (.codeBlock (blockKey none x part)) (.codeBlock (blockKey none y part))
  | body {rule rule' body body' walker walker' function : String}
    (hbody : ρ.SendsBodyName rule rule' body body') (hwalker : ρ.SendsPart .walker walker walker')
    (hfunction : IsPlain function) :
    ρ.Sends (.codeBlock (blockKey (some body) walker function))
      (.codeBlock (blockKey (some body') walker' (ρ.apply (.function rule walker) function)))

variable {ρ : Renaming}

theorem apply_of_ne {subject : Subject} (h : ρ.subject ≠ subject) (name : String) :
    ρ.apply subject name = name := if_neg fun hboth => h hboth.1

theorem apply_eq_self {subject : Subject} {name : String} (h : ρ.source ≠ subject.symbol name) :
    ρ.apply subject name = name := by
  refine if_neg ?_
  rintro ⟨rfl, rfl⟩
  exact h rfl

theorem SendsName.inj {subject : Subject} {x x' y y' : String} (h : ρ.SendsName subject x y)
    (h' : ρ.SendsName subject x' y') : x = x' ↔ y = y' := by
  obtain ⟨hfresh, rfl⟩ := h
  obtain ⟨hfresh', rfl⟩ := h'
  refine ⟨fun h => by rw [h], fun h => ?_⟩
  by_cases hsubject : ρ.subject = subject
  · subst hsubject
    have hne : x ≠ ρ.new := fun hx => hfresh (by rw [hx]; rfl)
    have hne' : x' ≠ ρ.new := fun hx => hfresh' (by rw [hx]; rfl)
    simp only [apply, true_and] at h
    split at h <;> split at h
    · next hx hx' => rw [hx, hx']
    · exact absurd h.symm hne'
    · exact absurd h hne
    · exact h
  · rwa [apply_of_ne hsubject, apply_of_ne hsubject] at h

theorem SendsPart.inj {kind : SymbolKind} {x x' y y' : String} (h : ρ.SendsPart kind x y)
    (h' : ρ.SendsPart kind x' y') : x = x' ↔ y = y' := h.name.inj h'.name

theorem SendsPart.sends {kind : SymbolKind} {x y : String} (h : ρ.SendsPart kind x y)
    (hkind : kind.isSimple = true) : ρ.Sends ⟨kind, x⟩ ⟨kind, y⟩ := .name hkind h.name

theorem SendsBodyName.plain {rule rule' body body' : String} (h : ρ.SendsBodyName rule rule' body body') :
    IsPlain body := by
  obtain ⟨i, rfl, -⟩ := h.numbered
  exact isPlain_bodyName h.name.plain i

/-- The names of other rules stay, and the functions for them. -/
theorem apply_of_rule_ne {rule : String} (h : ρ.subject.rule? ρ.old ≠ some rule) :
    ρ.apply (.named .rule) rule = rule ∧ ∀ walker name, ρ.apply (.function rule walker) name = name := by
  refine ⟨if_neg ?_, fun walker name => if_neg ?_⟩
  · rintro ⟨hsubject, rfl⟩
    exact h (by rw [hsubject]; rfl)
  · rintro ⟨hsubject, -⟩
    exact h (by rw [hsubject]; rfl)

/-- What a body becomes, and the functions for it, is told by its name. -/
theorem SendsBodyName.congr (hρ : ρ.Valid) {rule rule' other other' body x y : String}
    (h : ρ.SendsBodyName rule rule' body x) (h' : ρ.SendsBodyName other other' body y) :
    x = y ∧ ∀ walker, ρ.apply (.function rule walker) = ρ.apply (.function other walker) := by
  obtain ⟨i, hi, rfl⟩ := h.numbered
  obtain ⟨j, hj, rfl⟩ := h'.numbered
  by_cases hsame : rule = other
  · subst hsame
    obtain rfl := bodyName_injective _ (hi.symm.trans hj)
    exact ⟨by rw [(h.name.inj h'.name).1 rfl], fun _ => rfl⟩
  · -- Two rules share the name, so neither of them is concerned.
    obtain ⟨hrule, hfunction⟩ := apply_of_rule_ne fun hmem =>
      hsame (hρ.bodies rule hmem h.known h'.known).symm
    obtain ⟨hrule', hfunction'⟩ := apply_of_rule_ne fun hmem =>
      hsame (hρ.bodies other hmem h'.known h.known)
    refine ⟨?_, fun walker => funext fun name => by rw [hfunction, hfunction']⟩
    rw [h.name.name.eq, h'.name.name.eq, hrule, hrule', ← hi, hj]

section
variable (hρ : ρ.Valid) {x y : String}
include hρ

theorem SendsName.isTokenName (h : ρ.SendsName (.named .token) x y) (hx : LineGrammar.isTokenName x = true) :
    LineGrammar.isTokenName y = true := by
  rw [h.eq, apply]
  split
  · next hboth => exact hρ.token hboth.1
  · exact hx

theorem SendsName.isRuleName (h : ρ.SendsName (.named .rule) x y) (hx : LineGrammar.isRuleName x = true) :
    LineGrammar.isRuleName y = true := by
  rw [h.eq, apply]
  split
  · next hboth => exact hρ.rule hboth.1
  · exact hx

end

theorem Sends.kind_eq {s t : Symbol} (h : ρ.Sends s t) : s.kind = t.kind := by cases h <;> rfl

/-- A renaming is one to one on all that is no block. -/
theorem Sends.inj {s s' t t' : Symbol} (h : ρ.Sends s t) (h' : ρ.Sends s' t')
    (hblock : s'.kind ≠ .codeBlock) : s = s' ↔ t = t' := by
  by_cases hkind : s.kind = s'.kind
  case neg =>
    refine iff_of_false (fun heq => hkind (by rw [heq])) fun heq => hkind ?_
    rw [h.kind_eq, h'.kind_eq, heq]
  cases h with
  | @name kind hnamed x y h =>
    cases h' with
    | @name kind' _ x' y' h' =>
      obtain rfl : kind = kind' := hkind
      simpa [Symbol.mk.injEq] using h.inj h'
    | _ => obtain rfl : kind = _ := hkind; cases hnamed
  | @interface x y h =>
    cases h' with
    | name hnamed _ => subst hkind; cases hnamed
    | @interface x' y' h' => simpa [Symbol.walkerInterface] using h.inj h'
    | _ => cases hkind
  | function hrule hwalker h =>
    cases h' with
    | name hnamed _ => subst hkind; cases hnamed
    | function hrule' hwalker' h' =>
      simp only [Symbol.function, Symbol.mk.injEq, true_and]
      constructor
      · intro heq
        obtain ⟨rfl, rfl, rfl⟩ := functionKey_inj hrule.plain hrule'.plain hwalker.plain hwalker'.plain heq
        rw [(hrule.inj hrule').1 rfl, (hwalker.inj hwalker').1 rfl, (h.inj h').1 rfl]
      · intro heq
        obtain ⟨rfl, rfl, rfl⟩ :=
          functionKey_inj hrule.plain' hrule'.plain' hwalker.plain' hwalker'.plain' heq
        obtain rfl := (hrule.inj hrule').2 rfl
        obtain rfl := (hwalker.inj hwalker').2 rfl
        rw [(h.inj h').2 rfl]
    | _ => cases hkind
  | members | body => exact absurd hkind.symm hblock

/-- A block belongs to a walker itself or to a rule body. -/
theorem Sends.block_cases {key : String} {t : Symbol} (h : ρ.Sends (.codeBlock key) t) :
    (∃ x y part, key = blockKey none x part ∧ t = .codeBlock (blockKey none y part) ∧
      ρ.SendsPart .walker x y ∧ IsPlain part) ∨
    ∃ rule rule' body body' walker walker' function, key = blockKey (some body) walker function ∧
      t = .codeBlock (blockKey (some body') walker' (ρ.apply (.function rule walker) function)) ∧
      ρ.SendsBodyName rule rule' body body' ∧ ρ.SendsPart .walker walker walker' ∧ IsPlain function := by
  generalize hs : Symbol.codeBlock key = s at h
  have hkind : s.kind = .codeBlock := hs ▸ rfl
  cases h with
  | members h hpart => exact .inl ⟨_, _, _, congrArg Symbol.name hs, rfl, h, hpart⟩
  | body hbody hwalker hfunction =>
    exact .inr ⟨_, _, _, _, _, _, _, congrArg Symbol.name hs, rfl, hbody, hwalker, hfunction⟩
  | name hnamed _ =>
    obtain rfl := hkind
    cases hnamed
  | _ => cases hkind

/-- A symbol becomes one symbol only. -/
theorem Sends.congr (hρ : ρ.Valid) {s t t' : Symbol} (h : ρ.Sends s t) (h' : ρ.Sends s t') : t = t' := by
  by_cases hblock : s.kind = .codeBlock
  case neg => exact (h.inj h' hblock).1 rfl
  obtain ⟨kind, key⟩ := s
  obtain rfl : kind = .codeBlock := hblock
  have hplain : ∀ {rule rule' body body' : String}, ρ.SendsBodyName rule rule' body body' →
      ∀ name ∈ some body, IsPlain name := by
    rintro _ _ _ _ hbody _ ⟨⟩
    exact hbody.plain
  rcases h.block_cases with ⟨x, y, part, hkey, rfl, hx, hpart⟩ |
    ⟨rule, rule', body, body', walker, walker', function, hkey, rfl, hbody, hwalker, hfunction⟩ <;>
  rcases h'.block_cases with ⟨x₁, y₁, part₁, hkey', rfl, hx', hpart'⟩ |
    ⟨rule₁, rule₁', body₁, body₁', walker₁, walker₁', function₁, hkey', rfl, hbody', hwalker', hfunction'⟩
  · obtain ⟨-, rfl, rfl⟩ := blockKey_inj (by simp) (by simp) hx.plain hx'.plain hpart hpart'
      (hkey.symm.trans hkey')
    rw [(hx.inj hx').1 rfl]
  · obtain ⟨hmixed, -⟩ := blockKey_inj (by simp) (hplain hbody') hx.plain hwalker'.plain hpart hfunction'
      (hkey.symm.trans hkey')
    cases hmixed
  · obtain ⟨hmixed, -⟩ := blockKey_inj (hplain hbody) (by simp) hwalker.plain hx'.plain hfunction hpart'
      (hkey.symm.trans hkey')
    cases hmixed
  · obtain ⟨hsame, rfl, rfl⟩ := blockKey_inj (hplain hbody) (hplain hbody') hwalker.plain hwalker'.plain
      hfunction hfunction' (hkey.symm.trans hkey')
    obtain rfl := Option.some.inj hsame
    obtain ⟨rfl, hcalled⟩ := hbody.congr hρ hbody'
    rw [(hwalker.inj hwalker').1 rfl, hcalled]

end Renaming

end LineGrammar
