import LineGrammar.Proofs.Settings
import Mathlib.Data.List.TakeWhile

/-! What a list of directives says. A directive is a pragma that takes no block. Which class name, walkers,
default walker, start rule and functions a document has is told by its directives in order: the first one of
a kind counts, but for the start rule, of which the last one does. -/

namespace LineGrammar

namespace Pragma

def isDirective (p : Pragma) : Bool :=
  match p.body with
  | .members .. => false
  | _ => true

def className? (p : Pragma) : Option String :=
  match p.body with
  | .className name => some name.text
  | _ => none

/-- The definitions of the walkers that the pragma lists. -/
def walkers? (p : Pragma) : Option (List Definition) :=
  match p.body with
  | .walkers names _ => some (names.map fun name => ⟨.walker name.text, name.span, p.span, .plain⟩)
  | _ => none

def defaultWalker? (p : Pragma) : Option String :=
  match p.body with
  | .defaultWalker walker => some walker.text
  | _ => none

def startRule? (p : Pragma) : Option String :=
  match p.body with
  | .start rule => some rule.text
  | _ => none

/-- The definition of the function for the walker that the pragma resolves to. -/
def function? (p : Pragma) : Option Definition :=
  match p.body with
  | .function decl => decl.walkerName.map fun walker =>
    ⟨.function (functionKey decl.rule.text walker decl.function.text), decl.function.span, p.span,
      .function decl.rule.text walker decl.function.text decl.signature⟩
  | _ => none

end Pragma

/-- The walkers of the first pragma that lists any. -/
def walkersOf (ps : List Pragma) : List Definition := (ps.findSome? Pragma.walkers?).getD []

def walkerNames (ps : List Pragma) : List String := (walkersOf ps).map fun d => d.symbol.name

/-- The first default after that pragma which names one of the walkers. -/
def specifiedWalker? (ps : List Pragma) : Option String :=
  (ps.dropWhile (·.walkers?.isNone)).findSome? fun p => p.defaultWalker?.filter (· ∈ walkerNames ps)

def settingsOf (ps : List Pragma) : Settings where
  className := ps.findSome? Pragma.className?
  walkersDeclared := (ps.findSome? Pragma.walkers?).isSome
  defaultWalker := (specifiedWalker? ps).or (walkerNames ps).head?
  defaultWalkerSpecified := (specifiedWalker? ps).isSome
  startRule := (ps.filterMap Pragma.startRule?).getLast?

/-- The walker of a function that is declared after the directives. -/
def resolvedWalker (ps : List Pragma) (walker? : Option Lexeme) : Option String :=
  match walker? with
  | some walker => if walker.text ∈ walkerNames ps then some walker.text else none
  | none => (settingsOf ps).defaultWalker

/-- The first function with the key. -/
def functionOf? (ps : List Pragma) (key : String) : Option Definition :=
  ps.findSome? fun p => p.function?.filter (·.symbol = .function key)

variable {ps : List Pragma} {p : Pragma}

theorem symbol_of_mem_walkersOf {d : Definition} (h : d ∈ walkersOf ps) :
    d.symbol = .walker d.symbol.name := by
  unfold walkersOf at h
  cases hfirst : ps.findSome? Pragma.walkers? with
  | none => rw [hfirst] at h; cases h
  | some ds =>
    rw [hfirst] at h
    obtain ⟨p, -, hp⟩ := List.exists_of_findSome?_eq_some hfirst
    unfold Pragma.walkers? at hp
    split at hp <;> cases hp
    obtain ⟨name, -, rfl⟩ := List.mem_map.1 h
    rfl

theorem walkersOf_of_none (h : ps.findSome? Pragma.walkers? = none) : walkersOf ps = [] := by
  rw [walkersOf, h]
  rfl

/-- The walkers that are known stay the same. -/
theorem walkersOf_append {name : String} (h : name ∈ walkerNames ps) (rest : List Pragma) :
    walkersOf (ps ++ rest) = walkersOf ps := by
  cases hfirst : ps.findSome? Pragma.walkers? with
  | none => rw [walkerNames, walkersOf_of_none hfirst] at h; cases h
  | some ds => rw [walkersOf, walkersOf, List.findSome?_append, hfirst]; rfl

theorem mem_of_specifiedWalker? {name : String} (h : specifiedWalker? ps = some name) :
    name ∈ walkerNames ps := by
  obtain ⟨p, -, hp⟩ := List.exists_of_findSome?_eq_some h
  exact of_decide_eq_true (Option.filter_eq_some_iff.1 hp).2

theorem mem_of_defaultWalker {name : String} (h : (settingsOf ps).defaultWalker = some name) :
    name ∈ walkerNames ps := by
  rcases Option.or_eq_some_iff.1 h with h | ⟨-, h⟩
  · exact mem_of_specifiedWalker? h
  · exact List.mem_of_head? h

theorem mem_of_resolvedWalker {walker? : Option Lexeme} {name : String}
    (h : resolvedWalker ps walker? = some name) : name ∈ walkerNames ps := by
  cases walker? with
  | none => exact mem_of_defaultWalker h
  | some walker =>
    rw [resolvedWalker] at h
    split at h
    · next hmem => exact Option.some.inj h ▸ hmem
    · cases h

/-- There is a default walker if there is any walker. -/
theorem isSome_defaultWalker (hne : ∀ p ∈ ps, ∀ ds ∈ p.walkers?, ds ≠ []) :
    (settingsOf ps).defaultWalker.isSome = (settingsOf ps).walkersDeclared := by
  cases hfirst : ps.findSome? Pragma.walkers? with
  | none =>
    have hspecified : specifiedWalker? ps = none := by
      cases h : specifiedWalker? ps with
      | none => rfl
      | some name =>
        have hmem := mem_of_specifiedWalker? h
        rw [walkerNames, walkersOf_of_none hfirst] at hmem
        cases hmem
    simp [settingsOf, hfirst, hspecified, walkerNames, walkersOf_of_none hfirst]
  | some ds =>
    obtain ⟨p, hp, hwalkers⟩ := List.exists_of_findSome?_eq_some hfirst
    obtain ⟨d, rest, rfl⟩ := List.exists_cons_of_ne_nil (hne p hp ds hwalkers)
    simp [settingsOf, hfirst, walkerNames, walkersOf]

theorem exists_walkerName_iff (hne : ∀ p ∈ ps, ∀ ds ∈ p.walkers?, ds ≠ []) :
    (∃ name, name ∈ walkerNames ps) ↔ (settingsOf ps).walkersDeclared = true := by
  rw [← isSome_defaultWalker hne]
  constructor
  · rintro ⟨name, hname⟩
    cases h : (settingsOf ps).defaultWalker with
    | some walker => rfl
    | none =>
      have hhead := (Option.or_eq_none_iff.1 h).2
      rw [List.head?_eq_none_iff.1 hhead] at hname
      cases hname
  · intro h
    obtain ⟨name, hname⟩ := Option.isSome_iff_exists.1 h
    exact ⟨name, mem_of_defaultWalker hname⟩

/-- The first function with a key stands on a line of its own. -/
theorem exists_of_functionOf? {key : String} {d : Definition} (h : functionOf? ps key = some d) :
    ∃ front p rest decl walker, ps = front ++ p :: rest ∧ p.body = .function decl ∧
      decl.walkerName = some walker ∧ key = functionKey decl.rule.text walker decl.function.text ∧
      d.detail = .function decl.rule.text walker decl.function.text decl.signature := by
  obtain ⟨p, hp, hfunction⟩ := List.exists_of_findSome?_eq_some h
  obtain ⟨front, rest, heq⟩ := List.append_of_mem hp
  obtain ⟨hfunction, hkey⟩ := Option.filter_eq_some_iff.1 hfunction
  unfold Pragma.function? at hfunction
  split at hfunction
  · next decl hbody =>
    obtain ⟨walker, hwalker, rfl⟩ := Option.map_eq_some_iff.1 hfunction
    have hsymbol : Symbol.function _ = Symbol.function key := of_decide_eq_true hkey
    exact ⟨front, p, rest, decl, walker, heq, hbody, hwalker, (congrArg Symbol.name hsymbol).symm, rfl⟩
  · cases hfunction

theorem findSome?_concat {α β : Type} (f : α → Option β) (xs : List α) (x : α) :
    (xs ++ [x]).findSome? f = (xs.findSome? f).or (f x) := by
  rw [List.findSome?_append, List.findSome?_cons]
  cases f x <;> rfl

theorem walkersOf_concat :
    walkersOf (ps ++ [p]) = ((ps.findSome? Pragma.walkers?).or p.walkers?).getD [] := by
  rw [walkersOf, findSome?_concat]

/-- Only the first list of walkers counts. -/
theorem walkersOf_concat_same (h : (ps.findSome? Pragma.walkers?).isSome = true ∨ p.walkers? = none) :
    walkersOf (ps ++ [p]) = walkersOf ps := by
  rw [walkersOf_concat, walkersOf]
  rcases h with h | h
  · obtain ⟨ds, hds⟩ := Option.isSome_iff_exists.1 h
    rw [hds]
    rfl
  · rw [h, Option.or_none]

theorem specifiedWalker?_of_none (h : ps.findSome? Pragma.walkers? = none) :
    specifiedWalker? ps = none := by
  have hdrop : ps.dropWhile (·.walkers?.isNone) = [] := by
    rw [List.dropWhile_eq_nil_iff]
    exact fun p hp => by simpa using List.findSome?_eq_none_iff.1 h p hp
  rw [specifiedWalker?, hdrop]
  rfl

/-- After the walkers a default may still be specified, once. -/
theorem specifiedWalker?_concat (h : (ps.findSome? Pragma.walkers?).isSome = true) :
    specifiedWalker? (ps ++ [p]) =
      (specifiedWalker? ps).or (p.defaultWalker?.filter (· ∈ walkerNames ps)) := by
  have hnames : walkerNames (ps ++ [p]) = walkerNames ps := by
    rw [walkerNames, walkersOf_concat_same (.inl h), walkerNames]
  have hdrop : (ps ++ [p]).dropWhile (·.walkers?.isNone) = ps.dropWhile (·.walkers?.isNone) ++ [p] := by
    rw [List.dropWhile_append, if_neg]
    rw [List.isEmpty_iff, List.dropWhile_eq_nil_iff]
    intro hall
    obtain ⟨x, hx, hsome⟩ := List.findSome?_isSome_iff.1 h
    simp [Option.isNone_iff_eq_none.1 (hall x hx)] at hsome
  rw [specifiedWalker?, hnames, hdrop, findSome?_concat, specifiedWalker?]

/-- The walkers pragma itself and the lines before it specify no default. -/
theorem specifiedWalker?_concat_of_none (h : ps.findSome? Pragma.walkers? = none)
    (hp : p.walkers? = none ∨ p.defaultWalker? = none) : specifiedWalker? (ps ++ [p]) = none := by
  cases hwalkers : p.walkers? with
  | none =>
    refine specifiedWalker?_of_none ?_
    rw [findSome?_concat, h, hwalkers]
    rfl
  | some ds =>
    have hdefault : p.defaultWalker? = none := hp.resolve_left (by simp [hwalkers])
    have hdrop : (ps ++ [p]).dropWhile (·.walkers?.isNone) = [p] := by
      have hfront : ps.dropWhile (·.walkers?.isNone) = [] := by
        rw [List.dropWhile_eq_nil_iff]
        exact fun x hx => by simpa using List.findSome?_eq_none_iff.1 h x hx
      rw [List.dropWhile_append, hfront]
      simp [hwalkers]
    rw [specifiedWalker?, hdrop]
    simp [hdefault]

theorem functionOf?_concat (key : String) :
    functionOf? (ps ++ [p]) key =
      (functionOf? ps key).or (p.function?.filter (·.symbol = .function key)) :=
  findSome?_concat _ _ _

theorem walkerNames_concat_of_none (h : p.walkers? = none) :
    walkerNames (ps ++ [p]) = walkerNames ps := by
  rw [walkerNames, walkersOf_concat_same (.inr h), walkerNames]

theorem settingsOf_concat_of_not_walkers (hwalkers : p.walkers? = none) (hdefault : p.defaultWalker? = none) :
    settingsOf (ps ++ [p]) =
      { settingsOf ps with
        className := (settingsOf ps).className.or p.className?
        startRule := p.startRule?.or (settingsOf ps).startRule } := by
  have hspecified : specifiedWalker? (ps ++ [p]) = specifiedWalker? ps := by
    cases h : ps.findSome? Pragma.walkers? with
    | none => rw [specifiedWalker?_concat_of_none h (.inl hwalkers), specifiedWalker?_of_none h]
    | some ds => rw [specifiedWalker?_concat (by rw [h]; rfl), hdefault]; simp
  have hdeclared : (ps ++ [p]).findSome? Pragma.walkers? = ps.findSome? Pragma.walkers? := by
    rw [findSome?_concat, hwalkers, Option.or_none]
  have hstart : ((ps ++ [p]).filterMap Pragma.startRule?).getLast? =
      p.startRule?.or (ps.filterMap Pragma.startRule?).getLast? := by
    rw [List.filterMap_append, List.getLast?_append]
    cases h : p.startRule? <;> simp [h]
  simp only [settingsOf, hspecified, walkerNames_concat_of_none hwalkers, hdeclared, hstart,
    findSome?_concat]

/-- A directive that names no class and no start rule changes at most the walkers. -/
theorem settingsOf_concat_of_walkers (hclass : p.className? = none) (hstart : p.startRule? = none) :
    settingsOf (ps ++ [p]) =
      { settingsOf ps with
        walkersDeclared := (settingsOf ps).walkersDeclared || p.walkers?.isSome
        defaultWalker := (specifiedWalker? (ps ++ [p])).or (walkerNames (ps ++ [p])).head?
        defaultWalkerSpecified := (specifiedWalker? (ps ++ [p])).isSome } := by
  have hclasses : (ps ++ [p]).findSome? Pragma.className? = ps.findSome? Pragma.className? := by
    rw [findSome?_concat, hclass, Option.or_none]
  have hdeclared : ((ps ++ [p]).findSome? Pragma.walkers?).isSome =
      ((ps.findSome? Pragma.walkers?).isSome || p.walkers?.isSome) := by
    rw [findSome?_concat, Option.isSome_or]
  have hstarts : (ps ++ [p]).filterMap Pragma.startRule? = ps.filterMap Pragma.startRule? := by
    rw [List.filterMap_append]
    simp [hstart]
  simp only [settingsOf, hclasses, hdeclared, hstarts]

theorem settingsOf_concat_default {walker : Lexeme} (hbody : p.body = .defaultWalker walker) :
    settingsOf (ps ++ [p]) = p.body.set (fun walker => walker ∈ walkerNames ps) (settingsOf ps) := by
  have hwalkers : p.walkers? = none := by simp [Pragma.walkers?, hbody]
  have hdefault : p.defaultWalker? = some walker.text := by simp [Pragma.defaultWalker?, hbody]
  rw [settingsOf_concat_of_walkers (by simp [Pragma.className?, hbody])
    (by simp [Pragma.startRule?, hbody]), walkerNames_concat_of_none hwalkers, hwalkers, hbody]
  cases h : ps.findSome? Pragma.walkers? with
  | none =>
    have hnames : walkerNames ps = [] := by rw [walkerNames, walkersOf_of_none h]; rfl
    rw [specifiedWalker?_concat_of_none h (.inl hwalkers)]
    simp [PragmaBody.set, settingsOf, specifiedWalker?_of_none h, hnames]
  | some ds =>
    rw [specifiedWalker?_concat (by rw [h]; rfl), hdefault]
    by_cases hmem : walker.text ∈ walkerNames ps <;> cases hspecified : specifiedWalker? ps <;>
      simp [PragmaBody.set, settingsOf, hspecified, hmem, Option.filter]

theorem settingsOf_concat_list {names : List Lexeme} {declared : Bool}
    (hbody : p.body = .walkers names declared) :
    settingsOf (ps ++ [p]) = p.body.set (fun walker => walker ∈ walkerNames ps) (settingsOf ps) := by
  have hdefault : p.defaultWalker? = none := by simp [Pragma.defaultWalker?, hbody]
  rw [settingsOf_concat_of_walkers (by simp [Pragma.className?, hbody])
    (by simp [Pragma.startRule?, hbody])]
  cases h : ps.findSome? Pragma.walkers? with
  | none =>
    have hnames : walkerNames (ps ++ [p]) = names.map Lexeme.text := by
      rw [walkerNames, walkersOf_concat, h]
      simp [Pragma.walkers?, hbody, Symbol.walker]
    rw [specifiedWalker?_concat_of_none h (.inr hdefault), hnames]
    simp [PragmaBody.set, settingsOf, h, specifiedWalker?_of_none h, hbody, Pragma.walkers?]
  | some ds =>
    have hsome : (ps.findSome? Pragma.walkers?).isSome = true := by rw [h]; rfl
    have hnames : walkerNames (ps ++ [p]) = walkerNames ps := by
      rw [walkerNames, walkersOf_concat_same (.inl hsome), walkerNames]
    rw [specifiedWalker?_concat hsome, hdefault, hnames]
    simp [PragmaBody.set, settingsOf, h, hbody]

/-- One more directive sets what it sets on what the others have set. -/
theorem settingsOf_concat :
    settingsOf (ps ++ [p]) = p.body.set (fun walker => walker ∈ walkerNames ps) (settingsOf ps) := by
  cases hbody : p.body with
  | className name =>
    rw [settingsOf_concat_of_not_walkers (by simp [Pragma.walkers?, hbody])
      (by simp [Pragma.defaultWalker?, hbody])]
    cases h : (settingsOf ps).className with
    | none => simp [PragmaBody.set, h, Pragma.className?, Pragma.startRule?, hbody]
    | some first =>
      simp only [PragmaBody.set, h, Pragma.className?, Pragma.startRule?, hbody, Option.isSome_some,
        Option.some_or, Option.none_or, if_true]
      rw [← h]
  | walkers names declared => rw [settingsOf_concat_list hbody, hbody]
  | defaultWalker walker => rw [settingsOf_concat_default hbody, hbody]
  | start rule =>
    rw [settingsOf_concat_of_not_walkers (by simp [Pragma.walkers?, hbody])
      (by simp [Pragma.defaultWalker?, hbody])]
    simp [PragmaBody.set, Pragma.className?, Pragma.startRule?, hbody]
  | _ =>
    rw [settingsOf_concat_of_not_walkers (by simp [Pragma.walkers?, hbody])
      (by simp [Pragma.defaultWalker?, hbody])]
    simp [PragmaBody.set, Pragma.className?, Pragma.startRule?, hbody]

end LineGrammar
