import LineGrammar.Proofs.ExternalWalkers
import LineGrammar.Proofs.SafeRenaming
import LineGrammar.Proofs.Undefined

/-! Renaming a rule or a function by the edits that are offered for it. They reach what is written, and the
names of rule bodies follow the rule. A function that some block implements without being named stays there
what it was, so its new name would go without that block. -/

namespace LineGrammar

section
variable {limit : Nat} {text : String} (hclean : (analyze limit text).diagnostics = []) {n : Node}
  (hn : n ∈ (analyze limit text).nodeList) {l : Lexeme}
include hclean hn

open Analysis in
/-- Where nothing is wrong every name that is written is defined by some node. -/
theorem exists_definition_of_clean {s : Symbol} (href : (l, s) ∈ n.references) :
    ∃ m ∈ (analyze limit text).nodeList, ∃ d ∈ m.definitions, d.symbol = s ∧ d.Fits := by
  have hrun : (after (Text.lines text)).Clean := clean_of_analyzeLines hclean
  have hbooks := (accounted_after (Text.lines text)).books
  have heq : analyze limit text = (after (Text.lines text)).finish :=
    (analyzeLines_of_clean hrun limit).trans (finish_of_clean hrun).symm
  rw [heq] at hclean hn
  obtain ⟨line, hline⟩ := Document.mem_nodeList.1 hn
  have hdefined : (after (Text.lines text)).index.isDefined s = true := by
    refine (answered_reference (by simp [Harmless, hclean]) hline href).resolve_right ?_
    rintro ⟨d, hd, -⟩
    rw [hclean] at hd
    cases hd
  rw [hbooks.records.isDefined, List.any_eq_true] at hdefined
  obtain ⟨d, hd, hsymbol⟩ := hdefined
  obtain ⟨m, hm, hdm⟩ := List.mem_flatMap.1 hd
  rw [heq, finish_of_clean hrun]
  exact ⟨m, hm, d, hdm, of_decide_eq_true hsymbol, hbooks.sound.fits d hd⟩

/-- The key of a function that is written has plain parts. -/
theorem exists_key_of_clean {key : String} (href : (l, .function key) ∈ n.references) :
    ∃ rule walker, IsPlain rule ∧ IsPlain walker ∧ key = functionKey rule walker l.text := by
  obtain ⟨m, hm, d, hd, hsymbol, hfits⟩ := exists_definition_of_clean hclean hn href
  have hpart := hasPlainParts_analyze hm hd
  unfold Definition.Fits at hfits
  unfold Definition.HasPlainParts at hpart
  rw [hsymbol] at hfits
  split at hfits
  · next rule walker function signature hdetail =>
    rw [hdetail] at hpart
    have hkey : key = functionKey rule walker function := congrArg Symbol.name hfits.1
    obtain ⟨front, hfront⟩ := (Node.isWritten_reference href).2
    have hplain : IsPlain l.text := isPlain_of_mem_words hn (Node.mem_words href)
    rw [eq_of_append_colons (hfront.symm.trans hkey) hplain hpart.2.2]
    exact ⟨rule, walker, hpart.1, hpart.2.1, hkey⟩
  · cases hfits
  · exact absurd rfl hfits.1

/-- A rule or a function that is written is a subject under the name that stands there. -/
theorem exists_subject_of_clean {s : Symbol} (href : (l, s) ∈ n.references)
    (hkind : s.kind = .rule ∨ s.kind = .function) :
    ∃ subject : Subject, s = subject.symbol l.text ∧ subject.IsSimple := by
  obtain ⟨kind, name⟩ := s
  rcases hkind with hkind | hkind <;> obtain rfl := hkind
  · obtain ⟨-, hname⟩ := Node.isWritten_reference href
    obtain rfl : name = l.text := hname
    exact ⟨.named .rule, rfl, rfl⟩
  · obtain ⟨rule, walker, hrule, hwalker, rfl⟩ := exists_key_of_clean hclean hn href
    exact ⟨.function rule walker, rfl, hrule, hwalker⟩

end

/-- The name is spelled like those of rules or of functions, whichever the symbol is. -/
def Symbol.CanBeCalled (s : Symbol) (name : String) : Prop :=
  s.kind = .rule ∧ isRuleName name = true ∨ s.kind = .function ∧ isName name = true

/-- The symbol is the rule or a function for it. -/
def Symbol.IsOfRule (s : Symbol) (rule : String) : Prop :=
  s = .rule rule ∨ ∃ walker function, s = .function (functionKey rule walker function)

/-- No body of the rule has the name of a body of another one. -/
def Document.OwnsBodies (d : Document) (rule : String) : Prop :=
  ∀ x ∈ d.rules, ∀ y ∈ d.rules, x.name.text = rule → x.internalName = y.internalName → y.name.text = rule

namespace Subject

theorem kind_symbol (subject : Subject) (name name' : String) :
    (subject.symbol name).kind = (subject.symbol name').kind := by
  cases subject <;> rfl

theorem isOfRule {subject : Subject} {name rule : String} (h : rule ∈ subject.rule? name) :
    (subject.symbol name).IsOfRule rule := by
  cases subject with
  | named kind =>
    rw [rule?, Option.mem_def] at h
    split at h
    · next hkind =>
      cases h
      exact .inl (by rw [hkind]; rfl)
    · cases h
  | function rule' walker =>
    cases h
    exact .inr ⟨walker, name, rfl⟩

end Subject

section
variable {limit : Nat} {text name : String} {subject : Subject} {l : Lexeme}

/-- The renaming that the edits carry out, under the bodies of the document. -/
def Document.renaming (d : Document) (subject : Subject) (old name : String) : Renaming where
  subject := subject
  old := old
  new := name
  IsBody rule body := ∃ r ∈ d.rules, r.name.text = rule ∧ r.internalName = body

theorem valid_renaming (hsubject : subject.IsSimple) (hold : isName l.text = true)
    (hname : (subject.symbol l.text).CanBeCalled name)
    (hbodies : ∀ rule, (subject.symbol l.text).IsOfRule rule → (analyze limit text).OwnsBodies rule) :
    ((analyze limit text).renaming subject l.text name).Valid where
  subject := hsubject
  old := hold
  new := hname.elim (fun h => isNameText_of_isRuleSpelled h.2) And.right
  token := by
    rintro ⟨⟩
    rcases hname with ⟨hkind, -⟩ | ⟨hkind, -⟩ <;> cases hkind
  rule := by
    rintro ⟨⟩
    rcases hname with ⟨-, hrule⟩ | ⟨hkind, -⟩
    · exact hrule
    · cases hkind
  bodies := by
    rintro rule hrule other body ⟨x, hx, hxrule, hxbody⟩ ⟨y, hy, rfl, hybody⟩
    exact hbodies rule (Subject.isOfRule hrule) x hx y hy hxrule (hxbody.trans hybody.symm)

theorem admits_renaming (hsubject : subject.IsSimple) (hnew : isName name = true)
    (hfresh : ∀ n ∈ (analyze limit text).nodeList, ∀ ref ∈ n.references,
      ref.2.kind = (subject.symbol l.text).kind → ref.1.text ≠ name)
    (hwritten : (subject.symbol l.text).kind = .function →
      (subject.symbol l.text).name ∉ (analyze limit text).impliedKeys) :
    ((analyze limit text).renaming subject l.text name).AdmitsDocument (analyze limit text) where
  fresh := by
    intro n hn ref href htarget
    have hname : ref.2.IsWritten name := htarget ▸ Renaming.isWritten_symbol hsubject name
    refine hfresh n hn ref href (by rw [htarget]; exact Subject.kind_symbol _ _ _) ?_
    exact (Node.isWritten_reference href).unique hname (isPlain_of_mem_words hn (Node.mem_words href))
      (isPlain_of_isNameText hnew)
  bodies := fun r hr => ⟨r, hr, rfl, rfl⟩
  implied := by
    rintro key hkey heq
    exact hwritten (congrArg Symbol.kind heq) (congrArg Symbol.name heq ▸ hkey)

end

/-- Making the edits that rename a rule or a function to a name that is that of no rule and no function keeps
a document without diagnostics so, if the bodies of the rule have their names to themselves and no block
implements the function without its being written. -/
theorem rename_stays_clean (limit : Nat) (text : String) (p : Position) (l : Lexeme) (s : Symbol)
    (name : String) (hclean : (analyze limit text).diagnostics = [])
    (hfound : (analyze limit text).referenceAt? p = some (l, s)) (hname : s.CanBeCalled name)
    (hfresh : ∀ n ∈ (analyze limit text).nodeList, ∀ ref ∈ n.references,
      ref.2.kind = .rule ∨ ref.2.kind = .function → ref.1.text ≠ name)
    (hbodies : ∀ rule, s.IsOfRule rule → (analyze limit text).OwnsBodies rule)
    (hwritten : s.kind = .function → s.name ∉ (analyze limit text).impliedKeys) :
    (analyze limit (applyEdits text ((analyze limit text).renameAt p name))).diagnostics = [] := by
  obtain ⟨n, hn, href, -⟩ := exists_of_referenceAt? hfound
  have hnode : n ∈ (analyze limit text).nodeList := Document.mem_nodeList.2 ⟨_, hn⟩
  have hedits : (analyze limit text).renameAt p name = (analyze limit text).renamingOf s name := by
    rw [Document.renameAt, Document.occurrencesAt, hfound]
    rfl
  have hkind : s.kind = .rule ∨ s.kind = .function := hname.imp And.left And.left
  have hold : isName l.text = true := isName_of_mem_words hnode (Node.mem_words href)
  have hnew : isName name = true := hname.elim (fun h => isNameText_of_isRuleSpelled h.2) And.right
  obtain ⟨subject, rfl, hsubject⟩ := exists_subject_of_clean hclean hnode href hkind
  rw [hedits]
  exact (valid_renaming hsubject hold hname hbodies).clean_edited hclean
    (admits_renaming hsubject hnew (fun n hn ref href heq => hfresh n hn ref href (heq ▸ hkind)) hwritten)

/-- A function whose block is named by the line above it. -/
def namedBlockText : String :=
  "%walkers W;\n%function r f() -> int;\nr := A\n@W::f\n%\x7b\n%\x7d\nA := \"x\";"

/-- The function gets another name, there as well. -/
theorem rename_stays_clean_named :
    (analyze defaultErrorLimit namedBlockText).diagnostics = [] ∧
      (analyze defaultErrorLimit namedBlockText).referenceAt? ⟨1, 12⟩ =
        some (⟨"f", .onLine 1 12 13⟩, .function "r::W::f") ∧
      (analyze defaultErrorLimit (applyEdits namedBlockText
        ((analyze defaultErrorLimit namedBlockText).renameAt ⟨1, 12⟩ "run"))).diagnostics = [] :=
  have hclean : (analyze defaultErrorLimit namedBlockText).diagnostics = [] := by decide +kernel
  have hfound : (analyze defaultErrorLimit namedBlockText).referenceAt? ⟨1, 12⟩ =
      some (⟨"f", .onLine 1 12 13⟩, .function "r::W::f") := by decide +kernel
  have hbodies : ∀ x ∈ (analyze defaultErrorLimit namedBlockText).rules,
      ∀ y ∈ (analyze defaultErrorLimit namedBlockText).rules, x.internalName = y.internalName →
        y.name.text = x.name.text := by decide +kernel
  ⟨hclean, hfound, rename_stays_clean defaultErrorLimit namedBlockText ⟨1, 12⟩ _ _ "run" hclean hfound
    (.inr ⟨rfl, by decide +kernel⟩) (by decide +kernel)
    (fun _ _ x hx y hy hrule hsame => (hbodies x hx y hy hsame).trans hrule) (fun _ => by decide +kernel)⟩

/-- A function whose block has no name. -/
def unnamedBlockText : String :=
  "%walkers W;\n%function r go() -> int;\nr := A\n%\x7b\n%\x7d\nA := \"x\";"

/-- The block still implements the implicit function, and the one with the new name goes without. -/
theorem rename_misses_block :
    (analyze defaultErrorLimit unnamedBlockText).diagnostics = [] ∧
      (analyze defaultErrorLimit unnamedBlockText).referenceAt? ⟨1, 12⟩ =
        some (⟨"go", .onLine 1 12 14⟩, .function "r::W::go") ∧
      (Symbol.function "r::W::go").CanBeCalled "run" ∧
      (∀ n ∈ (analyze defaultErrorLimit unnamedBlockText).nodeList, ∀ ref ∈ n.references,
        ref.2.kind = .rule ∨ ref.2.kind = .function → ref.1.text ≠ "run") ∧
      (analyze defaultErrorLimit (applyEdits unnamedBlockText
        ((analyze defaultErrorLimit unnamedBlockText).renameAt ⟨1, 12⟩ "run"))).diagnostics.map
          Diagnostic.cause = [.notDefined (.codeBlock "r::W::run")] :=
  ⟨by decide +kernel, by decide +kernel, .inr ⟨rfl, by decide +kernel⟩, by decide +kernel, by decide +kernel⟩

end LineGrammar
