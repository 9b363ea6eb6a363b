import LineGrammar.Proofs.Content

/-! The content of an index, and of what a line asks for. To take contents is to recast, so each operation on
the index can be done on the content alone. -/

namespace LineGrammar

def Pending.content (p : Pending) : Pending := ⟨p.symbol, p.span.onLines⟩

def Bucket.content (b : Bucket) : Bucket := ⟨b.symbol, b.definitions.map Definition.content⟩

def Index.content (ix : Index) : Index :=
  ⟨ix.buckets.map Bucket.content, ix.pending.map Pending.content, ix.settings⟩

def Diagnostic.content (d : Diagnostic) : Diagnostic := { d with span := d.span.onLines }

def OpenRule.content (r : OpenRule) : OpenRule :=
  { r with name := r.name.content, span := r.span.onLines }

def Sequel.content : Sequel → Sequel
  | nothing => .nothing
  | rule r => .rule r.content
  | body b => .body b.content
  | name target? => .name target?
  | block target => .block target

/-- The content of a reading, by the content of what is read. -/
def Reading.content {α : Type} (f : α → α) (r : Reading α) : Reading α :=
  ⟨f r.node, r.problems.map Diagnostic.content, r.index.content, r.sequel.content⟩

namespace Index

@[simp] theorem settings_content (ix : Index) : ix.content.settings = ix.settings := rfl

theorem definitionsOf_content (ix : Index) (s : Symbol) :
    ix.content.definitionsOf s = (ix.definitionsOf s).map Definition.content :=
  ix.definitionsOf_recast .content s

@[simp] theorem isDefined_content (ix : Index) (s : Symbol) :
    ix.content.isDefined s = ix.isDefined s := ix.isDefined_recast .content s

theorem definitionsOfKind_content (ix : Index) (kind : SymbolKind) :
    ix.content.definitionsOfKind kind = (ix.definitionsOfKind kind).map Definition.content :=
  ix.definitionsOfKind_recast .content kind

theorem names_content (ix : Index) (kind : SymbolKind) :
    ix.content.names kind = ix.names kind := ix.names_recast .content kind

@[simp] theorem nextInternalName_content (ix : Index) (rule : String) :
    ix.content.nextInternalName rule = ix.nextInternalName rule :=
  ix.nextInternalName_recast .content rule

theorem content_mention (s : Symbol) (span : Span) (ix : Index) :
    (ix.mention s span).content = ix.content.mention s span.onLines :=
  ix.recast_mention .content s span

theorem content_enterAll (ix : Index) (ds : List Definition) :
    (ix.enterAll ds).content = ix.content.enterAll (ds.map Definition.content) :=
  ix.recast_enterAll .content ds

theorem content_adjust (change : Settings → Settings) (ix : Index) :
    (ix.adjust change).content = ix.content.adjust change := rfl

theorem unresolved_content (ix : Index) :
    ix.content.unresolved = ix.unresolved.map Pending.content := ix.unresolved_recast .content

section
variable {ix ix' : Index} (h : ix'.content = ix.content)
include h

theorem settings_of_content : ix'.settings = ix.settings := by
  rw [← settings_content, h, settings_content]

theorem isDefined_of_content (s : Symbol) : ix'.isDefined s = ix.isDefined s := by
  rw [← isDefined_content, h, isDefined_content]

theorem nextInternalName_of_content (rule : String) :
    ix'.nextInternalName rule = ix.nextInternalName rule := by
  rw [← nextInternalName_content, h, nextInternalName_content]

end

end Index

end LineGrammar
