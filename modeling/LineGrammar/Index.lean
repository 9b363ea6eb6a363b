import LineGrammar.Symbol

/-! The symbol index: every definition of a document, the uses that still wait for theirs, and
the settings of the document. Definitions are kept in buckets, one for each symbol, in the order
in which the symbols were first defined. -/

namespace LineGrammar

/-- All definitions of one symbol, in order. -/
structure Bucket where
  symbol : Symbol
  definitions : List Definition

/-- A use whose definition had not been seen. -/
structure Pending where
  symbol : Symbol
  span : Span
deriving DecidableEq

/-- What pragmas say about the document as a whole. -/
structure Settings where
  className : Option String := none
  walkersDeclared : Bool := false
  defaultWalker : Option String := none
  defaultWalkerSpecified : Bool := false
  startRule : Option String := none
deriving DecidableEq

structure Index where
  buckets : List Bucket := []
  pending : List Pending := []
  settings : Settings := {}

/-- Adds a definition to its symbol's bucket, or opens a bucket at the end. -/
def addToBuckets (d : Definition) : List Bucket → List Bucket
  | [] => [⟨d.symbol, [d]⟩]
  | b :: rest =>
    if b.symbol = d.symbol then { b with definitions := b.definitions ++ [d] } :: rest
    else b :: addToBuckets d rest

namespace Index

def add (d : Definition) (ix : Index) : Index := { ix with buckets := addToBuckets d ix.buckets }

def definitionsOf (ix : Index) (s : Symbol) : List Definition :=
  match ix.buckets.find? fun b => b.symbol = s with
  | some b => b.definitions
  | none => []

def isDefined (ix : Index) (s : Symbol) : Bool := !(ix.definitionsOf s).isEmpty

/-- The definitions of a kind, grouped by name in the order of first definition. -/
def definitionsOfKind (ix : Index) (kind : SymbolKind) : List Definition :=
  (ix.buckets.filter fun b => b.symbol.kind = kind).flatMap Bucket.definitions

/-- The names of a kind in the order of first definition. -/
def names (ix : Index) (kind : SymbolKind) : List String :=
  (ix.buckets.filter fun b => b.symbol.kind = kind).map fun b => b.symbol.name

def definitionCount (ix : Index) : Nat := (ix.buckets.flatMap Bucket.definitions).length

def ruleCount (ix : Index) (rule : String) : Nat := (ix.definitionsOf (.rule rule)).length

/-- The name for the next body of a rule: the rule's own, then numbered from one. -/
def nextInternalName (ix : Index) (rule : String) : String :=
  match ix.ruleCount rule with
  | 0 => rule
  | n => rule ++ "_" ++ toString n

/-- The functions declared for a rule, known by the front of their keys. -/
def functionsOfRule (ix : Index) (rule : String) : List Definition :=
  (ix.definitionsOfKind .function).filter fun d =>
    (rule ++ "::").toList.isPrefixOf d.symbol.name.toList

/-- The type that implements a walker from outside, if one is declared. -/
def interfaceOf (ix : Index) (walker : String) : Option String :=
  (ix.definitionsOf (.walkerInterface walker)).findSome? fun d =>
    match d.detail with
    | .walkerInterface typeName => some typeName
    | _ => none

def await (s : Symbol) (span : Span) (ix : Index) : Index :=
  { ix with pending := ix.pending ++ [⟨s, span⟩] }

/-- Drops the waiting uses of a symbol. -/
def settle (s : Symbol) (ix : Index) : Index :=
  { ix with pending := ix.pending.filter fun p => p.symbol ≠ s }

/-- A use: it waits only if its symbol has no definition yet. -/
def mention (s : Symbol) (span : Span) (ix : Index) : Index :=
  if ix.isDefined s then ix else ix.await s span

/-- The waiting uses that are still undefined, in order. -/
def unresolved (ix : Index) : List Pending := ix.pending.filter fun p => !ix.isDefined p.symbol

def clearPending (ix : Index) : Index := { ix with pending := [] }

/-- Adds a definition and settles the uses that waited for it. -/
def enter (ix : Index) (d : Definition) : Index := (ix.add d).settle d.symbol

def enterAll (ix : Index) (ds : List Definition) : Index := ds.foldl enter ix

def adjust (change : Settings → Settings) (ix : Index) : Index :=
  { ix with settings := change ix.settings }

end Index

end LineGrammar
