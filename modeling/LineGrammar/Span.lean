/-! Places in a document. A span may be open, when its end is not known yet; an open span
contains nothing and sorts before every closed span with the same start. -/

namespace LineGrammar

/-- A line and a column, both counted from zero. The counts have no upper bound. Counts that are kept in
32 bits agree with them as long as there are fewer than `2 ^ 32` lines, and columns in each line. -/
structure Position where
  line : Nat
  column : Nat
deriving DecidableEq

namespace Position

instance : LE Position := ⟨fun p q => p.line < q.line ∨ p.line = q.line ∧ p.column ≤ q.column⟩

instance : LT Position := ⟨fun p q => p.line < q.line ∨ p.line = q.line ∧ p.column < q.column⟩

instance (p q : Position) : Decidable (p ≤ q) :=
  inferInstanceAs (Decidable (p.line < q.line ∨ p.line = q.line ∧ p.column ≤ q.column))

instance (p q : Position) : Decidable (p < q) :=
  inferInstanceAs (Decidable (p.line < q.line ∨ p.line = q.line ∧ p.column < q.column))

def earlier (p q : Position) : Position := if p ≤ q then p else q

def later (p q : Position) : Position := if p ≤ q then q else p

end Position

/-- Where something starts and, once that is known, where it stops. Like its positions it has no upper
bound. -/
structure Span where
  start : Position
  stop : Option Position
deriving DecidableEq

namespace Span

def onLine (line start stop : Nat) : Span := ⟨⟨line, start⟩, some ⟨line, stop⟩⟩

def isClosed (s : Span) : Bool := s.stop.isSome

def closeAt (s : Span) (stop : Position) : Span := { s with stop := some stop }

/-- Both ends belong to the span. -/
def contains (s : Span) (p : Position) : Bool :=
  match s.stop with
  | some stop => decide (s.start ≤ p) && decide (p ≤ stop)
  | none => false

/-- The place where the span stops, or where it starts while it is open. -/
def lastPosition (s : Span) : Position := s.stop.getD s.start

instance : LT Span := ⟨fun s t => s.start < t.start ∨ s.start = t.start ∧
  match s.stop, t.stop with
  | none, some _ => True
  | some p, some q => p < q
  | _, none => False⟩

instance (s t : Span) : Decidable (s < t) :=
  @instDecidableOr _ _ _ (@instDecidableAnd _ _ _ (by split <;> infer_instance))

instance : LE Span := ⟨fun s t => s < t ∨ s = t⟩

instance (s t : Span) : Decidable (s ≤ t) := inferInstanceAs (Decidable (s < t ∨ s = t))

instance : Ord Span := ⟨fun s t => if s < t then .lt else if s = t then .eq else .gt⟩

/-- The spans in increasing order. -/
def sort (spans : List Span) : List Span := spans.mergeSort fun s t => decide (s ≤ t)

/-- Drops each span that equals the one before it. -/
def dropRepeats : List Span → List Span
  | [] => []
  | [s] => [s]
  | s :: t :: rest => if s = t then dropRepeats (t :: rest) else s :: dropRepeats (t :: rest)

end Span

end LineGrammar
