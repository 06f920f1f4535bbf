/-!
# Places in source text

A position has a line and a column, counted from one, and a byte offset, counted from
zero. Line and column alone order positions; a span that stands for no text is zero
throughout.
-/

namespace Sema

structure Position where
  line : UInt32 := 0
  column : UInt32 := 0
  offset : UInt64 := 0
  deriving DecidableEq, Inhabited

structure Span where
  file : Option String := none
  start : Position := {}
  stop : Position := {}
  deriving DecidableEq, Inhabited

structure Spanned (α : Type) where
  span : Span
  node : α
  deriving DecidableEq, Inhabited

abbrev Ident := Spanned String

namespace Position

/-- `p` stands at or before `q`, by line and then column. -/
def atOrBefore (p q : Position) : Bool :=
  p.line < q.line || (p.line == q.line && p.column ≤ q.column)

/-- Line, then column, then offset. -/
def order (p q : Position) : Ordering :=
  ((compare p.line q.line).then (compare p.column q.column)).then (compare p.offset q.offset)

def text (p : Position) : String := s!"{p.line.toNat}:{p.column.toNat}"

theorem atOrBefore_iff (p q : Position) : p.atOrBefore q = true ↔
    p.line < q.line ∨ p.line = q.line ∧ p.column ≤ q.column := by
  simp [atOrBefore]

@[simp] theorem atOrBefore_refl (p : Position) : p.atOrBefore p = true := by
  simp [atOrBefore]

theorem atOrBefore_trans {p q r : Position} (h : p.atOrBefore q = true)
    (k : q.atOrBefore r = true) : p.atOrBefore r = true := by
  rw [atOrBefore_iff] at *
  simp only [UInt32.lt_iff_toNat_lt, UInt32.le_iff_toNat_le, ← UInt32.toNat_inj] at *
  omega

theorem atOrBefore_total (p q : Position) :
    p.atOrBefore q = true ∨ q.atOrBefore p = true := by
  simp only [atOrBefore_iff, UInt32.lt_iff_toNat_lt, UInt32.le_iff_toNat_le, ← UInt32.toNat_inj]
  omega

end Position

namespace Span

/-- The span of a node that has no source text. -/
def dummy : Span := {}

/-- One line, `len` columns from `line:column`. -/
def onLine (line column len : UInt32) : Span :=
  { start := { line, column }, stop := { line, column := column + len } }

def isDummy (s : Span) : Bool := s.start.line == 0 && s.stop.line == 0

/-- `s` starts at or before the start of `t`. -/
def precedes (s t : Span) : Bool := s.start.atOrBefore t.start

/-- The smallest span that covers both; the first file named is kept. -/
def merge (s t : Span) : Span where
  file := s.file.or t.file
  start := if s.start.atOrBefore t.start then s.start else t.start
  stop := if t.stop.atOrBefore s.stop then s.stop else t.stop

/-- Byte offset and length of the text; a span that ends before it starts is empty. -/
def bytes (s : Span) : Nat × Nat :=
  (s.start.offset.toNat, s.stop.offset.toNat - s.start.offset.toNat)

def text (s : Span) : String :=
  match s.file with
  | some file => s!"{file}:{s.start.text}"
  | none => s.start.text

end Span

/-- Change what stands at a place, keeping the place. -/
def Spanned.map {α β : Type} (f : α → β) (x : Spanned α) : Spanned β := ⟨x.span, f x.node⟩

end Sema
