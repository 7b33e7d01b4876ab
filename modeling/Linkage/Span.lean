/-!
# Linkage.Span

Where a piece of a source unit stands: its line, its column and its length. Lines and columns
count from 1; columns and lengths count bytes. All three are 32-bit words.
-/

namespace Linkage

structure Span where
  line : UInt32
  col : UInt32
  len : UInt32
  deriving DecidableEq, Inhabited

namespace Span

/-- The empty span at a position. -/
def point (line col : UInt32) : Span := ⟨line, col, 0⟩

def isEmpty (s : Span) : Bool := s.len == 0

/-- Position order: by line, then by column. -/
def startsBefore (a b : Span) : Bool :=
  a.line < b.line || (a.line == b.line && a.col ≤ b.col)

/--
On one line, the smallest span that covers both. Across lines, the earlier start with the two
lengths added, since columns of different lines cannot be compared.
-/
def merge (a b : Span) : Span :=
  if a.line = b.line then
    let start := min a.col b.col
    ⟨a.line, start, max (b.col + b.len) (a.col + a.len) - start⟩
  else if a.startsBefore b then
    ⟨a.line, a.col, a.len + b.len⟩
  else
    ⟨b.line, b.col, b.len + a.len⟩

/-- A span is written as its start, `line:col`. -/
def text (s : Span) : String :=
  toString s.line.toNat ++ ":" ++ toString s.col.toNat

end Span

end Linkage
