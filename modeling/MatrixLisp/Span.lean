/-!
# Spans

A span is the half-open range of byte offsets that a token or a form covers in its source. Offsets
are 32-bit words, so an offset past the last word is kept as the last word.
-/
namespace MatrixLisp

/-- The byte range `start..stop` of a source text. -/
structure Span where
  start : Nat
  stop : Nat
  deriving DecidableEq, Inhabited

namespace Span

/-- The greatest offset that a span can hold. -/
def maxOffset : Nat := 4294967295

/-- The span from one offset to another, each kept within the greatest offset. -/
def ofRange (start stop : Nat) : Span :=
  ⟨min start maxOffset, min stop maxOffset⟩

/-- The empty span at the start of the source, which stands for no place at all. -/
def dummy : Span := ⟨0, 0⟩

def point (offset : Nat) : Span := ⟨offset, offset⟩

/-- The smallest span that covers two spans. -/
def cover (a b : Span) : Span :=
  ⟨min a.start b.start, max a.stop b.stop⟩

/-- The number of bytes covered; a reversed span covers none. -/
def length (s : Span) : Nat := s.stop - s.start

def isEmpty (s : Span) : Bool := s.stop ≤ s.start

def text (s : Span) : String := s!"{s.start}..{s.stop}"

@[simp]
theorem cover_start (a b : Span) : (a.cover b).start = min a.start b.start := rfl

@[simp]
theorem cover_stop (a b : Span) : (a.cover b).stop = max a.stop b.stop := rfl

theorem ofRange_eq {start stop : Nat} (h₁ : start ≤ maxOffset) (h₂ : stop ≤ maxOffset) :
    ofRange start stop = ⟨start, stop⟩ := by
  simp only [ofRange, Nat.min_eq_left h₁, Nat.min_eq_left h₂]

end Span

end MatrixLisp
