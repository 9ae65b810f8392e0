/-!
Byte ranges of a source text. Offsets count bytes of the UTF-8 form and are
stored in 32 bits.
-/

namespace Precedence

/-- The stored form of a byte offset: its low 32 bits. -/
def offset (bytes : Nat) : Nat := bytes % 0x100000000

/-- A half-open range of byte offsets. -/
structure Span where
  start : Nat
  stop : Nat
  deriving DecidableEq

namespace Span

def origin : Span := ⟨0, 0⟩

def ofLength (position length : Nat) : Span :=
  ⟨offset position, offset (position + length)⟩

def join (a b : Span) : Span := ⟨min a.start b.start, max a.stop b.stop⟩

end Span

/-- Offsets that fit are stored unchanged. -/
theorem offset_of_lt {bytes : Nat} (h : bytes < 0x100000000) : offset bytes = bytes :=
  Nat.mod_eq_of_lt h

end Precedence
