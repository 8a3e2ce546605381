/-!
Spans of time, to the nanosecond. Their seconds are words of 64 bits, so there
is a longest span, and what would be longer is cut down to it.
-/

namespace PodFirewall

def Span.longest : Nat := UInt64.size * 1000000000 - 1

structure Span where
  nanos : Nat
  nanos_le : nanos ≤ Span.longest
  deriving DecidableEq

namespace Span

instance : LE Span := ⟨fun s t => s.nanos ≤ t.nanos⟩

instance (s t : Span) : Decidable (s ≤ t) := inferInstanceAs (Decidable (s.nanos ≤ t.nanos))

instance : Min Span := minOfLe

/-- The span of some nanoseconds, or the longest one. -/
def ofNanos (n : Nat) : Span := ⟨min n longest, Nat.min_le_right n longest⟩

def ofMillis (n : Nat) : Span := ofNanos (n * 1000000)

/-- A span taken some number of times, or the longest one. -/
instance : HMul Span Nat Span := ⟨fun s n => ofNanos (s.nanos * n)⟩

@[simp] theorem nanos_mul (s : Span) (n : Nat) : (s * n).nanos = min (s.nanos * n) longest := rfl

@[simp] theorem nanos_min (s t : Span) : (min s t).nanos = min s.nanos t.nanos :=
  apply_ite nanos (s ≤ t) s t

theorem nanos_ofMillis {n : Nat} (h : n < UInt64.size) : (ofMillis n).nanos = n * 1000000 := by
  simp only [ofMillis, ofNanos, longest, UInt64.size] at *
  omega

end Span

end PodFirewall
