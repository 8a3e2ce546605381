import PodFirewall.Time.Span

/-!
The time to wait before a key that has failed is tried again.
-/

namespace PodFirewall

/-- How retries are spaced, in milliseconds. -/
structure Backoff where
  base : Nat
  max : Nat
  deriving DecidableEq

namespace Backoff

/-- By how much the base delay is multiplied after some earlier failures. The
factor doubles with each of them as long as it fits a word of 32 bits; from
then on it is the greatest such word. -/
def factor (failures : Nat) : Nat :=
  if failures < 32 then Nat.pow 2 failures else UInt32.size - 1

/-- The wait after some earlier failures, from the first wait and the longest
one. They are spans or whole milliseconds. -/
def pause {τ : Type} [Min τ] [HMul τ Nat τ] (base max : τ) (failures : Nat) : τ :=
  min (base * factor failures) max

def delay (b : Backoff) (failures : Nat) : Nat := pause b.base b.max failures

/-- Spans are cut down only where they are too long to wait for, so whole
milliseconds can be counted as numbers. -/
theorem pause_ofMillis {base max : Nat} (hbase : base < UInt64.size) (hmax : max < UInt64.size)
    (failures : Nat) :
    (pause (Span.ofMillis base) (Span.ofMillis max) failures).nanos =
      pause base max failures * 1000000 := by
  have hle := (Span.ofMillis max).nanos_le
  simp only [pause, Span.nanos_min, Span.nanos_mul]
  rw [Span.nanos_ofMillis hmax] at hle
  rw [Span.nanos_ofMillis hbase, Span.nanos_ofMillis hmax, Nat.mul_right_comm]
  omega

end Backoff

end PodFirewall
