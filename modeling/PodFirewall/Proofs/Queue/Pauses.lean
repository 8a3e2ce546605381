import PodFirewall.Queue.Backoff
import Mathlib.Algebra.Group.Nat.Defs

/-!
How long retries wait. The wait doubles with each failure up to the longest
wait, but the factor has only 32 bits. Where the greatest factor does not reach
the longest wait, the waits stop growing below it.
-/

namespace PodFirewall.Backoff

theorem factor_eq (failures : Nat) : factor failures = min (2 ^ failures) (2 ^ 32 - 1) := by
  by_cases h : failures < 32
  · have hpow : 2 ^ failures ≤ 2 ^ 31 := Nat.pow_le_pow_right (by decide) (by omega)
    simp only [factor, if_pos h, Nat.pow_eq]
    omega
  · have hpow : 2 ^ 32 ≤ 2 ^ failures := Nat.pow_le_pow_right (by decide) (by omega)
    simp only [factor, if_neg h, UInt32.size]
    omega

theorem factor_le_factor_add (failures more : Nat) : factor failures ≤ factor (failures + more) := by
  have hpow : 2 ^ failures ≤ 2 ^ (failures + more) :=
    Nat.pow_le_pow_right (by decide) (Nat.le_add_right _ _)
  rw [factor_eq, factor_eq]
  omega

/-- The cut at the longest span does not show, for no wait is longer than that. -/
theorem nanos_pause (base max : Span) (failures : Nat) :
    (pause base max failures).nanos = min (base.nanos * factor failures) max.nanos := by
  have hmax := max.nanos_le
  simp only [pause, Span.nanos_min, Span.nanos_mul]
  omega

theorem nanos_pause_add (base max : Span) (more : Nat) :
    (pause base max (32 + more)).nanos = min (base.nanos * (2 ^ 32 - 1)) max.nanos := by
  have hfactor : factor (32 + more) = 2 ^ 32 - 1 := if_neg (by omega)
  rw [nanos_pause, hfactor]

theorem nanos_pause_eq_iff (base max : Span) (failures : Nat) :
    (pause base max failures).nanos = min (base.nanos * 2 ^ failures) max.nanos ↔
      failures < 32 ∨ base.nanos = 0 ∨ max.nanos ≤ base.nanos * (2 ^ 32 - 1) := by
  by_cases hfew : failures < 32
  · simp [nanos_pause, factor, hfew]
  rcases Nat.eq_zero_or_pos base.nanos with hzero | hpos
  · simp [nanos_pause, hzero]
  -- From here on the greatest factor is less than the power of two.
  have hpow : 2 ^ 32 ≤ 2 ^ failures := Nat.pow_le_pow_right (by decide) (by omega)
  have hlt : base.nanos * (2 ^ 32 - 1) < base.nanos * 2 ^ failures :=
    Nat.mul_lt_mul_of_pos_left (by omega) hpos
  obtain ⟨more, rfl⟩ := Nat.exists_eq_add_of_le (Nat.le_of_not_lt hfew)
  rw [nanos_pause_add]
  omega

/-- Waits never get shorter and are never longer than the longest one. They are
what doubling gives for fewer than 32 failures, and otherwise exactly if the
first wait is nothing or the greatest factor reaches the longest wait. -/
theorem pause_doubles_iff (base max : Span) :
    (∀ failures, (pause base max failures).nanos = min (base.nanos * 2 ^ failures) max.nanos ↔
      failures < 32 ∨ base.nanos = 0 ∨ max.nanos ≤ base.nanos * (2 ^ 32 - 1)) ∧
    (∀ more, (pause base max (32 + more)).nanos =
      min (base.nanos * (2 ^ 32 - 1)) max.nanos) ∧
    (∀ failures more, pause base max failures ≤ pause base max (failures + more)) ∧
    ∀ failures, pause base max failures ≤ max := by
  refine ⟨nanos_pause_eq_iff base max, nanos_pause_add base max, ?_, ?_⟩
  · intro failures more
    have hfactor := Nat.mul_le_mul_left base.nanos (factor_le_factor_add failures more)
    change (pause base max failures).nanos ≤ (pause base max (failures + more)).nanos
    rw [nanos_pause, nanos_pause]
    omega
  · intro failures
    change (pause base max failures).nanos ≤ max.nanos
    rw [nanos_pause]
    exact Nat.min_le_right _ _

/-- After 32 failures a first wait of a millisecond has not become what
doubling gives, though that can be waited for. -/
theorem pause_below_doubled :
    ¬∀ (base max : Span) (failures : Nat),
      (pause base max failures).nanos = min (base.nanos * 2 ^ failures) max.nanos := by
  intro h
  exact absurd (h (.ofMillis 1) (.ofMillis (2 ^ 32)) 32) (by decide)

end PodFirewall.Backoff
