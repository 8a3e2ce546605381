import PodFirewall.Address.Cidr
import PodFirewall.Proofs.Address.Dotted

/-!
Virtual addresses, bit by bit. The virtual address of an address has the bits of
the range as far as the addresses of the range agree, and its own bits from there
on. So it is in the range, it is its own virtual address, and within a block of
the size of the range no two addresses share one.
-/

namespace PodFirewall

namespace Ipv4

/-- The bit of an address at a place, the most significant bit coming first. -/
def bit (x : Ipv4) (i : Nat) : Bool := x.value.testBit (31 - i)

def SameNetwork (length : Nat) (x y : Ipv4) : Prop := ∀ i < length, x.bit i = y.bit i

def SameHost (length : Nat) (x y : Ipv4) : Prop := ∀ i < 32, length ≤ i → x.bit i = y.bit i

theorem eq_of_bit {x y : Ipv4} (h : ∀ i < 32, x.bit i = y.bit i) : x = y := by
  have hvalue : x.value = y.value := by
    apply Nat.eq_of_testBit_eq
    intro i
    by_cases hi : i < 32
    · have hbit := h (31 - i) (by omega)
      rwa [bit, bit, show 31 - (31 - i) = i by omega] at hbit
    · have hbound : 2 ^ 32 ≤ 2 ^ i := Nat.pow_le_pow_right (by decide) (Nat.le_of_not_lt hi)
      rw [Nat.testBit_lt_two_pow (Nat.lt_of_lt_of_le x.value_lt hbound),
        Nat.testBit_lt_two_pow (Nat.lt_of_lt_of_le y.value_lt hbound)]
  cases x
  cases y
  simpa using hvalue

/-- The two parts make up an address. -/
theorem sameNetwork_and_sameHost_iff {length : Nat} {x y : Ipv4} :
    x.SameNetwork length y ∧ x.SameHost length y ↔ x = y := by
  constructor
  · rintro ⟨hnetwork, hhost⟩
    refine eq_of_bit fun i hi => ?_
    rcases Nat.lt_or_ge i length with hlt | hge
    · exact hnetwork i hlt
    · exact hhost i hi hge
  · rintro rfl
    exact ⟨fun _ _ => rfl, fun _ _ _ => rfl⟩

end Ipv4

namespace Ipv4Range

variable (r : Ipv4Range)

theorem bit_withHostOf (x : Ipv4) {i : Nat} (hi : i < 32) :
    (r.withHostOf x).bit i = if i < r.length then r.network.bit i else x.bit i := by
  obtain ⟨m, hm⟩ := Nat.dvd_of_mod_eq_zero r.network_mod
  change r.network.value = 2 ^ (32 - r.length) * m at hm
  have hlength := r.length_le
  have hhost : x.value % 2 ^ (32 - r.length) < 2 ^ (32 - r.length) :=
    Nat.mod_lt _ (Nat.two_pow_pos _)
  change (r.network.value + x.value % 2 ^ (32 - r.length)).testBit (31 - i) = _
  rw [Ipv4.bit, Ipv4.bit, hm, Nat.testBit_two_pow_mul_add m hhost]
  by_cases hfront : i < r.length
  · have hplace : ¬31 - i < 32 - r.length := by omega
    have hreach : 32 - r.length ≤ 31 - i := by omega
    simp [hfront, hplace, hreach, Nat.testBit_two_pow_mul]
  · have hplace : 31 - i < 32 - r.length := by omega
    simp [hfront, hplace, Nat.testBit_mod_two_pow]

/-- The virtual address of an address is the one of the range with the same host
part. -/
theorem eq_withHostOf_iff {v x : Ipv4} :
    v = r.withHostOf x ↔ v.SameNetwork r.length r.network ∧ v.SameHost r.length x := by
  have hlength := r.length_le
  constructor
  · rintro rfl
    constructor
    · intro i hi
      rw [bit_withHostOf r x (by omega), if_pos hi]
    · intro i hi hge
      rw [bit_withHostOf r x hi, if_neg (by omega)]
  · rintro ⟨hnetwork, hhost⟩
    refine Ipv4.eq_of_bit fun i hi => ?_
    rw [bit_withHostOf r x hi]
    split
    next hlt => exact hnetwork i hlt
    next hge => exact hhost i hi (by omega)

theorem withHostOf_withHostOf (x : Ipv4) : r.withHostOf (r.withHostOf x) = r.withHostOf x :=
  (r.eq_withHostOf_iff.2 ⟨(r.eq_withHostOf_iff.1 rfl).1, fun _ _ _ => rfl⟩).symm

theorem withHostOf_eq_iff {x y : Ipv4} :
    r.withHostOf x = r.withHostOf y ↔ x.SameHost r.length y := by
  constructor
  · intro h i hi hge
    have hbit := congrArg (Ipv4.bit · i) h
    simpa [bit_withHostOf r _ hi, Nat.not_lt.2 hge] using hbit
  · intro h
    obtain ⟨hnetwork, hhost⟩ := r.eq_withHostOf_iff.1 (rfl : r.withHostOf x = r.withHostOf x)
    exact r.eq_withHostOf_iff.2 ⟨hnetwork, fun i hi hge => (hhost i hi hge).trans (h i hi hge)⟩

theorem virtualText_eq_some_iff {s t : String} :
    r.virtualText s = some t ↔ ∃ x : Ipv4, s = x.text ∧ t = (r.withHostOf x).text := by
  simp only [virtualText, Option.map_eq_some_iff, Ipv4.parse?_eq_some_iff]
  exact exists_congr fun x => and_congr_right fun _ => eq_comm

theorem virtualText_text (x : Ipv4) : r.virtualText x.text = some (r.withHostOf x).text :=
  r.virtualText_eq_some_iff.2 ⟨x, rfl, rfl⟩

/-- Just the dotted quads have a virtual address. It is in the range, with the
host part of the address. It is its own virtual address, and addresses of one
block do not share it. -/
theorem virtualText_well_formed :
    (∀ s, (r.virtualText s).isSome = true ↔ Ipv4.IsDottedQuad s) ∧
    (∀ s t, r.virtualText s = some t ↔ ∃ x v : Ipv4, s = x.text ∧ t = v.text ∧
      v.SameNetwork r.length r.network ∧ v.SameHost r.length x) ∧
    (∀ s, (r.virtualText s).bind r.virtualText = r.virtualText s) ∧
    ∀ x y : Ipv4, x.SameNetwork r.length y ∧ r.virtualText x.text = r.virtualText y.text ↔
      x = y := by
  refine ⟨?_, ?_, ?_, ?_⟩
  · intro s
    rw [Ipv4.isDottedQuad_iff, Option.isSome_iff_exists]
    constructor
    · rintro ⟨t, ht⟩
      obtain ⟨x, hx, -⟩ := r.virtualText_eq_some_iff.1 ht
      exact ⟨x, hx⟩
    · rintro ⟨x, rfl⟩
      exact ⟨_, r.virtualText_text x⟩
  · intro s t
    rw [virtualText_eq_some_iff]
    constructor
    · rintro ⟨x, hs, ht⟩
      exact ⟨x, _, hs, ht, r.eq_withHostOf_iff.1 rfl⟩
    · rintro ⟨x, v, hs, rfl, hv⟩
      exact ⟨x, hs, congrArg Ipv4.text (r.eq_withHostOf_iff.2 hv)⟩
  · intro s
    cases ht : r.virtualText s with
    | none => rfl
    | some t =>
      obtain ⟨x, -, rfl⟩ := r.virtualText_eq_some_iff.1 ht
      rw [Option.bind_some, virtualText_text, withHostOf_withHostOf]
  · intro x y
    rw [virtualText_text, virtualText_text, Option.some.injEq, Ipv4.text_inj, withHostOf_eq_iff,
      Ipv4.sameNetwork_and_sameHost_iff]

example : (Ipv4Range.parse "10.10.0.0/23").toOption.bind (·.virtualText "192.168.133.78") =
    some "10.10.1.78" := by decide +kernel

end Ipv4Range

end PodFirewall
