import PodFirewall.Text.Decimal

/-!
Decimal numbers in texts are read as what they were written for, and each number
is written in one way only, but for zeros in front.
-/

namespace PodFirewall.Decimal

theorem value_toDigits (n : Nat) : value (Nat.toDigits 10 n) = n := by
  have h := Nat.ofDigitChars_ten_toDigits (n := n)
  rw [Nat.ofDigitChars_eq_foldl] at h
  simpa only [value, Nat.mul_comm] using h

/-- Only the number 0 is written with a zero in front. -/
theorem head?_toDigits {n : Nat} (h : 0 < n) : (Nat.toDigits 10 n).head? ≠ some '0' := by
  induction n using Nat.strongRecOn with
  | ind n ih =>
    by_cases hlt : n < 10
    · have hdigit : ∀ n < 10, 0 < n → n.digitChar ≠ '0' := by decide
      rw [Nat.toDigits_of_lt_base hlt]
      simpa using hdigit n hlt h
    · have hfront := ih (n / 10) (by omega) (by omega)
      rw [Nat.toDigits_of_base_le (by decide) (by omega)]
      cases hdigits : Nat.toDigits 10 (n / 10) with
      | nil => exact absurd hdigits Nat.toDigits_ne_nil
      | cons d ds =>
        rw [hdigits] at hfront
        exact hfront

/-- Whether a text does not prolong a run of digits in front of it. -/
def Stops (rest : List Char) : Prop := ∀ c ∈ rest.head?, c.isDigit = false

/-- A run of digits ends where no digit follows. -/
theorem span_append {ds rest : List Char} (hds : ∀ d ∈ ds, d.isDigit = true)
    (hrest : Stops rest) : span (ds ++ rest) = (ds, rest) := by
  induction ds with
  | nil =>
    cases rest with
    | nil => rfl
    | cons c rest =>
      have hc : c.isDigit = false := hrest c rfl
      simp [span, hc]
  | cons d ds ih =>
    obtain ⟨hd, hds⟩ := List.forall_mem_cons.1 hds
    have hspan := ih hds
    simp only [span, Prod.mk.injEq] at hspan
    simp [span, hd, hspan]

/-- A run of digits is as long as it can be. -/
theorem span_eq_iff {cs ds rest : List Char} :
    span cs = (ds, rest) ↔ cs = ds ++ rest ∧ (∀ d ∈ ds, d.isDigit = true) ∧ Stops rest := by
  constructor
  · intro h
    obtain ⟨rfl, rfl⟩ := Prod.mk.inj h
    refine ⟨List.takeWhile_append_dropWhile.symm, List.all_eq_true.1 List.all_takeWhile, ?_⟩
    intro c hc
    have hstop := List.head?_dropWhile_not (·.isDigit) cs
    rwa [Option.mem_def.1 hc] at hstop
  · rintro ⟨rfl, hds, hrest⟩
    exact span_append hds hrest

theorem digitChar_sub {d : Char} (h : d.isDigit = true) :
    d.toNat - '0'.toNat < 10 ∧ (d.toNat - '0'.toNat).digitChar = d := by
  have hbounds : 48 ≤ d.toNat ∧ d.toNat ≤ 57 := Char.isDigit_iff_toNat.1 h
  have hlt : d.toNat - '0'.toNat < 10 := by
    change d.toNat - 48 < 10
    omega
  refine ⟨hlt, Char.toNat_inj.1 ?_⟩
  rw [Nat.toNat_digitChar_of_lt_ten hlt]
  change 48 + (d.toNat - 48) = d.toNat
  omega

/-- Digits behind those of a number that is not 0 prolong it. -/
theorem toDigits_append {n : Nat} {ds : List Char} (hn : 0 < n)
    (hds : ∀ d ∈ ds, d.isDigit = true) :
    Nat.toDigits 10 n ++ ds =
      Nat.toDigits 10 (ds.foldl (fun n d => n * 10 + (d.toNat - '0'.toNat)) n) := by
  induction ds generalizing n with
  | nil => rw [List.append_nil, List.foldl_nil]
  | cons d ds ih =>
    obtain ⟨hd, hds⟩ := List.forall_mem_cons.1 hds
    obtain ⟨hlt, hdigit⟩ := digitChar_sub hd
    calc
      Nat.toDigits 10 n ++ d :: ds = (Nat.toDigits 10 n ++ [d]) ++ ds := List.append_cons ..
      _ = Nat.toDigits 10 (n * 10 + (d.toNat - '0'.toNat)) ++ ds := by
        rw [Nat.mul_comm n, ← Nat.toDigits_append_toDigits (by decide) hn hlt,
          Nat.toDigits_of_lt_base hlt, hdigit]
      _ = _ := ih (by omega) hds

/-- Digits without a zero in front are those of the number that they write. -/
theorem toDigits_value {ds : List Char} (hne : ds ≠ []) (hds : ∀ d ∈ ds, d.isDigit = true)
    (hfront : ds.length = 1 ∨ ds.head? ≠ some '0') : Nat.toDigits 10 (value ds) = ds := by
  cases ds with
  | nil => exact absurd rfl hne
  | cons d ds =>
    obtain ⟨hd, hds⟩ := List.forall_mem_cons.1 hds
    obtain ⟨hlt, hdigit⟩ := digitChar_sub hd
    by_cases hzero : d = '0'
    · subst hzero
      have hnil : ds = [] := by simpa using hfront
      rw [hnil]
      rfl
    · have hpos : 0 < d.toNat - '0'.toNat := by
        refine Nat.pos_of_ne_zero fun hsub => hzero ?_
        rw [← hdigit, hsub]
        rfl
      rw [value, List.foldl_cons, Nat.zero_mul, Nat.zero_add, ← toDigits_append hpos hds,
        Nat.toDigits_of_lt_base hlt, hdigit, List.singleton_append]

end PodFirewall.Decimal
