import PodFirewall.Address.Ipv4
import PodFirewall.Proofs.Text.Decimal

/-!
The dotted text of IPv4 addresses. A text is read as an address exactly if it is
the text of the address, so an address has one text only. The texts of addresses
are the dotted quads.
-/

namespace PodFirewall.Ipv4

open Decimal (Stops)

/-! ### Octets -/

theorem stops_point (rest : List Char) : Stops ('.' :: rest) := by
  rintro _ ⟨⟩
  rfl

theorem readOctet_toDigits (a : Fin 256) {rest : List Char} (h : Stops rest) :
    readOctet (Nat.toDigits 10 a ++ rest) = some (a, rest) := by
  have hspan : Decimal.span (Nat.toDigits 10 a ++ rest) = (Nat.toDigits 10 a, rest) :=
    Decimal.span_append (fun _ hd => Nat.isDigit_of_mem_toDigits (by decide) (by decide) hd) h
  have hlength : (Nat.toDigits 10 a).length ≤ 3 :=
    (Nat.length_toDigits_le_iff (by decide) (by decide)).2 (by omega)
  have hfront : (Nat.toDigits 10 a).length = 1 ∨ (Nat.toDigits 10 a).head? ≠ some '0' := by
    rcases Nat.eq_zero_or_pos a with hzero | hpos
    · left
      rw [hzero]
      rfl
    · exact .inr (Decimal.head?_toDigits hpos)
  rw [readOctet, hspan]
  split
  next hnil => exact absurd (Prod.mk.inj hnil).1 Nat.toDigits_ne_nil
  next ds rest' _ heq =>
    obtain ⟨rfl, rfl⟩ := Prod.mk.inj heq
    simp [hlength, hfront, Decimal.value_toDigits]

theorem readOctet_eq_some_iff {cs rest : List Char} {a : Fin 256} :
    readOctet cs = some (a, rest) ↔ cs = Nat.toDigits 10 a ++ rest ∧ Stops rest := by
  constructor
  · intro h
    rw [readOctet] at h
    split at h
    next => cases h
    next ds rest' hne hspan =>
      obtain ⟨rfl, hds, hstops⟩ := Decimal.span_eq_iff.1 hspan
      split at h
      next hwritten =>
        split at h
        next hlt =>
          cases h
          have hdigits := Decimal.toDigits_value hne hds hwritten.2
          exact ⟨by rw [hdigits], hstops⟩
        next => cases h
      next => cases h
  · rintro ⟨rfl, hstops⟩
    exact readOctet_toDigits a hstops

theorem skipPoint_eq_some_iff {cs rest : List Char} :
    skipPoint cs = some rest ↔ cs = '.' :: rest := by
  unfold skipPoint
  split
  · simp
  · next hne =>
    constructor
    · nofun
    · exact fun h => absurd h (hne rest)

/-! ### Addresses -/

def quad (a b c d : Fin 256) : List Char :=
  Nat.toDigits 10 a ++ '.' :: (Nat.toDigits 10 b ++ '.' :: (Nat.toDigits 10 c ++
    '.' :: Nat.toDigits 10 d))

theorem toList_text_ofOctets (a b c d : Fin 256) :
    (ofOctets a b c d).text.toList = quad a b c d := by
  have ha : (((a * 256 + b) * 256 + c) * 256 + d : Nat) / 16777216 = a := by omega
  have hb : (((a * 256 + b) * 256 + c) * 256 + d : Nat) / 65536 % 256 = b := by omega
  have hc : (((a * 256 + b) * 256 + c) * 256 + d : Nat) / 256 % 256 = c := by omega
  have hd : (((a * 256 + b) * 256 + c) * 256 + d : Nat) % 256 = d := by omega
  simp [text, ofOctets, quad, Decimal.digits, ha, hb, hc, hd]

theorem exists_ofOctets (x : Ipv4) : ∃ a b c d, x = ofOctets a b c d := by
  obtain ⟨n, hn⟩ := x
  have hbound : n < 4294967296 := hn
  refine ⟨⟨n / 16777216, by omega⟩, ⟨n / 65536 % 256, by omega⟩, ⟨n / 256 % 256, by omega⟩,
    ⟨n % 256, by omega⟩, ?_⟩
  simp only [ofOctets, mk.injEq]
  omega

theorem read_eq_some_iff {cs rest : List Char} {x : Ipv4} :
    read cs = some (x, rest) ↔
      ∃ a b c d, x = ofOctets a b c d ∧ cs = quad a b c d ++ rest ∧ Stops rest := by
  simp only [read, bind, Option.bind_eq_some_iff, Prod.exists, skipPoint_eq_some_iff,
    readOctet_eq_some_iff, pure, Option.some.injEq, Prod.mk.injEq]
  constructor
  · rintro ⟨a, _, ⟨rfl, -⟩, _, rfl, b, _, ⟨rfl, -⟩, _, rfl, c, _, ⟨rfl, -⟩, _, rfl, d, _,
      ⟨rfl, hstops⟩, rfl, rfl⟩
    exact ⟨a, b, c, d, rfl, by simp [quad], hstops⟩
  · rintro ⟨a, b, c, d, rfl, rfl, hstops⟩
    refine ⟨a, _, ⟨?_, stops_point _⟩, _, rfl, b, _, ⟨rfl, stops_point _⟩, _, rfl, c, _,
      ⟨rfl, stops_point _⟩, _, rfl, d, rest, ⟨rfl, hstops⟩, rfl, rfl⟩
    simp [quad]

/-- A text is read as an address exactly if it is the text of the address. -/
theorem parse?_eq_some_iff {s : String} {x : Ipv4} : parse? s = some x ↔ s = x.text := by
  have hread : parse? s = some x ↔ read s.toList = some (x, []) := by
    unfold parse?
    split
    next hread => simp [hread]
    next hne =>
      constructor
      · nofun
      · exact fun h => absurd h (hne x)
  rw [hread, read_eq_some_iff]
  constructor
  · rintro ⟨a, b, c, d, rfl, hs, -⟩
    rw [← String.toList_inj, toList_text_ofOctets, hs, List.append_nil]
  · rintro rfl
    obtain ⟨a, b, c, d, rfl⟩ := exists_ofOctets x
    exact ⟨a, b, c, d, rfl, by rw [toList_text_ofOctets, List.append_nil], nofun⟩

theorem text_inj {x y : Ipv4} : x.text = y.text ↔ x = y := by
  constructor
  · intro h
    have hx : parse? x.text = some x := parse?_eq_some_iff.2 rfl
    rw [parse?_eq_some_iff.2 h] at hx
    exact (Option.some.inj hx).symm
  · rintro rfl
    rfl

/-- Whether a text is four numbers below 256, in decimal digits without zeros in
front, with points between them. -/
def IsDottedQuad (s : String) : Prop :=
  ∃ a b c d : Nat, a < 256 ∧ b < 256 ∧ c < 256 ∧ d < 256 ∧
    s = toString a ++ "." ++ toString b ++ "." ++ toString c ++ "." ++ toString d

theorem isDottedQuad_iff {s : String} : IsDottedQuad s ↔ ∃ x : Ipv4, s = x.text := by
  constructor
  · rintro ⟨a, b, c, d, ha, hb, hc, hd, rfl⟩
    refine ⟨ofOctets ⟨a, ha⟩ ⟨b, hb⟩ ⟨c, hc⟩ ⟨d, hd⟩, ?_⟩
    rw [← String.toList_inj, toList_text_ofOctets]
    simp [quad]
  · rintro ⟨x, rfl⟩
    obtain ⟨a, b, c, d, rfl⟩ := exists_ofOctets x
    refine ⟨a, b, c, d, a.isLt, b.isLt, c.isLt, d.isLt, ?_⟩
    rw [← String.toList_inj, toList_text_ofOctets]
    simp [quad]

end PodFirewall.Ipv4
