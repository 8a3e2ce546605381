import PodFirewall.Text.Decimal

/-!
IPv4 addresses and their dotted text.
The text has four numbers of at most three digits each, without leading zeros,
so an address has one text only.
-/

namespace PodFirewall

/-- An IPv4 address, as the number its 32 bits write. -/
structure Ipv4 where
  value : Nat
  value_lt : value < UInt32.size
  deriving DecidableEq

namespace Ipv4

/-- The address with four given octets, the first the most significant. -/
def ofOctets (a b c d : Fin 256) : Ipv4 where
  value := ((a * 256 + b) * 256 + c) * 256 + d
  value_lt := by simp only [UInt32.size]; omega

def text (a : Ipv4) : String :=
  String.ofList (Decimal.digits (a.value / 16777216) ++ '.' ::
    Decimal.digits (a.value / 65536 % 256) ++ '.' ::
    Decimal.digits (a.value / 256 % 256) ++ '.' ::
    Decimal.digits (a.value % 256))

/-- The octet at the front of a text, which ends where its digits end. -/
def readOctet (cs : List Char) : Option (Fin 256 × List Char) :=
  match Decimal.span cs with
  | ([], _) => none
  | (ds, rest) =>
    if ds.length ≤ 3 ∧ (ds.length = 1 ∨ ds.head? ≠ some '0') then
      if h : Decimal.value ds < 256 then some (⟨Decimal.value ds, h⟩, rest) else none
    else none

def skipPoint : List Char → Option (List Char)
  | '.' :: rest => some rest
  | _ => none

def read (cs : List Char) : Option (Ipv4 × List Char) := do
  let (a, rest) ← readOctet cs
  let (b, rest) ← readOctet (← skipPoint rest)
  let (c, rest) ← readOctet (← skipPoint rest)
  let (d, rest) ← readOctet (← skipPoint rest)
  return (ofOctets a b c d, rest)

def parse? (s : String) : Option Ipv4 :=
  match read s.toList with
  | some (a, []) => some a
  | _ => none

end Ipv4

end PodFirewall
