import PodFirewall.Address.Ipv6

/-!
Networks written as an address and the length of its network part.
The two are read apart at the last slash, the address first, so a text with
two faults is refused for its address. A range, other than a network, must
have no bit set behind its length.
-/

namespace PodFirewall

inductive IpFamily where
  | v4
  | v6
  deriving DecidableEq

namespace IpFamily

def bits : IpFamily → Nat
  | v4 => 32
  | v6 => 128

def label : IpFamily → String
  | v4 => "Ipv4"
  | v6 => "Ipv6"

end IpFamily

inductive CidrError where
  /-- The address is none of the versions allowed. -/
  | badAddress (onlyV4 : Bool)
  | emptyLength
  | lengthNotDecimal
  /-- The length is above 255. -/
  | lengthTooLarge
  /-- The length is above the number of bits of the address. -/
  | lengthTooLong (length : Nat) (family : IpFamily)
  /-- A range has a bit set behind its length. -/
  | hostBits
  deriving DecidableEq

namespace CidrError

def message : CidrError → String
  | badAddress true =>
    "couldn't parse address in network: invalid IPv4 address syntax"
  | badAddress false =>
    "couldn't parse address in network: invalid IP address syntax"
  | emptyLength =>
    "couldn't parse length in network: cannot parse integer from empty string"
  | lengthNotDecimal =>
    "couldn't parse length in network: invalid digit found in string"
  | lengthTooLarge =>
    "couldn't parse length in network: number too large to fit in target type"
  | lengthTooLong length family =>
    "invalid length for network: Network length " ++ toString length ++
      " is too long for " ++ family.label ++ " (maximum: " ++ toString family.bits ++ ")"
  | hostBits => "host part of address was not zero"

end CidrError

namespace Cidr

/-- The text before the last slash, and the text behind it if there is one. -/
def splitSlash (cs : List Char) : List Char × Option (List Char) :=
  let tail := cs.reverse.takeWhile (· != '/')
  match cs.reverse.dropWhile (· != '/') with
  | [] => (cs, none)
  | _ :: front => (front.reverse, some tail.reverse)

/-- The digits of a length read one by one after the value so far; the first
fault counts. -/
def readLength (value : Nat) : List Char → Except CidrError Nat
  | [] => .ok value
  | c :: rest =>
    if c.isDigit then
      let value := value * 10 + (c.toNat - '0'.toNat)
      if value ≤ 255 then readLength value rest else .error .lengthTooLarge
    else .error .lengthNotDecimal

/-- The length that a text writes, perhaps with a plus sign in front. -/
def parseLength : List Char → Except CidrError Nat
  | [] => .error .emptyLength
  | ['+'] => .error .lengthNotDecimal
  | '+' :: rest => readLength 0 rest
  | cs => readLength 0 cs

/-- The length of the network part of an address of a family; without a
text, all of its bits. -/
def lengthFor (family : IpFamily) : Option (List Char) → Except CidrError Nat
  | none => .ok family.bits
  | some cs => do
    let length ← parseLength cs
    if length ≤ family.bits then .ok length else .error (.lengthTooLong length family)

/-- The family and the length of the network that a text writes. Bits behind
the length may be set. -/
def parseNetwork (s : String) : Except CidrError (IpFamily × Nat) :=
  let (address, length) := splitSlash s.toList
  let address := String.ofList address
  if (Ipv4.parse? address).isSome then (lengthFor .v4 length).map (IpFamily.v4, ·)
  else if (Ipv6.parse? address).isSome then (lengthFor .v6 length).map (IpFamily.v6, ·)
  else .error (.badAddress false)

end Cidr

/-- The number of IPv4 addresses that agree on their first `length` bits. -/
def blockSize (length : Nat) : Nat := Nat.pow 2 (32 - length)

theorem blockSize_pos (length : Nat) : 0 < blockSize length := Nat.two_pow_pos _

theorem blockSize_dvd (length : Nat) : blockSize length ∣ UInt32.size :=
  Nat.pow_dvd_pow 2 (Nat.sub_le 32 length)

/-- A range of IPv4 addresses that agree on their first `length` bits. -/
structure Ipv4Range where
  network : Ipv4
  length : Nat
  length_le : length ≤ 32
  network_mod : network.value % blockSize length = 0
  deriving DecidableEq

namespace Ipv4Range

def parse (s : String) : Except CidrError Ipv4Range :=
  let (address, length) := Cidr.splitSlash s.toList
  match Ipv4.parse? (String.ofList address) with
  | none => .error (.badAddress true)
  | some network =>
    match Cidr.lengthFor .v4 length with
    | .error e => .error e
    | .ok length =>
      if h : length ≤ 32 ∧ network.value % blockSize length = 0 then
        .ok ⟨network, length, h.1, h.2⟩
      else .error .hostBits

/-- The text of a range, its length always written. -/
def text (r : Ipv4Range) : String := r.network.text ++ "/" ++ toString r.length

/-- The address of the range with the host part of another address. -/
def withHostOf (r : Ipv4Range) (a : Ipv4) : Ipv4 where
  value := r.network.value + a.value % blockSize r.length
  value_lt := by
    obtain ⟨m, hm⟩ := Nat.dvd_of_mod_eq_zero r.network_mod
    obtain ⟨k, hk⟩ := blockSize_dvd r.length
    have hmod : a.value % blockSize r.length < blockSize r.length :=
      Nat.mod_lt _ (blockSize_pos r.length)
    have hmk : m < k := by
      apply Nat.lt_of_mul_lt_mul_left (a := blockSize r.length)
      rw [← hk, ← hm]
      exact r.network.value_lt
    have hsucc : blockSize r.length * (m + 1) ≤ blockSize r.length * k :=
      Nat.mul_le_mul_left _ hmk
    rw [Nat.mul_succ] at hsucc
    rw [hm, hk]
    omega

/-- The text of the virtual address of an address; `none` for a text that is
no IPv4 address. -/
def virtualText (r : Ipv4Range) (s : String) : Option String :=
  (Ipv4.parse? s).map fun a => (r.withHostOf a).text

end Ipv4Range

end PodFirewall
