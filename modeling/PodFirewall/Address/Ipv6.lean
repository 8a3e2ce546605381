import PodFirewall.Address.Ipv4

/-!
The text of IPv6 addresses.
An address is eight groups of up to four hexadecimal digits with colons
between them. One run of zero groups may be left out, written as a double
colon, and the last two groups may be written as an IPv4 address.
-/

namespace PodFirewall.Ipv6

def hexDigit? (c : Char) : Option Nat :=
  if c.isDigit then some (c.toNat - '0'.toNat)
  else if 'a' ≤ c ∧ c ≤ 'f' then some (c.toNat - 'a'.toNat + 10)
  else if 'A' ≤ c ∧ c ≤ 'F' then some (c.toNat - 'A'.toNat + 10)
  else none

/-- The group at the front of a text: one to four hexadecimal digits, ending
where the digits end. -/
def readGroup (cs : List Char) : Option (Nat × List Char) :=
  let ds := cs.takeWhile fun c => (hexDigit? c).isSome
  if ds.isEmpty || ds.length > 4 then none
  else
    some (ds.foldl (fun n c => n * 16 + (hexDigit? c).getD 0) 0,
      cs.dropWhile fun c => (hexDigit? c).isSome)

/-- What is left after the colon that must stand before every group but the
first. -/
def skipColon (first : Bool) : List Char → Option (List Char)
  | cs => if first then some cs else
    match cs with
    | ':' :: rest => some rest
    | _ => none

structure Groups where
  groups : List Nat
  /-- Whether the last two of them were written as an IPv4 address. -/
  embedded : Bool
  rest : List Char

/-- As many groups as there are at the front of a text, up to a limit. An
IPv4 address in place of two groups ends them. -/
def readGroups (first : Bool) (cs : List Char) : Nat → Groups
  | 0 => ⟨[], false, cs⟩
  | limit + 1 =>
    let ipv4 := if limit = 0 then none else (skipColon first cs).bind Ipv4.read
    match ipv4 with
    | some (a, rest) => ⟨[a.value / 65536, a.value % 65536], true, rest⟩
    | none =>
      match (skipColon first cs).bind readGroup with
      | none => ⟨[], false, cs⟩
      | some (g, rest) =>
        let more := readGroups false rest limit
        ⟨g :: more.groups, more.embedded, more.rest⟩

def parse? (s : String) : Option (List Nat) :=
  let front := readGroups true s.toList 8
  if front.groups.length = 8 then
    if front.rest.isEmpty then some front.groups else none
  else if front.embedded then none
  else
    match front.rest with
    | ':' :: ':' :: tail =>
      let back := readGroups true tail (7 - front.groups.length)
      if back.rest.isEmpty then
        some (front.groups ++
          List.replicate (8 - front.groups.length - back.groups.length) 0 ++ back.groups)
      else none
    | _ => none

end PodFirewall.Ipv6
