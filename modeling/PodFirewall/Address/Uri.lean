import PodFirewall.Text.Blank

/-!
Where a server is found: a scheme, an authority, a path and a query, any of
which may be missing. The parts are only told apart and checked character by
character; in particular no port is too large.
-/

namespace PodFirewall

/-- The parts of a URI. A fragment is not kept. -/
structure Uri where
  scheme : Option String
  /-- The host, with a port and a user if there are any. -/
  authority : String
  path : String
  query : Option String
  deriving DecidableEq

namespace Uri

def maxSize : Nat := 65534

/-- The greatest number of characters of a scheme other than the common two. -/
def maxSchemeSize : Nat := 64

/-! ### Scheme -/

def isSchemeChar (c : Char) : Bool :=
  c.isAlphanum || c == '+' || c == '-' || c == '.' || c == '~'

/-- The text behind a front that is written in any case. -/
def dropFront? (front : List Char) (cs : List Char) : Option (List Char) :=
  if (cs.take front.length).map Char.toLower = front then some (cs.drop front.length) else none

/-- The scheme at the front of a text, if there is one, and what follows it;
`none` for a scheme that is too long. -/
def splitScheme (cs : List Char) : Option (Option String × List Char) :=
  match dropFront? "http://".toList cs, dropFront? "https://".toList cs with
  | some rest, _ => some (some "http", rest)
  | none, some rest => some (some "https", rest)
  | none, none =>
    let scheme := cs.takeWhile isSchemeChar
    match cs.dropWhile isSchemeChar with
    | ':' :: '/' :: '/' :: rest =>
      if scheme.length ≤ maxSchemeSize then some (some (String.ofList scheme), rest) else none
    | _ => some (none, cs)

/-! ### Authority -/

/-- Whether a character can be in an authority. A percent sign can be in the
part before the host. -/
def isAuthorityChar (c : Char) : Bool :=
  c.isAlphanum || "!$&'()*+,-.:;=@[]_~%".toList.contains c

def endsAuthority (c : Char) : Bool := c == '/' || c == '?' || c == '#'

structure AuthorityScan where
  /-- The colons since the last user or address in brackets. -/
  colons : Nat
  opened : Bool
  closed : Bool
  percent : Bool
  /-- Whether the last character ended a user. -/
  afterUser : Bool

namespace AuthorityScan

def start : AuthorityScan := ⟨0, false, false, false, false⟩

def next (s : AuthorityScan) (c : Char) : Option AuthorityScan :=
  let s := { s with afterUser := false }
  -- an IPv6 address in brackets has at most eight colons
  if c = ':' then if s.colons < 8 then some { s with colons := s.colons + 1 } else none
  else if c = '[' then if s.percent || s.opened then none else some { s with opened := true }
  else if c = ']' then
    if s.opened && !s.closed then some { s with closed := true, colons := 0, percent := false }
    else none
  else if c = '@' then some { s with colons := 0, percent := false, afterUser := true }
  else if c = '%' then some { s with percent := true }
  else if isAuthorityChar c then some s
  else none

def mayEnd (s : AuthorityScan) : Bool :=
  s.opened == s.closed && s.colons ≤ 1 && !s.afterUser && !s.percent

end AuthorityScan

def splitAuthority? (cs : List Char) : Option (List Char × List Char) := do
  let authority := cs.takeWhile fun c => !endsAuthority c
  let scan ← authority.foldlM AuthorityScan.next .start
  if scan.mayEnd then some (authority, cs.drop authority.length) else none

/-! ### Path and query -/

def isPathChar (c : Char) : Bool :=
  let n := c.toNat
  n == 0x21 || n == 0x22 || (0x24 ≤ n && n ≤ 0x3B) || n == 0x3D || (0x40 ≤ n && n ≤ 0x5F) ||
    (0x61 ≤ n && n ≤ 0x7E) || 0x80 ≤ n

def isQueryChar (c : Char) : Bool :=
  let n := c.toNat
  n == 0x21 || (0x24 ≤ n && n ≤ 0x3B) || n == 0x3D || (0x3F ≤ n && n ≤ 0x7E) || 0x80 ≤ n

def splitPath? (cs : List Char) : Option (String × Option String) :=
  let beforeFragment := cs.takeWhile (· != '#')
  let path := beforeFragment.takeWhile (· != '?')
  if path.all isPathChar then
    match beforeFragment.drop path.length with
    | [] => some (String.ofList path, none)
    | _ :: query =>
      if query.all isQueryChar then some (String.ofList path, some (String.ofList query)) else none
  else none

/-! ### The whole -/

/-- The URI that a text of more than one character writes. -/
def parseLong? (cs : List Char) : Option Uri := do
  if cs.head? = some '/' then
    let (path, query) ← splitPath? cs
    return ⟨none, "", path, query⟩
  let (scheme, rest) ← splitScheme cs
  let (authority, rest) ← splitAuthority? rest
  match scheme with
  | none => if rest.isEmpty then some ⟨none, String.ofList authority, "", none⟩ else none
  | some scheme =>
    if authority.isEmpty then none
    else
      let (path, query) ← splitPath? rest
      return ⟨some scheme, String.ofList authority, path, query⟩

def parse? (s : String) : Option Uri :=
  if s.isEmpty || maxSize < s.utf8ByteSize then none
  else if s = "/" || s = "*" then some ⟨none, "", s, none⟩
  else parseLong? s.toList

/-- The text of a URI. An empty path behind an authority is written as a
slash. -/
def text (u : Uri) : String :=
  let path := if u.path.isEmpty && u.scheme.isSome then "/" else u.path
  let front :=
    match u.scheme with
    | some scheme => scheme ++ "://"
    | none => ""
  let back :=
    match u.query with
    | some query => "?" ++ query
    | none => ""
  front ++ u.authority ++ path ++ back

end Uri

end PodFirewall
