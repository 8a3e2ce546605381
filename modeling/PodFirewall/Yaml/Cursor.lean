/-!
The characters of a YAML text, and places in it.
A line ends with a newline, a carriage return, both, or one of three further
characters. The last two of those keep their identity; all else becomes a
newline before the text is read.
-/

namespace PodFirewall.Yaml

/-! ### Characters -/

def isAllowed (c : Char) : Bool :=
  let n := c.toNat
  c == '\t' || c == '\n' || c == '\r' || (0x20 ≤ n && n ≤ 0x7E) || n == 0x85 ||
    (0xA0 ≤ n && n ≤ 0xFFFD) || 0x10000 ≤ n

/-- The text with newlines in place of the ends of lines that are nothing but
that. -/
def withNewlines : List Char → List Char
  | [] => []
  | '\r' :: '\n' :: rest => '\n' :: withNewlines rest
  | c :: rest => (if c == '\r' || c == '\u0085' then '\n' else c) :: withNewlines rest

def isGap (c : Char) : Bool := c == ' ' || c == '\t'

def isBreak (c : Char) : Bool := c == '\n' || c == '\u2028' || c == '\u2029'

def isSpace (c : Char) : Bool := isGap c || isBreak c

def atSpace (cs : List Char) : Bool := cs.head?.all isSpace

def atBreak (cs : List Char) : Bool := cs.head?.all isBreak

def atAny (chars : String) (cs : List Char) : Bool := cs.head?.any chars.toList.contains

def skipGap (cs : List Char) : List Char := cs.dropWhile isGap

/-- The text without the blanks and the comment at its front; `none` if there
is anything else before the end of the line. -/
def skipComment? (cs : List Char) : Option (List Char) :=
  let cs := skipGap cs
  let cs := if cs.head? = some '#' then cs.dropWhile fun c => !isBreak c else cs
  if atBreak cs then some cs else none

/-- Whether a mark that starts or ends a document comes next. -/
def atMark : List Char → Bool
  | '-' :: '-' :: '-' :: rest => atSpace rest
  | '.' :: '.' :: '.' :: rest => atSpace rest
  | _ => false

/-! ### Places -/

/-- A place in a text, counted from 0. -/
structure Place where
  line : Nat
  /-- The number of characters before it in its line. -/
  column : Nat
  /-- The number of bytes that these have. -/
  size : Nat
  deriving DecidableEq

namespace Place

def next (p : Place) (c : Char) : Place :=
  if isBreak c then ⟨p.line + 1, 0, 0⟩ else ⟨p.line, p.column + 1, p.size + c.utf8Size⟩

end Place

structure Cursor where
  rest : List Char
  place : Place

namespace Cursor

def start (cs : List Char) : Cursor := ⟨cs, ⟨0, 0, 0⟩⟩

def drop (c : Cursor) (n : Nat) : Cursor :=
  ⟨c.rest.drop n, (c.rest.take n).foldl Place.next c.place⟩

/-- The cursor where only the given rest is left. -/
def moveTo (c : Cursor) (rest : List Char) : Cursor := c.drop (c.rest.length - rest.length)

end Cursor

end PodFirewall.Yaml
