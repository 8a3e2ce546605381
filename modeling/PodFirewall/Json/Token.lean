import PodFirewall.Json.Basic
import PodFirewall.Text.Decimal

/-!
The tokens of a JSON text.
A scanner for one token hands back the rest of the text; `scanToken_length`
says that the rest is shorter, which is why scanning a whole text ends.
-/

namespace PodFirewall.Json

inductive Token where
  | openArray
  | closeArray
  | openObject
  | closeObject
  | comma
  | colon
  /-- A value that has no parts: a word, a number or a text. -/
  | scalar (value : Json)

def isBlank (c : Char) : Bool := c == ' ' || c == '\n' || c == '\t' || c == '\r'

def hexValue? (c : Char) : Option Nat :=
  if '0' ≤ c ∧ c ≤ '9' then some (c.toNat - '0'.toNat)
  else if 'a' ≤ c ∧ c ≤ 'f' then some (c.toNat - 'a'.toNat + 10)
  else if 'A' ≤ c ∧ c ≤ 'F' then some (c.toNat - 'A'.toNat + 10)
  else none

def hexUnit? (a b c d : Char) : Option Nat := do
  let a ← hexValue? a
  let b ← hexValue? b
  let c ← hexValue? c
  let d ← hexValue? d
  return ((a * 16 + b) * 16 + c) * 16 + d

def isHighSurrogate (n : Nat) : Bool := 0xD800 ≤ n && n < 0xDC00

def isLowSurrogate (n : Nat) : Bool := 0xDC00 ≤ n && n < 0xE000

def simpleEscape? : Char → Option Char
  | '"' => some '"'
  | '\\' => some '\\'
  | '/' => some '/'
  | 'b' => some '\x08'
  | 'f' => some '\x0c'
  | 'n' => some '\n'
  | 'r' => some '\r'
  | 't' => some '\t'
  | _ => none

/-- The rest of a quoted text up to its closing quote, read after what is
already known of it (in reverse). Control characters, unknown escapes and
surrogates without a partner are refused. -/
def scanQuoted (done : List Char) : List Char → Option (List Char × List Char)
  | [] => none
  | '"' :: rest => some (done.reverse, rest)
  | '\\' :: 'u' :: a :: b :: c :: d :: '\\' :: 'u' :: e :: f :: g :: h :: rest =>
    match hexUnit? a b c d, hexUnit? e f g h with
    | some hi, some lo =>
      if isHighSurrogate hi then
        if isLowSurrogate lo then
          scanQuoted
            (Char.ofNat (0x10000 + (hi - 0xD800) * 0x400 + (lo - 0xDC00)) :: done) rest
        else none
      else if isLowSurrogate hi then none
      -- the two are no pair, so the second escape is read by itself
      else scanQuoted (Char.ofNat hi :: done) ('\\' :: 'u' :: e :: f :: g :: h :: rest)
    | _, _ => none
  | '\\' :: 'u' :: a :: b :: c :: d :: rest =>
    match hexUnit? a b c d with
    | some n =>
      if isHighSurrogate n || isLowSurrogate n then none
      else scanQuoted (Char.ofNat n :: done) rest
    | none => none
  | '\\' :: c :: rest =>
    match simpleEscape? c with
    | some c => scanQuoted (c :: done) rest
    | none => none
  | c :: rest => if c.toNat < 32 then none else scanQuoted (c :: done) rest

theorem scanQuoted_length {done cs text rest : List Char}
    (h : scanQuoted done cs = some (text, rest)) : rest.length < cs.length := by
  fun_induction scanQuoted done cs <;> simp_all <;> omega

/-- The fraction at the front: a point and at least one digit, or nothing. -/
def scanFraction : List Char → Option (List Char × List Char)
  | '.' :: rest =>
    match Decimal.span rest with
    | ([], _) => none
    | (ds, rest) => some ('.' :: ds, rest)
  | rest => some ([], rest)

def scanSign : List Char → List Char × List Char
  | '+' :: rest => (['+'], rest)
  | '-' :: rest => (['-'], rest)
  | rest => ([], rest)

/-- The exponent at the front: its letter, perhaps a sign, and at least one
digit, or nothing. -/
def scanExponent : List Char → Option (List Char × List Char)
  | [] => some ([], [])
  | c :: rest =>
    if c = 'e' ∨ c = 'E' then
      match Decimal.span (scanSign rest).2 with
      | ([], _) => none
      | (ds, tail) => some (c :: (scanSign rest).1 ++ ds, tail)
    else some ([], c :: rest)

/-- The value of a number from its parts. It is an integer only without
fraction and exponent, and `-0` is none. -/
def numberValue (negative : Bool) (whole fraction exponent : List Char) : Json :=
  let value := Decimal.value whole
  if fraction.isEmpty && exponent.isEmpty && !(negative && value == 0) then
    .int (if negative then -(value : Int) else value)
  else
    let sign := if negative then ['-'] else []
    .real (String.ofList (sign ++ whole ++ fraction ++ exponent))

/-- The number at the front, after its minus sign if it has one. Its whole
part has no leading zero. -/
def scanUnsigned (negative : Bool) (cs : List Char) : Option (Json × List Char) :=
  match Decimal.span cs with
  | ([], _) => none
  | (whole, rest) =>
    if whole.length > 1 && whole.head? == some '0' then none
    else
      match scanFraction rest with
      | none => none
      | some (fraction, rest) =>
        match scanExponent rest with
        | none => none
        | some (exponent, rest) => some (numberValue negative whole fraction exponent, rest)

def scanNumber : List Char → Option (Json × List Char)
  | '-' :: rest => scanUnsigned true rest
  | cs => scanUnsigned false cs

/-- The token at the front of a text that starts with no blank. -/
def scanToken : List Char → Option (Token × List Char)
  | '[' :: rest => some (.openArray, rest)
  | ']' :: rest => some (.closeArray, rest)
  | '\x7b' :: rest => some (.openObject, rest)
  | '\x7d' :: rest => some (.closeObject, rest)
  | ',' :: rest => some (.comma, rest)
  | ':' :: rest => some (.colon, rest)
  | '"' :: rest => (scanQuoted [] rest).map fun r => (.scalar (.str (String.ofList r.1)), r.2)
  | 'n' :: 'u' :: 'l' :: 'l' :: rest => some (.scalar .null, rest)
  | 't' :: 'r' :: 'u' :: 'e' :: rest => some (.scalar (.bool true), rest)
  | 'f' :: 'a' :: 'l' :: 's' :: 'e' :: rest => some (.scalar (.bool false), rest)
  | cs => (scanNumber cs).map fun r => (.scalar r.1, r.2)

/-! ### Every scanner leaves less than it was given -/

theorem scanFraction_length {cs part rest : List Char}
    (h : scanFraction cs = some (part, rest)) : rest.length ≤ cs.length := by
  unfold scanFraction at h
  split at h
  · rename_i tail
    have hd := Decimal.span_length tail
    split at h
    · cases h
    · rename_i heq
      rw [heq] at hd
      cases h
      simp only [List.length_cons] at hd ⊢
      omega
  · cases h; exact Nat.le_refl _

theorem scanSign_length (cs : List Char) : (scanSign cs).2.length ≤ cs.length := by
  unfold scanSign
  split <;> simp

theorem scanExponent_length {cs part rest : List Char}
    (h : scanExponent cs = some (part, rest)) : rest.length ≤ cs.length := by
  unfold scanExponent at h
  split at h
  · cases h; exact Nat.le_refl _
  · rename_i c tail
    have hs := scanSign_length tail
    have hd := Decimal.span_length (scanSign tail).2
    split at h
    · split at h
      · cases h
      · rename_i heq
        rw [heq] at hd
        cases h
        simp only [List.length_cons] at hd ⊢
        omega
    · cases h; exact Nat.le_refl _

theorem scanUnsigned_length {negative : Bool} {cs : List Char} {j : Json} {rest : List Char}
    (h : scanUnsigned negative cs = some (j, rest)) : rest.length < cs.length := by
  unfold scanUnsigned at h
  have hd := Decimal.span_length cs
  split at h
  · cases h
  · rename_i whole tail hne heq
    rw [heq] at hd
    have hpos : 0 < whole.length := by
      cases whole with
      | nil => exact absurd rfl hne
      | cons _ _ => simp
    split at h
    · cases h
    · split at h
      · cases h
      · rename_i hf
        split at h
        · cases h
        · rename_i he
          have h1 := scanFraction_length hf
          have h2 := scanExponent_length he
          cases h
          simp only at hd
          omega

theorem scanNumber_length {cs : List Char} {j : Json} {rest : List Char}
    (h : scanNumber cs = some (j, rest)) : rest.length < cs.length := by
  unfold scanNumber at h
  split at h
  · have := scanUnsigned_length h
    simp only [List.length_cons]
    omega
  · exact scanUnsigned_length h

theorem scanToken_length {cs : List Char} {t : Token} {rest : List Char}
    (h : scanToken cs = some (t, rest)) : rest.length < cs.length := by
  unfold scanToken at h
  split at h
  case h_7 tail =>
    obtain ⟨r, hr, hs⟩ := Option.map_eq_some_iff.1 h
    have := scanQuoted_length hr
    cases hs
    simp only [List.length_cons]
    omega
  case h_11 =>
    obtain ⟨r, hr, hs⟩ := Option.map_eq_some_iff.1 h
    cases hs
    exact scanNumber_length hr
  all_goals
    simp only [Option.some.injEq, Prod.mk.injEq] at h
    rw [← h.2]
    simp only [List.length_cons]
    omega

def scan (cs : List Char) : Option (List Token) :=
  match _h : cs.dropWhile isBlank with
  | [] => some []
  | c :: tail =>
    match _ht : scanToken (c :: tail) with
    | none => none
    | some (t, rest) => (scan rest).map (t :: ·)
termination_by cs.length
decreasing_by
  have h1 := scanToken_length _ht
  have h2 := (List.dropWhile_sublist isBlank (l := cs)).length_le
  rw [_h] at h2
  omega

end PodFirewall.Json
