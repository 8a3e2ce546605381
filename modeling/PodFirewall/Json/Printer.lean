import PodFirewall.Json.Basic

/-!
The compact written form of JSON values: no blanks, names and texts in double
quotes, with an escape for every quote, backslash and control character.
-/

namespace PodFirewall.Json

def hex4 (n : Nat) : String :=
  String.ofList [Nat.digitChar (n / 4096 % 16), Nat.digitChar (n / 256 % 16),
    Nat.digitChar (n / 16 % 16), Nat.digitChar (n % 16)]

def escapeChar (c : Char) : String :=
  if c = '"' then "\\\""
  else if c = '\\' then "\\\\"
  else if c = '\n' then "\\n"
  else if c = '\r' then "\\r"
  else if c = '\t' then "\\t"
  else if c = '\x08' then "\\b"
  else if c = '\x0c' then "\\f"
  else if c.toNat < 32 then "\\u" ++ hex4 c.toNat
  else c.toString

def quote (s : String) : String :=
  s.foldl (fun out c => out ++ escapeChar c) "\"" ++ "\""

mutual

def render : Json → String
  | .null => "null"
  | .bool b => if b then "true" else "false"
  | .int n => toString n
  | .real text => text
  | .str s => quote s
  | .arr elements => "[" ++ renderElements elements ++ "]"
  | .obj members => "\x7b" ++ renderMembers members ++ "\x7d"

def renderElements : List Json → String
  | [] => ""
  | [j] => render j
  | j :: rest => render j ++ "," ++ renderElements rest

def renderMembers : List (String × Json) → String
  | [] => ""
  | [(name, j)] => quote name ++ ":" ++ render j
  | (name, j) :: rest => quote name ++ ":" ++ render j ++ "," ++ renderMembers rest

end

end PodFirewall.Json
