import PodFirewall.Json.Token

/-!
Reading a JSON text.
The tokens are read one by one against a stack of the arrays and objects that
are open, so the reader recurses on the list of tokens alone.
-/

namespace PodFirewall.Json

/-- An array or object whose closing bracket has not been read yet, with what
stands in it so far in reverse. -/
inductive Frame where
  | arr (done : List Json)
  | obj (done : List (String × Json)) (name : String)

inductive Expect where
  | value
  /-- A value, or the end of the array just opened. -/
  | valueOrClose
  | name (done : List (String × Json))
  | nameOrClose
  | colon (done : List (String × Json)) (name : String)
  | after (value : Json)

/-- Reads tokens to the end, where one value must be finished and nothing
open. -/
def readTokens : List Token → Expect → List Frame → Option Json
  | [], .after j, [] => some j
  | [], _, _ => none
  | t :: rest, expect, stack =>
    match expect, t, stack with
    | .value, .scalar j, stack => readTokens rest (.after j) stack
    | .value, .openArray, stack => readTokens rest .valueOrClose (.arr [] :: stack)
    | .value, .openObject, stack => readTokens rest .nameOrClose stack
    | .valueOrClose, .scalar j, stack => readTokens rest (.after j) stack
    | .valueOrClose, .openArray, stack => readTokens rest .valueOrClose (.arr [] :: stack)
    | .valueOrClose, .openObject, stack => readTokens rest .nameOrClose stack
    | .valueOrClose, .closeArray, .arr done :: stack =>
      readTokens rest (.after (.arr done.reverse)) stack
    | .name done, .scalar (.str name), stack => readTokens rest (.colon done name) stack
    | .nameOrClose, .scalar (.str name), stack => readTokens rest (.colon [] name) stack
    | .nameOrClose, .closeObject, stack => readTokens rest (.after (.obj [])) stack
    | .colon done name, .colon, stack => readTokens rest .value (.obj done name :: stack)
    | .after j, .comma, .arr done :: stack => readTokens rest .value (.arr (j :: done) :: stack)
    | .after j, .closeArray, .arr done :: stack =>
      readTokens rest (.after (.arr (j :: done).reverse)) stack
    | .after j, .comma, .obj done name :: stack =>
      readTokens rest (.name ((name, j) :: done)) stack
    | .after j, .closeObject, .obj done name :: stack =>
      readTokens rest (.after (.obj ((name, j) :: done).reverse)) stack
    | _, _, _ => none

def parse? (text : String) : Option Json := do
  readTokens (← scan text.toList) .value []

end PodFirewall.Json
