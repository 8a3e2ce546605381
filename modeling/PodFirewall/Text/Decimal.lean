/-!
Decimal numbers in texts.
-/

namespace PodFirewall.Decimal

def digits (n : Nat) : List Char := Nat.toDigits 10 n

def value (ds : List Char) : Nat :=
  ds.foldl (fun n d => n * 10 + (d.toNat - '0'.toNat)) 0

/-- The longest run of digits at the front of a text, and the rest. -/
def span (cs : List Char) : List Char × List Char :=
  (cs.takeWhile (·.isDigit), cs.dropWhile (·.isDigit))

theorem span_length (cs : List Char) :
    (span cs).1.length + (span cs).2.length = cs.length := by
  rw [span, ← List.length_append, List.takeWhile_append_dropWhile]

end PodFirewall.Decimal
