import Mathlib.Data.List.Basic

/-!
Percent-encoding with nothing kept but the unreserved characters, as
`urllib.parse.quote(text, safe="")` has it. A text can be told from its encoding, and no
encoding has a slash.
-/

namespace Substrate.Lib

/-- The bytes that stand for themselves: letters, digits, and `-`, `.`, `_`, `~`. -/
def unreserved (b : UInt8) : Bool :=
  let n := b.toNat
  (48 ≤ n && n ≤ 57) || (65 ≤ n && n ≤ 90) || (97 ≤ n && n ≤ 122) ||
    n = 45 || n = 46 || n = 95 || n = 126

def hexDigit (n : Nat) : Char := Char.ofNat (if n < 10 then 48 + n else 55 + n)

def quoteByte (b : UInt8) : List Char :=
  if unreserved b then [Char.ofNat b.toNat]
  else ['%', hexDigit (b.toNat / 16), hexDigit (b.toNat % 16)]

def quote (text : List Char) : List Char := (text.flatMap String.utf8EncodeChar).flatMap quoteByte

end Substrate.Lib
