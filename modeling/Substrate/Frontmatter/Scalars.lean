import Substrate.Lib.Json
import Substrate.Lib.PyText

/-!
The scalars of frontmatter (`documents/_frontmatter.py`): plain ones, which may be numbers
or words, and quoted ones. A float is its shortest decimal form.
-/

namespace Substrate.Frontmatter

open Lib PyText

export Json (quote backslash)

def apostrophe : Char := Char.ofNat 0x27

/-- The number `0.d₁d₂…` times a power of ten. -/
structure Decimal where
  negative : Bool
  digits : List Nat
  point : Int
  deriving DecidableEq, Repr

def Decimal.of (negative : Bool) (digits : List Nat) (point : Int) : Decimal :=
  let rest := digits.dropWhile fun d => d = 0
  let kept := rest.rdropWhile fun d => d = 0
  if kept = [] then ⟨negative, [], 0⟩ else ⟨negative, kept, point - (digits.length - rest.length)⟩

inductive Double where
  | finite (d : Decimal)
  | infinite (negative : Bool)
  deriving DecidableEq, Repr

inductive Value where
  | null
  | bool (b : Bool)
  | int (n : Int)
  | float (x : Double)
  | str (text : Text)
  | list (items : List Value)
  | map (entries : List (Text × Value))
  deriving Repr

/-- What depends on the interpreter: the double that a decimal is rounded to, and the most
digits that `int` and `str` convert. -/
structure Interpreter where
  round : Decimal → Double
  maxDigits : Nat

/-- Why there is no value: an exception, or a loop that never ends. -/
inductive Halt where
  | raised
  | endless
  deriving DecidableEq, Repr

def sign : Text → Bool × Text
  | '-' :: rest => (true, rest)
  | '+' :: rest => (false, rest)
  | text => (false, text)

def isAsciiDigit (c : Char) : Bool := '0' ≤ c ∧ c ≤ '9'

/-- `_INT`, with the digits that it matches. -/
def intToken (token : Text) : Option (Bool × Text) :=
  let (negative, body) := sign token
  if body = ['0'] ∨ (body ≠ [] ∧ body.head? ≠ some '0' ∧ body.all isAsciiDigit) then
    some (negative, body)
  else none

def digitsOf (text : Text) : List Nat := text.map fun c => (digit? c).getD 0

/-- An exponent, and what follows it. -/
def exponent? : Text → Option (Int × Text)
  | 'e' :: rest | 'E' :: rest =>
    let (negative, body) := sign rest
    let digits := body.takeWhile isDigit
    if digits = [] then none
    else some (if negative then -readNat digits else readNat digits, body.dropWhile isDigit)
  | _ => none

/-- `_FLOAT`, and `float` of what it matches. The pattern also takes a second exponent,
which `float` does not. -/
def floatToken (token : Text) : Option (Except Halt Decimal) :=
  let (negative, body) := sign token
  let whole := body.takeWhile isDigit
  match body.dropWhile isDigit with
  | '.' :: rest =>
    let fraction := rest.takeWhile isDigit
    if whole = [] ∧ fraction = [] then none
    else
      let decimal (exponent : Int) :=
        Decimal.of negative (digitsOf (whole ++ fraction)) (whole.length + exponent)
      match rest.dropWhile isDigit with
      | [] => some (.ok (decimal 0))
      | rest =>
        match exponent? rest with
        | some (exponent, []) => some (.ok (decimal exponent))
        | _ => none
  | rest =>
    if whole = [] then none
    else
      match exponent? rest with
      | some (exponent, []) =>
        some (.ok (Decimal.of negative (digitsOf whole) (whole.length + exponent)))
      | some (_, rest) =>
        match exponent? rest with
        | some (_, []) => some (.error .raised)
        | _ => none
      | none => none

def lowered (text : Text) : Text := text.map Char.toLower

def nullWord : Text := ['n', 'u', 'l', 'l']

def trueWord : Text := ['t', 'r', 'u', 'e']

def falseWord : Text := ['f', 'a', 'l', 's', 'e']

def plain (py : Interpreter) (text : Text) : Except Halt Value :=
  let token := strip text
  if token = [] ∨ token = ['~'] ∨ lowered token = nullWord then .ok .null
  else if lowered token = trueWord then .ok (.bool true)
  else if lowered token = falseWord then .ok (.bool false)
  else
    match intToken token with
    | some (negative, digits) =>
      if py.maxDigits < digits.length then .error .raised
      else .ok (.int (if negative then -readNat digits else readNat digits))
    | none =>
      match floatToken token with
      | some decimal => decimal.map fun d => .float (py.round d)
      | none => .ok (.str token)

def isQuote (c : Char) : Bool := c = quote ∨ c = apostrophe

/-- What follows an opening quote, up to the closing one with it, and the rest; there is no
rest if the quote is not closed. -/
def scanQuoted (q : Char) : Text → Text × Option Text
  | [] => ([], none)
  | [c] => ([c], if c = q then some [] else none)
  | c :: d :: rest =>
    if c = backslash ∧ q = quote then
      let (token, after) := scanQuoted q rest
      (c :: d :: token, after)
    else if c = q then
      if q = apostrophe ∧ d = apostrophe then
        let (token, after) := scanQuoted q rest
        (c :: d :: token, after)
      else ([c], some (d :: rest))
    else
      let (token, after) := scanQuoted q (d :: rest)
      (c :: token, after)

def hexDigit? (c : Char) : Option Nat :=
  if '0' ≤ c ∧ c ≤ '9' then some (c.toNat - 48)
  else if 'a' ≤ c ∧ c ≤ 'f' then some (c.toNat - 87)
  else if 'A' ≤ c ∧ c ≤ 'F' then some (c.toNat - 55)
  else none

def unit? (a b c d : Char) : Option Nat := do
  let a ← hexDigit? a
  let b ← hexDigit? b
  let c ← hexDigit? c
  let d ← hexDigit? d
  some (a * 4096 + b * 256 + c * 16 + d)

/-- The character that a letter after a backslash stands for. -/
def unescaped? (c : Char) : Option Char :=
  if c = quote then some quote
  else if c = backslash then some backslash
  else if c = '/' then some '/'
  else if c = 'b' then some (Char.ofNat 8)
  else if c = 'f' then some (Char.ofNat 12)
  else if c = 'n' then some '\n'
  else if c = 'r' then some '\r'
  else if c = 't' then some '\t'
  else none

/-- The code units of a JSON string, after its opening quote. -/
def units : Text → Option (List Nat)
  | [] => none
  | c :: rest =>
    if c = quote then if rest = [] then some [] else none
    else if c = backslash then
      match rest with
      | 'u' :: a :: b :: c :: d :: rest =>
        match unit? a b c d with
        | some unit => (units rest).map fun more => unit :: more
        | none => none
      | e :: rest =>
        match unescaped? e with
        | some char => (units rest).map fun more => char.toNat :: more
        | none => none
      | [] => none
    else if c.toNat < 0x20 then none
    else (units rest).map fun more => c.toNat :: more

/-- A surrogate that is alone has no character here, and is read as the replacement
character. -/
def codePoint (unit : Nat) : Char :=
  if 0xD800 ≤ unit ∧ unit < 0xE000 then Char.ofNat 0xFFFD else Char.ofNat unit

/-- Two surrogates that follow one another are one character. -/
def ofUnits : List Nat → Text
  | [] => []
  | [unit] => [codePoint unit]
  | high :: low :: rest =>
    if 0xD800 ≤ high ∧ high < 0xDC00 ∧ 0xDC00 ≤ low ∧ low < 0xE000 then
      Char.ofNat (0x10000 + (high - 0xD800) * 1024 + (low - 0xDC00)) :: ofUnits rest
    else codePoint high :: ofUnits (low :: rest)

/-- `json.loads` of a string, after its opening quote. -/
def loads (token : Text) : Option Text := (units token).map ofUnits

def unslash : Text → Text
  | [] => []
  | [c] => [c]
  | c :: d :: rest =>
    if c = backslash ∧ d ≠ '\n' then d :: unslash rest else c :: unslash (d :: rest)

def halve : Text → Text
  | [] => []
  | [c] => [c]
  | c :: d :: rest =>
    if c = apostrophe ∧ d = apostrophe then c :: halve rest else c :: halve (d :: rest)

/-- `_quoted` of an opening quote and what follows it. -/
def quoted (q : Char) (token : Text) : Text :=
  if q = quote then (loads token).getD (unslash token.dropLast) else halve token.dropLast

end Substrate.Frontmatter
