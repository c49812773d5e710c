import Substrate.Frontmatter.Reading

/-!
Writing frontmatter (`documents/_frontmatter.py`): one key a line, plain scalars where they
are safe, and what `json.dumps` makes of everything else.
-/

namespace Substrate.Frontmatter

open Lib PyText

/-- `str` of an integer. -/
def intText (n : Int) : Text :=
  if n < 0 then '-' :: natText n.natAbs else natText n.natAbs

def Decimal.text (d : Decimal) : Text := d.digits.map digitChar

def Decimal.pointText (d : Decimal) : Text :=
  let before := d.point.toNat
  if d.point ≤ 0 then '0' :: '.' :: (List.replicate (-d.point).toNat '0' ++ d.text)
  else if d.digits.length ≤ before then
    d.text ++ List.replicate (before - d.digits.length) '0' ++ ['.', '0']
  else d.text.take before ++ '.' :: d.text.drop before

def powerText (e : Int) : Text :=
  let digits := natText e.natAbs
  'e' :: (if e < 0 then '-' else '+') :: (if digits.length < 2 then '0' :: digits else digits)

def Decimal.powerText (d : Decimal) : Text :=
  d.text.take 1 ++ (if d.digits.length ≤ 1 then [] else '.' :: d.text.drop 1) ++
    Frontmatter.powerText (d.point - 1)

/-- `repr` of a finite float. -/
def Decimal.repr (d : Decimal) : Text :=
  (if d.negative then ['-'] else []) ++ (if d.digits = [] then ['0', '.', '0']
    else if -4 < d.point ∧ d.point ≤ 16 then d.pointText
    else d.powerText)

def Double.repr : Double → Text
  | .finite d => d.repr
  | .infinite negative => (if negative then ['-'] else []) ++ ['i', 'n', 'f']

/-- What `json.dumps` makes of a float. -/
def Double.json : Double → Text
  | .finite d => d.repr
  | .infinite negative =>
    (if negative then ['-'] else []) ++ ['I', 'n', 'f', 'i', 'n', 'i', 't', 'y']

def withPoint (text : Text) : Text :=
  if 'e' ∈ text ∧ '.' ∉ text then
    text.takeWhile (fun c => c ≠ 'e') ++ '.' :: '0' :: text.dropWhile fun c => c ≠ 'e'
  else text

def escape (c : Char) : Text :=
  match Json.short c with
  | some e => [backslash, e]
  | none => if c.toNat < 0x20 then Json.unit16 c.toNat else [c]

def literal (text : Text) : Text := quote :: (text.flatMap escape ++ [quote])

/-- A first character and others, and perhaps a line break at the end, which `$` allows. -/
def matchesPlain (first other : Char → Bool) : Text → Bool
  | [] => false
  | c :: rest =>
    first c && (rest.all other || (rest.getLast? = some '\n' && rest.dropLast.all other))

def isLetter (c : Char) : Bool := ('a' ≤ c ∧ c ≤ 'z') ∨ ('A' ≤ c ∧ c ≤ 'Z')

def isSafe (c : Char) : Bool :=
  isLetter c || isAsciiDigit c || c ∈ [' ', '_', '.', '/', '(', ')', '+', '@', ',', '-']

/-- `_PLAIN_SAFE`. -/
def isPlainSafe (text : Text) : Bool := matchesPlain isLetter isSafe text

def isKeyChar (c : Char) : Bool := isLetter c || isAsciiDigit c || c ∈ ['_', '.', '-']

/-- `_PLAIN_KEY`. -/
def isPlainKey (text : Text) : Bool := matchesPlain (fun c => isLetter c || c = '_') isKeyChar text

def yamlWords : List Text :=
  [trueWord, falseWord, ['y', 'e', 's'], ['n', 'o'], ['o', 'n'], ['o', 'f', 'f'], nullWord,
    ['y'], ['n'], ['~']]

local instance lawfulText : LawfulBEq (List Char) := inferInstance

def isBareText (text : Text) : Bool :=
  isPlainSafe text ∧ lowered text ∉ yamlWords ∧ text.getLast? ≠ some ' '

def isBareKey (key : Text) : Bool := isPlainKey key ∧ lowered key ∉ yamlWords

mutual

/-- `json.dumps` of a value. -/
def dumps : Value → Text
  | .null => nullWord
  | .bool b => if b then trueWord else falseWord
  | .int n => intText n
  | .float x => x.json
  | .str text => literal text
  | .list items => '[' :: (dumpsItems true items ++ [']'])
  | .map entries => '\x7b' :: (dumpsEntries true entries ++ ['\x7d'])

def dumpsItems (first : Bool) : List Value → Text
  | [] => []
  | v :: rest => (if first then [] else [',', ' ']) ++ (dumps v ++ dumpsItems false rest)

def dumpsEntries (first : Bool) : List (Text × Value) → Text
  | [] => []
  | (key, v) :: rest =>
    (if first then [] else [',', ' ']) ++
      (literal key ++ ':' :: ' ' :: (dumps v ++ dumpsEntries false rest))

end

def render : Value → Text
  | .float x => withPoint x.repr
  | .str text => if isBareText text then text else literal text
  | v => dumps v

def entryText (entry : Text × Value) : Text :=
  (if isBareKey entry.1 then entry.1 else literal entry.1) ++ ':' :: ' ' :: render entry.2

mutual

/-- A property of a value and of each value in it. -/
def everywhere (p : Value → Bool) : Value → Bool
  | .list items => p (.list items) && everyItem p items
  | .map entries => p (.map entries) && everyEntry p entries
  | .null => p .null
  | .bool b => p (.bool b)
  | .int n => p (.int n)
  | .float x => p (.float x)
  | .str text => p (.str text)

def everyItem (p : Value → Bool) : List Value → Bool
  | [] => true
  | v :: rest => everywhere p v && everyItem p rest

def everyEntry (p : Value → Bool) : List (Text × Value) → Bool
  | [] => true
  | (_, v) :: rest => everywhere p v && everyEntry p rest

end

/-- An integer that `str` writes. -/
def isWritten (py : Interpreter) : Value → Bool
  | .int n => (natText n.natAbs).length ≤ py.maxDigits
  | _ => true

def dumpMapping (py : Interpreter) (data : List (Text × Value)) : Except Halt Text :=
  if everyEntry (isWritten py) data then .ok (['\n'].intercalate (data.map entryText))
  else .error .raised

end Substrate.Frontmatter
