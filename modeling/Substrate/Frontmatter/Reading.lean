import Mathlib.Data.List.Basic
import Substrate.Frontmatter.Scalars

/-!
Reading frontmatter (`documents/_frontmatter.py`): flow values, which stand on one line, and
blocks of lines. A loop that would never end runs out of fuel instead, and a run notes each
text that it reads as a flow value.
-/

namespace Substrate.Frontmatter

open Lib PyText

variable (py : Interpreter)

/-- `out[key] = value`. -/
def put (entries : List (Text × Value)) (key : Text) (value : Value) : List (Text × Value) :=
  if key ∈ entries.map Prod.fst then
    entries.map fun entry => if entry.1 = key then (key, value) else entry
  else entries ++ [(key, value)]

def pastComma (s : Text) : Text :=
  match lstrip s with
  | [] => []
  | c :: rest => if c = ',' then lstrip rest else c :: rest

def endsItem (c : Char) : Bool := c = ',' ∨ c = ']' ∨ c = '}'

def endsName (c : Char) : Bool := c = ':' ∨ c = ',' ∨ c = '}'

/-- The key of an entry, and what follows it. -/
def entryKey (s : Text) : Text × Text :=
  match s with
  | [] => ([], [])
  | c :: rest =>
    if isQuote c then
      let (token, after) := scanQuoted c rest
      (quoted c token, lstrip (after.getD []))
    else
      let name := s.takeWhile fun c => ¬ endsName c
      let after := s.dropWhile fun c => ¬ endsName c
      if name = [] ∨ after = [] then (strip s, []) else (strip name, after)

mutual

def flow : Nat → Bool → Text → Except Halt (Value × Text)
  | 0, _, _ => .error .endless
  | fuel + 1, inCollection, text =>
    match lstrip text with
    | [] => .ok (.null, [])
    | c :: rest =>
      if c = '[' then items fuel [] (lstrip rest)
      else if c = '\x7b' then entries fuel [] (lstrip rest)
      else if isQuote c then
        let (token, after) := scanQuoted c rest
        .ok (.str (quoted c token), after.getD [])
      else if inCollection then
        let token := (c :: rest).takeWhile fun c => ¬ endsItem c
        (plain py token).map fun value =>
          (value, (c :: rest).dropWhile fun c => ¬ endsItem c)
      else (plain py (c :: rest)).map fun value => (value, [])

/-- The loop over the items of a list. -/
def items : Nat → List Value → Text → Except Halt (Value × Text)
  | 0, _, _ => .error .endless
  | _ + 1, found, [] => .ok (.list found, [])
  | fuel + 1, found, c :: rest =>
    if c = ']' then .ok (.list found, rest)
    else
      match flow fuel true (c :: rest) with
      | .error halt => .error halt
      | .ok (value, s) => items fuel (found ++ [value]) (pastComma s)

/-- The loop over the entries of a mapping. -/
def entries : Nat → List (Text × Value) → Text → Except Halt (Value × Text)
  | 0, _, _ => .error .endless
  | _ + 1, found, [] => .ok (.map found, [])
  | fuel + 1, found, c :: rest =>
    if c = '\x7d' then .ok (.map found, rest)
    else
      let (key, s) := entryKey (c :: rest)
      match s with
      | [] => entries fuel (put found key .null) []
      | d :: after =>
        if d = ':' then
          match flow fuel true after with
          | .error halt => .error halt
          | .ok (value, s) => entries fuel (put found key value) (pastComma s)
        else entries fuel (put found key .null) (pastComma s)

end

/-- A run of the reader: the texts that it read as flow values, and how it ended. -/
structure Run (α : Type) where
  reads : List Text
  outcome : Except Halt α

namespace Run

variable {α β : Type}

def done (a : α) : Run α := ⟨[], .ok a⟩

def halt (why : Halt) : Run α := ⟨[], .error why⟩

def andThen (x : Run α) (f : α → Run β) : Run β :=
  match x.outcome with
  | .error why => ⟨x.reads, .error why⟩
  | .ok a => ⟨x.reads ++ (f a).reads, (f a).outcome⟩

end Run

def readFlow (s : Text) : Run (Value × Text) := ⟨[s], flow py (2 * s.length + 2) false s⟩

def readPlain (s : Text) : Run Value := ⟨[], plain py s⟩

def indentOf (line : Text) : Nat := (line.takeWhile fun c => c = ' ').length

def splitKey (content : Text) : Option (Text × Text) :=
  match content with
  | [] => none
  | c :: rest =>
    if isQuote c then
      match scanQuoted c rest with
      | (token, some (':' :: after)) =>
        if after = [] ∨ after.head? = some ' ' then some (quoted c token, strip after) else none
      | _ => none
    else if c = '[' ∨ c = '\x7b' ∨ c = '#' ∨ c = ':' ∨ isSpace c then none
    else
      let name := content.takeWhile fun c => ¬ (c = ':' ∨ c = '#')
      match content.dropWhile fun c => ¬ (c = ':' ∨ c = '#') with
      | ':' :: after =>
        if after.head?.all isSpace then some (strip name, strip after) else none
      | _ => none

def opensAfter : Option Char → Bool
  | none => true
  | some c => c = ' ' ∨ c = '\t' ∨ c = '[' ∨ c = '\x7b' ∨ c = ',' ∨ c = ':'

/-- What stands before the first ` #` outside quoted strings, if there is one. -/
def beforeComment : Option Char → Option Char → Text → Option Text
  | _, _, [] => none
  | some _, _, [_] => none
  | none, before, [c] =>
    if c = '#' ∧ (before = some ' ' ∨ before = some '\t') then some [] else none
  | some q, _, c :: d :: rest =>
    if c = backslash ∧ q = quote then
      (beforeComment (some q) (some d) rest).map fun text => c :: d :: text
    else
      (beforeComment (if c = q then none else some q) (some c) (d :: rest)).map fun text =>
        c :: text
  | none, before, c :: d :: rest =>
    if isQuote c ∧ opensAfter before then
      (beforeComment (some c) (some c) (d :: rest)).map fun text => c :: text
    else if c = '#' ∧ (before = some ' ' ∨ before = some '\t') then some []
    else (beforeComment none (some c) (d :: rest)).map fun text => c :: text

def stripComment (rest : Text) : Text :=
  if rest.head?.any isQuote then rest
  else
    match beforeComment none none rest with
    | none => rest
    | some text => rstrip text.dropLast

def startsItem (line : Text) : Bool := ['-', ' '].isPrefixOf (lstrip line)

def isDash (line : Text) : Bool := strip line = ['-']

def isSkipped (line : Text) : Bool := strip line = [] ∨ (lstrip line).head? = some '#'

/-- The lines of a block scalar, and how many there are. -/
def scalarLines (indent : Nat) : Option Nat → List Text → List Text × Nat
  | _, [] => ([], 0)
  | width, line :: rest =>
    if strip line = [] then
      let (body, count) := scalarLines indent width rest
      ([] :: body, count + 1)
    else if indentOf line ≤ indent then ([], 0)
    else
      let wide := width.getD (indentOf line)
      let (body, count) := scalarLines indent (some wide) rest
      ((if wide ≤ indentOf line then line.drop wide else lstrip line) :: body, count + 1)

def folded : Option Text → List Text → Text
  | _, [] => []
  | none, part :: rest => part ++ folded (some part) rest
  | some before, part :: rest =>
    (if part ≠ [] ∧ before ≠ [] then ' ' :: part else '\n' :: part) ++ folded (some part) rest

def blockScalar (lines : List Text) (i indent : Nat) (fold : Bool) (chomp : Option Char) :
    Text × Nat :=
  let (found, count) := scalarLines indent none (lines.drop i)
  let body := if chomp = some '+' then found else found.rdropWhile fun part => part = []
  let text := if fold then folded none body else ['\n'].intercalate body
  (if chomp = none ∧ text ≠ [] then text ++ ['\n'] else text, i + count)

/-- The first line from `j` on that is not skipped. -/
def pastSkipped (skip : Text → Bool) (lines : List Text) (j : Nat) : Nat :=
  j + ((lines.drop j).takeWhile skip).length

mutual

def value : Nat → List Text → Nat → Nat → Text → Run (Value × Nat)
  | 0, _, _, _, _ => .halt .endless
  | fuel + 1, lines, i, indent, rest =>
    let rest :=
      if rest.head? = some '|' ∨ rest.head? = some '>' then rest else stripComment rest
    match rest with
    | c :: more =>
      if c = '|' ∨ c = '>' then
        let (text, i) := blockScalar lines (i + 1) indent (c = '>') more.head?
        .done (.str text, i)
      else
        (readFlow py (c :: more)).andThen fun (value, tail) =>
          if strip tail ≠ [] then
            (readPlain py (c :: more)).andThen fun value => .done (value, i + 1)
          else .done (value, i + 1)
    | [] =>
      let j := pastSkipped isSkipped lines (i + 1)
      match lines[j]? with
      | none => .done (.null, j)
      | some next =>
        if indent < indentOf next ∨ (indentOf next = indent ∧ startsItem next) ∨ isDash next
        then block fuel lines j (indentOf next)
        else .done (.null, i + 1)

def block : Nat → List Text → Nat → Nat → Run (Value × Nat)
  | 0, _, _, _ => .halt .endless
  | fuel + 1, lines, i, indent =>
    if (lines[i]?).any fun line => startsItem line || isDash line then
      (sequence fuel lines i indent []).andThen fun (found, i) => .done (.list found, i)
    else (mapping fuel lines i indent []).andThen fun (found, i) => .done (.map found, i)

def mapping : Nat → List Text → Nat → Nat → List (Text × Value) → Run (List (Text × Value) × Nat)
  | 0, _, _, _, _ => .halt .endless
  | fuel + 1, lines, i, indent, found =>
    match lines[i]? with
    | none => .done (found, i)
    | some line =>
      if isSkipped line then mapping fuel lines (i + 1) indent found
      else if indentOf line ≠ indent ∨ startsItem line then .done (found, i)
      else
        match splitKey (strip line) with
        | none => mapping fuel lines (i + 1) indent found
        | some (key, rest) =>
          (value fuel lines i indent rest).andThen fun (value, i) =>
            mapping fuel lines i indent (put found key value)

def sequence : Nat → List Text → Nat → Nat → List Value → Run (List Value × Nat)
  | 0, _, _, _, _ => .halt .endless
  | fuel + 1, lines, i, indent, found =>
    match lines[i]? with
    | none => .done (found, i)
    | some line =>
      if isSkipped line then sequence fuel lines (i + 1) indent found
      else if indentOf line ≠ indent ∨ ¬ (startsItem line ∨ isDash line) then .done (found, i)
      else
        let item := (lstrip line).drop 1
        let content := strip item
        if content = [] then
          let j := pastSkipped (fun line => strip line = []) lines (i + 1)
          match lines[j]? with
          | none => sequence fuel lines (i + 1) indent (found ++ [.null])
          | some next =>
            if indent < indentOf next then
              (block fuel lines j (indentOf next)).andThen fun (value, i) =>
                sequence fuel lines i indent (found ++ [value])
            else sequence fuel lines (i + 1) indent (found ++ [.null])
        else if (splitKey content).isSome ∧ content.head? ≠ some '[' ∧
            content.head? ≠ some '\x7b' then
          let column := indent + 1 + (item.length - (lstrip item).length)
          let lines := lines.set i (List.replicate column ' ' ++ content)
          (mapping fuel lines i column []).andThen fun (value, i) =>
            sequence fuel lines i indent (found ++ [.map value])
        else
          (readFlow py (stripComment content)).andThen fun (value, _) =>
            sequence fuel lines (i + 1) indent (found ++ [value])

end

/-- Line breaks of any kind are one kind. -/
def unixBreaks : Text → Text
  | [] => []
  | [c] => if c = '\r' then ['\n'] else [c]
  | c :: d :: rest =>
    if c = '\r' then
      if d = '\n' then '\n' :: unixBreaks rest else '\n' :: unixBreaks (d :: rest)
    else c :: unixBreaks (d :: rest)

def linesOf (text : Text) : List Text := ((unixBreaks text).splitOn '\n').map rstrip

def isIndented (line : Text) : Bool := line.head? = some ' ' ∨ line.head? = some '\t'

def rawValue (lines : List Text) (i : Nat) (rest : Text) : Value × Nat :=
  let after := pastSkipped (fun line => line = [] ∨ isIndented line) lines (i + 1)
  (.str (strip (['\n'].intercalate (rest :: (lines.take after).drop (i + 1)))), after)

/-- The loop of `load_mapping`. -/
def loadLines : Nat → List Text → Nat → List (Text × Value) → Run (List (Text × Value))
  | 0, _, _, _ => .halt .endless
  | fuel + 1, lines, i, found =>
    match lines[i]? with
    | none => .done found
    | some line =>
      if isSkipped line ∨ isIndented line then loadLines fuel lines (i + 1) found
      else
        match splitKey line with
        | none => loadLines fuel lines (i + 1) found
        | some (key, rest) =>
          let read := value py (5 * lines.length + 5) lines i 0 rest
          match read.outcome with
          | .error .endless => ⟨read.reads, .error .endless⟩
          | .error .raised =>
            let (value, i) := rawValue lines i rest
            let more := loadLines fuel lines i (put found key value)
            ⟨read.reads ++ more.reads, more.outcome⟩
          | .ok (value, i) =>
            let more := loadLines fuel lines i (put found key value)
            ⟨read.reads ++ more.reads, more.outcome⟩

def loadMapping (text : Text) : Run (List (Text × Value)) :=
  loadLines py ((linesOf text).length + 1) (linesOf text) 0 []

end Substrate.Frontmatter
