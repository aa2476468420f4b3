/-
TOML documents: the pairs at the top, and the sections that follow with a header each. A dotted key
makes nested tables, which other dotted keys may extend. Documents belong to the outer layer: they are read for
configurations, and nothing that counts depends on them.
-/
import ModelCount.Toml.Number

namespace ModelCount.Toml

/-- A value. Floats and dates are recognised, but not kept. -/
inductive Value
  | text (s : String)
  | integer (n : Int)
  | float
  | boolean (b : Bool)
  | datetime
  | array (items : List Value)
  /-- `dotted` tables come from dotted keys, the others are written in braces. -/
  | table (dotted : Bool) (pairs : List (String × Value))

/-- A table header. `array` headers start one more table of an array. -/
structure Header where
  path : List String
  array : Bool
  deriving DecidableEq, Repr

structure Document where
  top : List (String × Value) := []
  sections : List (Header × List (String × Value)) := []

/-! ## Pairs -/

/-- Replaces the value of the first pair with a key. -/
def replaceFirst (key : String) (v : Value) : List (String × Value) → List (String × Value)
  | [] => []
  | (k, old) :: rest => if k = key then (k, v) :: rest else (k, old) :: replaceFirst key v rest

/-- Adds a pair with a dotted key. Only a table that dotted keys made can be extended. -/
def addPair (v : Value) : List String → List (String × Value) → Option (List (String × Value))
  | [], _ => none
  | [key], pairs => some (pairs ++ [(key, v)])
  | key :: path, pairs =>
    match pairs.find? (·.1 == key) with
    | some (_, .table true inner) => do
      return replaceFirst key (.table true (← addPair v path inner)) pairs
    | some _ => none
    | none => do return pairs ++ [(key, .table true (← addPair v path []))]

/-! ## Spaces, comments and line ends -/

def skipBlank : List Token → List Token
  | .blank _ :: rest => rest
  | ts => ts

/-- The end of a line, in front of which a comment may stand. -/
def lineEnd : List Token → Option (List Token)
  | [] => some []
  | .newline :: rest => some rest
  | .comment :: .newline :: rest => some rest
  | [.comment] => some []
  | _ => none

def isFiller : Token → Bool
  | .blank _ | .newline | .comment => true
  | _ => false

/-- Skips what may stand between the items of an array or between lines. -/
def skipFiller (ts : List Token) : List Token := ts.dropWhile isFiller

/-! ## Keys -/

/-- A bare or a quoted key; quotes of several lines make no key. -/
def key? : List Token → Option (String × List Token)
  | .word chars :: rest => some (String.ofList chars, rest)
  | .quoted s false :: rest => some (s, rest)
  | _ => none

/-- A key of several parts, and the spaces after it. -/
def dottedKey : Nat → List Token → Option (List String × List Token)
  | 0, _ => none
  | fuel + 1, ts => do
    let (part, rest) ← key? ts
    match skipBlank rest with
    | .period :: rest => do
      let (path, rest) ← dottedKey fuel (skipBlank rest)
      return (part :: path, rest)
    | rest => return ([part], rest)

/-! ## Numbers and dates -/

/-- Takes a token away if it is the next one. -/
def eat (t : Token) (ts : List Token) : Bool × List Token :=
  if ts.head? = some t then (true, ts.drop 1) else (false, ts)

/-- Takes a word that has to follow. -/
def word? : List Token → Option (List Char × List Token)
  | .word chars :: rest => some (chars, rest)
  | _ => none

/-- Takes a token and the word after it, if the token is the next one. -/
def optionalWord (t : Token) (ts : List Token) : Option (List Token) :=
  match eat t ts with
  | (true, rest) => (word? rest).map Prod.snd
  | (false, rest) => some rest

/-- The rest of a date and time after its first word. `timeBegun` tells that the colon after the
hours is taken already. The parts are not checked any further. -/
def datetime (timeBegun : Bool) (ts : List Token) : Option (List Token) := do
  let ts := match ts with
    | .blank [' '] :: .word _ :: rest => rest
    | ts => ts
  let (colon, ts) := if timeBegun then (true, ts) else eat .colon ts
  if colon then
    let (_, ts) ← word? ts
    let (seconds, ts) := eat .colon ts
    if !seconds then failure
    let (_, ts) ← word? ts
    let ts ← optionalWord .period ts
    let ts ← optionalWord .plus ts
    optionalWord .colon ts
  else return ts

/-- The exponent of a float, given what is left of the word after its letter. A plus sign is a token
of its own, and the word after it has no sign. -/
def exponent (cs : List Char) (ts : List Token) : Option (Int × List Token) := do
  let (negative, cs, ts) ←
    if cs.isEmpty then (word? (eat .plus ts).2).map fun (cs, ts) => (false, cs, ts)
    else
      let (negative, cs) := splitSign cs
      pure (negative, cs, ts)
  let (ds, rest) ← digits 10 true cs
  if !rest.isEmpty then failure
  let n : Int := ofDigits 10 ds
  return (if negative then -n else n, ts)

/-- A float with the given text before and, if there is a point, after it. -/
def float (cs : List Char) (afterPoint : Option (List Char)) (ts : List Token) : Option (Value × List Token) := do
  let (whole, rest) ← digits 10 false (splitSign cs).2
  let (fraction, rest) ← match afterPoint with
    | none => pure ([], rest)
    | some after => if rest.isEmpty then digits 10 true after else failure
  let (exp, ts) ← match rest with
    | [] => pure (0, ts)
    | c :: rest => if c = 'e' || c = 'E' then exponent rest ts else failure
  let mantissa := ofDigits 10 (whole ++ fraction)
  if overflowsDouble mantissa (exp - fraction.length) then failure
  return (.float, ts)

/-- The words for infinite and undefined floats. -/
def isFloatWord (cs : List Char) : Bool :=
  ["inf".toList, "-inf".toList, "nan".toList, "-nan".toList].contains cs

/-- A number that starts with the given word. -/
def number (cs : List Char) (ts : List Token) : Option (Value × List Token) :=
  let whole (radix : Nat) (cs : List Char) := (integer? radix cs).map fun n => (Value.integer n, ts)
  if "0x".toList.isPrefixOf cs then whole 16 (cs.drop 2)
  else if "0o".toList.isPrefixOf cs then whole 8 (cs.drop 2)
  else if "0b".toList.isPrefixOf cs then whole 2 (cs.drop 2)
  else if cs.contains 'e' || cs.contains 'E' then float cs none ts
  else match ts with
    | .period :: rest => do
      let (after, rest) ← word? rest
      float cs (some after) rest
    | ts => if isFloatWord cs then some (.float, ts) else whole 10 cs

/-- Whether a minus sign stands somewhere after the first character, and not in an exponent. -/
def hasDateDash : List Char → Bool
  | c :: rest =>
    let text := String.ofList (c :: rest)
    rest.contains '-' && !((text.splitOn "e-").length > 1 || (text.splitOn "E-").length > 1)
  | [] => false

/-- A number or a date that starts with the given word. -/
def numberOrDate (cs : List Char) (ts : List Token) : Option (Value × List Token) :=
  if cs.contains 'T' || cs.contains 't' || hasDateDash cs then
    (datetime false ts).map fun ts => (.datetime, ts)
  else match ts with
    | .colon :: rest => (datetime true rest).map fun ts => (.datetime, ts)
    | ts => number cs ts

/-- A value written as one word. -/
def wordValue (cs : List Char) (ts : List Token) : Option (Value × List Token) :=
  if cs = "true".toList then some (.boolean true, ts)
  else if cs = "false".toList then some (.boolean false, ts)
  else if cs = "inf".toList || cs = "nan".toList then numberOrDate cs ts
  else match cs with
    | c :: _ => if c == '-' || c.isDigit then numberOrDate cs ts else none
    | [] => none

/-! ## Values -/

mutual

/-- A value at the front of the tokens. -/
def value : Nat → List Token → Option (Value × List Token)
  | 0, _ => none
  | fuel + 1, ts =>
    match ts with
    | .quoted s _ :: rest => some (.text s, rest)
    | .word cs :: rest => wordValue cs rest
    | .plus :: rest => do
      let (cs, rest) ← word? rest
      number cs rest
    | .openBracket :: rest => do
      let (items, rest) ← arrayItems fuel rest
      return (.array items, rest)
    | .openBrace :: rest =>
      match skipBlank rest with
      | .closeBrace :: rest => some (.table false [], rest)
      | rest => do
        let (pairs, rest) ← bracePairs fuel [] rest
        return (.table false pairs, rest)
    | _ => none

/-- The items of an array up to its closing bracket. A comma may follow the last one. -/
def arrayItems : Nat → List Token → Option (List Value × List Token)
  | 0, _ => none
  | fuel + 1, ts =>
    match skipFiller ts with
    | .closeBracket :: rest => some ([], rest)
    | ts => do
      let (item, rest) ← value fuel ts
      match skipFiller rest with
      | .comma :: rest => do
        let (items, rest) ← arrayItems fuel rest
        return (item :: items, rest)
      | .closeBracket :: rest => return ([item], rest)
      | _ => failure

/-- The pairs of a table in braces up to its closing brace. No comma follows the last one. -/
def bracePairs : Nat → List (String × Value) → List Token → Option (List (String × Value) × List Token)
  | 0, _, _ => none
  | fuel + 1, pairs, ts => do
    let (path, rest) ← dottedKey (ts.length + 1) ts
    match rest with
    | .equals :: rest => do
      let (v, rest) ← value fuel (skipBlank rest)
      let pairs ← addPair v path pairs
      match skipBlank rest with
      | .closeBrace :: rest => return (pairs, rest)
      | .comma :: rest => bracePairs fuel pairs (skipBlank rest)
      | _ => failure
    | _ => failure

end

/-! ## Lines -/

/-- A table header after its first bracket. -/
def header (ts : List Token) : Option (Header × List Token) := do
  let (array, ts) := eat .openBracket ts
  let (path, ts) ← dottedKey (ts.length + 1) (skipBlank ts)
  match array, ts with
  | true, .closeBracket :: .closeBracket :: rest
  | false, .closeBracket :: rest => return (⟨path, array⟩, ← lineEnd (skipBlank rest))
  | _, _ => failure

/-- A pair and the end of its line. -/
def pairLine (ts : List Token) : Option ((List String × Value) × List Token) := do
  let (path, rest) ← dottedKey (ts.length + 1) ts
  match rest with
  | .equals :: rest => do
    let (v, rest) ← value (rest.length + 1) (skipBlank rest)
    return ((path, v), ← lineEnd (skipBlank rest))
  | _ => failure

/-- Adds a pair to the last section, or to the top if there is none yet. -/
def Document.addPair (d : Document) (path : List String) (v : Value) : Option Document := do
  match d.sections.getLast? with
  | none => return { d with top := ← Toml.addPair v path d.top }
  | some (h, pairs) =>
    return { d with sections := d.sections.dropLast ++ [(h, ← Toml.addPair v path pairs)] }

/-- Reads line after line. -/
def lines : Nat → Document → List Token → Option Document
  | 0, _, _ => none
  | fuel + 1, d, ts =>
    match skipFiller ts with
    | [] => some d
    | .openBracket :: rest => do
      let (h, rest) ← header rest
      lines fuel { d with sections := d.sections ++ [(h, [])] } rest
    | ts => do
      let ((path, v), rest) ← pairLine ts
      lines fuel (← d.addPair path v) rest

/-- The document that a text describes. -/
def Document.ofText? (text : String) : Option Document := do
  let ts ← Token.ofText? text
  lines (ts.length + 1) {} ts

/-! ## Headers -/

/-- Whether a path goes below another one. -/
def isBelow (path base : List String) : Bool := base.isPrefixOf path && path != base

/-- Whether the headers, in order, define every table once. A table of an array may be followed by
another one, for which the tables below are open again; a table that a deeper header implied is no
array. `seen` holds the headers in force. -/
def headersAgree (seen : List Header) : List Header → Bool
  | [] => true
  | h :: rest =>
    if h.array then
      if seen.contains h then headersAgree (seen.filter fun s => !isBelow s.path h.path) rest
      else if seen.any fun s => h.path.isPrefixOf s.path then false
      else headersAgree (h :: seen) rest
    else if seen.any fun s => s.path == h.path then false
    else headersAgree (h :: seen) rest

end ModelCount.Toml
