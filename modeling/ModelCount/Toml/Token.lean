/-
The tokens of TOML text. Line breaks are single newlines once `unifyNewlines` is through; a carriage
return that does not belong to a line break is no token. Tokens belong to the outer layer, as documents do.
-/

namespace ModelCount.Toml

inductive Token
  | newline
  /-- Spaces and tabs. -/
  | blank (chars : List Char)
  | comment
  | equals
  | period
  | comma
  | colon
  | plus
  | openBrace
  | closeBrace
  | openBracket
  | closeBracket
  /-- A bare key, a number, a date or a name of a value. -/
  | word (chars : List Char)
  | quoted (value : String) (multiline : Bool)
  deriving DecidableEq, Repr

/-! ## Characters -/

def quoteMark : Char := '\x22'

def apostrophe : Char := '\x27'

def backslash : Char := '\x5c'

def isBlank (c : Char) : Bool := c == ' ' || c == '\t'

def isWordChar (c : Char) : Bool := c.isAlphanum || c == '-' || c == '_'

/-- A comment runs up to the first control character other than a tab. -/
def isCommentChar (c : Char) : Bool := c == '\t' || decide (0x20 ≤ c.toNat)

def isStringChar (c : Char) : Bool := isCommentChar c && c.toNat != 0x7f

/-- Writes every line break as one newline. -/
def unifyNewlines : List Char → List Char
  | '\r' :: '\n' :: rest => '\n' :: unifyNewlines rest
  | c :: rest => c :: unifyNewlines rest
  | [] => []

/-! ## Strings -/

def hexDigit? (c : Char) : Option Nat :=
  if '0' ≤ c ∧ c ≤ '9' then some (c.toNat - 48)
  else if 'a' ≤ c ∧ c ≤ 'f' then some (c.toNat - 87)
  else if 'A' ≤ c ∧ c ≤ 'F' then some (c.toNat - 55)
  else none

/-- The character with a hexadecimal code of exactly `n` digits. -/
def hexChar (n : Nat) (cs : List Char) : Option (List Char × List Char) := do
  let digits ← (cs.take n).mapM hexDigit?
  if digits.length < n then failure
  let code := digits.foldl (fun code d => 16 * code + d) 0
  if code.isValidChar then return ([Char.ofNat code], cs.drop n) else failure

/-- What follows a backslash. In a multi-line string a backslash at the end of a line takes the
line break and all white space after it away. -/
def escape (multiline : Bool) : List Char → Option (List Char × List Char)
  | [] => none
  | c :: rest =>
    if c = quoteMark || c = backslash then some ([c], rest)
    else if c = 'b' then some (['\x08'], rest)
    else if c = 'f' then some (['\x0c'], rest)
    else if c = 'n' then some (['\n'], rest)
    else if c = 'r' then some (['\r'], rest)
    else if c = 't' then some (['\t'], rest)
    else if c = 'u' then hexChar 4 rest
    else if c = 'U' then hexChar 8 rest
    else if multiline && (isBlank c || c == '\n') then
      match (c :: rest).dropWhile isBlank with
      | '\n' :: rest => some ([], rest.dropWhile fun c => isBlank c || c == '\n')
      | _ => none
    else none

/-- Three quotes end a multi-line string, and up to two more in front of them belong to it. One or
two quotes alone are text. Given what follows a first quote, the answer is the text, whether the
string ends, and the rest. -/
def closing (quote : Char) (rest : List Char) : List Char × Bool × List Char :=
  match ((rest.takeWhile (· == quote)).take 4).length with
  | 0 => ([quote], false, rest)
  | 1 => ([quote, quote], false, rest.drop 1)
  | n + 2 => (List.replicate n quote, true, rest.drop (n + 2))

/-- The rest of a string after its opening quotes. `text` holds what was read, last character
first. -/
def stringBody (quote : Char) (multiline : Bool) : Nat → List Char → List Char → Option (String × List Char)
  | 0, _, _ => none
  | _, _, [] => none
  | fuel + 1, text, c :: rest =>
    if c = '\n' then
      if multiline then stringBody quote multiline fuel (c :: text) rest else none
    else if c = quote then
      if multiline then
        match closing quote rest with
        | (quotes, true, rest) => some (String.ofList (quotes ++ text).reverse, rest)
        | (quotes, false, rest) => stringBody quote multiline fuel (quotes ++ text) rest
      else some (String.ofList text.reverse, rest)
    else if c = backslash && quote = quoteMark then
      match escape multiline rest with
      | some (chars, rest) => stringBody quote multiline fuel (chars ++ text) rest
      | none => none
    else if isStringChar c then stringBody quote multiline fuel (c :: text) rest
    else none

/-- A string after its first quote. A newline right after three opening quotes is no text. -/
def scanString (quote : Char) (cs : List Char) : Option (Token × List Char) :=
  if cs.take 2 = [quote, quote] then
    let body := match cs.drop 2 with
      | '\n' :: rest => rest
      | rest => rest
    (stringBody quote true (body.length + 1) [] body).map fun (s, rest) => (.quoted s true, rest)
  else if cs.head? = some quote then some (.quoted "" false, cs.drop 1)
  else (stringBody quote false (cs.length + 1) [] cs).map fun (s, rest) => (.quoted s false, rest)

/-! ## Tokens -/

namespace Token

/-- The token that starts with a character. -/
def scanFrom (c : Char) (rest : List Char) : Option (Token × List Char) :=
  if isBlank c then some (.blank (c :: rest.takeWhile isBlank), rest.dropWhile isBlank)
  else if isWordChar c then some (.word (c :: rest.takeWhile isWordChar), rest.dropWhile isWordChar)
  else if c = quoteMark || c = apostrophe then scanString c rest
  else match c with
    | '\n' => some (.newline, rest)
    | '#' => some (.comment, rest.dropWhile isCommentChar)
    | '=' => some (.equals, rest)
    | '.' => some (.period, rest)
    | ',' => some (.comma, rest)
    | ':' => some (.colon, rest)
    | '+' => some (.plus, rest)
    | '\x7b' => some (.openBrace, rest)
    | '\x7d' => some (.closeBrace, rest)
    | '[' => some (.openBracket, rest)
    | ']' => some (.closeBracket, rest)
    | _ => none

def scanAll : Nat → List Char → Option (List Token)
  | _, [] => some []
  | 0, _ => none
  | fuel + 1, c :: rest => do
    let (token, rest) ← scanFrom c rest
    return token :: (← scanAll fuel rest)

/-- The tokens of a text, which may start with a byte order mark. -/
def ofText? (text : String) : Option (List Token) :=
  let cs := match text.toList with
    | '\ufeff' :: rest => rest
    | cs => cs
  let cs := unifyNewlines cs
  scanAll cs.length cs

end Token

end ModelCount.Toml
