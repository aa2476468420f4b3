/-
The numbers of TOML. Underscores may stand between digits, a decimal integer has no leading zero,
and an integer takes 64 bits with its sign. Numbers of this kind belong to the outer layer, as documents do.
-/
import ModelCount.Toml.Token

namespace ModelCount.Toml

/-- The value of a digit in a radix. -/
def digit? (radix : Nat) (c : Char) : Option Nat := (hexDigit? c).filter fun d => decide (d < radix)

/-- Reads digits with single underscores between them. `zeros` allows a leading zero before other
digits. The answer is the digits and what follows them. -/
def digitsFrom (radix : Nat) (zeros : Bool) : (first leadingZero underscore : Bool) → List Nat →
    List Char → Option (List Nat × List Char)
  | first, _, underscore, ds, [] => if first || underscore then none else some (ds.reverse, [])
  | first, leadingZero, underscore, ds, c :: rest =>
    match digit? radix c with
    | some d =>
      if leadingZero && !zeros then none
      else digitsFrom radix zeros false (first && d == 0) false (d :: ds) rest
    | none =>
      if first then none
      else if underscore then none
      else if c = '_' then digitsFrom radix zeros false leadingZero true ds rest
      else some (ds.reverse, c :: rest)

def digits (radix : Nat) (zeros : Bool) (cs : List Char) : Option (List Nat × List Char) :=
  digitsFrom radix zeros true false false [] cs

def ofDigits (radix : Nat) (ds : List Nat) : Nat := ds.foldl (fun n d => radix * n + d) 0

/-- An optional sign, and whether it is a minus. -/
def splitSign : List Char → Bool × List Char
  | '-' :: rest => (true, rest)
  | '+' :: rest => (false, rest)
  | rest => (false, rest)

/-- An integer that makes up the whole text. Only decimal ones have a sign. -/
def integer? (radix : Nat) (cs : List Char) : Option Int := do
  let (negative, cs) := if radix = 10 then splitSign cs else (false, cs)
  let (ds, rest) ← digits radix (radix != 10) cs
  if !rest.isEmpty then failure
  let n : Int := ofDigits radix ds
  let n := if negative then -n else n
  if Int64.minValue.toInt ≤ n ∧ n ≤ Int64.maxValue.toInt then return n else failure

/-- Whether `m · 10 ^ e` is too large for a double: it is not below the middle between the largest
double and the next power of two. -/
def overflowsDouble (m : Nat) (e : Int) : Bool :=
  if m = 0 then false
  else if 400 < e then true
  else
    let limit := (1 <<< 1024) - (1 <<< 970)
    if 0 ≤ e then decide (limit ≤ m * Nat.pow 10 e.toNat)
    else decide (limit ≤ m / Nat.pow 10 (min (-e).toNat (m.log2 + 1)))

end ModelCount.Toml
