/-
Streams of bits kept in 32-bit words. A value is written with its least significant bit first, and
the first bit of the stream is the least significant one of the first word.
-/
import ModelCount.Packing.Error

namespace ModelCount

/-- The number of bits of a word. -/
def wordBits : Nat := 32

/-- The number of values of a word. -/
def wordSize : Nat := 1 <<< wordBits

/-! ## Writing -/

structure BitWriter where
  words : Array UInt32 := #[]
  /-- The bits used in the last word, 0 if it is full. -/
  endBits : Nat := 0
  deriving DecidableEq, Repr

namespace BitWriter

instance : Inhabited BitWriter := ⟨{}⟩

/-- Appends the bits of a value; no width is above the size of a word. A value that needs more bits
is refused. What the last word has no room for goes to the next one. -/
def write (w : BitWriter) (value bits : Nat) : Except PackError BitWriter :=
  if 1 <<< bits ≤ value then .error (.valueTooWide value bits)
  else if bits = 0 then .ok w
  else
    let words := if w.endBits = 0 then w.words.push 0 else w.words
    let last := words.size - 1
    let words := words.setIfInBounds last (words.getD last 0 ||| UInt32.ofNat (value <<< w.endBits))
    let stop := w.endBits + bits
    if wordBits < stop then
      .ok ⟨words.push (UInt32.ofNat (value >>> (wordBits - w.endBits))), stop - wordBits⟩
    else .ok ⟨words, stop % wordBits⟩

/-- Appends several values of one width. -/
def writeAll (w : BitWriter) (values : List Nat) (bits : Nat) : Except PackError BitWriter :=
  values.foldlM (fun w value => w.write value bits) w

/-- All bits in words; what is not used of the last one is zero. -/
def finish (w : BitWriter) : Array UInt32 := w.words

end BitWriter

/-! ## Reading -/

structure BitReader where
  words : Array UInt32
  position : Nat := 0
  deriving DecidableEq, Repr

namespace BitReader

/-- A word of the stream as a number. -/
def word (r : BitReader) (i : Nat) : Nat := (r.words.getD i 0).toNat

/-- The bits from `offset` on of a word, and of the next one where they reach into it. Bits shifted beyond a word
are lost. -/
def extract (low high offset bits : Nat) : Nat :=
  let taken := wordBits - offset
  let value := if taken < bits then low >>> offset ||| high <<< taken % wordSize else low >>> offset
  if bits < wordBits then value &&& (1 <<< bits - 1) else value

/-- The next bits as a value; no width is above the size of a word. A reader does not get beyond its words, so
reading no bits does not fail. -/
def read (r : BitReader) (bits : Nat) : Except PackError (Nat × BitReader) :=
  if r.words.size * wordBits < r.position + bits then .error .unexpectedEnd
  else if bits = 0 then .ok (0, r)
  else
    let i := r.position / wordBits
    .ok (extract (r.word i) (r.word (i + 1)) (r.position % wordBits) bits, { r with position := r.position + bits })

end BitReader

/-! ## Several operations in a row -/

/-- Writes one value after the other and goes on behind a refused one. The results come with the
writer that holds the values written. -/
def BitWriter.writeEach (w : BitWriter) : List (Nat × Nat) → List (Except PackError Unit) × BitWriter
  | [] => ([], w)
  | (value, bits) :: rest =>
    match w.write value bits with
    | .ok w =>
      let (results, w) := w.writeEach rest
      (.ok () :: results, w)
    | .error e =>
      let (results, w) := w.writeEach rest
      (.error e :: results, w)

/-- Reads one value after the other; a failed read does not advance. -/
def BitReader.readEach (r : BitReader) : List Nat → List (Except PackError Nat)
  | [] => []
  | bits :: rest =>
    match r.read bits with
    | .ok (value, r) => .ok value :: r.readEach rest
    | .error e => .error e :: r.readEach rest

end ModelCount
