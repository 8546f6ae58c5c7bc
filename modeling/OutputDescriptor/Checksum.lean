import OutputDescriptor.BchCode

/-!
The checksum of descriptor texts.

A text is turned into five bit symbols. The position of a character in an alphabet of 95 gives one
symbol by its low five bits; the rest of the position tells a class, and the classes of up to three
neighbours are packed into one more symbol, so that misspellings within a class change as few
symbols as possible. A checksum follows the text behind the character `#`.
-/

namespace OutputDescriptor

inductive ChecksumError
  | invalidChar (c : Char)
  | invalidLength (length : Nat)
  | mismatch (expected found : List Char)
deriving DecidableEq

def ChecksumError.message : ChecksumError → String
  | invalidChar c =>
    s!"descriptor contains character `{c}` which can't be covered by a checksum."
  | invalidLength length =>
    "descriptor checksum must be 8 characters long, " ++
      s!"while the provided one has {length} characters."
  | mismatch expected found =>
    s!"descriptor checksum mismatch: expected `{String.ofList expected}`, " ++
      s!"found `{String.ofList found}`."

namespace Checksum

def alphabet : List Char :=
  ("0123456789()[],'/*abcdefgh@:$%\x7b\x7d" ++ "IJKLMNOPQRSTUVWXYZ&+-.;<=>?!^_|~" ++
    "ijklmnopqrstuvwxyzABCDEFGH`#\"\\ ").toList

def code : BchCode 8 where
  generators := [0xf5dee51989, 0xa9fdca3312, 0x1bab10e32d, 0x3706b1677a, 0x644d626ffd]

def position (c : Char) : Except ChecksumError Nat :=
  match alphabet.idxOf? c with
  | some position => .ok position
  | none => .error (.invalidChar c)

def lowBits (position : Nat) : Symbol :=
  BitVec.ofNat 5 position

/-- The classes of neighbours as digits in base three. -/
def classes (positions : List Nat) : Symbol :=
  BitVec.ofNat 5 (positions.foldl (fun n position => 3 * n + position / 32) 0)

/-- The symbols of characters at the given positions of the alphabet. -/
def symbols : List Nat → List Symbol
  | [] => []
  | [a] => [lowBits a, classes [a]]
  | [a, b] => [lowBits a, lowBits b, classes [a, b]]
  | a :: b :: c :: rest =>
    lowBits a :: lowBits b :: lowBits c :: classes [a, b, c] :: symbols rest

/-- The checksum of a text. -/
def of (text : List Char) : Except ChecksumError (List Char) := do
  let positions ← text.mapM position
  .ok ((code.checksum 1 (symbols positions)).map Symbol.char)

/-- Takes a checksum off a text, if there is one, and checks it. -/
def verify (text : List Char) : Except ChecksumError (List Char) :=
  let body := text.takeWhile (· != '#')
  match text.dropWhile (· != '#') with
  | [] => .ok text
  | _ :: found => do
    if found.length ≠ 8 then .error (.invalidLength found.length)
    let expected ← of body
    if expected = found then .ok body else .error (.mismatch expected found)

end Checksum

end OutputDescriptor
