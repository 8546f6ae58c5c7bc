import OutputDescriptor.Token

/-!
Splitting a text into tokens.

At each place the first rule that fits decides. A rule takes the longest run of its characters and
fits only if the run as a whole means something, so that one run of letters and digits can be an
address, a key, hex digits or nothing at all. Nothing is skipped between tokens, and every character
of a token is a single byte, so positions count bytes.
-/

namespace OutputDescriptor

structure LexError where
  position : Nat
deriving DecidableEq

def LexError.message (error : LexError) : String :=
  "No tokenizer rule matches the source text at the given byte offset. " ++
    s!"unrecognized descriptor syntax at position {error.position}."

namespace Lexer

/-- A rule reads a lexeme off the front of a text and tells how many characters it took. -/
abbrev Rule := List Char → Option (Lexeme × Nat)

/-- The rule that takes the longest run of a class of characters. -/
def onRun (inClass : Char → Bool) (read? : List Char → Option Lexeme) : Rule := fun text =>
  let run := text.takeWhile inClass
  if run.isEmpty then none else (read? run).map (·, run.length)

/-- Such a rule takes exactly its run, and never nothing. -/
theorem onRun_eq_some {inClass : Char → Bool} {read? : List Char → Option Lexeme}
    {text : List Char} {lexeme : Lexeme} {length : Nat}
    (h : onRun inClass read? text = some (lexeme, length)) :
    read? (text.takeWhile inClass) = some lexeme ∧ length = (text.takeWhile inClass).length ∧
      0 < length := by
  simp only [onRun] at h
  split at h
  · simp at h
  · next hne =>
    simp only [Option.map_eq_some_iff, Prod.mk.injEq] at h
    obtain ⟨_, hread, rfl, rfl⟩ := h
    exact ⟨hread, rfl, List.length_pos_iff.mpr (by simpa using hne)⟩

def isHexDigit (c : Char) : Bool :=
  (Bytes.hexValue? c).isSome

def isBase58 (c : Char) : Bool :=
  (Base58.digit? c).isSome

def delimiter : Rule
  | [] => none
  | c :: _ => (Delimiter.ofChar? c).map (.delimiter ·, 1)

def keyword : Rule :=
  onRun Char.isLower fun run => (Keyword.ofText? run).map .keyword

def address : Rule :=
  onRun Char.isAlphanum fun run => (Address.parse? run).map .address

def wif : Rule :=
  onRun isBase58 fun run => (WifKey.parse? run).map .wif

def extendedKey : Rule :=
  onRun isBase58 fun run => (ExtendedKey.parse? run).map .extendedKey

def hex : Rule :=
  onRun isHexDigit fun run => if 2 ≤ run.length then some (.hex run) else none

def integer : Rule :=
  onRun Char.isDigit fun run =>
    let value := Nat.ofDigitChars 10 run 0
    if value < 0x10000000000000000 then some (.integer value) else none

/-- A hardened marker stands behind an index only. -/
def hardenedMarker (previous : Option Lexeme) : Rule
  | [] => none
  | c :: _ =>
    if (c == 'h' || c == '\'') && previous.any Lexeme.isIndex then some (.hardenedMarker, 1)
    else none

/-- The rules in the order in which they are tried, given the lexeme in front. -/
def rules (previous : Option Lexeme) : List Rule :=
  [delimiter, keyword, address, wif, extendedKey, hex, integer, hardenedMarker previous]

def lexeme? (previous : Option Lexeme) (text : List Char) : Option (Lexeme × Nat) :=
  (rules previous).findSome? (· text)

/-- The tokens of a text whose first `skip` characters belong to the previous lexeme; the one behind
them stands at `position`. -/
def scan (position : Nat) (previous : Option Lexeme) :
    (skip : Nat) → List Char → Except LexError (List Token)
  | _, [] => .ok []
  | skip + 1, _ :: text => scan position previous skip text
  | 0, c :: text =>
    match lexeme? previous (c :: text) with
    | none => .error ⟨position⟩
    | some (lexeme, length) => do
      let tokens ← scan (position + length) (some lexeme) (length - 1) text
      .ok (⟨lexeme, position, position + length⟩ :: tokens)

end Lexer

def tokenize (text : List Char) : Except LexError (List Token) :=
  Lexer.scan 0 none 0 text

end OutputDescriptor
