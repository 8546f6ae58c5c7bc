import OutputDescriptor.Derivation.Index
import OutputDescriptor.Token

/-!
Parsing tokens.

A parser consumes tokens from the front of a list. When it fails, the list stays where the failure
was found; `attempt` puts it back. Of several alternatives that all fail, the one that came furthest
tells the reason, unless none got past the first token: then the place as a whole is at fault.
-/

namespace OutputDescriptor

/-- Where a parser failed: at the bytes of a token, or behind the last one. -/
inductive Position
  | span (start stop : Nat)
  | endOfInput
deriving DecidableEq

namespace Position

def isBeyond : Position → Position → Bool
  | endOfInput, span _ _ => true
  | span start _, span start' _ => start' < start
  | _, endOfInput => false

def text : Position → String
  | span start stop => s!"position {start}..{stop}"
  | endOfInput => "the end of input"

end Position

/-- What a place of the text calls for. -/
inductive Expected
  | token (kind : TokenKind)
  | descriptor
  | insideWsh
  | insideSh
  | key
  | nextKey
  | threshold
  | fingerprint
  | fingerprintBytes
  | index
deriving DecidableEq

def Expected.text : Expected → String
  | token kind => kind.name
  | descriptor => "descriptor"
  | insideWsh => "`pk`, `pkh`, `multi` or `sortedmulti` inside `wsh`"
  | insideSh => "`pk`, `pkh`, `wpkh`, `wsh`, `multi` or `sortedmulti` inside `sh`"
  | key => "key"
  | nextKey => "`,` followed by a key"
  | threshold => "multisig threshold"
  | fingerprint => "key fingerprint"
  | fingerprintBytes => "4-byte key fingerprint"
  | index => "derivation index"

/-- The largest number of keys in a multisig script. -/
def maxMultisigKeys : Nat := 20

inductive ParseReason
  | expected (what : Expected)
  | trailing (kind : TokenKind)
  | taproot
  | oddHex
  | publicKeyLength
  | invalidPublicKey
  | wildcardInOrigin
  | wildcardNotLast
  | indexOutOfRange (index : Nat)
  | tooManyKeys (count : Nat)
  | thresholdOutOfRange (threshold count : Nat)
  | path (error : PathError)
  /-- A step past the last token, which no parser takes. -/
  | overrun
deriving DecidableEq

def ParseReason.message : ParseReason → String
  | expected what => s!"expected {what.text}"
  | trailing kind => s!"unexpected {kind.name} after the end of descriptor"
  | taproot => "taproot descriptors are not supported"
  | oddHex => "hex data must have even number of digits"
  | publicKeyLength => "public key must be 33 or 65 bytes long"
  | invalidPublicKey => "invalid public key"
  | wildcardInOrigin => "key origin can't contain a wildcard"
  | wildcardNotLast => "wildcard must be the last derivation step"
  | indexOutOfRange index => s!"derivation index {index} is out of range"
  | tooManyKeys count =>
    s!"multisig can't have more than {maxMultisigKeys} keys, while {count} keys are given"
  | thresholdOutOfRange threshold count =>
    s!"multisig threshold {threshold} must be between 1 and the number of keys ({count})"
  | path error => error.message
  | overrun => "no token is left"

structure ParseError where
  reason : ParseReason
  position : Position
deriving DecidableEq

def ParseError.message (error : ParseError) : String :=
  s!"{error.reason.message} at {error.position.text}."

abbrev Parser (α : Type) := ExceptT ParseError (StateM (List Token)) α

namespace Parser

variable {α : Type}

def peek : Parser (Option Token) := do
  return (← get).head?

/-- Whether the next token is of a kind. -/
def peekIs (kind : TokenKind) : Parser Bool := do
  return (← peek).any fun token => token.lexeme.kind == kind

def position : Parser Position := do
  match ← peek with
  | some token => return .span token.start token.stop
  | none => return .endOfInput

/-- Fails at the next token. -/
def fail (reason : ParseReason) : Parser α := do
  throw ⟨reason, ← position⟩

/-- Moves past the next token, and never past the end. -/
def advance : Parser Unit := do
  match ← get with
  | [] => fail .overrun
  | _ :: rest => set rest

/-- Fails at a token that has been consumed. -/
def failAt (token : Token) (reason : ParseReason) : Parser α :=
  throw ⟨reason, .span token.start token.stop⟩

/-- Consumes the next token, whatever it is. -/
def next (what : Expected) : Parser Token := do
  match ← peek with
  | some token => advance; return token
  | none => fail (.expected what)

def expect (kind : TokenKind) : Parser Token := do
  if ← peekIs kind then next (.token kind) else fail (.expected (.token kind))

/-- Consumes the next token if it is of a kind. -/
def accept (kind : TokenKind) : Parser Bool := do
  let found ← peekIs kind
  if found then advance
  return found

/-- A keyword with its argument in parentheses. -/
def call (keyword : Keyword) (argument : Parser α) : Parser α := do
  let _ ← expect (.keyword keyword)
  let _ ← expect (.delimiter .openParen)
  let value ← argument
  let _ ← expect (.delimiter .closeParen)
  return value

/-- On failure the tokens are as before. -/
def attempt (p : Parser α) : Parser α := fun tokens =>
  match p tokens with
  | (.ok value, rest) => (.ok value, rest)
  | (.error error, _) => (.error error, tokens)

/-- Of two failures the one that came further; the earlier one if they came equally far. -/
def further (earlier : Option ParseError) (later : ParseError) : ParseError :=
  match earlier with
  | some error => if later.position.isBeyond error.position then later else error
  | none => later

/-- The first parser that succeeds; `furthest` is the failure to report of those tried before. -/
def firstOf (what : Expected) (furthest : Option ParseError) : List (Parser α) → Parser α
  | [] => do
    let here ← position
    match furthest with
    | some error => if error.position = here then fail (.expected what) else throw error
    | none => fail (.expected what)
  | p :: ps => fun tokens =>
    match attempt p tokens with
    | (.ok value, rest) => (.ok value, rest)
    | (.error error, rest) => firstOf what (some (further furthest error)) ps rest

def alternatives (what : Expected) (ps : List (Parser α)) : Parser α :=
  firstOf what none ps

end Parser

end OutputDescriptor
