import OutputDescriptor.Descriptor
import OutputDescriptor.Key.Parser

/-!
Parsing descriptors.

The language allows `wsh` inside `sh`, and the scripts of single keys and of several keys inside
either; everything else stands alone.
-/

namespace OutputDescriptor.Parser

def raw : Parser Descriptor :=
  call .raw do
    let token ← expect .hex
    match token.lexeme.data? with
    | some bytes => return .raw bytes
    | none => failAt token .oddHex

def pk : Parser Descriptor := .pk <$> call .pk key

def pkh : Parser Descriptor := .pkh <$> call .pkh key

def wpkh : Parser Descriptor := .wpkh <$> call .wpkh key

def combo : Parser Descriptor := .combo <$> call .combo key

/-- Keys with a comma in front of each; there are at most as many as tokens. -/
def multisigKeys : (count : Nat) → Parser (List KeyExpression)
  | 0 => return []
  | count + 1 => do
    if ← accept (.delimiter .comma) then
      let key ← key
      return key :: (← multisigKeys count)
    else return []

def multi : Parser Descriptor := do
  let sorted ← peekIs (.keyword .sortedmulti)
  call (if sorted then .sortedmulti else .multi) do
    let token ← next .threshold
    match token.lexeme.integer? with
    | none => failAt token (.expected .threshold)
    | some threshold =>
      let keys ← multisigKeys (← get).length
      if keys.isEmpty then fail (.expected .nextKey)
      if maxMultisigKeys < keys.length then failAt token (.tooManyKeys keys.length)
      if threshold = 0 ∨ keys.length < threshold then
        failAt token (.thresholdOutOfRange threshold keys.length)
      return .multi threshold keys sorted

def wsh : Parser Descriptor :=
  .wsh <$> call .wsh (alternatives .insideWsh [pk, pkh, multi])

def sh : Parser Descriptor :=
  .sh <$> call .sh (alternatives .insideSh [pk, pkh, wpkh, wsh, multi])

def addr : Parser Descriptor :=
  call .addr do
    let token ← expect .address
    match token.lexeme with
    | .address address => return .addr address
    | _ => failAt token (.expected (.token .address))

def descriptor : Parser Descriptor := do
  if ← peekIs (.keyword .tr) then fail .taproot
  alternatives .descriptor [raw, pk, pkh, wpkh, multi, wsh, sh, addr, combo]

/-- A descriptor with nothing behind it. -/
def wholeDescriptor : Parser Descriptor := do
  let descriptor ← descriptor
  match ← peek with
  | some token => failAt token (.trailing token.lexeme.kind)
  | none => return descriptor

end OutputDescriptor.Parser

namespace OutputDescriptor.Descriptor

def ofTokens (tokens : List Token) : Except ParseError Descriptor :=
  (Parser.wholeDescriptor tokens).1

end OutputDescriptor.Descriptor
