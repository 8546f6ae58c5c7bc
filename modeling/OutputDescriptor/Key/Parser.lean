import OutputDescriptor.Key.Expression
import OutputDescriptor.Parser

/-!
Parsing key expressions.

In front there may be an origin in brackets: a fingerprint and steps without a wildcard. The key is a
public key in hex digits, a secret key, or an extended key with steps, of which only the last may be
a wildcard. Digits are read as an index or as bytes, whichever the place calls for.
-/

namespace OutputDescriptor.Parser

/-- Fails at the next token if a path is refused. -/
def ofPath (path : Except PathError Path) : Parser Path :=
  match path with
  | .ok path => return path
  | .error error => fail (.path error)

/-- One step of a path, with the token of its index. -/
def step : Parser (Step × Token) := do
  let _ ← expect (.delimiter .slash)
  let token ← next .index
  let index ←
    if token.lexeme = .delimiter .asterisk then pure StepIndex.wildcard
    else
      match token.lexeme.integer? with
      | none => failAt token (.expected .index)
      | some value =>
        match ChildIndex.ofNat? value with
        | none => failAt token (.indexOutOfRange value)
        | some index => pure (.concrete index)
  let hardened ← accept .hardenedMarker
  return (⟨index, hardened⟩, token)

/-- The steps of a key origin; each takes a token, so there are at most as many as tokens. -/
def originSteps : (count : Nat) → Parser (List Step)
  | 0 => return []
  | count + 1 => do
    if !(← peekIs (.delimiter .slash)) then return []
    let (step, token) ← step
    if step.isWildcard then failAt token .wildcardInOrigin
    return step :: (← originSteps count)

/-- The path in brackets in front of a key. -/
def origin : Parser Path := do
  let _ ← expect (.delimiter .openBracket)
  let token ← next .fingerprint
  match token.lexeme.data? with
  | none => failAt token (.expected .fingerprintBytes)
  | some bytes =>
    if h : bytes.length = 4 then do
      let steps ← originSteps (← get).length
      let _ ← expect (.delimiter .closeBracket)
      ofPath (Path.keyOrigin ⟨bytes, h⟩ steps)
    else failAt token (.expected .fingerprintBytes)

/-- The steps behind an extended key, none of which may follow a wildcard. -/
def childSteps (afterWildcard : Bool) : (count : Nat) → Parser (List Step)
  | 0 => return []
  | count + 1 => do
    if !(← peekIs (.delimiter .slash)) then return []
    let (step, token) ← step
    if afterWildcard then failAt token .wildcardNotLast
    return step :: (← childSteps step.isWildcard count)

def children : Parser Path := do
  let steps ← childSteps false (← get).length
  ofPath (Path.children steps)

/-- The public key meant by hex digits. -/
def publicKey (token : Token) : Parser PublicKey :=
  match token.lexeme.data? with
  | none => failAt token .oddHex
  | some bytes =>
    if bytes.length = 33 ∨ bytes.length = 65 then
      match PublicKey.ofBytes? bytes with
      | some key => return key
      | none => failAt token .invalidPublicKey
    else failAt token .publicKeyLength

def key : Parser KeyExpression := do
  let origin ←
    if ← peekIs (.delimiter .openBracket) then some <$> origin else pure none
  let token ← next .key
  let key ← match token.lexeme with
    | .hex _ => Key.literal <$> publicKey token
    | .wif key => pure (.wif key)
    | .extendedKey key => Key.extended key <$> children
    | _ => failAt token (.expected .key)
  return ⟨origin, key⟩

end OutputDescriptor.Parser
