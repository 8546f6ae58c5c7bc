import OutputDescriptor.Derivation.Path
import OutputDescriptor.Key.Arithmetic

/-!
Key expressions: the keys of a descriptor, each with the path that tells where it came from.

An expression resolves to one public key. An extended key resolves to a descendant, which may depend
on the caller's choice for a wildcard and on a source of private keys.
-/

namespace OutputDescriptor

inductive Key
  | literal (key : PublicKey)
  | wif (key : WifKey)
  | extended (key : ExtendedKey) (children : Path)
deriving DecidableEq

structure KeyExpression where
  origin : Option Path
  key : Key
deriving DecidableEq

namespace Key

def isPrivate : Key → Bool
  | literal _ => false
  | wif _ => true
  | extended key _ => key.isPrivate

def isRanged : Key → Bool
  | extended _ children => children.isRanged
  | _ => false

def render (marker : HardenedMarker) : Key → List Char
  | literal key => Bytes.toHex key.toBytes
  | wif key => key.text
  | extended key children => key.text ++ children.render marker

variable [KeyArithmetic]

/-- The same key without its secret. -/
def toPublic : Key → Key
  | literal key => literal key
  | wif key => literal (.compressed (KeyArithmetic.publicKey key.secret))
  | extended key children => extended (.xpub key.neuter) children

/-- The public key that stands for a key in a script. That of a secret key is compressed. -/
def resolve? (choice : Option Nat) (source : Option KeySource) : Key → Option PublicKey
  | literal key => some key
  | wif key => some (.compressed (KeyArithmetic.publicKey key.secret))
  | extended key children =>
    (key.descendant? choice source children.steps).map fun key => .compressed key.neuter.key

end Key

namespace KeyExpression

def isPrivate (expr : KeyExpression) : Bool := expr.key.isPrivate

def isRanged (expr : KeyExpression) : Bool := expr.key.isRanged

/-- The marker is used in the path behind the key; the path in front always has the letter. -/
def render (marker : HardenedMarker) (expr : KeyExpression) : List Char :=
  let front := match expr.origin with
    | some origin => '[' :: origin.text ++ [']']
    | none => []
  front ++ expr.key.render marker

def text (expr : KeyExpression) : List Char :=
  expr.render .letter

variable [KeyArithmetic]

def toPublic (expr : KeyExpression) : KeyExpression :=
  { expr with key := expr.key.toPublic }

def resolve? (choice : Option Nat) (source : Option KeySource) (expr : KeyExpression) :
    Option PublicKey :=
  expr.key.resolve? choice source

end KeyExpression

end OutputDescriptor
