import OutputDescriptor.Key.Expression
import OutputDescriptor.Token

/-!
Output descriptors: trees that say how the scripts of a wallet are built from its keys.

The tree type is wider than the language of descriptors, which restricts what may stand inside
what; everything defined on trees is defined on all of them.
-/

namespace OutputDescriptor

inductive Descriptor
  | raw (script : Script)
  | pk (key : KeyExpression)
  | pkh (key : KeyExpression)
  | wpkh (key : KeyExpression)
  | combo (key : KeyExpression)
  | multi (threshold : Nat) (keys : List KeyExpression) (sorted : Bool)
  | wsh (inner : Descriptor)
  | sh (inner : Descriptor)
  | addr (address : Address)
deriving DecidableEq

namespace Descriptor

def keys : Descriptor → List KeyExpression
  | raw _ => []
  | pk key => [key]
  | pkh key => [key]
  | wpkh key => [key]
  | combo key => [key]
  | multi _ keys _ => keys
  | wsh inner => inner.keys
  | sh inner => inner.keys
  | addr _ => []

/-- Whether some key leaves a step to the caller. -/
def isRanged (descriptor : Descriptor) : Bool :=
  descriptor.keys.any KeyExpression.isRanged

def hasPrivateKeys (descriptor : Descriptor) : Bool :=
  descriptor.keys.any KeyExpression.isPrivate

def isCombo : Descriptor → Bool
  | combo _ => true
  | _ => false

/-- A function call in the language of descriptors. -/
def call (keyword : Keyword) (argument : List Char) : List Char :=
  keyword.text ++ '(' :: argument ++ [')']

/-- The written form, without a checksum. -/
def text : Descriptor → List Char
  | raw script => call .raw (Bytes.toHex script)
  | pk key => call .pk key.text
  | pkh key => call .pkh key.text
  | wpkh key => call .wpkh key.text
  | combo key => call .combo key.text
  | multi threshold keys sorted =>
    call (if sorted then .sortedmulti else .multi)
      (Nat.toDigits 10 threshold ++ keys.flatMap fun key => ',' :: key.text)
  | wsh inner => call .wsh inner.text
  | sh inner => call .sh inner.text
  | addr address => call .addr address.text

/-- The same tree with every key made public. -/
def toPublic [KeyArithmetic] : Descriptor → Descriptor
  | raw script => raw script
  | pk key => pk key.toPublic
  | pkh key => pkh key.toPublic
  | wpkh key => wpkh key.toPublic
  | combo key => combo key.toPublic
  | multi threshold keys sorted => multi threshold (keys.map KeyExpression.toPublic) sorted
  | wsh inner => wsh inner.toPublic
  | sh inner => sh inner.toPublic
  | addr address => addr address

theorem keys_toPublic [KeyArithmetic] (descriptor : Descriptor) :
    descriptor.toPublic.keys = descriptor.keys.map KeyExpression.toPublic := by
  induction descriptor <;> simp_all [toPublic, keys]

end Descriptor

end OutputDescriptor
