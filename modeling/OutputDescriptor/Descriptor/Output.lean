import OutputDescriptor.Descriptor
import OutputDescriptor.Address

/-!
The output scripts of descriptors.

Each node turns the scripts or keys below it into a script, and there is none as soon as a key cannot
be resolved. A `combo` stands for four kinds of outputs at once, of which the caller selects one.
-/

namespace OutputDescriptor

namespace Script

/-- The output that pays to the hash of a script, itself not a witness output. -/
def redeemedBy (script : Script) : Script :=
  payToScriptHash (Hash.hash160 script)

/-- The witness output that pays to the hash of a script. -/
def witnessedBy (script : Script) : Script :=
  payToWitness 0 (Hash.sha256 script)

end Script

namespace PublicKey

def keyScript (key : PublicKey) : Script :=
  Script.payToPublicKey key.toBytes

def keyHashScript (key : PublicKey) : Script :=
  Script.payToPublicKeyHash (Hash.hash160 key.toBytes)

/-- The witness output of a key, which has to be compressed. -/
def witnessScript? (key : PublicKey) : Option Script :=
  if key.isCompressed then some (Script.payToWitness 0 (Hash.hash160 key.toBytes)) else none

end PublicKey

/-- One of the outputs that a `combo` stands for. -/
inductive ComboSelector
  | pk
  | pkh
  | wpkh
  | shWpkh
deriving DecidableEq

namespace ComboSelector

def all : List ComboSelector := [pk, pkh, wpkh, shWpkh]

def text : ComboSelector → List Char
  | pk => ['p', 'k']
  | pkh => ['p', 'k', 'h']
  | wpkh => ['w', 'p', 'k', 'h']
  | shWpkh => ['s', 'h', '-', 'w', 'p', 'k', 'h']

/-- The small form of a character, as far as that is an ASCII letter: apart from the capitals only
the Kelvin sign has one. -/
def smallLetter (c : Char) : Char :=
  if c = '\u212a' then 'k' else c.toLower

/-- Reads a selector, in small letters or capitals. -/
def ofText? (text : List Char) : Option ComboSelector :=
  all.find? fun selector => selector.text == text.map smallLetter

def unknownMessage (text : List Char) : String :=
  s!"unknown combo output selector `{String.ofList text}`; " ++
    "expected one of `pk`, `pkh`, `wpkh` and `sh-wpkh`."

/-- The selected output of a key. -/
def script? (key : PublicKey) : ComboSelector → Option Script
  | pk => some key.keyScript
  | pkh => some key.keyHashScript
  | wpkh => key.witnessScript?
  | shWpkh => key.witnessScript?.map Script.redeemedBy

end ComboSelector

namespace Descriptor

variable [KeyArithmetic]

/-- The script of a descriptor. A `combo` needs a selector, which no other node looks at. -/
def script? (choice : Option Nat) (source : Option KeySource) (selector : Option ComboSelector) :
    Descriptor → Option Script
  | raw script => some script
  | pk key => (key.resolve? choice source).map PublicKey.keyScript
  | pkh key => (key.resolve? choice source).map PublicKey.keyHashScript
  | wpkh key => (key.resolve? choice source).bind PublicKey.witnessScript?
  | combo key => do
    let selector ← selector
    selector.script? (← key.resolve? choice source)
  | multi threshold keys sorted => do
    let keys ← keys.mapM fun key => (key.resolve? choice source).map PublicKey.toBytes
    let keys := if sorted then keys.mergeSort (· ≤ ·) else keys
    some (Script.multisig ((threshold : Int).bmod 0x10000000000000000) keys)
  | wsh inner => (inner.script? choice source selector).map Script.witnessedBy
  | sh inner => (inner.script? choice source selector).map Script.redeemedBy
  | addr address => some address.script

/-- All scripts that a descriptor stands for. -/
def scripts (choice : Option Nat) (source : Option KeySource) (descriptor : Descriptor) :
    List Script :=
  if descriptor.isCombo then
    ComboSelector.all.filterMap fun selector => descriptor.script? choice source (some selector)
  else
    (descriptor.script? choice source none).toList

def address? (network : Network) (choice : Option Nat) (source : Option KeySource)
    (descriptor : Descriptor) : Option Address :=
  (descriptor.script? choice source none).bind (Address.ofScript? network)

end Descriptor

end OutputDescriptor
