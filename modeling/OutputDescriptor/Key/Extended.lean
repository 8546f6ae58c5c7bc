import OutputDescriptor.Derivation.Origin
import OutputDescriptor.Hash
import OutputDescriptor.Key.Public
import OutputDescriptor.Key.Secret

/-!
Extended keys: a key with the chain code from which its children follow.

Besides, an extended key records the network, how deep below its master key it lies, its parent's
fingerprint and its own child number. Public and private ones share this record and the layout of
their texts, and differ in the key inside and in the version bytes.
-/

namespace OutputDescriptor

abbrev ChainCode := ByteBlock 32

def Point.fingerprint (point : Point) : Fingerprint :=
  ⟨(Hash.hash160 point.toBytes).take 4, by simp⟩

structure Extended (K : Type) where
  network : KeyNetwork
  depth : UInt8
  parent : Fingerprint
  number : ChildNumber
  chainCode : ChainCode
  key : K
deriving DecidableEq

abbrev Xpub := Extended Point

abbrev Xprv := Extended SecretKey

/-- What the texts of public and of private extended keys do not share. -/
structure ExtendedFormat (K : Type) where
  version : KeyNetwork → Bytes
  write : K → Bytes
  read? : Bytes → Option K

namespace ExtendedFormat

variable {K : Type}

def networkOf? (format : ExtendedFormat K) (bytes : Bytes) : Option KeyNetwork :=
  [KeyNetwork.main, .test].find? fun network => format.version network == bytes

def text (format : ExtendedFormat K) (key : Extended K) : List Char :=
  Base58.encodeGuarded <|
    format.version key.network ++ [key.depth] ++ key.parent.val ++
      Bytes.bigEndian 4 key.number.toNat ++ key.chainCode.val ++ format.write key.key

def ofPayload? (format : ExtendedFormat K) (payload : Bytes) : Option (Extended K) :=
  if h : payload.length = 78 then do
    let network ← format.networkOf? (payload.take 4)
    let key ← format.read? (payload.drop 45)
    some {
      network, key
      depth := payload.getD 4 0
      parent := ⟨(payload.drop 5).take 4, by simp [h]⟩
      number := .ofNat (Bytes.toNat ((payload.drop 9).take 4))
      chainCode := ⟨(payload.drop 13).take 32, by simp [h]⟩ }
  else none

def parse? (format : ExtendedFormat K) (text : List Char) : Option (Extended K) := do
  format.ofPayload? (← Base58.decodeGuarded? text)

end ExtendedFormat

namespace Xpub

def format : ExtendedFormat Point where
  version
    | .main => [0x04, 0x88, 0xb2, 0x1e]
    | .test => [0x04, 0x35, 0x87, 0xcf]
  write := Point.toBytes
  read? := Point.ofBytes?

def text (key : Xpub) : List Char := format.text key

def parse? (text : List Char) : Option Xpub := format.parse? text

end Xpub

namespace Xprv

/-- A secret key is one byte short of the room for a point; the byte in front is not looked at. -/
def format : ExtendedFormat SecretKey where
  version
    | .main => [0x04, 0x88, 0xad, 0xe4]
    | .test => [0x04, 0x35, 0x83, 0x94]
  write secret := 0 :: secret.toBytes
  read? bytes := SecretKey.ofBytes? (bytes.drop 1)

def text (key : Xprv) : List Char := format.text key

def parse? (text : List Char) : Option Xprv := format.parse? text

end Xprv

inductive ExtendedKey
  | xpub (key : Xpub)
  | xprv (key : Xprv)
deriving DecidableEq

namespace ExtendedKey

def isPrivate : ExtendedKey → Bool
  | xpub _ => false
  | xprv _ => true

def text : ExtendedKey → List Char
  | xpub key => key.text
  | xprv key => key.text

def parse? (text : List Char) : Option ExtendedKey :=
  ((Xpub.parse? text).map xpub).or ((Xprv.parse? text).map xprv)

end ExtendedKey

end OutputDescriptor
