import OutputDescriptor.Base58
import OutputDescriptor.Key.Curve
import OutputDescriptor.Network

/-!
Secret keys, bare and in the text form in which single keys are exchanged.

A secret key is a scalar of the curve's group other than zero. The text form names the network and
tells whether the public key is to be written compressed; of the byte that marks a compressed key
only the presence counts.
-/

namespace OutputDescriptor

structure SecretKey where
  value : Nat
  value_pos : 0 < value
  value_lt : value < Curve.groupOrder
deriving DecidableEq

namespace SecretKey

def ofNat? (n : Nat) : Option SecretKey :=
  if h : 0 < n ∧ n < Curve.groupOrder then some ⟨n, h.1, h.2⟩ else none

def toBytes (secret : SecretKey) : Bytes :=
  Bytes.bigEndian 32 secret.value

def ofBytes? (bytes : Bytes) : Option SecretKey :=
  ofNat? bytes.toNat

/-- A secret key reads back from its bytes. -/
theorem ofBytes?_toBytes (secret : SecretKey) : ofBytes? secret.toBytes = some secret := by
  have read : Bytes.toNat secret.toBytes = secret.value :=
    Bytes.toNat_bigEndian_of_lt (Nat.lt_trans secret.value_lt (by decide))
  simp [ofBytes?, ofNat?, read, secret.value_pos, secret.value_lt]

end SecretKey

/-- A secret key with what its text form tells besides. -/
structure WifKey where
  network : KeyNetwork
  compressed : Bool
  secret : SecretKey
deriving DecidableEq

namespace WifKey

def version : KeyNetwork → UInt8
  | .main => 128
  | .test => 239

def networkOf? (byte : UInt8) : Option KeyNetwork :=
  if byte = 128 then some .main else if byte = 239 then some .test else none

def text (key : WifKey) : List Char :=
  Base58.encodeGuarded
    (version key.network :: key.secret.toBytes ++ if key.compressed then [1] else [])

def parse? (text : List Char) : Option WifKey := do
  match ← Base58.decodeGuarded? text with
  | [] => none
  | byte :: rest =>
    if rest.length = 32 ∨ rest.length = 33 then
      let network ← networkOf? byte
      let secret ← SecretKey.ofBytes? (rest.take 32)
      some ⟨network, rest.length == 33, secret⟩
    else none

end WifKey

end OutputDescriptor
