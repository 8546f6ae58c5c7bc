import OutputDescriptor.Hash.Sha256
import OutputDescriptor.Hash.Sha512
import OutputDescriptor.Hash.Ripemd160

/-!
The compound hashes of the payment system: SHA-256 applied twice guards texts against misspelling,
RIPEMD-160 of SHA-256 names keys and scripts, and HMAC-SHA-512 derives child keys.
-/

namespace OutputDescriptor.Hash

def doubleSha256 (message : Bytes) : Bytes :=
  sha256 (sha256 message)

def hash160 (message : Bytes) : Bytes :=
  ripemd160 (sha256 message)

/-- SHA-512 of a message under a key: the key, filled up to a block, masks an inner and an outer
pass. A key longer than a block is replaced by its digest. -/
def hmacSha512 (key message : Bytes) : Bytes :=
  let key := if key.length ≤ 128 then key else sha512 key
  let block := key ++ List.replicate (128 - key.length) 0
  sha512 (block.map (· ^^^ 0x5c) ++ sha512 (block.map (· ^^^ 0x36) ++ message))

@[simp] theorem length_hash160 (message : Bytes) : (hash160 message).length = 20 := by
  simp [hash160]

@[simp] theorem length_hmacSha512 (key message : Bytes) : (hmacSha512 key message).length = 64 := by
  simp [hmacSha512]

end OutputDescriptor.Hash
