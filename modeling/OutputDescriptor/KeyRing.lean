import OutputDescriptor.Key.Arithmetic

/-!
Key rings: private keys kept to unlock public ones.

A ring answers for the public keys of its private keys, and for their direct children: a private key
that lies one level higher and has the fingerprint of the locked key's parent may derive it. Keys
stay in the order in which they came, each one once.
-/

namespace OutputDescriptor

structure KeyRing where
  keys : List Xprv
  nodup : keys.Nodup
deriving DecidableEq

namespace KeyRing

def empty : KeyRing := ⟨[], by simp⟩

def insert (ring : KeyRing) (key : Xprv) : KeyRing :=
  if h : key ∈ ring.keys then ring
  else
    ⟨ring.keys ++ [key], by
      rw [List.nodup_append]
      refine ⟨ring.nodup, by simp, ?_⟩
      intro a ha b hb hab
      obtain rfl := List.mem_singleton.mp hb
      exact h (hab ▸ ha)⟩

def insertAll (ring : KeyRing) (keys : List Xprv) : KeyRing :=
  keys.foldl insert ring

def ofList (keys : List Xprv) : KeyRing :=
  empty.insertAll keys

def isEmpty (ring : KeyRing) : Bool :=
  ring.keys.isEmpty

theorem mem_keys_insert {ring : KeyRing} {key key' : Xprv} :
    key' ∈ (ring.insert key).keys ↔ key' ∈ ring.keys ∨ key' = key := by
  unfold insert
  split
  · next h =>
    constructor
    · exact Or.inl
    · rintro (h' | rfl) <;> assumption
  · simp

variable [KeyArithmetic]

def fingerprints (ring : KeyRing) : List Fingerprint :=
  ring.keys.map fun key => (KeyArithmetic.publicKey key.key).fingerprint

/-- What a key of the ring has to offer for a locked key, going by what the two record. -/
def candidate? (key : Xprv) (locked : Xpub) : Option Xprv :=
  if key.depth = locked.depth then some key
  else if key.depth.toNat + 1 = locked.depth.toNat ∧
      (KeyArithmetic.publicKey key.key).fingerprint = locked.parent then
    key.child? locked.number
  else none

/-- The first offer that belongs to a locked key. -/
def unlock? (ring : KeyRing) (locked : Xpub) : Option Xprv :=
  ring.keys.findSome? fun key => (candidate? key locked).filter (·.unlocks locked)

/-- A ring as a source of private keys; an empty one is none. -/
def source? (ring : KeyRing) : Option KeySource :=
  if ring.isEmpty then none else some ring.unlock?

end KeyRing

end OutputDescriptor
