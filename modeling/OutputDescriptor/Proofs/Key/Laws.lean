import OutputDescriptor.Key.Expression
import OutputDescriptor.Key.Secp256k1

/-!
Laws of key arithmetic.

What is proved about descriptors over an arbitrary arithmetic names the laws that it needs. That a
child's secret and chain code follow from nothing but its parent's and from the child number is no
law: the interface hands over nothing else. `oneChain` has the laws of derivation. It knows four
keys, a root, its first hardened child, the second normal child of that one and the third hardened
child of that one in turn, with the numbers of the arithmetic in use, and cannot derive anything
else. Of any arithmetic, `unfailing` makes one that never fails, by taking a key for its own child
where there is none; `endlessChain` is what it makes of `oneChain`. `oneKey` takes every secret for
the secret one and has all of its points on the curve.
-/

namespace OutputDescriptor

namespace KeyArithmetic

/-- Distinct secrets have distinct public keys. -/
def PublicKeyInjective (arithmetic : KeyArithmetic) : Prop :=
  ∀ a b, arithmetic.publicKey a = arithmetic.publicKey b → a = b

/-- A normal child is the same from the secret and from the point of its parent, or there is none
from either. -/
def NormalChildrenAgree (arithmetic : KeyArithmetic) : Prop :=
  ∀ secret chainCode index,
    arithmetic.childPoint? (arithmetic.publicKey secret) chainCode index =
      (arithmetic.childSecret? secret chainCode ⟨index, false⟩).map fun child =>
        (arithmetic.publicKey child.1, child.2)

/-- The points that derivation starts from or comes to: points of the curve, public keys of secrets
and children of such points. -/
inductive Reachable (arithmetic : KeyArithmetic) : Point → Prop
  | onCurve {point : Point} (h : point.isOnCurve = true) : Reachable arithmetic point
  | publicKey (secret : SecretKey) : Reachable arithmetic (arithmetic.publicKey secret)
  | child {point : Point} {chainCode : ChainCode} {index : ChildIndex} {child : Point × ChainCode}
    (h : Reachable arithmetic point)
    (hchild : arithmetic.childPoint? point chainCode index = some child) :
    Reachable arithmetic child.1

/-- There is a child for every number, of a secret and of a point that derivation comes to. -/
def NeverFails (arithmetic : KeyArithmetic) : Prop :=
  (∀ secret chainCode number, (arithmetic.childSecret? secret chainCode number).isSome = true) ∧
    ∀ point, arithmetic.Reachable point →
      ∀ chainCode index, (arithmetic.childPoint? point chainCode index).isSome = true

/-- What public keys are: points of the curve. -/
def PublicKeysOnCurve (arithmetic : KeyArithmetic) : Prop :=
  ∀ secret, (arithmetic.publicKey secret).isOnCurve = true

end KeyArithmetic

namespace OneChain

def root : SecretKey where
  value := 0xe8f32e723decf4051aefac8e2c93c9c5b214313817cdb01a1494b917c8436b35
  value_pos := by decide
  value_lt := by decide

def child : SecretKey where
  value := 0xedb2e14f9ee77d26dd93b4ecede8d16ed408ce149b6cd80b0715a2d911a0afea
  value_pos := by decide
  value_lt := by decide

def grandchild : SecretKey where
  value := 0x3c6cb8d0f6a264c91ea8b5030fadaa8e538b020f0a387421a12de9319dc93368
  value_pos := by decide
  value_lt := by decide

def leaf : SecretKey where
  value := 0xcbce0d719ecf7431d88e6a89fa1483e02e35092af60c042b1df2ff59fa424dca
  value_pos := by decide
  value_lt := by decide

def rootPoint : Point where
  odd := true
  x := 0x39a36013301597daef41fbe593a02cc513d0b55527ec2df1050e2e8ff49c85c2
  x_lt := by decide

def childPoint : Point where
  odd := true
  x := 0x5a784662a4a20a65bf6aab9ae98a6c068a81c52e4b032c0fb5400c706cfccc56
  x_lt := by decide

def grandchildPoint : Point where
  odd := true
  x := 0x501e454bf00751f24b1b489aa925215d66af2234e3891c3b21a52bedb3cd711c
  x_lt := by decide

def leafPoint : Point where
  odd := true
  x := 0x57bfe1e341d01c69fe5654309956cbea516822fba8a601743a012a7896ee8dc2
  x_lt := by decide

def rootChain : ChainCode :=
  ⟨Bytes.bigEndian 32 0x873dff81c02f525623fd1fe5167eac3a55a049de3d314bb42ee227ffed37d508,
    Bytes.length_bigEndian _ _⟩

def childChain : ChainCode :=
  ⟨Bytes.bigEndian 32 0x47fdacbd0f1097043b78c63c20c34ef4ed9a111d980047ad16282c7ae6236141,
    Bytes.length_bigEndian _ _⟩

def grandchildChain : ChainCode :=
  ⟨Bytes.bigEndian 32 0x2a7857631386ba23dacac34180dd1983734e444fdbf774041578e9b6adb37c19,
    Bytes.length_bigEndian _ _⟩

def leafChain : ChainCode :=
  ⟨Bytes.bigEndian 32 0x04466b9cc8e161e966409ca52986c584f07e9dc81f735db683c3ff6ec7b1503f,
    Bytes.length_bigEndian _ _⟩

def firstHardened : ChildNumber := ⟨⟨0, Nat.zero_lt_succ _⟩, true⟩

def second : ChildIndex := ⟨1, by decide⟩

def thirdHardened : ChildNumber := ⟨⟨2, by decide⟩, true⟩

/-- The point of any other secret spells the secret. -/
def publicKey (secret : SecretKey) : Point :=
  if secret = root then rootPoint
  else if secret = child then childPoint
  else if secret = grandchild then grandchildPoint
  else if secret = leaf then leafPoint
  else ⟨false, secret.value, Nat.lt_trans secret.value_lt (by decide)⟩

def childSecret? (secret : SecretKey) (chainCode : ChainCode) (number : ChildNumber) :
    Option (SecretKey × ChainCode) :=
  if secret = root ∧ chainCode = rootChain ∧ number = firstHardened then some (child, childChain)
  else if secret = child ∧ chainCode = childChain ∧ number = ⟨second, false⟩ then
    some (grandchild, grandchildChain)
  else if secret = grandchild ∧ chainCode = grandchildChain ∧ number = thirdHardened then
    some (leaf, leafChain)
  else none

def childPoint? (point : Point) (chainCode : ChainCode) (index : ChildIndex) :
    Option (Point × ChainCode) :=
  if point = childPoint ∧ chainCode = childChain ∧ index = second then
    some (grandchildPoint, grandchildChain)
  else none

theorem publicKey_injective {a b : SecretKey} (h : publicKey a = publicKey b) : a = b := by
  have distinct : [rootPoint, childPoint, grandchildPoint, leafPoint].Nodup := by decide
  have odd : rootPoint.odd = true ∧ childPoint.odd = true ∧ grandchildPoint.odd = true ∧
      leafPoint.odd = true := by decide
  simp only [List.nodup_cons, List.mem_cons, List.not_mem_nil, or_false, not_or] at distinct
  obtain ⟨a, ha, ha'⟩ := a
  obtain ⟨b, hb, hb'⟩ := b
  unfold publicKey at h
  split at h <;> split at h <;> grind

theorem publicKey_eq_childPoint {secret : SecretKey} :
    publicKey secret = childPoint ↔ secret = child :=
  ⟨fun h => publicKey_injective (h.trans (by decide)), fun h => by subst h; decide⟩

/-- What the chain derives is what the arithmetic in use derives there, and so are the points. -/
theorem childSecret?_in_use {secret : SecretKey} {chainCode : ChainCode} {number : ChildNumber}
    {next : SecretKey × ChainCode} (h : childSecret? secret chainCode number = some next) :
    Secp256k1.childSecret? secret chainCode number = some next ∧
      Secp256k1.publicKey secret = publicKey secret ∧
      Secp256k1.publicKey next.1 = publicKey next.1 := by
  unfold childSecret? at h
  split at h
  · next known =>
    obtain ⟨rfl, rfl, rfl⟩ := known
    cases h
    decide +kernel
  · split at h
    · next known =>
      obtain ⟨rfl, rfl, rfl⟩ := known
      cases h
      decide +kernel
    · split at h
      · next known =>
        obtain ⟨rfl, rfl, rfl⟩ := known
        cases h
        decide +kernel
      · cases h

/-- The record of a key above all others. -/
def atRoot {K : Type} (key : K) : Extended K where
  network := .main
  depth := 0
  parent := ⟨[0, 0, 0, 0], rfl⟩
  number := ⟨⟨0, Nat.zero_lt_succ _⟩, false⟩
  chainCode := rootChain
  key := key

/-- The way from the root to the grandchild. -/
def path : Path where
  origin := .unnamed
  steps := [⟨.concrete firstHardened.index, true⟩, ⟨.concrete second, false⟩]
  wildcard_last := by decide
  origin_concrete := by decide

/-- The way from the child to the grandchild. -/
def lastStep : Path where
  origin := .unnamed
  steps := [⟨.concrete second, false⟩]
  wildcard_last := by decide
  origin_concrete := by decide

end OneChain

/-- The arithmetic that knows one chain of four keys. -/
@[reducible] def oneChain : KeyArithmetic where
  publicKey := OneChain.publicKey
  childSecret? := OneChain.childSecret?
  childPoint? := OneChain.childPoint?

theorem oneChain_injective : oneChain.PublicKeyInjective :=
  fun _ _ => OneChain.publicKey_injective

theorem oneChain_agrees : oneChain.NormalChildrenAgree := by
  intro secret chainCode index
  have normal : ∀ number ∈ [OneChain.firstHardened, OneChain.thirdHardened],
      (⟨index, false⟩ : ChildNumber) ≠ number := by
    simp [OneChain.firstHardened, OneChain.thirdHardened]
  simp only [List.forall_mem_cons] at normal
  change OneChain.childPoint? (OneChain.publicKey secret) chainCode index =
    (OneChain.childSecret? secret chainCode ⟨index, false⟩).map fun child =>
      (OneChain.publicKey child.1, child.2)
  simp only [OneChain.childPoint?, OneChain.childSecret?, OneChain.publicKey_eq_childPoint, normal,
    and_false, if_false, ChildNumber.mk.injEq, and_true]
  split
  · have : OneChain.publicKey OneChain.grandchild = OneChain.grandchildPoint := by decide
    simp [this]
  · rfl

namespace KeyArithmetic

/-- The same arithmetic, except that a key without a child of some number is its own child there. -/
@[reducible] def unfailing (arithmetic : KeyArithmetic) : KeyArithmetic where
  publicKey := arithmetic.publicKey
  childSecret? secret chainCode number :=
    (arithmetic.childSecret? secret chainCode number).or (some (secret, chainCode))
  childPoint? point chainCode index :=
    (arithmetic.childPoint? point chainCode index).or (some (point, chainCode))

theorem unfailing_neverFails (arithmetic : KeyArithmetic) : arithmetic.unfailing.NeverFails := by
  constructor
  · intro secret chainCode number
    show ((arithmetic.childSecret? secret chainCode number).or (some (secret, chainCode))).isSome = _
    simp
  · intro point _ chainCode index
    show ((arithmetic.childPoint? point chainCode index).or (some (point, chainCode))).isSome = _
    simp

end KeyArithmetic

/-- The arithmetic that knows the same chain and takes all other keys for their own children. -/
@[reducible] def endlessChain : KeyArithmetic :=
  oneChain.unfailing

namespace OneKey

/-- The generator of the group, which is the public key of the secret one. -/
def generator : Point where
  odd := false
  x := 0x79be667ef9dcbbac55a06295ce870b07029bfcdb2dce28d959f2815b16f81798
  x_lt := by decide

theorem generator_onCurve : generator.isOnCurve = true := by decide +kernel

end OneKey

/-- The arithmetic that takes every secret for the secret one, and derives nothing. -/
@[reducible] def oneKey : KeyArithmetic where
  publicKey _ := OneKey.generator
  childSecret? _ _ _ := none
  childPoint? _ _ _ := none

theorem oneKey_onCurve : oneKey.PublicKeysOnCurve :=
  fun _ => OneKey.generator_onCurve

end OutputDescriptor
