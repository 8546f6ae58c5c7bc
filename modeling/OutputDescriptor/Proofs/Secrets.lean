import Mathlib.Data.List.Forall2
import OutputDescriptor.Descriptor

/-!
What the public form of a tree leaves out, and what it keeps.

`secrets` follows the tree itself and not the list of its keys, so that no secret can hide where the
list does not look. The public form has no secrets and says in public all that the tree says; no
other tree does both. So a tree without secrets is its own public form, and only such a tree is. The
flags and paths of a tree are among what it says in public.
-/

namespace OutputDescriptor

namespace Key

def secrets : Key → List SecretKey
  | literal _ => []
  | wif key => [key.secret]
  | extended (.xpub _) _ => []
  | extended (.xprv key) _ => [key.key]

/-- The path from an extended key to its descendants. -/
def children? : Key → Option Path
  | extended _ children => some children
  | _ => none

/-- The public side of what stands before the path: a key, or an extended key with its record. -/
def publicSide [KeyArithmetic] : Key → PublicKey ⊕ Xpub
  | literal key => .inl key
  | wif key => .inl (.compressed (KeyArithmetic.publicKey key.secret))
  | extended key _ => .inr key.neuter

end Key

/-- Two expressions say the same in public: where the key came from, the key or the extended key with
its record, and the path on from it. -/
structure KeyExpression.SameInPublic [KeyArithmetic] (expr other : KeyExpression) : Prop where
  origin : other.origin = expr.origin
  children : other.key.children? = expr.key.children?
  publicSide : other.key.publicSide = expr.key.publicSide

namespace Descriptor

def secrets : Descriptor → List SecretKey
  | raw _ => []
  | pk key => key.key.secrets
  | pkh key => key.key.secrets
  | wpkh key => key.key.secrets
  | combo key => key.key.secrets
  | multi _ keys _ => keys.flatMap fun key => key.key.secrets
  | wsh inner => inner.secrets
  | sh inner => inner.secrets
  | addr _ => []

/-- Two trees of one shape and with the same numbers, in which the keys at each place are related. -/
inductive Matches (R : KeyExpression → KeyExpression → Prop) : Descriptor → Descriptor → Prop
  | raw (script : Script) : Matches R (raw script) (raw script)
  | pk {expr other : KeyExpression} : R expr other → Matches R (pk expr) (pk other)
  | pkh {expr other : KeyExpression} : R expr other → Matches R (pkh expr) (pkh other)
  | wpkh {expr other : KeyExpression} : R expr other → Matches R (wpkh expr) (wpkh other)
  | combo {expr other : KeyExpression} : R expr other → Matches R (combo expr) (combo other)
  | multi (threshold : Nat) (sorted : Bool) {exprs others : List KeyExpression} :
    List.Forall₂ R exprs others →
      Matches R (multi threshold exprs sorted) (multi threshold others sorted)
  | wsh {node other : Descriptor} : Matches R node other → Matches R (wsh node) (wsh other)
  | sh {node other : Descriptor} : Matches R node other → Matches R (sh node) (sh other)
  | addr (address : Address) : Matches R (addr address) (addr address)

end Descriptor

/-! ### Keys -/

namespace Key

theorem secrets_eq_nil_iff {key : Key} : key.secrets = [] ↔ key.isPrivate = false := by
  cases key with
  | literal key => simp [secrets, isPrivate]
  | wif key => simp [secrets, isPrivate]
  | extended key children => cases key <;> simp [secrets, isPrivate, ExtendedKey.isPrivate]

theorem isRanged_eq_any (key : Key) : key.isRanged = key.children?.any Path.isRanged := by
  cases key <;> rfl

variable [KeyArithmetic]

theorem secrets_toPublic (key : Key) : key.toPublic.secrets = [] := by
  cases key <;> rfl

theorem children?_toPublic (key : Key) : key.toPublic.children? = key.children? := by
  cases key <;> rfl

theorem publicSide_toPublic (key : Key) : key.toPublic.publicSide = key.publicSide := by
  cases key <;> rfl

/-- Without secrets, a key is made of its public side and its path. -/
theorem eq_of_same {key other : Key} (keyOpen : key.secrets = []) (otherOpen : other.secrets = [])
    (children : other.children? = key.children?) (side : other.publicSide = key.publicSide) :
    other = key := by
  -- only literals and public extended keys are without secrets, and the path tells them apart
  cases key with
  | literal key =>
    cases other with
    | literal other => exact congrArg literal (Sum.inl.inj side)
    | wif other => cases otherOpen
    | extended other path => cases children
  | wif key => cases keyOpen
  | extended key path =>
    cases other with
    | literal other => cases children
    | wif other => cases otherOpen
    | extended other path' =>
      obtain rfl := Option.some.inj children
      cases key with
      | xprv key => cases keyOpen
      | xpub key =>
        cases other with
        | xprv other => cases otherOpen
        | xpub other => exact congrArg (extended · _) (congrArg ExtendedKey.xpub (Sum.inr.inj side))

end Key

namespace KeyExpression

variable [KeyArithmetic]

theorem SameInPublic.refl (expr : KeyExpression) : expr.SameInPublic expr :=
  ⟨rfl, rfl, rfl⟩

theorem sameInPublic_toPublic (expr : KeyExpression) : expr.SameInPublic expr.toPublic :=
  ⟨rfl, expr.key.children?_toPublic, expr.key.publicSide_toPublic⟩

theorem SameInPublic.isRanged {expr other : KeyExpression} (h : expr.SameInPublic other) :
    other.isRanged = expr.isRanged := by
  rw [KeyExpression.isRanged, KeyExpression.isRanged, Key.isRanged_eq_any, Key.isRanged_eq_any,
    h.children]

/-- Only the public form of a key expression has no secret and says the same in public. -/
theorem SameInPublic.eq_toPublic {expr other : KeyExpression} (h : expr.SameInPublic other)
    (hopen : other.key.secrets = []) : other = expr.toPublic := by
  have kept := expr.sameInPublic_toPublic
  have key : other.key = expr.toPublic.key :=
    Key.eq_of_same expr.key.secrets_toPublic hopen (h.children.trans kept.children.symm)
      (h.publicSide.trans kept.publicSide.symm)
  exact congrArg₂ KeyExpression.mk h.origin key

theorem any_isRanged_of_forall₂ {exprs others : List KeyExpression}
    (h : List.Forall₂ SameInPublic exprs others) :
    others.any KeyExpression.isRanged = exprs.any KeyExpression.isRanged := by
  induction h with
  | nil => rfl
  | cons first _ ih => rw [List.any_cons, List.any_cons, first.isRanged, ih]

theorem map_toPublic_of_forall₂ {exprs others : List KeyExpression}
    (h : List.Forall₂ SameInPublic exprs others)
    (hopen : ∀ other ∈ others, other.key.secrets = []) : others = exprs.map toPublic := by
  induction h with
  | nil => rfl
  | cons first _ ih =>
    obtain ⟨hfirst, hrest⟩ := List.forall_mem_cons.mp hopen
    rw [List.map_cons, first.eq_toPublic hfirst, ih hrest]

end KeyExpression

/-! ### Trees -/

namespace Descriptor

open KeyExpression

variable {R : KeyExpression → KeyExpression → Prop} {node other : Descriptor}

theorem Matches.keys (h : node.Matches R other) : List.Forall₂ R node.keys other.keys := by
  induction h with
  | raw _ => exact .nil
  | addr _ => exact .nil
  | pk key => exact .cons key .nil
  | pkh key => exact .cons key .nil
  | wpkh key => exact .cons key .nil
  | combo key => exact .cons key .nil
  | multi _ _ keys => exact keys
  | wsh _ ih => exact ih
  | sh _ ih => exact ih

theorem Matches.isCombo (h : node.Matches R other) : other.isCombo = node.isCombo := by
  cases h <;> rfl

theorem Matches.refl (h : ∀ expr, R expr expr) (node : Descriptor) : node.Matches R node := by
  induction node with
  | raw script => exact .raw script
  | addr address => exact .addr address
  | pk key => exact .pk (h key)
  | pkh key => exact .pkh (h key)
  | wpkh key => exact .wpkh (h key)
  | combo key => exact .combo (h key)
  | multi threshold keys sorted =>
    exact .multi threshold sorted (List.forall₂_same.mpr fun key _ => h key)
  | wsh inner ih => exact .wsh ih
  | sh inner ih => exact .sh ih

theorem secrets_eq_flatMap (node : Descriptor) :
    node.secrets = node.keys.flatMap fun expr => expr.key.secrets := by
  induction node <;> simp_all [secrets, keys]

/-- The flag that looks at the list of keys overlooks no secret in the tree. -/
theorem hasPrivateKeys_eq_false_iff : node.hasPrivateKeys = false ↔ node.secrets = [] := by
  rw [hasPrivateKeys, secrets_eq_flatMap, List.any_eq_false, List.flatMap_eq_nil_iff]
  refine forall₂_congr fun expr _ => ?_
  rw [Key.secrets_eq_nil_iff, Bool.not_eq_true, KeyExpression.isPrivate]

variable [KeyArithmetic]

theorem secrets_toPublic (node : Descriptor) : node.toPublic.secrets = [] := by
  rw [secrets_eq_flatMap, keys_toPublic, List.flatMap_map, List.flatMap_eq_nil_iff]
  exact fun expr _ => expr.key.secrets_toPublic

theorem matches_toPublic (node : Descriptor) : node.Matches SameInPublic node.toPublic := by
  induction node with
  | raw script => exact .raw script
  | addr address => exact .addr address
  | pk key => exact .pk key.sameInPublic_toPublic
  | pkh key => exact .pkh key.sameInPublic_toPublic
  | wpkh key => exact .wpkh key.sameInPublic_toPublic
  | combo key => exact .combo key.sameInPublic_toPublic
  | multi threshold keys sorted =>
    refine .multi threshold sorted (List.forall₂_map_right_iff.mpr ?_)
    exact List.forall₂_same.mpr fun key _ => key.sameInPublic_toPublic
  | wsh inner ih => exact .wsh ih
  | sh inner ih => exact .sh ih

theorem Matches.eq_toPublic (h : node.Matches SameInPublic other) (hopen : other.secrets = []) :
    other = node.toPublic := by
  induction h with
  | raw _ => rfl
  | addr _ => rfl
  | pk key => exact congrArg Descriptor.pk (key.eq_toPublic hopen)
  | pkh key => exact congrArg Descriptor.pkh (key.eq_toPublic hopen)
  | wpkh key => exact congrArg Descriptor.wpkh (key.eq_toPublic hopen)
  | combo key => exact congrArg Descriptor.combo (key.eq_toPublic hopen)
  | multi threshold sorted keys =>
    have each := List.flatMap_eq_nil_iff.mp hopen
    rw [map_toPublic_of_forall₂ keys each]
    rfl
  | wsh _ ih => exact congrArg Descriptor.wsh (ih hopen)
  | sh _ ih => exact congrArg Descriptor.sh (ih hopen)

/-- Only the public form of a tree has no secrets and says the same in public. -/
theorem eq_toPublic_iff :
    other = node.toPublic ↔ other.secrets = [] ∧ node.Matches SameInPublic other := by
  constructor
  · rintro rfl
    exact ⟨node.secrets_toPublic, node.matches_toPublic⟩
  · rintro ⟨hopen, hmatches⟩
    exact hmatches.eq_toPublic hopen

theorem toPublic_eq_self_iff : node.toPublic = node ↔ node.hasPrivateKeys = false := by
  rw [hasPrivateKeys_eq_false_iff, eq_comm, eq_toPublic_iff]
  exact and_iff_left (Matches.refl SameInPublic.refl node)

theorem Matches.isRanged (h : node.Matches SameInPublic other) : other.isRanged = node.isRanged :=
  any_isRanged_of_forall₂ h.keys

/-- The public form of a tree, whatever its nesting, has no secrets, and it is the tree itself exactly
if that has no private keys; so it is its own public form. It has the shape and the numbers of the
tree, and as many keys, in the same order, each with its origin and path; it is ranged or a `combo`
exactly if the tree is. -/
theorem toPublic_erases_secrets (node : Descriptor) :
    (node.toPublic.secrets = [] ∧ node.toPublic.hasPrivateKeys = false) ∧
    (node.toPublic = node ↔ node.hasPrivateKeys = false) ∧
    node.toPublic.toPublic = node.toPublic ∧
    node.Matches SameInPublic node.toPublic ∧
    List.Forall₂ SameInPublic node.keys node.toPublic.keys ∧
    node.toPublic.isRanged = node.isRanged ∧ node.toPublic.isCombo = node.isCombo := by
  have none_left := node.secrets_toPublic
  have unflagged := hasPrivateKeys_eq_false_iff.mpr none_left
  have kept := node.matches_toPublic
  exact ⟨⟨none_left, unflagged⟩, toPublic_eq_self_iff, toPublic_eq_self_iff.mpr unflagged, kept,
    kept.keys, kept.isRanged, kept.isCombo⟩

end Descriptor

end OutputDescriptor
