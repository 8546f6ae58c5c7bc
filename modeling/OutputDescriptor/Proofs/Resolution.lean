import OutputDescriptor.Descriptor.Output
import OutputDescriptor.Proofs.Traversal

/-!
Scripts see keys only through what they resolve to.

`scriptWith` is the script of a tree under any way to resolve its keys. It grows with the resolver:
whoever resolves more keys keeps every script that was found before. Two resolvers that never
contradict each other can be joined to one above both, so they never give two scripts either.
-/

namespace OutputDescriptor

abbrev Resolver := KeyExpression → Option PublicKey

namespace Resolver

/-- On these keys the second resolver finds all that the first one finds. -/
def Below (keys : List KeyExpression) (r r' : Resolver) : Prop :=
  ∀ expr ∈ keys, ∀ key, r expr = some key → r' expr = some key

/-- On these keys the two resolvers never find different things. -/
def Compatible (keys : List KeyExpression) (r r' : Resolver) : Prop :=
  ∀ expr ∈ keys, ∀ key key', r expr = some key → r' expr = some key' → key = key'

/-- What the first resolver finds, or else the second. -/
def join (r r' : Resolver) : Resolver := fun expr => (r expr).or (r' expr)

theorem below_join_left (keys : List KeyExpression) (r r' : Resolver) :
    Below keys r (r.join r') := by
  intro expr _ key h
  simp [join, h]

theorem below_join_right {keys : List KeyExpression} {r r' : Resolver}
    (h : Compatible keys r r') : Below keys r' (r.join r') := by
  intro expr hexpr key hkey
  cases hr : r expr with
  | none => simp [join, hr, hkey]
  | some key' =>
    obtain rfl := h expr hexpr key' key hr hkey
    simp [join, hr]

end Resolver

namespace Descriptor

def scriptWith (resolve : Resolver) (selector : Option ComboSelector) : Descriptor → Option Script
  | raw script => some script
  | pk key => (resolve key).map PublicKey.keyScript
  | pkh key => (resolve key).map PublicKey.keyHashScript
  | wpkh key => (resolve key).bind PublicKey.witnessScript?
  | combo key => selector.bind fun selector => (resolve key).bind selector.script?
  | multi threshold keys sorted =>
    (keys.mapM fun key => (resolve key).map PublicKey.toBytes).map fun keys =>
      Script.multisig ((threshold : Int).bmod 0x10000000000000000)
        (if sorted then keys.mergeSort (· ≤ ·) else keys)
  | wsh inner => (inner.scriptWith resolve selector).map Script.witnessedBy
  | sh inner => (inner.scriptWith resolve selector).map Script.redeemedBy
  | addr address => some address.script

theorem script?_eq_scriptWith [KeyArithmetic] (choice : Option Nat) (source : Option KeySource)
    (selector : Option ComboSelector) (descriptor : Descriptor) :
    descriptor.script? choice source selector =
      descriptor.scriptWith (·.resolve? choice source) selector := by
  induction descriptor with
  | combo key => cases selector <;> rfl
  | multi threshold keys sorted =>
    simp only [script?, scriptWith, Option.bind_eq_bind, Option.map_eq_bind]
    rfl
  | wsh inner ih => simp only [script?, scriptWith, ih]
  | sh inner ih => simp only [script?, scriptWith, ih]
  | _ => rfl

/-- The keys of the public tree are resolved in the place of the tree's own keys. -/
theorem scriptWith_toPublic [KeyArithmetic] (resolve : Resolver)
    (selector : Option ComboSelector) (descriptor : Descriptor) :
    descriptor.toPublic.scriptWith resolve selector =
      descriptor.scriptWith (fun expr => resolve expr.toPublic) selector := by
  induction descriptor with
  | multi threshold keys sorted =>
    simp only [toPublic, scriptWith, List.mapM_map]
    rfl
  | wsh inner ih => simp only [toPublic, scriptWith, ih]
  | sh inner ih => simp only [toPublic, scriptWith, ih]
  | _ => rfl

/-- A resolver that finds more keys keeps every script. -/
theorem scriptWith_mono {r r' : Resolver} {selector : Option ComboSelector}
    {descriptor : Descriptor} (hle : Resolver.Below descriptor.keys r r') {script : Script}
    (h : descriptor.scriptWith r selector = some script) :
    descriptor.scriptWith r' selector = some script := by
  induction descriptor generalizing script with
  | raw _ => exact h
  | addr _ => exact h
  | pk key | pkh key =>
    obtain ⟨found, hfound, rfl⟩ := Option.map_eq_some_iff.mp h
    simp [scriptWith, hle key (by simp [keys]) found hfound]
  | wpkh key =>
    obtain ⟨found, hfound, hscript⟩ := Option.bind_eq_some_iff.mp h
    simpa [scriptWith, hle key (by simp [keys]) found hfound] using hscript
  | combo key =>
    simp only [scriptWith, Option.bind_eq_some_iff] at h ⊢
    obtain ⟨selected, hselected, found, hfound, hscript⟩ := h
    exact ⟨selected, hselected, found, hle key (by simp [keys]) found hfound, hscript⟩
  | multi threshold keys sorted =>
    obtain ⟨bytes, hbytes, rfl⟩ := Option.map_eq_some_iff.mp h
    refine Option.map_eq_some_iff.mpr ⟨bytes, mapM_eq_some_mono ?_ hbytes, rfl⟩
    intro expr hexpr found hfound
    obtain ⟨key, hkey, rfl⟩ := Option.map_eq_some_iff.mp hfound
    simp [hle expr hexpr key hkey]
  | wsh inner ih | sh inner ih =>
    obtain ⟨found, hfound, rfl⟩ := Option.map_eq_some_iff.mp h
    exact Option.map_eq_some_iff.mpr ⟨found, ih hle hfound, rfl⟩

/-- Resolvers that find the same keys give the same script, or both none. -/
theorem scriptWith_congr {r r' : Resolver} {selector : Option ComboSelector}
    {descriptor : Descriptor} (h : ∀ expr ∈ descriptor.keys, r expr = r' expr) :
    descriptor.scriptWith r selector = descriptor.scriptWith r' selector := by
  apply Option.ext
  intro script
  constructor
  · exact scriptWith_mono fun expr hexpr key hkey => (h expr hexpr) ▸ hkey
  · exact scriptWith_mono fun expr hexpr key hkey => (h expr hexpr).symm ▸ hkey

/-- Resolvers that never find different keys never give different scripts. -/
theorem scriptWith_unique {r r' : Resolver} {selector : Option ComboSelector}
    {descriptor : Descriptor} (h : Resolver.Compatible descriptor.keys r r')
    {script script' : Script}
    (hr : descriptor.scriptWith r selector = some script)
    (hr' : descriptor.scriptWith r' selector = some script') : script = script' := by
  have left := scriptWith_mono (Resolver.below_join_left _ r r') hr
  have right := scriptWith_mono (Resolver.below_join_right h) hr'
  exact Option.some.inj (left.symm.trans right)

end Descriptor

end OutputDescriptor
