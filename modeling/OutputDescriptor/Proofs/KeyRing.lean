import OutputDescriptor.KeyRing
import OutputDescriptor.Proofs.KeySource

/-!
Of a key ring only the keys count that it holds, not the order in which they came.

A ring takes its first offer that belongs to a locked key, so another ring may answer with another
record. But all offers lie as deep as the locked key, and those that belong to it have one secret and
one chain code. Hence the children that follow record the same but for the network, which no ring
looks at, and a ring with more keys can follow at every step.
-/

namespace OutputDescriptor

namespace KeyRing

theorem mem_keys_insertAll {key : Xprv} {keys : List Xprv} :
    ∀ {ring : KeyRing}, key ∈ (ring.insertAll keys).keys ↔ key ∈ ring.keys ∨ key ∈ keys := by
  induction keys with
  | nil => simp [insertAll]
  | cons first keys ih =>
    intro ring
    have step : ring.insertAll (first :: keys) = (ring.insert first).insertAll keys := rfl
    rw [step, ih, mem_keys_insert, List.mem_cons, or_assoc]

/-- A ring holds what was put into it. -/
theorem mem_keys_ofList {key : Xprv} {keys : List Xprv} :
    key ∈ (ofList keys).keys ↔ key ∈ keys := by
  show key ∈ (empty.insertAll keys).keys ↔ key ∈ keys
  simp [mem_keys_insertAll, empty]

end KeyRing

/-- Public keys for which every ring has the same offers: they record the same but for the network. -/
structure Xpub.Twin (a b : Xpub) : Prop where
  depth : a.depth = b.depth
  parent : a.parent = b.parent
  number : a.number = b.number
  chainCode : a.chainCode = b.chainCode
  key : a.key = b.key

/-- Keys that two rings treat alike. A private key needs no ring, so it stays the same in both runs. -/
inductive ExtendedKey.Twin : ExtendedKey → ExtendedKey → Prop
  | xpub {a b : Xpub} (h : a.Twin b) : Twin (.xpub a) (.xpub b)
  | xprv (key : Xprv) : Twin (.xprv key) (.xprv key)

theorem ExtendedKey.Twin.refl : ∀ key : ExtendedKey, Twin key key
  | .xpub _ => .xpub ⟨rfl, rfl, rfl, rfl, rfl⟩
  | .xprv key => .xprv key

section

variable [arithmetic : KeyArithmetic] {number : ChildNumber}

theorem Xpub.Twin.child? {a b a' : Xpub} {index : ChildIndex} (h : a.Twin b)
    (ha : a.child? index = some a') : ∃ b', b.child? index = some b' ∧ a'.Twin b' := by
  obtain ⟨child, hchild, rfl⟩ := Xpub.child?_eq_some.mp ha
  rw [h.key, h.chainCode] at hchild
  refine ⟨_, Xpub.child?_eq_some.mpr ⟨child, hchild, rfl⟩, ?_⟩
  constructor <;> simp [Extended.descend, h.depth, h.key]

/-- Private keys of one depth, with one secret and one chain code, have twins for children. -/
theorem Xprv.child?_twin {a b a' : Xprv} (depth : a.depth = b.depth) (key : a.key = b.key)
    (chainCode : a.chainCode = b.chainCode) (ha : a.child? number = some a') :
    ∃ b', b.child? number = some b' ∧ a'.neuter.Twin b'.neuter := by
  obtain ⟨child, hchild, rfl⟩ := Xprv.child?_eq_some.mp ha
  rw [key, chainCode] at hchild
  refine ⟨_, Xprv.child?_eq_some.mpr ⟨child, hchild, rfl⟩, ?_⟩
  constructor <;> simp [Extended.descend, Xprv.neuter, depth, key]

namespace KeyRing

theorem candidate?_twin {a b : Xpub} (h : a.Twin b) (key : Xprv) :
    candidate? key a = candidate? key b := by
  unfold candidate?
  rw [h.depth, h.parent, h.number]

theorem unlocks_twin {a b : Xpub} (h : a.Twin b) (key : Xprv) : key.unlocks a = key.unlocks b := by
  unfold Xprv.unlocks
  rw [h.key, h.chainCode]

/-- Whatever is offered for a locked key lies as deep as that key. -/
theorem depth_of_candidate? {key answer : Xprv} {locked : Xpub}
    (h : candidate? key locked = some answer) : answer.depth = locked.depth := by
  unfold candidate? at h
  split at h
  · next same =>
    cases h
    exact same
  · split at h
    · next above =>
      obtain ⟨child, _, rfl⟩ := Xprv.child?_eq_some.mp h
      have bound : locked.depth.toNat < 256 := locked.depth.toNat_lt
      apply UInt8.toNat_inj.mp
      show (key.depth + 1).toNat = locked.depth.toNat
      rw [UInt8.toNat_add, UInt8.toNat_one]
      omega
    · cases h

/-- An answer of a ring is an offer of one of its keys that belongs to the locked key. -/
theorem offer_of_unlock? {ring : KeyRing} {locked : Xpub} {answer : Xprv}
    (h : ring.unlock? locked = some answer) :
    ∃ key ∈ ring.keys, candidate? key locked = some answer ∧ answer.unlocks locked = true := by
  obtain ⟨key, hkey, hanswer⟩ := List.exists_of_findSome?_eq_some h
  exact ⟨key, hkey, Option.filter_eq_some_iff.mp hanswer⟩

theorem isSome_unlock?_of_offer {ring : KeyRing} {locked : Xpub} {key offer : Xprv}
    (hkey : key ∈ ring.keys) (hoffer : candidate? key locked = some offer)
    (hunlocks : offer.unlocks locked = true) : (ring.unlock? locked).isSome = true := by
  have fits : (candidate? key locked).filter (·.unlocks locked) = some offer :=
    Option.filter_eq_some_iff.mpr ⟨hoffer, hunlocks⟩
  exact List.findSome?_isSome_iff.mpr ⟨key, hkey, Option.isSome_of_eq_some fits⟩

theorem unlock?_eq_some {ring : KeyRing} {locked : Xpub} {answer : Xprv}
    (h : KeySource.unlock? (some ring.unlock?) locked = some answer) :
    ∃ key ∈ ring.keys, candidate? key locked = some answer ∧ answer.unlocks locked = true :=
  offer_of_unlock? (Option.filter_eq_some_iff.mp h).1

theorem exists_unlock? {ring : KeyRing} {locked : Xpub} {key offer : Xprv} (hkey : key ∈ ring.keys)
    (hoffer : candidate? key locked = some offer) (hunlocks : offer.unlocks locked = true) :
    ∃ answer, KeySource.unlock? (some ring.unlock?) locked = some answer := by
  have found := isSome_unlock?_of_offer hkey hoffer hunlocks
  obtain ⟨answer, hanswer⟩ := Option.isSome_iff_exists.mp found
  obtain ⟨_, _, _, h⟩ := offer_of_unlock? hanswer
  exact ⟨answer, Option.filter_eq_some_iff.mpr ⟨hanswer, h⟩⟩

variable {R S : KeyRing}

/-- A ring with more keys unlocks a twin, by a private key that differs at most in the record of
where it came from. -/
theorem unlock?_of_subset (inj : arithmetic.PublicKeyInjective)
    (subset : ∀ key ∈ R.keys, key ∈ S.keys) {a b : Xpub} (h : a.Twin b) {secret : Xprv}
    (ha : KeySource.unlock? (some R.unlock?) a = some secret) :
    ∃ secret', KeySource.unlock? (some S.unlock?) b = some secret' ∧
      secret.depth = secret'.depth ∧ secret.key = secret'.key ∧
        secret.chainCode = secret'.chainCode := by
  obtain ⟨key, hkey, hoffer, hunlocks⟩ := unlock?_eq_some ha
  have hdepth := depth_of_candidate? hoffer
  rw [candidate?_twin h] at hoffer
  rw [unlocks_twin h] at hunlocks
  obtain ⟨secret', hb⟩ := exists_unlock? (subset key hkey) hoffer hunlocks
  obtain ⟨key', _, hoffer', _⟩ := unlock?_eq_some hb
  obtain ⟨point, code⟩ := ExtendedKey.unlock?_eq_some ha
  obtain ⟨point', code'⟩ := ExtendedKey.unlock?_eq_some hb
  refine ⟨secret', hb, ?_, ?_, ?_⟩
  · rw [hdepth, h.depth, depth_of_candidate? hoffer']
  · exact inj _ _ (point.trans (h.key.trans point'.symm))
  · exact code.trans (h.chainCode.trans code'.symm)

end KeyRing

namespace ExtendedKey

theorem Twin.neuter_key {a b : ExtendedKey} (h : Twin a b) : a.neuter.key = b.neuter.key := by
  cases h with
  | xpub h => exact h.key
  | xprv _ => rfl

/-- A run with more keys in the ring follows every child. -/
theorem Twin.child? (inj : arithmetic.PublicKeyInjective) {R S : KeyRing}
    (subset : ∀ key ∈ R.keys, key ∈ S.keys) {a b a' : ExtendedKey} (h : Twin a b)
    (ha : a.child? (some R.unlock?) number = some a') :
    ∃ b', b.child? (some S.unlock?) number = some b' ∧ Twin a' b' := by
  cases h with
  | xprv key =>
    obtain ⟨c, hc, rfl⟩ := child?_xprv_eq_some.mp ha
    exact ⟨_, child?_xprv_eq_some.mpr ⟨c, hc, rfl⟩, .xprv c⟩
  | xpub h =>
    cases hn : number.hardened with
    | false =>
      obtain ⟨c, hc, rfl⟩ := (child?_xpub_normal_eq_some hn).mp ha
      obtain ⟨d, hd, twin⟩ := h.child? hc
      exact ⟨_, (child?_xpub_normal_eq_some hn).mpr ⟨d, hd, rfl⟩, .xpub twin⟩
    | true =>
      obtain ⟨secret, c, hsecret, hc, rfl⟩ := (child?_xpub_hardened_eq_some hn).mp ha
      obtain ⟨secret', hsecret', depth, key, chainCode⟩ :=
        KeyRing.unlock?_of_subset inj subset h hsecret
      obtain ⟨d, hd, twin⟩ := Xprv.child?_twin depth key chainCode hc
      exact ⟨_, (child?_xpub_hardened_eq_some hn).mpr ⟨secret', d, hsecret', hd, rfl⟩, .xpub twin⟩

end ExtendedKey

theorem Key.resolve?_of_subset (inj : arithmetic.PublicKeyInjective) {R S : KeyRing}
    (subset : ∀ key ∈ R.keys, key ∈ S.keys) {choice : Option Nat} {key : Key} {found : PublicKey}
    (h : key.resolve? choice (some R.unlock?) = some found) :
    key.resolve? choice (some S.unlock?) = some found := by
  cases key with
  | literal _ => exact h
  | wif _ => exact h
  | extended key children =>
    obtain ⟨last, hlast, rfl⟩ := resolve?_extended_eq_some.mp h
    obtain ⟨last', hlast', twin⟩ := ExtendedKey.descendant?_follows
      (fun _ h ha => h.child? inj subset ha) (ExtendedKey.Twin.refl key) hlast
    exact resolve?_extended_eq_some.mpr ⟨last', hlast', by rw [twin.neuter_key]⟩

/-! ### Empty rings -/

theorem KeyRing.unlock?_of_isEmpty {ring : KeyRing} (h : ring.isEmpty = true) (locked : Xpub) :
    ring.unlock? locked = none := by
  have nothing : ring.keys = [] := List.isEmpty_iff.mp h
  unfold KeyRing.unlock?
  rw [nothing]
  rfl

/-- A source that never answers is none. -/
theorem Descriptor.script?_of_silent {source : KeySource} (silent : ∀ locked, source locked = none)
    (descriptor : Descriptor) (choice : Option Nat) (selector : Option ComboSelector) :
    descriptor.script? choice (some source) selector = descriptor.script? choice none selector := by
  have nothing : ∀ locked, KeySource.unlock? (some source) locked = KeySource.unlock? none locked := by
    intro locked
    show (source locked).filter (·.unlocks locked) = none
    rw [silent]
    rfl
  have same : ∀ number key, ExtendedKey.child? (some source) number key = key.child? none number := by
    intro number key
    cases key with
    | xprv key => rfl
    | xpub key => simp only [ExtendedKey.child?, nothing]
  rw [script?_eq_scriptWith, script?_eq_scriptWith]
  refine scriptWith_congr fun expr _ => ?_
  unfold KeyExpression.resolve? Key.resolve? ExtendedKey.descendant?
  simp only [same]

namespace Descriptor

/-- A ring keeps every script when it grows. So rings that hold the same keys, in whatever order and
however often they were put in, give the same script or both none; and an empty ring is as good as
no source, whether it is handed over or left out. -/
theorem script?_keyRing_mono (inj : arithmetic.PublicKeyInjective) (descriptor : Descriptor)
    (choice : Option Nat) (selector : Option ComboSelector) :
    (∀ R S : KeyRing, (∀ key ∈ R.keys, key ∈ S.keys) → ∀ script,
      descriptor.script? choice (some R.unlock?) selector = some script →
        descriptor.script? choice (some S.unlock?) selector = some script) ∧
    (∀ R S : KeyRing, (∀ key, key ∈ R.keys ↔ key ∈ S.keys) →
      descriptor.script? choice (some R.unlock?) selector =
        descriptor.script? choice (some S.unlock?) selector) ∧
    (∀ keys keys' : List Xprv, (∀ key, key ∈ keys ↔ key ∈ keys') →
      descriptor.script? choice (some (KeyRing.ofList keys).unlock?) selector =
        descriptor.script? choice (some (KeyRing.ofList keys').unlock?) selector) ∧
    (∀ ring : KeyRing, ring.isEmpty = true →
      descriptor.script? choice (some ring.unlock?) selector =
        descriptor.script? choice none selector) ∧
    (∀ ring : KeyRing, descriptor.script? choice ring.source? selector =
      descriptor.script? choice (some ring.unlock?) selector) := by
  have grows : ∀ R S : KeyRing, (∀ key ∈ R.keys, key ∈ S.keys) → ∀ script,
      descriptor.script? choice (some R.unlock?) selector = some script →
        descriptor.script? choice (some S.unlock?) selector = some script := by
    intro R S subset script
    rw [script?_eq_scriptWith, script?_eq_scriptWith]
    exact scriptWith_mono fun expr _ found hfound => Key.resolve?_of_subset inj subset hfound
  have same : ∀ R S : KeyRing, (∀ key, key ∈ R.keys ↔ key ∈ S.keys) →
      descriptor.script? choice (some R.unlock?) selector =
        descriptor.script? choice (some S.unlock?) selector := fun R S h => Option.ext fun script =>
    ⟨grows R S (fun key => (h key).mp) script, grows S R (fun key => (h key).mpr) script⟩
  have empty : ∀ ring : KeyRing, ring.isEmpty = true →
      descriptor.script? choice (some ring.unlock?) selector =
        descriptor.script? choice none selector := fun ring h =>
    script?_of_silent (KeyRing.unlock?_of_isEmpty h) descriptor choice selector
  refine ⟨grows, same, fun keys keys' h => same _ _ fun key => ?_, empty, fun ring => ?_⟩
  · rw [KeyRing.mem_keys_ofList, KeyRing.mem_keys_ofList, h]
  · unfold KeyRing.source?
    split
    · next h => exact (empty ring h).symm
    · rfl

end Descriptor

end

namespace Descriptor

/-- The ring that holds the root, and one in which a key with another record comes first: it answers
with that one, and its children are of another network. -/
theorem script?_of_two_rings :
    letI := oneChain
    let root := OneChain.atRoot OneChain.root
    let disguised : Xprv := { root with network := .test, number := ⟨OneChain.second, true⟩ }
    let locked := ExtendedKey.xpub (OneChain.atRoot OneChain.rootPoint)
    let tree := sh (wsh (multi 1 [⟨none, .extended locked OneChain.path⟩] true))
    let small := KeyRing.ofList [root]
    let large := KeyRing.ofList [disguised, root, disguised]
    small.unlock? (OneChain.atRoot OneChain.rootPoint) ≠
        large.unlock? (OneChain.atRoot OneChain.rootPoint) ∧
      ∃ script, tree.script? none (some small.unlock?) none = some script ∧
        tree.script? none (some large.unlock?) none = some script := by
  let := oneChain
  intro root disguised locked tree small large
  refine ⟨by decide +kernel, ?_⟩
  have shown : (tree.script? none (some small.unlock?) none).isSome := by decide +kernel
  obtain ⟨script, hscript⟩ := Option.isSome_iff_exists.mp shown
  obtain ⟨grows, _⟩ := script?_keyRing_mono oneChain_injective tree none none
  refine ⟨script, hscript, grows small large ?_ script hscript⟩
  intro key hkey
  rw [KeyRing.mem_keys_ofList] at hkey ⊢
  obtain rfl := List.mem_singleton.mp hkey
  simp

end Descriptor

end OutputDescriptor
