import OutputDescriptor.Key.Secp256k1
import OutputDescriptor.Proofs.KeyRing

/-!
For which public keys a ring has a private one.

A ring looks at what its keys record before it compares them with the locked key. Its answers always
belong to the locked key. But the keys that lie at another depth than the locked one are asked for a
child at most, so a key that was recorded at another depth is not found again.
-/

namespace OutputDescriptor

section

variable [KeyArithmetic]

/-- The ways in which a private key of a ring opens a locked key: it belongs to the locked key and
lies as deep, or its child does of which the locked key has the record. -/
inductive Xprv.Opens (key : Xprv) (locked : Xpub) : Xprv → Prop
  | itself (depth : key.depth = locked.depth) (belongs : key.unlocks locked = true) :
    Opens key locked key
  | child {answer : Xprv} (depth : key.depth.toNat + 1 = locked.depth.toNat)
    (parent : (KeyArithmetic.publicKey key.key).fingerprint = locked.parent)
    (derived : key.child? locked.number = some answer) (belongs : answer.unlocks locked = true) :
    Opens key locked answer

theorem Xprv.unlocks_iff {key : Xprv} {locked : Xpub} :
    key.unlocks locked = true ↔
      key.neuter.key = locked.key ∧ key.neuter.chainCode = locked.chainCode := by
  simp only [unlocks, neuter, Bool.and_eq_true, beq_iff_eq]

namespace KeyRing

variable {key answer : Xprv} {locked : Xpub}

theorem candidate?_of_opens (h : key.Opens locked answer) :
    candidate? key locked = some answer ∧ answer.unlocks locked = true := by
  cases h with
  | itself depth belongs => exact ⟨if_pos depth, belongs⟩
  | child depth parent derived belongs =>
    have deeper : key.depth ≠ locked.depth := by
      intro same
      rw [same] at depth
      omega
    refine ⟨?_, belongs⟩
    unfold candidate?
    rw [if_neg deeper, if_pos ⟨depth, parent⟩, derived]

theorem opens_of_candidate? (offer : candidate? key locked = some answer)
    (belongs : answer.unlocks locked = true) : key.Opens locked answer := by
  unfold candidate? at offer
  by_cases same : key.depth = locked.depth
  · rw [if_pos same] at offer
    obtain rfl := Option.some.inj offer
    exact .itself same belongs
  · rw [if_neg same] at offer
    split at offer
    · next above => exact .child above.1 above.2 offer belongs
    · cases offer

/-- A ring answers exactly if one of its keys opens the locked one, and each answer has the locked
key for its public counterpart, up to the record of where it came from. In particular it answers for
every key that it holds, as long as that key is recorded as deep as the locked one. -/
theorem unlock?_isSome_iff_opens (ring : KeyRing) (locked : Xpub) :
    (∀ answer, ring.unlock? locked = some answer →
      (∃ key ∈ ring.keys, key.Opens locked answer) ∧
        answer.neuter.key = locked.key ∧ answer.neuter.chainCode = locked.chainCode) ∧
    ((ring.unlock? locked).isSome = true ↔
      ∃ key ∈ ring.keys, ∃ answer, key.Opens locked answer) ∧
    (∀ key ∈ ring.keys, key.neuter.key = locked.key → key.neuter.chainCode = locked.chainCode →
      key.depth = locked.depth → (ring.unlock? locked).isSome = true) := by
  have complete : ∀ key ∈ ring.keys, ∀ answer, key.Opens locked answer →
      (ring.unlock? locked).isSome = true := by
    intro key hkey answer h
    obtain ⟨offer, belongs⟩ := candidate?_of_opens h
    exact isSome_unlock?_of_offer hkey offer belongs
  refine ⟨?_, ⟨?_, ?_⟩, ?_⟩
  · intro answer h
    obtain ⟨key, hkey, offer, belongs⟩ := offer_of_unlock? h
    exact ⟨⟨key, hkey, opens_of_candidate? offer belongs⟩, Xprv.unlocks_iff.mp belongs⟩
  · intro h
    obtain ⟨answer, hanswer⟩ := Option.isSome_iff_exists.mp h
    obtain ⟨key, hkey, offer, belongs⟩ := offer_of_unlock? hanswer
    exact ⟨key, hkey, answer, opens_of_candidate? offer belongs⟩
  · intro ⟨key, hkey, answer, hopens⟩
    exact complete key hkey answer hopens
  · intro key hkey point chainCode depth
    exact complete key hkey key (.itself depth (Xprv.unlocks_iff.mpr ⟨point, chainCode⟩))

end KeyRing

end

/-- A ring with one key, and the public counterpart of that key recorded at another depth. -/
theorem KeyRing.unlock?_of_other_depth :
    ∃ (keys : List Xprv) (key : Xprv) (locked : Xpub),
      key ∈ (ofList keys).keys ∧ key.neuter.key = locked.key ∧
        key.neuter.chainCode = locked.chainCode ∧ (ofList keys).unlock? locked = none := by
  let root : Xprv := OneChain.atRoot OneChain.root
  refine ⟨[root], root, { root.neuter with depth := 5 }, ?_, rfl, rfl, ?_⟩
  · exact mem_keys_ofList.mpr (List.mem_singleton_self root)
  · rw [Option.eq_none_iff_forall_ne_some]
    intro answer h
    obtain ⟨key, hkey, offer, _⟩ := offer_of_unlock? h
    obtain rfl := List.mem_singleton.mp (mem_keys_ofList.mp hkey)
    cases offer

end OutputDescriptor
