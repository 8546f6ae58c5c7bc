import OutputDescriptor.Key.Expression

/-!
Derivation along a path, one child at a time, in two runs.

A relation between the keys of two runs that every single child keeps is kept by whole paths. The
first rule of this kind asks both runs to succeed; the second one lets the first run drive and shows
that the other follows. What a single step needs to know about the child number, it may assume of
every number on the path.
-/

namespace OutputDescriptor

theorem Step.hardened_of_childNumber? {step : Step} {choice : Option Nat} {number : ChildNumber}
    (h : step.childNumber? choice = some number) : number.hardened = step.hardened := by
  unfold childNumber? at h
  split at h
  · cases h
    rfl
  · simp only [Option.bind_eq_bind, Option.bind_eq_some_iff] at h
    obtain ⟨_, _, _, _, h⟩ := h
    cases h
    rfl

namespace ExtendedKey

variable [KeyArithmetic] {choice : Option Nat} {p q : Option KeySource}

@[simp] theorem descendant?_nil (key : ExtendedKey) : key.descendant? choice p [] = some key :=
  rfl

theorem descendant?_cons_eq_some {key last : ExtendedKey} {step : Step} {steps : List Step} :
    key.descendant? choice p (step :: steps) = some last ↔
      ∃ number child, step.childNumber? choice = some number ∧ key.child? p number = some child ∧
        child.descendant? choice p steps = some last := by
  simp only [descendant?, List.foldlM_cons, Option.bind_eq_bind, Option.bind_eq_some_iff]
  constructor
  · rintro ⟨child, ⟨number, hnumber, hchild⟩, hrest⟩
    exact ⟨number, child, hnumber, hchild, hrest⟩
  · rintro ⟨number, child, hnumber, hchild, hrest⟩
    exact ⟨child, ⟨number, hnumber, hchild⟩, hrest⟩

/-- What both runs keep with every child holds at the ends of both. -/
theorem descendant?_related {R : ExtendedKey → ExtendedKey → Prop}
    (keeps : ∀ {a b a' b' number}, R a b → a.child? p number = some a' →
      b.child? q number = some b' → R a' b') {steps : List Step} :
    ∀ {a b a' b'}, R a b → a.descendant? choice p steps = some a' →
      b.descendant? choice q steps = some b' → R a' b' := by
  induction steps with
  | nil =>
    intro a b a' b' h ha hb
    cases ha
    cases hb
    exact h
  | cons step steps ih =>
    intro a b a' b' h ha hb
    obtain ⟨number, c, hnumber, hc, ha⟩ := descendant?_cons_eq_some.mp ha
    obtain ⟨number', d, hnumber', hd, hb⟩ := descendant?_cons_eq_some.mp hb
    obtain rfl := Option.some.inj (hnumber.symm.trans hnumber')
    exact ih (keeps h hc hd) ha hb

/-- The second run follows the first one if it can follow every child. -/
theorem descendant?_follows {R : ExtendedKey → ExtendedKey → Prop} {steps : List Step}
    (follows : ∀ {a b a' number}, (∃ step ∈ steps, number.hardened = step.hardened) → R a b →
      a.child? p number = some a' → ∃ b', b.child? q number = some b' ∧ R a' b') :
    ∀ {a b a'}, R a b → a.descendant? choice p steps = some a' →
      ∃ b', b.descendant? choice q steps = some b' ∧ R a' b' := by
  induction steps with
  | nil =>
    intro a b a' h ha
    cases ha
    exact ⟨b, rfl, h⟩
  | cons step steps ih =>
    intro a b a' h ha
    obtain ⟨number, c, hnumber, hc, ha⟩ := descendant?_cons_eq_some.mp ha
    have onPath : ∃ s ∈ step :: steps, number.hardened = s.hardened :=
      ⟨step, by simp, Step.hardened_of_childNumber? hnumber⟩
    obtain ⟨d, hd, hcd⟩ := follows onPath h hc
    have later : ∀ {a b a' number}, (∃ s ∈ steps, number.hardened = s.hardened) → R a b →
        a.child? p number = some a' → ∃ b', b.child? q number = some b' ∧ R a' b' := by
      rintro a b a' number ⟨s, hs, hnumber⟩
      exact follows ⟨s, List.mem_cons_of_mem _ hs, hnumber⟩
    obtain ⟨b', hb', h'⟩ := ih later hcd ha
    exact ⟨b', descendant?_cons_eq_some.mpr ⟨number, d, hnumber, hd, hb'⟩, h'⟩

/-- What a source has found belongs to the key that was asked for. -/
theorem unlock?_eq_some {source : Option KeySource} {locked : Xpub} {key : Xprv}
    (h : KeySource.unlock? source locked = some key) :
    KeyArithmetic.publicKey key.key = locked.key ∧ key.chainCode = locked.chainCode := by
  simp only [KeySource.unlock?, Option.bind_eq_bind, Option.bind_eq_some_iff,
    Option.filter_eq_some_iff] at h
  obtain ⟨_, _, _, hunlocks⟩ := h
  rw [Xprv.unlocks, Bool.and_eq_true, beq_iff_eq, beq_iff_eq] at hunlocks
  exact hunlocks

theorem child?_xprv_eq_some {key : Xprv} {number : ChildNumber} {child : ExtendedKey} :
    (xprv key).child? p number = some child ↔
      ∃ c, key.child? number = some c ∧ child = xprv c := by
  rw [child?, Option.map_eq_some_iff]
  exact exists_congr fun c => and_congr_right fun _ => eq_comm

theorem child?_xpub_normal_eq_some {key : Xpub} {number : ChildNumber}
    (normal : number.hardened = false) {child : ExtendedKey} :
    (xpub key).child? p number = some child ↔
      ∃ c, key.child? number.index = some c ∧ child = xpub c := by
  rw [child?, if_neg (by simp [normal]), Option.map_eq_some_iff]
  exact exists_congr fun c => and_congr_right fun _ => eq_comm

theorem child?_xpub_hardened_eq_some {key : Xpub} {number : ChildNumber}
    (hardened : number.hardened = true) {child : ExtendedKey} :
    (xpub key).child? p number = some child ↔
      ∃ secret c, KeySource.unlock? p key = some secret ∧ secret.child? number = some c ∧
        child = xpub c.neuter := by
  simp only [child?, hardened, if_true, Option.bind_eq_bind, Option.bind_eq_some_iff,
    Option.some.injEq]
  constructor
  · rintro ⟨secret, hsecret, c, hc, rfl⟩
    exact ⟨secret, c, hsecret, hc, rfl⟩
  · rintro ⟨secret, c, hsecret, hc, rfl⟩
    exact ⟨secret, hsecret, c, hc, rfl⟩

end ExtendedKey

@[simp] theorem Extended.key_descend {K : Type} (parent : Extended K) (fp : Fingerprint)
    (number : ChildNumber) (key : K) (chainCode : ChainCode) :
    (parent.descend fp number key chainCode).key = key :=
  rfl

@[simp] theorem Extended.chainCode_descend {K : Type} (parent : Extended K) (fp : Fingerprint)
    (number : ChildNumber) (key : K) (chainCode : ChainCode) :
    (parent.descend fp number key chainCode).chainCode = chainCode :=
  rfl

theorem Xprv.child?_eq_some [KeyArithmetic] {key c : Xprv} {number : ChildNumber} :
    key.child? number = some c ↔
      ∃ child, KeyArithmetic.childSecret? key.key key.chainCode number = some child ∧
        c = key.descend (KeyArithmetic.publicKey key.key).fingerprint number child.1 child.2 := by
  simp only [Xprv.child?, Option.bind_eq_bind, Option.bind_eq_some_iff, Option.some.injEq]
  simp [eq_comm]

theorem Xpub.child?_eq_some [KeyArithmetic] {key c : Xpub} {index : ChildIndex} :
    key.child? index = some c ↔
      ∃ child, KeyArithmetic.childPoint? key.key key.chainCode index = some child ∧
        c = key.descend key.key.fingerprint ⟨index, false⟩ child.1 child.2 := by
  simp only [Xpub.child?, Option.bind_eq_bind, Option.bind_eq_some_iff, Option.some.injEq]
  simp [eq_comm]

end OutputDescriptor
