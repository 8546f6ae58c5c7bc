import OutputDescriptor.Proofs.KeySource

/-!
The public form of a tree describes the same scripts.

A run from a public key mirrors the run from its private one: its point belongs to the secret of the
other run, and the chain codes are equal. A normal child keeps this because both derivations agree. A
hardened child of the public run comes from an answer of the source, which counts only if it is the
very secret of the private run. Without hardened steps the private run can also be followed back.
-/

namespace OutputDescriptor

/-- A public key and the private key behind it, as far as derivation looks at them. -/
inductive ExtendedKey.Mirrors [KeyArithmetic] : ExtendedKey → ExtendedKey → Prop
  | mk {a : Xpub} {b : Xprv} (key : a.key = KeyArithmetic.publicKey b.key)
    (chainCode : a.chainCode = b.chainCode) : Mirrors (.xpub a) (.xprv b)

namespace ExtendedKey

variable [arithmetic : KeyArithmetic] {source : Option KeySource} {number : ChildNumber}

theorem Mirrors.neuter_key {a b : ExtendedKey} (h : Mirrors a b) : a.neuter.key = b.neuter.key := by
  cases h with
  | mk key _ => exact key

theorem Mirrors.of_neuter (key : Xprv) : Mirrors (.xpub key.neuter) (.xprv key) :=
  .mk rfl rfl

/-- A normal child of the public key, and the private one in its mirror. -/
theorem Mirrors.normal_child (agree : arithmetic.NormalChildrenAgree) {a a' : Xpub} {b : Xprv}
    (hn : number.hardened = false) (key : a.key = KeyArithmetic.publicKey b.key)
    (chainCode : a.chainCode = b.chainCode) (ha : a.child? number.index = some a') :
    ∃ b', b.child? number = some b' ∧ Mirrors (.xpub a') (.xprv b') := by
  obtain ⟨child, hchild, rfl⟩ := Xpub.child?_eq_some.mp ha
  rw [key, chainCode, agree, Option.map_eq_some_iff] at hchild
  obtain ⟨secret, hsecret, rfl⟩ := hchild
  have hnumber : number = ⟨number.index, false⟩ := by rw [← hn]
  rw [← hnumber] at hsecret
  exact ⟨_, Xprv.child?_eq_some.mpr ⟨secret, hsecret, rfl⟩, .mk (by simp) (by simp)⟩

/-- A normal child of the private key, and the public one in its mirror. -/
theorem Mirrors.normal_child_back (agree : arithmetic.NormalChildrenAgree) {a : Xpub}
    {b b' : Xprv} (hn : number.hardened = false) (key : a.key = KeyArithmetic.publicKey b.key)
    (chainCode : a.chainCode = b.chainCode) (hb : b.child? number = some b') :
    ∃ a', a.child? number.index = some a' ∧ Mirrors (.xpub a') (.xprv b') := by
  obtain ⟨secret, hsecret, rfl⟩ := Xprv.child?_eq_some.mp hb
  have hnumber : number = ⟨number.index, false⟩ := by rw [← hn]
  have hpoint : KeyArithmetic.childPoint? a.key a.chainCode number.index =
      some (KeyArithmetic.publicKey secret.1, secret.2) := by
    rw [key, chainCode, agree, ← hnumber, hsecret]
    rfl
  exact ⟨_, Xpub.child?_eq_some.mpr ⟨_, hpoint, rfl⟩, .mk (by simp) (by simp)⟩

/-- The private run follows the public one, whatever source the latter has. -/
theorem Mirrors.child? (inj : arithmetic.PublicKeyInjective)
    (agree : arithmetic.NormalChildrenAgree) {a a' b : ExtendedKey} (h : Mirrors a b)
    (ha : a.child? source number = some a') :
    ∃ b', b.child? source number = some b' ∧ Mirrors a' b' := by
  obtain @⟨a, b, key, chainCode⟩ := h
  cases hn : number.hardened with
  | false =>
    obtain ⟨c, hc, rfl⟩ := (child?_xpub_normal_eq_some hn).mp ha
    obtain ⟨d, hd, mirrors⟩ := normal_child agree hn key chainCode hc
    exact ⟨_, child?_xprv_eq_some.mpr ⟨d, hd, rfl⟩, mirrors⟩
  | true =>
    obtain ⟨answer, c, hanswer, hc, rfl⟩ := (child?_xpub_hardened_eq_some hn).mp ha
    obtain ⟨point, code⟩ := unlock?_eq_some hanswer
    have sameSecret : answer.key = b.key := inj _ _ (point.trans key)
    have sameCode : answer.chainCode = b.chainCode := code.trans chainCode
    obtain ⟨secret, hsecret, rfl⟩ := Xprv.child?_eq_some.mp hc
    rw [sameSecret, sameCode] at hsecret
    exact ⟨_, child?_xprv_eq_some.mpr ⟨_, Xprv.child?_eq_some.mpr ⟨secret, hsecret, rfl⟩, rfl⟩,
      .mk (by simp [Xprv.neuter]) (by simp [Xprv.neuter])⟩

/-- On normal children the public run follows the private one. -/
theorem Mirrors.child?_back (agree : arithmetic.NormalChildrenAgree) {a b b' : ExtendedKey}
    (hn : number.hardened = false) (h : Mirrors a b) (hb : b.child? source number = some b') :
    ∃ a', a.child? source number = some a' ∧ Mirrors a' b' := by
  obtain @⟨a, b, key, chainCode⟩ := h
  obtain ⟨d, hd, rfl⟩ := child?_xprv_eq_some.mp hb
  obtain ⟨c, hc, mirrors⟩ := normal_child_back agree hn key chainCode hd
  exact ⟨_, (child?_xpub_normal_eq_some hn).mpr ⟨c, hc, rfl⟩, mirrors⟩

end ExtendedKey

namespace Key

variable [arithmetic : KeyArithmetic] {choice : Option Nat} {source : Option KeySource}

/-- A key resolves to all that its public form resolves to. -/
theorem resolve?_of_toPublic (inj : arithmetic.PublicKeyInjective)
    (agree : arithmetic.NormalChildrenAgree) {key : Key} {found : PublicKey}
    (h : key.toPublic.resolve? choice source = some found) :
    key.resolve? choice source = some found := by
  cases key with
  | literal _ => exact h
  | wif _ => exact h
  | extended key children =>
    cases key with
    | xpub _ => exact h
    | xprv key =>
      obtain ⟨last, hlast, rfl⟩ := resolve?_extended_eq_some.mp h
      obtain ⟨last', hlast', mirrors⟩ := ExtendedKey.descendant?_follows
        (fun _ h ha => h.child? inj agree ha) (ExtendedKey.Mirrors.of_neuter key) hlast
      exact resolve?_extended_eq_some.mpr ⟨last', hlast', by rw [mirrors.neuter_key]⟩

/-- Without hardened steps the public form resolves whenever the key does. -/
theorem resolve?_toPublic_of_normal (agree : arithmetic.NormalChildrenAgree) {key : Key}
    (hkey : ∀ xprv children, key = .extended (.xprv xprv) children → children.hasHardened = false)
    {found : PublicKey} (h : key.resolve? choice source = some found) :
    key.toPublic.resolve? choice source = some found := by
  cases key with
  | literal _ => exact h
  | wif _ => exact h
  | extended key children =>
    cases key with
    | xpub _ => exact h
    | xprv key =>
      have normal : ∀ step ∈ children.steps, step.hardened = false := by
        simpa [Path.hasHardened] using hkey key children rfl
      obtain ⟨last, hlast, rfl⟩ := resolve?_extended_eq_some.mp h
      have follows : ∀ {b a b' : ExtendedKey} {number},
          (∃ step ∈ children.steps, number.hardened = step.hardened) → a.Mirrors b →
            b.child? source number = some b' →
              ∃ a', a.child? source number = some a' ∧ a'.Mirrors b' := by
        rintro b a b' number ⟨step, hstep, hnumber⟩ mirrors hb
        exact mirrors.child?_back agree (hnumber.trans (normal step hstep)) hb
      obtain ⟨last', hlast', mirrors⟩ := ExtendedKey.descendant?_follows
        (R := fun b a => a.Mirrors b) follows (ExtendedKey.Mirrors.of_neuter key) hlast
      exact resolve?_extended_eq_some.mpr ⟨last', hlast', by rw [mirrors.neuter_key]⟩

end Key

namespace Descriptor

/-- Making a tree public never changes its scripts: a script of the public form is a script of the
tree, under every source, and if no private extended key has a hardened step then the two have the
same script or both have none. -/
theorem script?_toPublic [arithmetic : KeyArithmetic] (inj : arithmetic.PublicKeyInjective)
    (agree : arithmetic.NormalChildrenAgree) (descriptor : Descriptor) (choice : Option Nat)
    (source : Option KeySource) (selector : Option ComboSelector) :
    (∀ script, descriptor.toPublic.script? choice source selector = some script →
      descriptor.script? choice source selector = some script) ∧
    ((∀ expr ∈ descriptor.keys, ∀ xprv children, expr.key = .extended (.xprv xprv) children →
        children.hasHardened = false) →
      descriptor.toPublic.script? choice source selector =
        descriptor.script? choice source selector) := by
  simp only [script?_eq_scriptWith, scriptWith_toPublic]
  refine ⟨?_, ?_⟩
  · intro script
    exact scriptWith_mono fun expr _ found hfound => Key.resolve?_of_toPublic inj agree hfound
  · intro hkeys
    refine scriptWith_congr fun expr hexpr => Option.ext fun found => ⟨?_, ?_⟩
    · exact Key.resolve?_of_toPublic inj agree
    · exact Key.resolve?_toPublic_of_normal agree (hkeys expr hexpr)

/-- The grandchild of a private root, whose public form needs a source, and of its child, whose
public form needs none. -/
theorem script?_of_public_forms :
    letI := oneChain
    let root := OneChain.atRoot OneChain.root
    let child := { OneChain.atRoot OneChain.child with chainCode := OneChain.childChain }
    let deep := sh (wsh (multi 1 [⟨none, .extended (.xprv root) OneChain.path⟩] true))
    let near := pkh ⟨none, .extended (.xprv child) OneChain.lastStep⟩
    let known : KeySource := fun _ => some root
    (∃ script, deep.toPublic.script? none (some known) none = some script ∧
      deep.script? none (some known) none = some script) ∧
    near.toPublic.script? none none none = near.script? none none none ∧
    (near.script? none none none).isSome := by
  let := oneChain
  intro root child deep near known
  refine ⟨?_, ?_, by decide +kernel⟩
  · have shown : (deep.toPublic.script? none (some known) none).isSome := by decide +kernel
    obtain ⟨script, hscript⟩ := Option.isSome_iff_exists.mp shown
    have kept := (script?_toPublic oneChain_injective oneChain_agrees deep none (some known) none).1
    exact ⟨script, hscript, kept script hscript⟩
  · refine (script?_toPublic oneChain_injective oneChain_agrees near none none none).2 ?_
    intro expr hexpr xprv children h
    obtain rfl := List.mem_singleton.mp hexpr
    cases h
    rfl

end Descriptor

end OutputDescriptor
