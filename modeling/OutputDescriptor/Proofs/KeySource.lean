import OutputDescriptor.Proofs.Key.Descent
import OutputDescriptor.Proofs.Key.Laws
import OutputDescriptor.Proofs.Resolution

/-!
A source of private keys decides whether there is a script, never which one.

An answer of a source counts only if it has the locked key's point and chain code. Points tell
secrets apart, so two sources whose answers count agree on the secret and on the chain code, and with
that on all later ones, whatever else their answers record. `Alike` is the relation that both runs
keep.
-/

namespace OutputDescriptor

/-- Keys from which the same descendants follow: both public or both private, with one key and one
chain code. Network, depth, parent and child number may differ. -/
inductive ExtendedKey.Alike : ExtendedKey → ExtendedKey → Prop
  | xpub {a b : Xpub} (key : a.key = b.key) (chainCode : a.chainCode = b.chainCode) :
    Alike (.xpub a) (.xpub b)
  | xprv {a b : Xprv} (key : a.key = b.key) (chainCode : a.chainCode = b.chainCode) :
    Alike (.xprv a) (.xprv b)

namespace ExtendedKey

theorem Alike.refl : ∀ key : ExtendedKey, Alike key key
  | .xpub _ => .xpub rfl rfl
  | .xprv _ => .xprv rfl rfl

variable [arithmetic : KeyArithmetic] {p q : Option KeySource} {number : ChildNumber}

theorem Alike.neuter_key {a b : ExtendedKey} (h : Alike a b) : a.neuter.key = b.neuter.key := by
  cases h with
  | xpub key _ => exact key
  | xprv key _ => exact congrArg KeyArithmetic.publicKey key

/-- Children of private keys with one secret and one chain code. -/
theorem Alike.child_xprv {a b a' b' : Xprv} (key : a.key = b.key)
    (chainCode : a.chainCode = b.chainCode) (ha : a.child? number = some a')
    (hb : b.child? number = some b') : Alike (.xprv a') (.xprv b') := by
  obtain ⟨child, hchild, rfl⟩ := Xprv.child?_eq_some.mp ha
  obtain ⟨child', hchild', rfl⟩ := Xprv.child?_eq_some.mp hb
  rw [key, chainCode, hchild'] at hchild
  cases hchild
  exact .xprv (by simp) (by simp)

theorem Alike.child_xpub {a b a' b' : Xpub} {index : ChildIndex} (key : a.key = b.key)
    (chainCode : a.chainCode = b.chainCode) (ha : a.child? index = some a')
    (hb : b.child? index = some b') : Alike (.xpub a') (.xpub b') := by
  obtain ⟨child, hchild, rfl⟩ := Xpub.child?_eq_some.mp ha
  obtain ⟨child', hchild', rfl⟩ := Xpub.child?_eq_some.mp hb
  rw [key, chainCode, hchild'] at hchild
  cases hchild
  exact .xpub (by simp) (by simp)

theorem Alike.neuter_xprv {a b : Xprv} (h : Alike (.xprv a) (.xprv b)) :
    Alike (.xpub a.neuter) (.xpub b.neuter) := by
  cases h with
  | xprv key chainCode => exact .xpub (congrArg KeyArithmetic.publicKey key) chainCode

/-- Whatever two sources answer, the children that they lead to are alike. -/
theorem Alike.child? (inj : arithmetic.PublicKeyInjective) {a b a' b' : ExtendedKey}
    (h : Alike a b) (ha : a.child? p number = some a') (hb : b.child? q number = some b') :
    Alike a' b' := by
  cases h with
  | xprv key chainCode =>
    obtain ⟨c, hc, rfl⟩ := child?_xprv_eq_some.mp ha
    obtain ⟨d, hd, rfl⟩ := child?_xprv_eq_some.mp hb
    exact child_xprv key chainCode hc hd
  | xpub key chainCode =>
    cases hn : number.hardened with
    | false =>
      obtain ⟨c, hc, rfl⟩ := (child?_xpub_normal_eq_some hn).mp ha
      obtain ⟨d, hd, rfl⟩ := (child?_xpub_normal_eq_some hn).mp hb
      exact child_xpub key chainCode hc hd
    | true =>
      obtain ⟨secret, c, hsecret, hc, rfl⟩ := (child?_xpub_hardened_eq_some hn).mp ha
      obtain ⟨secret', d, hsecret', hd, rfl⟩ := (child?_xpub_hardened_eq_some hn).mp hb
      obtain ⟨point, code⟩ := unlock?_eq_some hsecret
      obtain ⟨point', code'⟩ := unlock?_eq_some hsecret'
      -- both answers have the point that was asked for, so they have one secret
      have sameSecret : secret.key = secret'.key := inj _ _ (point.trans (key.trans point'.symm))
      have sameCode : secret.chainCode = secret'.chainCode :=
        code.trans (chainCode.trans code'.symm)
      exact (child_xprv sameSecret sameCode hc hd).neuter_xprv

/-- What is derived without a source is derived with any. -/
theorem child?_of_none {a a' : ExtendedKey} (h : a.child? none number = some a') :
    a.child? q number = some a' := by
  cases a with
  | xprv key => exact h
  | xpub key =>
    cases hn : number.hardened with
    | false =>
      rw [child?_xpub_normal_eq_some hn] at h ⊢
      exact h
    | true =>
      obtain ⟨_, _, hunlock, _⟩ := (child?_xpub_hardened_eq_some hn).mp h
      cases hunlock

/-- No source is asked for a child of a private key, nor for a normal child. -/
theorem child?_source_irrelevant {a : ExtendedKey}
    (h : a.isPrivate = true ∨ number.hardened = false) :
    a.child? p number = a.child? q number := by
  cases a with
  | xprv key => rfl
  | xpub key =>
    have hn : number.hardened = false := by simpa [isPrivate] using h
    simp [ExtendedKey.child?, hn]

theorem isPrivate_of_child? {a a' : ExtendedKey} (h : a.child? p number = some a') :
    a'.isPrivate = a.isPrivate := by
  cases a with
  | xprv key =>
    obtain ⟨c, _, rfl⟩ := child?_xprv_eq_some.mp h
    rfl
  | xpub key =>
    cases hn : number.hardened with
    | false =>
      obtain ⟨c, _, rfl⟩ := (child?_xpub_normal_eq_some hn).mp h
      rfl
    | true =>
      obtain ⟨_, _, _, _, rfl⟩ := (child?_xpub_hardened_eq_some hn).mp h
      rfl

variable {choice : Option Nat} {steps : List Step}

theorem descendant?_of_none {a a' : ExtendedKey}
    (h : a.descendant? choice none steps = some a') : a.descendant? choice q steps = some a' := by
  have follows : ∀ {a b a' : ExtendedKey} {number},
      (∃ step ∈ steps, number.hardened = step.hardened) → a = b → a.child? none number = some a' →
        ∃ b', b.child? q number = some b' ∧ a' = b' := by
    rintro a _ a' number _ rfl ha
    exact ⟨a', child?_of_none ha, rfl⟩
  obtain ⟨_, hb, rfl⟩ := descendant?_follows follows rfl h
  exact hb

/-- A path that needs no source has the same end under every one. -/
theorem descendant?_source_irrelevant {a a' : ExtendedKey}
    (hpath : a.isPrivate = true ∨ ∀ step ∈ steps, step.hardened = false)
    (h : a.descendant? choice p steps = some a') : a.descendant? choice q steps = some a' := by
  have follows : ∀ {b c b' : ExtendedKey} {number},
      (∃ step ∈ steps, number.hardened = step.hardened) →
        (b = c ∧ b.isPrivate = a.isPrivate) → b.child? p number = some b' →
          ∃ c', c.child? q number = some c' ∧ (b' = c' ∧ b'.isPrivate = a.isPrivate) := by
    rintro b _ b' number ⟨step, hstep, hnumber⟩ ⟨rfl, hprivate⟩ hb
    have irrelevant : b.isPrivate = true ∨ number.hardened = false := by
      rw [hprivate, hnumber]
      exact hpath.imp_right fun normal => normal step hstep
    exact ⟨b', child?_source_irrelevant irrelevant ▸ hb, rfl,
      (isPrivate_of_child? hb).trans hprivate⟩
  obtain ⟨_, hb, rfl, _⟩ := descendant?_follows follows ⟨rfl, rfl⟩ h
  exact hb

end ExtendedKey

namespace Key

variable [arithmetic : KeyArithmetic] {choice : Option Nat} {p q : Option KeySource}

theorem resolve?_extended_eq_some {key : ExtendedKey} {children : Path} {found : PublicKey} :
    (extended key children).resolve? choice p = some found ↔
      ∃ last, key.descendant? choice p children.steps = some last ∧
        found = .compressed last.neuter.key := by
  rw [resolve?, Option.map_eq_some_iff]
  exact exists_congr fun _ => and_congr_right fun _ => eq_comm

theorem resolve?_unique (inj : arithmetic.PublicKeyInjective) {key : Key} {a b : PublicKey}
    (ha : key.resolve? choice p = some a) (hb : key.resolve? choice q = some b) : a = b := by
  cases key with
  | literal _ => exact Option.some.inj (ha.symm.trans hb)
  | wif _ => exact Option.some.inj (ha.symm.trans hb)
  | extended key children =>
    obtain ⟨last, hlast, rfl⟩ := resolve?_extended_eq_some.mp ha
    obtain ⟨last', hlast', rfl⟩ := resolve?_extended_eq_some.mp hb
    have alike : last.Alike last' :=
      ExtendedKey.descendant?_related (fun h ha hb => h.child? inj ha hb) (.refl key) hlast hlast'
    rw [alike.neuter_key]

theorem resolve?_of_none {key : Key} {found : PublicKey}
    (h : key.resolve? choice none = some found) : key.resolve? choice q = some found := by
  cases key with
  | literal _ => exact h
  | wif _ => exact h
  | extended key children =>
    obtain ⟨last, hlast, rfl⟩ := resolve?_extended_eq_some.mp h
    exact resolve?_extended_eq_some.mpr ⟨last, ExtendedKey.descendant?_of_none hlast, rfl⟩

theorem resolve?_source_irrelevant {key : Key} {found : PublicKey}
    (hkey : ∀ xpub children, key = .extended (.xpub xpub) children → children.hasHardened = false)
    (h : key.resolve? choice p = some found) : key.resolve? choice q = some found := by
  cases key with
  | literal _ => exact h
  | wif _ => exact h
  | extended key children =>
    obtain ⟨last, hlast, rfl⟩ := resolve?_extended_eq_some.mp h
    have hpath : key.isPrivate = true ∨ ∀ step ∈ children.steps, step.hardened = false := by
      cases key with
      | xprv _ => exact .inl rfl
      | xpub xpub => exact .inr (by simpa [Path.hasHardened] using hkey xpub children rfl)
    exact resolve?_extended_eq_some.mpr
      ⟨last, ExtendedKey.descendant?_source_irrelevant hpath hlast, rfl⟩

end Key

namespace Descriptor

/-- No source of private keys changes a script, not even one that lies: two sources that both lead
to a script lead to the same one; a script found without a source stays under every source; and
sources make no difference at all to a tree whose public extended keys have no hardened steps. -/
theorem script?_source_independent [arithmetic : KeyArithmetic]
    (inj : arithmetic.PublicKeyInjective) (descriptor : Descriptor) (choice : Option Nat)
    (selector : Option ComboSelector) (p q : Option KeySource) :
    (∀ script script', descriptor.script? choice p selector = some script →
      descriptor.script? choice q selector = some script' → script = script') ∧
    (∀ script, descriptor.script? choice none selector = some script →
      descriptor.script? choice q selector = some script) ∧
    ((∀ expr ∈ descriptor.keys, ∀ xpub children, expr.key = .extended (.xpub xpub) children →
        children.hasHardened = false) →
      descriptor.script? choice p selector = descriptor.script? choice q selector) := by
  simp only [script?_eq_scriptWith]
  refine ⟨?_, ?_, ?_⟩
  · intro script script'
    exact scriptWith_unique fun expr _ a b ha hb => Key.resolve?_unique inj ha hb
  · intro script
    exact scriptWith_mono fun expr _ found hfound => Key.resolve?_of_none hfound
  · intro hkeys
    refine scriptWith_congr fun expr hexpr => Option.ext fun found => ⟨?_, ?_⟩
    · exact Key.resolve?_source_irrelevant (hkeys expr hexpr)
    · exact Key.resolve?_source_irrelevant (hkeys expr hexpr)

/-- A witness script over the grandchild of a public root, found through the source that knows the
root and through one whose answer records another network, depth and parent. -/
theorem script?_of_two_sources :
    letI := oneChain
    let root := OneChain.atRoot OneChain.root
    let locked := ExtendedKey.xpub (OneChain.atRoot OneChain.rootPoint)
    let tree := sh (wsh (multi 1 [⟨none, .extended locked OneChain.path⟩] true))
    let known : KeySource := fun _ => some root
    let disguised : KeySource := fun _ =>
      some { root with network := .test, depth := 9, parent := ⟨[1, 2, 3, 4], rfl⟩ }
    ∃ script, tree.script? none (some known) none = some script ∧
      tree.script? none (some disguised) none = some script := by
  let := oneChain
  intro root locked tree known disguised
  have first : (tree.script? none (some known) none).isSome := by decide +kernel
  have second : (tree.script? none (some disguised) none).isSome := by decide +kernel
  obtain ⟨script, hscript⟩ := Option.isSome_iff_exists.mp first
  obtain ⟨script', hscript'⟩ := Option.isSome_iff_exists.mp second
  obtain ⟨same, _⟩ := script?_source_independent oneChain_injective tree none none
    (some known) (some disguised)
  obtain rfl := same script script' hscript hscript'
  exact ⟨script, hscript, hscript'⟩

end Descriptor

end OutputDescriptor
