import OutputDescriptor.Proofs.KeySource
import OutputDescriptor.Proofs.RoundTrip

/-!
When a tree has a script without a source of private keys.

If derivation never fails, a key resolves unless its path asks for a child that was not named, or
hides a child behind a public key. Given that its keys resolve, a tree has a script unless a `combo`
lacks its selector or a key of a witness output is not compressed. The language has few places for
such keys, so all this can be told from the written tree.
-/

namespace OutputDescriptor

/-- The caller names a child for wildcards to stand for. -/
def NamesChild (choice : Option Nat) : Prop :=
  ∃ i, choice = some i ∧ i < 0x80000000

/-- A literal key in its long form. Every other key resolves to a point in the short one. -/
def Key.isUncompressed : Key → Bool
  | literal key => !key.isCompressed
  | _ => false

namespace Descriptor

/-- The keys that go into witness outputs as they are. -/
def witnessKeys (selector : Option ComboSelector) : Descriptor → List KeyExpression
  | wpkh key => [key]
  | combo key => if selector = some .wpkh ∨ selector = some .shWpkh then [key] else []
  | wsh inner => inner.witnessKeys selector
  | sh inner => inner.witnessKeys selector
  | _ => []

def hasCombo : Descriptor → Bool
  | combo _ => true
  | wsh inner => inner.hasCombo
  | sh inner => inner.hasCombo
  | _ => false

/-- Nothing about a tree of the language stands in the way of its script. -/
structure Available (choice : Option Nat) (selector : Option ComboSelector)
    (node : Descriptor) : Prop where
  wildcard : ∀ expr ∈ node.keys, ∀ key children, expr.key = .extended key children →
    (∃ step ∈ children.steps, step.isWildcard = true) → NamesChild choice
  hardened : ∀ expr ∈ node.keys, ∀ xpub children, expr.key = .extended (.xpub xpub) children →
    children.hasHardened = false
  witness : ∀ expr, node = .wpkh expr ∨ node = .sh (.wpkh expr) → expr.key.isUncompressed = false
  combo : ∀ expr, node = .combo expr → ∃ selected, selector = some selected ∧
    (selected = .wpkh ∨ selected = .shWpkh → expr.key.isUncompressed = false)

end Descriptor

/-! ### Keys -/

theorem Step.exists_childNumber? {step : Step} {choice : Option Nat} :
    (∃ number, step.childNumber? choice = some number) ↔
      (step.isWildcard = true → NamesChild choice) := by
  obtain ⟨index, hardened⟩ := step
  cases index with
  | concrete index => simp [childNumber?, isWildcard]
  | wildcard =>
    have wild : isWildcard ⟨.wildcard, hardened⟩ = true := rfl
    cases choice with
    | none => simp [childNumber?, wild, NamesChild]
    | some i =>
      by_cases h : i < 0x80000000
      · simp [childNumber?, ChildIndex.ofNat?, wild, NamesChild, h]
      · simp [childNumber?, ChildIndex.ofNat?, wild, NamesChild, h]

section

variable [arithmetic : KeyArithmetic] {choice : Option Nat}

/-- Where an extended key leaves derivation to start, there is a point to start from. -/
def Key.Reachable (key : Key) : Prop :=
  ∀ extended children, key = .extended extended children →
    arithmetic.Reachable extended.neuter.key

theorem Key.WellFormed.reachable {key : Key} (h : key.WellFormed) : key.Reachable := by
  rintro extended children rfl
  cases extended with
  | xpub key => exact .onCurve h.1
  | xprv key => exact .publicKey key.key

/-- Whatever text a tree was read from, derivation can start at its keys. -/
theorem Descriptor.reachable_of_parse {text : List Char} {node : Descriptor}
    (h : parse text = .ok node) : ∀ expr ∈ node.keys, expr.key.Reachable := by
  by_cases hraw : ∃ script, node = .raw script
  · obtain ⟨script, rfl⟩ := hraw
    simp [keys]
  · have valid := wellFormed_of_parse h fun script heq => hraw ⟨script, heq⟩
    exact fun expr hexpr => (valid.keys expr hexpr).key.reachable

namespace ExtendedKey

theorem reachable_of_child? {source : Option KeySource} {key child : ExtendedKey}
    {number : ChildNumber} (h : arithmetic.Reachable key.neuter.key)
    (hchild : key.child? source number = some child) : arithmetic.Reachable child.neuter.key := by
  cases key with
  | xprv key =>
    obtain ⟨next, _, rfl⟩ := child?_xprv_eq_some.mp hchild
    exact .publicKey next.key
  | xpub key =>
    cases hn : number.hardened with
    | true =>
      obtain ⟨_, next, _, _, rfl⟩ := (child?_xpub_hardened_eq_some hn).mp hchild
      exact .publicKey next.key
    | false =>
      obtain ⟨next, hnext, rfl⟩ := (child?_xpub_normal_eq_some hn).mp hchild
      obtain ⟨found, hfound, rfl⟩ := Xpub.child?_eq_some.mp hnext
      exact .child h hfound

/-- Only the hardened children of public keys are ever out of reach, and a source that unlocks the
key reaches them too. Where in its half the child lies does not matter. -/
theorem exists_child? (total : arithmetic.NeverFails) {source : Option KeySource}
    {key : ExtendedKey} (reachable : arithmetic.Reachable key.neuter.key) {number : ChildNumber} :
    (∃ child, key.child? source number = some child) ↔
      (number.hardened = true → ∀ locked, key = .xpub locked →
        ∃ secret, KeySource.unlock? source locked = some secret) := by
  have derives : ∀ secret : Xprv, ∃ child, secret.child? number = some child := by
    intro secret
    obtain ⟨child, hchild⟩ := Option.isSome_iff_exists.mp (total.1 secret.key secret.chainCode number)
    exact ⟨_, Xprv.child?_eq_some.mpr ⟨child, hchild, rfl⟩⟩
  cases key with
  | xprv key =>
    obtain ⟨child, hchild⟩ := derives key
    have reached := child?_xprv_eq_some (p := source) |>.mpr ⟨child, hchild, rfl⟩
    exact ⟨fun _ _ _ h => (nomatch h), fun _ => ⟨_, reached⟩⟩
  | xpub key =>
    by_cases hardened : number.hardened = true
    · simp only [child?_xpub_hardened_eq_some hardened, hardened, xpub.injEq, true_implies]
      constructor
      · rintro ⟨_, secret, _, hsecret, _, _⟩ _ rfl
        exact ⟨secret, hsecret⟩
      · intro unlocked
        obtain ⟨secret, hsecret⟩ := unlocked key rfl
        obtain ⟨child, hchild⟩ := derives secret
        exact ⟨_, secret, child, hsecret, hchild, rfl⟩
    · obtain ⟨child, hchild⟩ :=
        Option.isSome_iff_exists.mp (total.2 key.key reachable key.chainCode number.index)
      have derived := Xpub.child?_eq_some.mpr ⟨child, hchild, rfl⟩
      have normal : number.hardened = false := Bool.eq_false_iff.mpr hardened
      have reached := (child?_xpub_normal_eq_some (p := source) normal).mpr ⟨_, derived, rfl⟩
      exact ⟨fun _ h => absurd h hardened, fun _ => ⟨_, reached⟩⟩

theorem exists_child?_none (total : arithmetic.NeverFails) {key : ExtendedKey}
    (reachable : arithmetic.Reachable key.neuter.key) {number : ChildNumber} :
    (∃ child, key.child? none number = some child) ↔
      (key.isPrivate = true ∨ number.hardened = false) := by
  rw [exists_child? total reachable]
  cases key with
  | xprv key => simp [isPrivate]
  | xpub key => simp [isPrivate, KeySource.unlock?]

/-- The end of a path is reached if every step is: the kind of key stays the same on the way. -/
theorem exists_descendant? (total : arithmetic.NeverFails) {steps : List Step} :
    ∀ {key : ExtendedKey}, arithmetic.Reachable key.neuter.key →
      ((∃ last, key.descendant? choice none steps = some last) ↔
        (∀ step ∈ steps, step.isWildcard = true → NamesChild choice) ∧
          (key.isPrivate = true ∨ ∀ step ∈ steps, step.hardened = false)) := by
  induction steps with
  | nil =>
    intro key _
    simp
  | cons step steps ih =>
    intro key reachable
    simp only [descendant?_cons_eq_some, List.forall_mem_cons]
    constructor
    · rintro ⟨last, number, child, hnumber, hchild, hrest⟩
      obtain ⟨wildcards, hardened⟩ :=
        (ih (reachable_of_child? reachable hchild)).mp ⟨last, hrest⟩
      have hstep := (exists_child?_none total reachable).mp ⟨child, hchild⟩
      rw [Step.hardened_of_childNumber? hnumber] at hstep
      rw [isPrivate_of_child? hchild] at hardened
      refine ⟨⟨Step.exists_childNumber?.mp ⟨number, hnumber⟩, wildcards⟩, ?_⟩
      by_cases hprivate : key.isPrivate = true
      · exact .inl hprivate
      · exact .inr ⟨hstep.resolve_left hprivate, hardened.resolve_left hprivate⟩
    · rintro ⟨⟨wildcard, wildcards⟩, hardened⟩
      obtain ⟨number, hnumber⟩ := Step.exists_childNumber?.mpr wildcard
      have hstep : key.isPrivate = true ∨ number.hardened = false := by
        rw [Step.hardened_of_childNumber? hnumber]
        exact hardened.imp_right And.left
      obtain ⟨child, hchild⟩ := (exists_child?_none total reachable).mpr hstep
      have hsteps : child.isPrivate = true ∨ ∀ step ∈ steps, step.hardened = false := by
        rw [isPrivate_of_child? hchild]
        exact hardened.imp_right And.right
      obtain ⟨last, hlast⟩ :=
        (ih (reachable_of_child? reachable hchild)).mpr ⟨wildcards, hsteps⟩
      exact ⟨last, number, child, hnumber, hchild, hlast⟩

end ExtendedKey

namespace Key

theorem isSome_resolve? (total : arithmetic.NeverFails) {key : Key} (reachable : key.Reachable) :
    (key.resolve? choice none).isSome = true ↔
      ∀ extended children, key = .extended extended children →
        (∀ step ∈ children.steps, step.isWildcard = true → NamesChild choice) ∧
          (extended.isPrivate = true ∨ ∀ step ∈ children.steps, step.hardened = false) := by
  cases key with
  | literal key => simp [resolve?]
  | wif key => simp [resolve?]
  | extended key children =>
    rw [resolve?, Option.isSome_map, Option.isSome_iff_exists,
      ExtendedKey.exists_descendant? total (reachable key children rfl)]
    constructor
    · rintro h _ _ heq
      cases heq
      exact h
    · intro h
      exact h key children rfl

/-- Whatever else a key resolves by, only a literal in the long form stays uncompressed. -/
theorem isCompressed_of_resolve? {key : Key} {source : Option KeySource} {found : PublicKey}
    (h : key.resolve? choice source = some found) : found.isCompressed = !key.isUncompressed := by
  cases key with
  | literal key =>
    cases h
    simp [isUncompressed]
  | wif key =>
    cases h
    rfl
  | extended key children =>
    obtain ⟨last, _, rfl⟩ := resolve?_extended_eq_some.mp h
    rfl

end Key

end

/-! ### Trees -/

namespace PublicKey

theorem isSome_witnessScript? (key : PublicKey) :
    key.witnessScript?.isSome = true ↔ key.isCompressed = true := by
  unfold witnessScript?
  split <;> simp_all

/-- Two of the outputs of a `combo` are witness outputs. -/
theorem isSome_comboScript? (selected : ComboSelector) (key : PublicKey) :
    (selected.script? key).isSome = true ↔
      (selected = .wpkh ∨ selected = .shWpkh → key.isCompressed = true) := by
  cases selected <;> simp [ComboSelector.script?, isSome_witnessScript?]

end PublicKey

namespace Descriptor

variable {selector : Option ComboSelector} {node : Descriptor}

theorem isSome_scriptWith (resolve : Resolver) :
    (node.scriptWith resolve selector).isSome = true ↔
      (∀ expr ∈ node.keys, (resolve expr).isSome = true) ∧
      (∀ expr ∈ node.witnessKeys selector, ∀ key, resolve expr = some key →
        key.isCompressed = true) ∧
      (node.hasCombo = true → selector.isSome = true) := by
  induction node with
  | raw _ => simp [scriptWith, keys, witnessKeys, hasCombo]
  | addr _ => simp [scriptWith, keys, witnessKeys, hasCombo]
  | pk key => simp [scriptWith, keys, witnessKeys, hasCombo]
  | pkh key => simp [scriptWith, keys, witnessKeys, hasCombo]
  | wpkh key =>
    cases h : resolve key <;>
      simp [scriptWith, keys, witnessKeys, hasCombo, h, PublicKey.isSome_witnessScript?]
  | combo key =>
    cases selector with
    | none => simp [scriptWith, keys, witnessKeys, hasCombo]
    | some selected =>
      cases h : resolve key <;>
        simp [scriptWith, keys, witnessKeys, hasCombo, h, PublicKey.isSome_comboScript?]
  | multi threshold keys sorted =>
    simp [scriptWith, Descriptor.keys, witnessKeys, hasCombo, isSome_mapM_iff]
  | wsh inner ih => simpa [scriptWith, keys, witnessKeys, hasCombo] using ih
  | sh inner ih => simpa [scriptWith, keys, witnessKeys, hasCombo] using ih

theorem mem_keys_of_mem_witnessKeys {expr : KeyExpression} :
    expr ∈ node.witnessKeys selector → expr ∈ node.keys := by
  induction node with
  | wsh inner ih => exact ih
  | sh inner ih => exact ih
  | combo key =>
    unfold witnessKeys
    split <;> simp [keys]
  | _ => simp [witnessKeys, keys]

/-- What a script needs: keys that resolve, no long key where a witness output is made from it, and
a selector for a `combo`. -/
theorem isSome_script?_iff [KeyArithmetic] {choice : Option Nat} {source : Option KeySource} :
    (node.script? choice source selector).isSome = true ↔
      (∀ expr ∈ node.keys, (expr.resolve? choice source).isSome = true) ∧
      (∀ expr ∈ node.witnessKeys selector, expr.key.isUncompressed = false) ∧
      (node.hasCombo = true → selector.isSome = true) := by
  rw [script?_eq_scriptWith, isSome_scriptWith]
  refine and_congr_right fun resolves => and_congr_left fun _ => ?_
  -- resolved or not, a key is as long as it was written
  refine forall₂_congr fun expr hwitness => ?_
  obtain ⟨found, hfound⟩ :=
    Option.isSome_iff_exists.mp (resolves expr (mem_keys_of_mem_witnessKeys hwitness))
  have long : found.isCompressed = !expr.key.isUncompressed := Key.isCompressed_of_resolve? hfound
  simp [hfound, long]

/-! ### Trees of the language -/

theorem WellFormed.no_witnessKeys (selector : Option ComboSelector)
    (h : node.WellFormed .insideWsh) :
    node.witnessKeys selector = [] ∧ node.hasCombo = false := by
  cases h with
  | pk _ => exact ⟨rfl, rfl⟩
  | pkh _ => exact ⟨rfl, rfl⟩
  | multi _ _ _ _ _ => exact ⟨rfl, rfl⟩
  | wpkh outside _ => exact absurd rfl outside
  | wsh outside _ => exact absurd rfl outside

/-- Inside `sh` only a key of its own goes into a witness output as it is. -/
theorem WellFormed.witnessKeys_insideSh (selector : Option ComboSelector)
    (h : node.WellFormed .insideSh) :
    (∀ expr, expr ∈ node.witnessKeys selector ↔ node = .wpkh expr) ∧ node.hasCombo = false := by
  cases h with
  | pk _ => simp [witnessKeys, hasCombo]
  | pkh _ => simp [witnessKeys, hasCombo]
  | multi _ _ _ _ _ => simp [witnessKeys, hasCombo]
  | wpkh _ _ => simp [witnessKeys, hasCombo, eq_comm]
  | wsh _ inner => simp [witnessKeys, hasCombo, inner.no_witnessKeys selector]

theorem WellFormed.mem_witnessKeys (h : node.WellFormed .top) {expr : KeyExpression} :
    expr ∈ node.witnessKeys selector ↔ (node = .wpkh expr ∨ node = .sh (.wpkh expr)) ∨
      node = .combo expr ∧ (selector = some .wpkh ∨ selector = some .shWpkh) := by
  cases h with
  | pk _ => simp [witnessKeys]
  | pkh _ => simp [witnessKeys]
  | multi _ _ _ _ _ => simp [witnessKeys]
  | addr _ => simp [witnessKeys]
  | wpkh _ _ => simp [witnessKeys, eq_comm]
  | combo _ =>
    by_cases hs : selector = some .wpkh ∨ selector = some .shWpkh
    · simp [witnessKeys, hs, eq_comm]
    · simp [witnessKeys, hs]
  | wsh _ inner => simp [witnessKeys, inner.no_witnessKeys selector]
  | sh inner => simp [witnessKeys, (inner.witnessKeys_insideSh selector).1]

theorem WellFormed.hasCombo_iff (h : node.WellFormed .top) :
    node.hasCombo = true ↔ ∃ expr, node = .combo expr := by
  cases h with
  | pk _ => simp [hasCombo]
  | pkh _ => simp [hasCombo]
  | multi _ _ _ _ _ => simp [hasCombo]
  | addr _ => simp [hasCombo]
  | wpkh _ _ => simp [hasCombo]
  | combo _ => simp [hasCombo]
  | wsh _ inner => simp [hasCombo, (inner.no_witnessKeys none).2]
  | sh inner => simp [hasCombo, (inner.witnessKeys_insideSh none).2]

theorem available_raw (choice : Option Nat) (script : Script) :
    (raw script).Available choice selector where
  wildcard := by simp [keys]
  hardened := by simp [keys]
  witness := by simp
  combo := by simp

section

variable [arithmetic : KeyArithmetic] {choice : Option Nat}

theorem WellFormed.available_of_script? (total : arithmetic.NeverFails) (h : node.WellFormed .top)
    (hscript : (node.script? choice none selector).isSome = true) :
    node.Available choice selector := by
  obtain ⟨resolves, short, selected⟩ := isSome_script?_iff.mp hscript
  have paths : ∀ expr ∈ node.keys, _ := fun expr hexpr =>
    (Key.isSome_resolve? total (h.keys expr hexpr).key.reachable).mp (resolves expr hexpr)
  refine ⟨?_, ?_, ?_, ?_⟩
  · rintro expr hexpr key children heq ⟨step, hstep, wild⟩
    exact (paths expr hexpr key children heq).1 step hstep wild
  · intro expr hexpr xpub children heq
    have normal := (paths expr hexpr _ children heq).2.resolve_left (by simp [ExtendedKey.isPrivate])
    simpa [Path.hasHardened] using normal
  · intro expr hnode
    exact short expr (h.mem_witnessKeys.mpr (.inl hnode))
  · intro expr hnode
    obtain ⟨found, hfound⟩ :=
      Option.isSome_iff_exists.mp (selected (h.hasCombo_iff.mpr ⟨expr, hnode⟩))
    refine ⟨found, hfound, fun witness => short expr (h.mem_witnessKeys.mpr (.inr ⟨hnode, ?_⟩))⟩
    simpa [hfound] using witness

theorem WellFormed.script?_of_available (total : arithmetic.NeverFails) (h : node.WellFormed .top)
    (available : node.Available choice selector) :
    (node.script? choice none selector).isSome = true := by
  refine isSome_script?_iff.mpr ⟨?_, ?_, ?_⟩
  · intro expr hexpr
    have reachable := (h.keys expr hexpr).key.reachable
    refine (Key.isSome_resolve? total reachable).mpr fun key children heq => ⟨?_, ?_⟩
    · intro step hstep wild
      exact available.wildcard expr hexpr key children heq ⟨step, hstep, wild⟩
    · cases key with
      | xprv _ => exact .inl rfl
      | xpub xpub =>
        have normal := available.hardened expr hexpr xpub children heq
        exact .inr (by simpa [Path.hasHardened] using normal)
  · intro expr hwitness
    rcases h.mem_witnessKeys.mp hwitness with hnode | ⟨hnode, witness⟩
    · exact available.witness expr hnode
    · obtain ⟨selected, hselected, short⟩ := available.combo expr hnode
      refine short ?_
      simpa [hselected] using witness
  · intro hcombo
    obtain ⟨expr, hnode⟩ := h.hasCombo_iff.mp hcombo
    obtain ⟨selected, hselected, _⟩ := available.combo expr hnode
    rw [hselected]
    rfl

/-- Without a source of private keys, a descriptor that was read has a script exactly if nothing in
its written form stands in the way; in all other cases it has none. -/
theorem script?_isSome_iff_available (total : arithmetic.NeverFails) {text : List Char}
    (h : parse text = .ok node) (choice : Option Nat) (selector : Option ComboSelector) :
    (node.script? choice none selector).isSome = true ↔ node.Available choice selector := by
  by_cases hraw : ∃ script, node = .raw script
  · obtain ⟨script, rfl⟩ := hraw
    exact ⟨fun _ => available_raw choice script, fun _ => rfl⟩
  · have valid := wellFormed_of_parse h fun script heq => hraw ⟨script, heq⟩
    exact ⟨valid.available_of_script? total, valid.script?_of_available total⟩

end

/-- A private root and a path to a hardened child of it, and on to a child of the caller's choice. -/
def rangedSample : List Char :=
  ("sh(wpkh(xprv9s21ZrQH143K3QTDL4LXw2F7HEK3wJUD2nW2nRk4stbPy6cq3jPPqjiChkVvvNKmPGJxWUtg6LnF5kejMRNNU3TGt" ++
    "RBeJgk33yuGBxrMPHi/0h/*))").toList

/-- With a choice it has a script, and without one it has none. -/
theorem script?_rangedSample :
    letI := endlessChain
    ∃ node, parse rangedSample = .ok node ∧
      (node.script? (some 1) none none).isSome = true ∧ node.script? none none none = none := by
  let := endlessChain
  let path : Path := ⟨.unnamed, [⟨.concrete OneChain.firstHardened.index, true⟩, ⟨.wildcard, false⟩],
    by decide, by decide⟩
  let key : KeyExpression := ⟨none, .extended (.xprv (OneChain.atRoot OneChain.root)) path⟩
  have runs : (parse rangedSample).toOption.map id = some (sh (wpkh key)) := by decide +kernel
  obtain ⟨_, reads, rfl⟩ := exists_ok_of_toOption_map runs
  have criterion := script?_isSome_iff_available oneChain.unfailing_neverFails reads
  refine ⟨_, reads, (criterion (some 1) none).mpr ?_, ?_⟩
  · refine ⟨fun _ _ _ _ _ _ => ⟨1, rfl, by decide⟩, ?_, ?_, by simp⟩
    · intro expr hexpr xpub children h
      obtain rfl := List.mem_singleton.mp hexpr
      cases h
    · rintro expr (h | h)
      · cases h
      · cases h
        rfl
  · rw [← Option.not_isSome_iff_eq_none, criterion none none]
    intro available
    obtain ⟨_, h, _⟩ := available.wildcard key (List.mem_singleton_self key) _ path rfl
      ⟨⟨.wildcard, false⟩, by simp [path], rfl⟩
    cases h

end Descriptor

end OutputDescriptor
