import OutputDescriptor.Proofs.KeyRing
import OutputDescriptor.Proofs.PublicForm

/-!
How far a ring with a single key reaches.

A path from the public counterpart of the key passes through public keys only. The ring unlocks the
first of them, which is the counterpart itself, and the second one, since that one records the key
as its parent. All later ones lie too deep for it. So the steps may be hardened in the first two
places and nowhere else; and as far as the path gets, it passes through the counterparts of the keys
on the same path from the private key.
-/

namespace OutputDescriptor

/-- The hardened steps of a path are among its first ones exactly if no later one is hardened. -/
theorem Step.hardened_within_iff {count : Nat} {steps : List Step} :
    (∀ i step, steps[i]? = some step → step.hardened = true → i < count) ↔
      ∀ step ∈ steps.drop count, step.hardened = false := by
  constructor
  · intro within step hstep
    obtain ⟨i, hi⟩ := List.mem_iff_getElem?.mp hstep
    rw [List.getElem?_drop] at hi
    rw [← Bool.not_eq_true]
    intro hardened
    have := within _ step hi hardened
    omega
  · intro normal i step hi hardened
    refine Nat.lt_of_not_le fun late => ?_
    have later : step ∈ steps.drop count := by
      refine List.mem_iff_getElem?.mpr ⟨i - count, ?_⟩
      rw [List.getElem?_drop, Nat.add_sub_cancel' late, hi]
    rw [normal step later] at hardened
    cases hardened

/-- A child lies one level deeper, as long as the count of levels has room. -/
theorem Extended.depth_descend {K : Type} {parent : Extended K} {fp : Fingerprint}
    {number : ChildNumber} {key : K} {chainCode : ChainCode} (room : parent.depth.toNat < 255) :
    (parent.descend fp number key chainCode).depth.toNat = parent.depth.toNat + 1 := by
  show (parent.depth + 1).toNat = _
  rw [UInt8.toNat_add, UInt8.toNat_one]
  omega

section

variable [arithmetic : KeyArithmetic] {number : ChildNumber} {choice : Option Nat}
  {source : Option KeySource}

/-- A private key and its public counterpart, with one record. -/
inductive ExtendedKey.Counterparts : ExtendedKey → ExtendedKey → Prop
  | mk (key : Xprv) : Counterparts (.xprv key) (.xpub key.neuter)

/-- Normal children of counterparts are counterparts. -/
theorem Xprv.child?_neuter (agree : arithmetic.NormalChildrenAgree) {key child : Xprv}
    (normal : number.hardened = false) (h : key.child? number = some child) :
    key.neuter.child? number.index = some child.neuter := by
  obtain ⟨secret, hsecret, rfl⟩ := Xprv.child?_eq_some.mp h
  have hnumber : number = ⟨number.index, false⟩ := by rw [← normal]
  have hpoint : KeyArithmetic.childPoint? key.neuter.key key.neuter.chainCode number.index =
      some (KeyArithmetic.publicKey secret.1, secret.2) := by
    rw [hnumber] at hsecret
    show KeyArithmetic.childPoint? (KeyArithmetic.publicKey key.key) key.chainCode _ = _
    rw [agree, hsecret]
    rfl
  refine Xpub.child?_eq_some.mpr ⟨_, hpoint, ?_⟩
  rw [← hnumber]
  rfl

namespace ExtendedKey

/-- One step from counterparts. A hardened one needs a source that finds the private key itself. -/
theorem child?_neuter (agree : arithmetic.NormalChildrenAgree) {key child : Xprv}
    (unlocked : number.hardened = true → KeySource.unlock? source key.neuter = some key)
    (h : key.child? number = some child) :
    (xpub key.neuter).child? source number = some (xpub child.neuter) := by
  cases hn : number.hardened with
  | false => exact (child?_xpub_normal_eq_some hn).mpr ⟨_, Xprv.child?_neuter agree hn h, rfl⟩
  | true => exact (child?_xpub_hardened_eq_some hn).mpr ⟨key, child, unlocked hn, h, rfl⟩

/-- Along normal steps counterparts stay counterparts. -/
theorem Counterparts.descendant? (agree : arithmetic.NormalChildrenAgree) {a b last : ExtendedKey}
    {steps : List Step} (normal : ∀ step ∈ steps, step.hardened = false) (h : Counterparts a b)
    (hlast : a.descendant? choice none steps = some last) :
    ∃ last', b.descendant? choice source steps = some last' ∧ Counterparts last last' := by
  refine descendant?_follows ?_ h hlast
  rintro _ _ a' number ⟨step, hstep, hnumber⟩ ⟨key⟩ ha
  obtain ⟨child, hchild, rfl⟩ := child?_xprv_eq_some.mp ha
  have hnormal : number.hardened ≠ true := by simp [hnumber, normal step hstep]
  exact ⟨_, child?_neuter agree (fun hardened => absurd hardened hnormal) hchild, .mk child⟩

end ExtendedKey

theorem Xprv.depth_of_child? {key child : Xprv} (room : key.depth.toNat < 255)
    (h : key.child? number = some child) : child.depth.toNat = key.depth.toNat + 1 := by
  obtain ⟨_, _, rfl⟩ := Xprv.child?_eq_some.mp h
  exact Extended.depth_descend room

theorem Xpub.depth_of_child? {key child : Xpub} {index : ChildIndex} (room : key.depth.toNat < 255)
    (h : key.child? index = some child) : child.depth.toNat = key.depth.toNat + 1 := by
  obtain ⟨_, _, rfl⟩ := Xpub.child?_eq_some.mp h
  exact Extended.depth_descend room

/-! ### Answers of the ring -/

namespace KeyRing

variable {key child : Xprv} {locked : Xpub}

omit arithmetic in
theorem keys_single (key : Xprv) : (ofList [key]).keys = [key] := by
  show (empty.insert key).keys = [key]
  simp [insert, empty]

/-- The answer of the only key, checked to belong to the locked one. -/
theorem unlock?_single (key : Xprv) (locked : Xpub) :
    KeySource.unlock? (some (ofList [key]).unlock?) locked =
      (candidate? key locked).filter (·.unlocks locked) := by
  show ((ofList [key]).unlock? locked).filter (·.unlocks locked) = _
  unfold unlock?
  rw [keys_single]
  simp [Option.filter_filter]

theorem unlocks_neuter (key : Xprv) : key.unlocks key.neuter = true := by
  simp [Xprv.unlocks, Xprv.neuter]

theorem unlock?_counterpart (key : Xprv) :
    KeySource.unlock? (some (ofList [key]).unlock?) key.neuter = some key := by
  have offer : candidate? key key.neuter = some key := if_pos rfl
  rw [unlock?_single, offer, Option.filter_some, if_pos (unlocks_neuter key)]

/-- A child of the key is recognized by its record. -/
theorem unlock?_child (room : key.depth.toNat < 255) (h : key.child? number = some child) :
    KeySource.unlock? (some (ofList [key]).unlock?) child.neuter = some child := by
  have offer : candidate? key child.neuter = some child := by
    have depth : child.neuter.depth.toNat = key.depth.toNat + 1 := Xprv.depth_of_child? room h
    obtain ⟨secret, _, rfl⟩ := Xprv.child?_eq_some.mp h
    unfold candidate?
    rw [if_neg, if_pos]
    · exact h
    · exact ⟨depth.symm, rfl⟩
    · intro same
      rw [← same] at depth
      omega
  rw [unlock?_single, offer, Option.filter_some, if_pos (unlocks_neuter child)]

theorem unlock?_of_deeper (deeper : key.depth.toNat + 1 < locked.depth.toNat) :
    KeySource.unlock? (some (ofList [key]).unlock?) locked = none := by
  have offer : candidate? key locked = none := by
    unfold candidate?
    rw [if_neg, if_neg]
    · omega
    · intro same
      rw [same] at deeper
      omega
  rw [unlock?_single, offer, Option.filter_none]

end KeyRing

namespace ExtendedKey

/-- With whatever ring, the child of a public key is public and lies one level deeper. -/
theorem depth_of_child? {ring : KeyRing} {locked : Xpub} {child : ExtendedKey}
    (room : locked.depth.toNat < 255)
    (h : (xpub locked).child? (some ring.unlock?) number = some child) :
    ∃ next, child = xpub next ∧ next.depth.toNat = locked.depth.toNat + 1 := by
  cases hn : number.hardened with
  | false =>
    obtain ⟨next, hnext, rfl⟩ := (child?_xpub_normal_eq_some hn).mp h
    exact ⟨next, rfl, Xpub.depth_of_child? room hnext⟩
  | true =>
    obtain ⟨answer, next, hanswer, hnext, rfl⟩ := (child?_xpub_hardened_eq_some hn).mp h
    obtain ⟨key, _, offer, _⟩ := KeyRing.unlock?_eq_some hanswer
    have same := KeyRing.depth_of_candidate? offer
    rw [← same] at room ⊢
    exact ⟨next.neuter, rfl, Xprv.depth_of_child? room hnext⟩

/-- From a public key `level` levels below the one in the ring, only the steps from the first two
levels may be hardened. -/
theorem normal_of_descendant? {key : Xprv} {steps : List Step} :
    ∀ {level : Nat} {locked : Xpub} {last : ExtendedKey},
      locked.depth.toNat = key.depth.toNat + level → locked.depth.toNat + steps.length ≤ 255 →
        (xpub locked).descendant? choice (some (KeyRing.ofList [key]).unlock?) steps = some last →
          ∀ step ∈ steps.drop (2 - level), step.hardened = false := by
  induction steps with
  | nil => simp
  | cons step steps ih =>
    intro level locked last depth room h
    rw [List.length_cons] at room
    obtain ⟨number, child, hnumber, hchild, hrest⟩ := descendant?_cons_eq_some.mp h
    obtain ⟨next, rfl, below⟩ := depth_of_child? (by omega) hchild
    have deeper : next.depth.toNat = key.depth.toNat + (level + 1) := by omega
    have later := ih deeper (by omega) hrest
    by_cases near : level < 2
    · have reach : 2 - level = (2 - (level + 1)) + 1 := by omega
      rwa [reach, List.drop_succ_cons]
    · have far : 2 - level = 0 := by omega
      have farther : 2 - (level + 1) = 0 := by omega
      rw [farther, List.drop_zero] at later
      rw [far, List.drop_zero, List.forall_mem_cons]
      refine ⟨?_, later⟩
      rw [← Step.hardened_of_childNumber? hnumber, ← Bool.not_eq_true]
      intro hardened
      obtain ⟨_, _, hanswer, _⟩ := (child?_xpub_hardened_eq_some hardened).mp hchild
      rw [KeyRing.unlock?_of_deeper (by omega)] at hanswer
      cases hanswer

/-- A path whose later steps are normal is followed from the public counterpart. -/
theorem exists_descendant?_single (agree : arithmetic.NormalChildrenAgree) {key : Xprv}
    {last : ExtendedKey} {steps : List Step} (room : key.depth.toNat + steps.length ≤ 255)
    (normal : ∀ step ∈ steps.drop 2, step.hardened = false)
    (h : (xprv key).descendant? choice none steps = some last) :
    ∃ last', (xpub key.neuter).descendant? choice (some (KeyRing.ofList [key]).unlock?) steps =
      some last' := by
  cases steps with
  | nil => exact ⟨_, rfl⟩
  | cons first steps =>
    obtain ⟨number, _, hnumber, hfirst, hrest⟩ := descendant?_cons_eq_some.mp h
    obtain ⟨child, hchild, rfl⟩ := child?_xprv_eq_some.mp hfirst
    have reached := child?_neuter agree (fun _ => KeyRing.unlock?_counterpart key) hchild
    cases steps with
    | nil => exact ⟨_, descendant?_cons_eq_some.mpr ⟨number, _, hnumber, reached, rfl⟩⟩
    | cons second steps =>
      simp only [List.length_cons] at room
      obtain ⟨number', _, hnumber', hsecond, hrest⟩ := descendant?_cons_eq_some.mp hrest
      obtain ⟨child', hchild', rfl⟩ := child?_xprv_eq_some.mp hsecond
      have unlocked := KeyRing.unlock?_child (by omega) hchild
      have reached' := child?_neuter agree (fun _ => unlocked) hchild'
      obtain ⟨last', hlast', _⟩ := Counterparts.descendant? agree normal (.mk child') hrest
      exact ⟨last', descendant?_cons_eq_some.mpr ⟨number, _, hnumber, reached,
        descendant?_cons_eq_some.mpr ⟨number', _, hnumber', reached', hlast'⟩⟩⟩

end ExtendedKey

namespace KeyExpression

/-- With nothing but a private key in the ring, a path from its public counterpart resolves exactly
if the path from the private key does and hardened steps stand in its first two places only; then
both resolve to the same public key. -/
theorem resolve?_single_iff (inj : arithmetic.PublicKeyInjective)
    (agree : arithmetic.NormalChildrenAgree) (key : Xprv) (origin : Option Path) (path : Path)
    (choice : Option Nat) (room : key.depth.toNat + path.steps.length ≤ 255) :
    let ring := KeyRing.ofList [key]
    let locked : KeyExpression := ⟨origin, .extended (.xpub key.neuter) path⟩
    let unlocked : KeyExpression := ⟨origin, .extended (.xprv key) path⟩
    ((locked.resolve? choice (some ring.unlock?)).isSome = true ↔
      (unlocked.resolve? choice none).isSome = true ∧
        ∀ i step, path.steps[i]? = some step → step.hardened = true → i < 2) ∧
    ∀ found, locked.resolve? choice (some ring.unlock?) = some found →
      unlocked.resolve? choice none = some found := by
  intro ring locked unlocked
  have same : ∀ found, locked.resolve? choice (some ring.unlock?) = some found →
      unlocked.resolve? choice none = some found := by
    intro found h
    have h : (Key.extended (.xprv key) path).toPublic.resolve? choice (some ring.unlock?) =
      some found := h
    have kept := Key.resolve?_of_toPublic inj agree h
    exact Key.resolve?_source_irrelevant (fun _ _ h => nomatch h) kept
  refine ⟨⟨?_, ?_⟩, same⟩
  · intro h
    obtain ⟨found, hfound⟩ := Option.isSome_iff_exists.mp h
    obtain ⟨last, hlast, _⟩ := Key.resolve?_extended_eq_some.mp hfound
    have start : key.neuter.depth.toNat = key.depth.toNat + 0 := rfl
    have normal := ExtendedKey.normal_of_descendant? start room hlast
    exact ⟨Option.isSome_of_eq_some (same found hfound), Step.hardened_within_iff.mpr normal⟩
  · rintro ⟨h, within⟩
    obtain ⟨found, hfound⟩ := Option.isSome_iff_exists.mp h
    obtain ⟨last, hlast, _⟩ := Key.resolve?_extended_eq_some.mp hfound
    obtain ⟨last', hlast'⟩ := ExtendedKey.exists_descendant?_single agree room
      (Step.hardened_within_iff.mp within) hlast
    exact Option.isSome_of_eq_some (Key.resolve?_extended_eq_some.mpr ⟨last', hlast', rfl⟩)

end KeyExpression

end

/-- With the child in the ring, the hardened step to the leaf is the second one, and the caller may
name it. With the root in the ring it is the third one, and out of reach, though the private root
has the leaf below it as well. -/
theorem KeyExpression.resolve?_of_paths :
    letI := oneChain
    let root : Xprv := OneChain.atRoot OneChain.root
    let child : Xprv := root.descend OneChain.rootPoint.fingerprint OneChain.firstHardened
      OneChain.child OneChain.childChain
    let first : Step := ⟨.concrete OneChain.firstHardened.index, true⟩
    let second : Step := ⟨.concrete OneChain.second, false⟩
    let third : Step := ⟨.concrete OneChain.thirdHardened.index, true⟩
    let near : Path := ⟨.unnamed, [second, ⟨.wildcard, true⟩], by decide, by decide⟩
    let far : Path := ⟨.unnamed, [first, second, third], by decide, by decide⟩
    let locked (key : Xprv) (path : Path) : KeyExpression :=
      ⟨none, .extended (.xpub key.neuter) path⟩
    let unlocked (key : Xprv) (path : Path) : KeyExpression := ⟨none, .extended (.xprv key) path⟩
    let leaf := PublicKey.compressed OneChain.leafPoint
    child.depth.toNat + near.steps.length ≤ 255 ∧ root.depth.toNat + far.steps.length ≤ 255 ∧
    (locked child near).resolve? (some 2) (some (KeyRing.ofList [child]).unlock?) = some leaf ∧
    (unlocked child near).resolve? (some 2) none = some leaf ∧
    (locked root far).resolve? none (some (KeyRing.ofList [root]).unlock?) = none ∧
    (unlocked root far).resolve? none none = some leaf := by
  let := oneChain
  intro root child first second third near far locked unlocked leaf
  have criterion := resolve?_single_iff oneChain_injective oneChain_agrees
  have shown : (unlocked child near).resolve? (some 2) none = some leaf := by decide +kernel
  refine ⟨by decide, by decide, ?_, shown, ?_, by decide +kernel⟩
  · obtain ⟨resolves, same⟩ := criterion child none near (some 2) (by decide)
    have early : ∀ i step, near.steps[i]? = some step → step.hardened = true → i < 2 := by
      intro i step hstep _
      exact (List.getElem?_eq_some_iff.mp hstep).1
    obtain ⟨found, hfound⟩ :=
      Option.isSome_iff_exists.mp (resolves.mpr ⟨Option.isSome_of_eq_some shown, early⟩)
    obtain rfl := Option.some.inj (shown.symm.trans (same found hfound))
    exact hfound
  · obtain ⟨resolves, _⟩ := criterion root none far none (by decide)
    rw [← Option.not_isSome_iff_eq_none]
    intro shown
    exact absurd ((resolves.mp shown).2 2 third rfl rfl) (by decide)

end OutputDescriptor
