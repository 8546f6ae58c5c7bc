import OutputDescriptor.Proofs.Token.Path

/-!
What the grammar derives is written as a text that is read as lexemes from which it is derived again.

The lexemes need not be those it was read from: hex digits may have been capitals, markers may have
been apostrophes, and numerals may have had leading zeros. So they are found anew from the value, of
which nothing has to be known but that it is well formed.
-/

namespace OutputDescriptor

open Lexer Grammar

/-- A key as the parser finds it: a point of the curve where there is one, and steps that start at
the key. -/
def Key.WellFormed : Key → Prop
  | .literal key => key.isOnCurve = true
  | .wif _ => True
  | .extended key children => key.IsValid ∧ children.origin = .unnamed

/-- A key expression as the parser finds it: the path in front starts at a fingerprint. -/
structure KeyExpression.WellFormed (expr : KeyExpression) : Prop where
  key : expr.key.WellFormed
  origin : ∀ path, expr.origin = some path → path.origin.fingerprint?.isSome = true

/-- Trees as the parser finds them, scripts given as bytes left out. -/
inductive Descriptor.WellFormed : Place → Descriptor → Prop
  | pk {place : Place} {key : KeyExpression} (h : key.WellFormed) : WellFormed place (.pk key)
  | pkh {place : Place} {key : KeyExpression} (h : key.WellFormed) : WellFormed place (.pkh key)
  | wpkh {place : Place} {key : KeyExpression} (outside : place ≠ .insideWsh) (h : key.WellFormed) :
    WellFormed place (.wpkh key)
  | combo {key : KeyExpression} (h : key.WellFormed) : WellFormed .top (.combo key)
  | multi {place : Place} {threshold : Nat} {keys : List KeyExpression} (sorted : Bool)
    (h : ∀ key ∈ keys, key.WellFormed) (pos : 1 ≤ threshold) (le : threshold ≤ keys.length)
    (few : keys.length ≤ 20) : WellFormed place (.multi threshold keys sorted)
  | wsh {place : Place} {inner : Descriptor} (outside : place ≠ .insideWsh)
    (h : WellFormed .insideWsh inner) : WellFormed place (.wsh inner)
  | sh {inner : Descriptor} (h : WellFormed .insideSh inner) : WellFormed .top (.sh inner)
  | addr {address : Address} (occurs : (Lexeme.address address).Occurs) :
    WellFormed .top (.addr address)

/-! ### What is derived is well formed -/

theorem Grammar.wellFormed_of_materialOf {lexemes : List Lexeme} {key : Key}
    (h : MaterialOf lexemes key) (occurs : ∀ lexeme ∈ lexemes, lexeme.Occurs) : key.WellFormed := by
  cases h with
  | literal _ _ valid => exact valid
  | wif => exact trivial
  | extended key _ _ =>
    obtain ⟨_, _, _, h⟩ := occurs (.extendedKey key) (by simp)
    exact ⟨(ExtendedKey.parse?_eq_some (extendedKey_of_lexeme? h)).1, rfl⟩

theorem Grammar.wellFormed_of_keyOf {lexemes : List Lexeme} {expr : KeyExpression}
    (h : KeyOf lexemes expr) (occurs : ∀ lexeme ∈ lexemes, lexeme.Occurs) : expr.WellFormed := by
  cases h with
  | bare h => exact ⟨wellFormed_of_materialOf h occurs, by simp⟩
  | withOrigin front h =>
    simp only [List.forall_mem_append] at occurs
    refine ⟨wellFormed_of_materialOf h occurs.2, fun path hpath => ?_⟩
    cases hpath
    cases front
    rfl

theorem Grammar.wellFormed_of_keysOf {lexemes : List Lexeme} {keys : List KeyExpression}
    (h : KeysOf lexemes keys) :
    (∀ lexeme ∈ lexemes, lexeme.Occurs) → ∀ expr ∈ keys, expr.WellFormed := by
  induction h with
  | nil => simp
  | cons head _ ih =>
    intro occurs
    simp only [List.cons_append, List.forall_mem_cons, List.forall_mem_append] at occurs
    exact List.forall_mem_cons.mpr ⟨wellFormed_of_keyOf head occurs.2.1, ih occurs.2.2⟩

theorem Grammar.wellFormed_of_derives {place : Place} {lexemes : List Lexeme} {node : Descriptor}
    (h : Derives place lexemes node) :
    (∀ lexeme ∈ lexemes, lexeme.Occurs) → (∀ script, node ≠ .raw script) →
      Descriptor.WellFormed place node := by
  induction h with
  | raw => exact fun _ hraw => absurd rfl (hraw _)
  | pk h => exact fun occurs _ => .pk (wellFormed_of_keyOf h (occurs_of_call occurs))
  | pkh h => exact fun occurs _ => .pkh (wellFormed_of_keyOf h (occurs_of_call occurs))
  | wpkh outside h =>
    exact fun occurs _ => .wpkh outside (wellFormed_of_keyOf h (occurs_of_call occurs))
  | combo h => exact fun occurs _ => .combo (wellFormed_of_keyOf h (occurs_of_call occurs))
  | multi sorted _ h pos le few =>
    intro occurs _
    have occurs := (List.forall_mem_cons.mp (occurs_of_call occurs)).2
    exact .multi sorted (wellFormed_of_keysOf h occurs) pos le few
  | wsh outside h ih =>
    intro occurs _
    refine .wsh outside (ih (occurs_of_call occurs) ?_)
    rintro script rfl
    cases h
  | sh h ih =>
    intro occurs _
    refine .sh (ih (occurs_of_call occurs) ?_)
    rintro script rfl
    cases h
  | addr address => exact fun occurs _ => .addr (occurs_of_call occurs _ (by simp))

/-! ### Written paths -/

theorem numeral_spells {n : Nat} : Numeral (numeral n) n := by
  have spelled := numeral_digitsLexeme (ChildIndex.isNumeral_toDigits n)
  rwa [digitsLexeme_toDigits, Nat.ofDigitChars_ten_toDigits] at spelled

theorem exists_stepsOf (marker : HardenedMarker) (steps : List Step) :
    ∃ lexemes, StepsOf lexemes steps ∧
      Reads (steps.flatMap fun step => '/' :: step.render marker) lexemes :=
  (Step.spellsAll_render marker steps).reads (Step.no_capital_render marker steps)

/-- A path in front of a key, up to its closing bracket, behind which the key follows at once. -/
theorem exists_originOf {path : Path} (h : path.origin.fingerprint?.isSome = true) :
    ∃ lexemes, OriginOf (lexemes ++ [.delimiter .closeBracket]) path ∧
      Reads ('[' :: path.text) lexemes := by
  have hparse : Path.parse path.text = .ok path := Path.parse_render .letter path
  obtain ⟨lexemes, horigin, hreads⟩ :=
    exists_originOf_of_parse hparse h (Path.no_capital_render .letter path)
  exact ⟨_, horigin, hreads.delimiter_cons .openBracket⟩

/-! ### Written keys -/

theorem exists_materialOf (marker : HardenedMarker) {key : Key} (h : key.WellFormed) :
    ∃ lexemes, MaterialOf lexemes key ∧ Reads (key.render marker) lexemes := by
  cases key with
  | literal key =>
    have heven : (Bytes.toHex key.toBytes).length % 2 = 0 := by
      rw [Bytes.length_toHex, Nat.mul_mod_right]
    have hspells : bytesOf (Bytes.toHex key.toBytes) = key.toBytes :=
      (ofHex?_eq_some (Bytes.ofHex?_toHex key.toBytes)).2
    exact ⟨_, .literal heven hspells h, reads_publicKey key⟩
  | wif key => exact ⟨_, .wif key, reads_wif key⟩
  | extended key children =>
    obtain ⟨origin, steps, last, concrete⟩ := children
    obtain ⟨valid, rfl⟩ := h
    obtain ⟨lexemes, hsteps, hreads⟩ := exists_stepsOf marker steps
    refine ⟨_, .extended key hsteps last, ?_⟩
    exact (reads_extendedKey valid).append hreads (Step.spellsAll_render marker steps).boundary

theorem exists_keyOf (marker : HardenedMarker) {expr : KeyExpression} (h : expr.WellFormed) :
    ∃ lexemes, KeyOf lexemes expr ∧ Reads (expr.render marker) lexemes := by
  obtain ⟨origin, key⟩ := expr
  obtain ⟨b, hb, hreads⟩ := exists_materialOf marker h.key
  cases origin with
  | none => exact ⟨b, .bare hb, hreads⟩
  | some path =>
    obtain ⟨a, ha, hreads'⟩ := exists_originOf (h.origin path rfl)
    refine ⟨_, .withOrigin ha hb, ?_⟩
    have whole := hreads'.append (hreads.delimiter_cons .closeBracket) (boundary_char .closeBracket)
    simpa [KeyExpression.render, Delimiter.char] using whole

theorem boundary_keys (keys : List KeyExpression) :
    Boundary (keys.flatMap fun key => ',' :: key.text) := by
  cases keys with
  | nil => exact boundary_nil
  | cons key keys => exact boundary_char .comma

theorem exists_keysOf {keys : List KeyExpression} (h : ∀ key ∈ keys, key.WellFormed) :
    ∃ lexemes, KeysOf lexemes keys ∧
      Reads (keys.flatMap fun key => ',' :: key.text) lexemes := by
  induction keys with
  | nil => exact ⟨[], .nil, reads_nil⟩
  | cons key keys ih =>
    obtain ⟨hkey, hkeys⟩ := List.forall_mem_cons.mp h
    obtain ⟨a, ha, hreads⟩ := exists_keyOf .letter hkey
    obtain ⟨b, hb, hreads'⟩ := ih hkeys
    exact ⟨_, .cons ha hb, (hreads.delimiter_cons .comma).append hreads' (boundary_keys keys)⟩

/-! ### Written trees -/

theorem reads_call (keyword : Keyword) {argument : List Char} {lexemes : List Lexeme}
    (h : Reads argument lexemes) :
    Reads (Descriptor.call keyword argument) (Grammar.call keyword lexemes) := by
  have inside := h.append (reads_nil.delimiter_cons .closeParen) (boundary_char .closeParen)
  have whole := (reads_keyword keyword).append (inside.delimiter_cons .openParen)
    (boundary_char .openParen)
  simpa [Descriptor.call, Grammar.call, Delimiter.char] using whole

/-- A well formed tree is written as a text that is read as lexemes it is derived from. -/
theorem exists_derives {place : Place} {node : Descriptor} (h : node.WellFormed place) :
    ∃ lexemes, Derives place lexemes node ∧ Reads node.text lexemes := by
  induction h with
  | pk h =>
    obtain ⟨lexemes, hkey, hreads⟩ := exists_keyOf .letter h
    exact ⟨_, .pk hkey, reads_call .pk hreads⟩
  | pkh h =>
    obtain ⟨lexemes, hkey, hreads⟩ := exists_keyOf .letter h
    exact ⟨_, .pkh hkey, reads_call .pkh hreads⟩
  | wpkh outside h =>
    obtain ⟨lexemes, hkey, hreads⟩ := exists_keyOf .letter h
    exact ⟨_, .wpkh outside hkey, reads_call .wpkh hreads⟩
  | combo h =>
    obtain ⟨lexemes, hkey, hreads⟩ := exists_keyOf .letter h
    exact ⟨_, .combo hkey, reads_call .combo hreads⟩
  | @multi place threshold keys sorted h pos le few =>
    obtain ⟨lexemes, hkeys, hreads⟩ := exists_keysOf h
    have hsmall : threshold < 0x80000000 := by omega
    have hargument := (reads_numeral hsmall).append hreads (boundary_keys keys)
    exact ⟨_, .multi sorted numeral_spells hkeys pos le few,
      reads_call (multisigKeyword sorted) hargument⟩
  | wsh outside _ ih =>
    obtain ⟨lexemes, hinner, hreads⟩ := ih
    exact ⟨_, .wsh outside hinner, reads_call .wsh hreads⟩
  | sh _ ih =>
    obtain ⟨lexemes, hinner, hreads⟩ := ih
    exact ⟨_, .sh hinner, reads_call .sh hreads⟩
  | addr occurs => exact ⟨_, .addr _, reads_call .addr (reads_address occurs)⟩

end OutputDescriptor
