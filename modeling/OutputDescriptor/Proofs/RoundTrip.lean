import OutputDescriptor.Proofs.Characters
import OutputDescriptor.Proofs.Grammar.Descriptor
import OutputDescriptor.Proofs.Key.Laws
import OutputDescriptor.Proofs.Text

/-!
Descriptors that were read are written as texts that read back.

What the parser finds is well formed, and stays so when it is made public. A well formed tree is
written as a text that is read as lexemes from which the grammar derives the tree again, and the
parser finds whatever the grammar derives.
-/

namespace OutputDescriptor

open Lexer Grammar

namespace Descriptor

/-- A tree that is found again in its text, with a checksum and without. -/
def ReadsBack (node : Descriptor) : Prop :=
  parse node.text = .ok node ∧ ∃ text, node.checkedText = .ok text ∧ parse text = .ok node

theorem parse_eq_ok {text : List Char} {node : Descriptor} :
    parse text = .ok node ↔ ∃ body tokens, Checksum.verify text = .ok body ∧
      tokenize body = .ok tokens ∧ ofTokens tokens = .ok node := by
  unfold parse parseBody
  cases hbody : Checksum.verify text with
  | error error => simp [Except.mapError, bind, Except.bind]
  | ok body =>
    cases htokens : tokenize body with
    | error error => simp [Except.mapError, bind, Except.bind, htokens]
    | ok tokens =>
      cases hnode : ofTokens tokens with
      | error error => simp [Except.mapError, bind, Except.bind, htokens, hnode]
      | ok found => simp [Except.mapError, bind, Except.bind, htokens, hnode]

/-- A text is a descriptor if the grammar derives one from what it is read as. -/
theorem parse_eq_ok_iff_derives {text : List Char} {node : Descriptor} :
    parse text = .ok node ↔ ∃ body lexemes, Checksum.verify text = .ok body ∧
      Lexed none body lexemes ∧ Derives .top lexemes node := by
  rw [parse_eq_ok]
  constructor
  · rintro ⟨body, tokens, hbody, htokens, hnode⟩
    obtain ⟨lexemes, hderives, hconsumes⟩ := (parses_iff_derives
      (Lexeme.occurs_of_tokenize htokens)).mp (ofTokens_eq_ok.mp hnode)
    obtain rfl := Consumes.iff_of_nil.mp hconsumes
    exact ⟨body, _, hbody, lexed_of_tokenize htokens, hderives⟩
  · rintro ⟨body, lexemes, hbody, hlexed, hderives⟩
    obtain ⟨tokens, htokens, rfl⟩ := tokenize_of_lexed hlexed
    refine ⟨body, tokens, hbody, htokens, ofTokens_eq_ok.mpr ?_⟩
    refine (parses_iff_derives (Lexeme.occurs_of_tokenize htokens)).mpr ?_
    exact ⟨_, hderives, Consumes.iff_of_nil.mpr rfl⟩

theorem wellFormed_of_parse {text : List Char} {node : Descriptor} (h : parse text = .ok node)
    (hraw : ∀ script, node ≠ .raw script) : node.WellFormed .top := by
  obtain ⟨body, lexemes, _, hlexed, hderives⟩ := parse_eq_ok_iff_derives.mp h
  exact wellFormed_of_derives hderives hlexed.occurs hraw

theorem WellFormed.readsBack {node : Descriptor} (h : node.WellFormed .top) : node.ReadsBack := by
  obtain ⟨lexemes, hderives, hreads⟩ := exists_derives h
  obtain ⟨checked, hchecked, hverify⟩ := node.exists_checkedText
  refine ⟨parse_eq_ok_iff_derives.mpr ?_, checked, hchecked, parse_eq_ok_iff_derives.mpr ?_⟩
  · exact ⟨_, lexemes, node.verify_text, hreads.readsAs none, hderives⟩
  · exact ⟨_, lexemes, hverify, hreads.readsAs none, hderives⟩

end Descriptor

namespace KeyExpression

/-- A well formed key is found again in its text, with either marker. -/
theorem WellFormed.readsBack {expr : KeyExpression} (h : expr.WellFormed)
    (marker : HardenedMarker) :
    ∃ tokens, tokenize (expr.render marker) = .ok tokens ∧
      Parser.key.run tokens = (.ok expr, []) := by
  obtain ⟨lexemes, hkey, hreads⟩ := exists_keyOf marker h
  obtain ⟨tokens, htokens, rfl⟩ := tokenize_of_lexed (hreads.readsAs none)
  refine ⟨tokens, htokens, Parser.parses_key hkey ?_ (Consumes.iff_of_nil.mpr rfl) ?_⟩
  · exact List.forall_mem_map.mpr (Lexeme.occurs_of_tokenize htokens)
  · intro token htoken
    cases htoken

end KeyExpression

theorem Descriptor.WellFormed.keys {place : Place} {node : Descriptor} (h : node.WellFormed place) :
    ∀ key ∈ node.keys, key.WellFormed := by
  induction h with
  | pk h => simpa [Descriptor.keys] using h
  | pkh h => simpa [Descriptor.keys] using h
  | wpkh _ h => simpa [Descriptor.keys] using h
  | combo h => simpa [Descriptor.keys] using h
  | multi _ h => exact h
  | wsh _ _ ih => exact ih
  | sh _ ih => exact ih
  | addr => simp [Descriptor.keys]

section

variable [arithmetic : KeyArithmetic]

theorem KeyExpression.WellFormed.toPublic (onCurve : arithmetic.PublicKeysOnCurve)
    {expr : KeyExpression} (h : expr.WellFormed) : expr.toPublic.WellFormed := by
  refine ⟨?_, h.origin⟩
  obtain ⟨origin, key⟩ := expr
  have hkey := h.key
  cases key with
  | literal key => exact hkey
  | wif key => exact onCurve key.secret
  | extended key children =>
    obtain ⟨valid, horigin⟩ := hkey
    refine ⟨?_, horigin⟩
    cases key with
    | xpub key => exact valid
    | xprv key => exact onCurve key.key

theorem Descriptor.WellFormed.toPublic (onCurve : arithmetic.PublicKeysOnCurve) {place : Place}
    {node : Descriptor} (h : node.WellFormed place) : node.toPublic.WellFormed place := by
  induction h with
  | pk h => exact .pk (h.toPublic onCurve)
  | pkh h => exact .pkh (h.toPublic onCurve)
  | wpkh outside h => exact .wpkh outside (h.toPublic onCurve)
  | combo h => exact .combo (h.toPublic onCurve)
  | multi sorted h pos le few =>
    refine .multi sorted ?_ pos (by simpa using le) (by simpa using few)
    intro key hkey
    obtain ⟨expr, hexpr, rfl⟩ := List.mem_map.mp hkey
    exact (h expr hexpr).toPublic onCurve
  | wsh outside _ ih => exact .wsh outside ih
  | sh _ ih => exact .sh ih
  | addr occurs => exact .addr occurs

/-- Whatever was read, other than a bare script, is written as texts that read back, it and its
public form, and so is each of its keys, with either marker. -/
theorem Descriptor.readsBack_of_parse (onCurve : arithmetic.PublicKeysOnCurve) {text : List Char}
    {node : Descriptor} (h : Descriptor.parse text = .ok node)
    (hraw : ∀ script, node ≠ .raw script) :
    node.ReadsBack ∧ node.toPublic.ReadsBack ∧
      ∀ key ∈ node.keys, ∀ marker, ∃ tokens, tokenize (key.render marker) = .ok tokens ∧
        Parser.key.run tokens = (.ok key, []) := by
  have valid := wellFormed_of_parse h hraw
  refine ⟨valid.readsBack, (valid.toPublic onCurve).readsBack, fun key hkey marker => ?_⟩
  exact (valid.keys key hkey).readsBack marker

end

namespace Descriptor

/-- A secret key with its origin, the only key of a script in a script in a script. -/
def wifSample : List Char :=
  "sh(wsh(multi(1,[d34db33f/44'/0]KwDiBf89QgGbjEhKnhXJuH7LrciVrZi3qYjgd9M7rFU73sVHnoWn)))".toList

theorem readsBack_wifSample :
    letI := oneKey
    ∃ node, parse wifSample = .ok node ∧ (∀ script, node ≠ .raw script) ∧
      node.ReadsBack ∧ node.toPublic.ReadsBack := by
  let := oneKey
  have reads : ((parse wifSample).toOption.map keys).map List.length = some 1 := by decide +kernel
  cases hnode : parse wifSample with
  | error => simp [hnode, Except.toOption] at reads
  | ok node =>
    have hraw : ∀ script, node ≠ .raw script := by
      rintro script rfl
      simp [hnode, Except.toOption, keys] at reads
    obtain ⟨h, hpublic, _⟩ := readsBack_of_parse oneKey_onCurve hnode hraw
    exact ⟨node, rfl, hraw, h, hpublic⟩

end Descriptor

end OutputDescriptor
