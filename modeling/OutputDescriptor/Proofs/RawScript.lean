import OutputDescriptor.Proofs.RoundTrip

/-!
When a bare script is found again in its text.

The bytes of a script are written as hex digits, and nothing tells these from other literals: the
rules for addresses and for secret keys come first and take the digits if they mean something. So a
script is lost to its text if its digits spell an address, or those up to the first zero a secret
key. Which digits do can depend on capitals, and a script is always written without them.
-/

namespace OutputDescriptor

open Grammar

namespace Lexer

variable {previous : Option Lexeme} {text : List Char} {lexemes : List Lexeme}

theorem onRun_eq_none_iff {inClass : Char → Bool} {read? : List Char → Option Lexeme}
    (hnil : read? [] = none) :
    onRun inClass read? text = none ↔ read? (text.takeWhile inClass) = none := by
  unfold onRun
  by_cases hrun : text.takeWhile inClass = []
  · simp [hrun, hnil]
  · simp [hrun]

theorem wif_eq_none_iff : wif text = none ↔ WifKey.parse? (text.takeWhile isBase58) = none := by
  have hnil : WifKey.parse? [] = none := by decide
  rw [wif, onRun_eq_none_iff (by rw [hnil, Option.map_none]), Option.map_eq_none_iff]

/-- Extended keys begin with a letter that is no hex digit. -/
theorem extendedKey_eq_none_of_hex (hdigits : ∀ c ∈ text, isHexDigit c = true) :
    extendedKey text = none := by
  refine onRun_eq_none ?_
  cases hk : ExtendedKey.parse? (text.takeWhile isBase58) with
  | none => rfl
  | some key =>
    obtain ⟨c, tail, hc, _, hrun⟩ := ExtendedKey.front_of_parse? hk
    have hmem : c ∈ text.takeWhile isBase58 := by simp [hrun]
    have hhex := hdigits c (List.takeWhile_subset _ hmem)
    rcases hc with rfl | rfl
    · exact absurd hhex (by decide)
    · exact absurd hhex (by decide)

/-- Hex digits are read as such unless they spell an address, or begin with a secret key. -/
theorem lexeme?_hex_iff (hdigits : ∀ c ∈ text, isHexDigit c = true) {digits : List Char}
    {length : Nat} :
    lexeme? previous text = some (.hex digits, length) ↔
      (digits = text ∧ length = text.length) ∧ 2 ≤ text.length ∧ Address.parse? text = none ∧
        WifKey.parse? (text.takeWhile isBase58) = none := by
  have halnum : ∀ c ∈ text, c.isAlphanum = true :=
    fun c hc => isAlphanum_of_isHexDigit (hdigits c hc)
  have hrun : text.takeWhile Char.isAlphanum = text := List.takeWhile_eq_self_iff.mpr halnum
  rw [← wif_eq_none_iff]
  constructor
  · intro h
    have hrule : hex text = some (.hex digits, length) := (ruleOf_of_lexeme? h).1
    obtain ⟨hread, hlength, _⟩ := onRun_eq_some hrule
    rw [List.takeWhile_eq_self_iff.mpr hdigits] at hread hlength
    split at hread <;> cases hread
    next htwo =>
    have split : rules previous = [delimiter, keyword, address, wif] ++ (rules previous).drop 4 :=
      rfl
    have others : ∀ rule ∈ [delimiter, keyword, address, wif],
        rule text ≠ some (.hex text, length) := by
      intro rule hmem hfits
      simp only [List.mem_cons, List.not_mem_nil, or_false] at hmem
      rcases hmem with rfl | rfl | rfl | rfl
      · obtain ⟨_, _, heq, _⟩ := delimiter_eq_some hfits
        cases heq
      · exact onRun_map_ne (by simp) hfits
      · exact onRun_map_ne (by simp) hfits
      · exact onRun_map_ne (by simp) hfits
    have earlier := eq_none_of_lexeme? split h others
    have haddress : address text = none := earlier address (by simp)
    rw [address, onRun_eq_none_iff (by decide), hrun, Option.map_eq_none_iff] at haddress
    exact ⟨⟨rfl, hlength⟩, htwo, haddress, earlier wif (by simp)⟩
  · rintro ⟨⟨rfl, rfl⟩, htwo, haddress, hwif⟩
    exact lexeme?_hex htwo hdigits (keyword_eq_none_of_hex hdigits) haddress hwif
      (extendedKey_eq_none_of_hex hdigits)

/-- A text that consists of a keyword and an argument is read as these, whatever the argument. -/
theorem lexed_call_iff {name : Keyword} {argument : List Char} :
    Lexed previous (Descriptor.call name argument) lexemes ↔
      ∃ inside, lexemes = .keyword name :: .delimiter .openParen :: inside ∧
        Lexed (some (.delimiter .openParen)) (argument ++ [')']) inside := by
  have whole : Descriptor.call name argument = name.text ++ (['('] ++ (argument ++ [')'])) := by
    simp [Descriptor.call]
  have hname : lexeme? previous (name.text ++ (['('] ++ (argument ++ [')']))) =
      some (.keyword name, name.text.length) := by
    have hboundary : Boundary (['('] ++ (argument ++ [')'])) := boundary_char .openParen
    rw [lexeme?_append (keyword_text_ne_nil name) hboundary, lexeme?_keyword]
  rw [whole, lexed_append_iff hname]
  have inner {tail : List Lexeme} :
      Lexed (some (.keyword name)) (['('] ++ (argument ++ [')'])) tail ↔
        ∃ inside, tail = .delimiter .openParen :: inside ∧
          Lexed (some (.delimiter .openParen)) (argument ++ [')']) inside :=
    lexed_append_iff (lexeme?_delimiter .openParen)
  constructor
  · rintro ⟨tail, rfl, h⟩
    obtain ⟨inside, rfl, hinside⟩ := inner.mp h
    exact ⟨inside, rfl, hinside⟩
  · rintro ⟨inside, rfl, h⟩
    exact ⟨_, rfl, inner.mpr ⟨inside, rfl, h⟩⟩

theorem lexed_hex_iff (hdigits : ∀ c ∈ text, isHexDigit c = true) {digits : List Char} :
    Lexed previous (text ++ [')']) [.hex digits, .delimiter .closeParen] ↔
      digits = text ∧ 2 ≤ text.length ∧ Address.parse? text = none ∧
        WifKey.parse? (text.takeWhile isBase58) = none := by
  have hclosing : Boundary [')'] := boundary_char .closeParen
  constructor
  · intro h
    obtain ⟨length, head, _⟩ := lexed_cons_iff.mp h
    have hne : text ≠ [] := by
      rintro rfl
      have hdelimiter : lexeme? previous [')'] = some (.delimiter .closeParen, 1) :=
        lexeme?_delimiter .closeParen
      rw [List.nil_append, hdelimiter] at head
      cases head
    rw [lexeme?_append hne hclosing, lexeme?_hex_iff hdigits] at head
    exact ⟨head.1.1, head.2⟩
  · rintro ⟨rfl, htwo, hother⟩
    have hne : digits ≠ [] := by
      rintro rfl
      simp at htwo
    refine lexed_cons ?_ (lexed_cons (lexeme?_delimiter .closeParen) .nil)
    rw [lexeme?_append hne hclosing, lexeme?_hex_iff hdigits]
    exact ⟨⟨rfl, rfl⟩, htwo, hother⟩

end Lexer

open Lexer

theorem Grammar.derives_raw_iff {inside : List Lexeme} {node : Descriptor} :
    Derives .top (.keyword .raw :: .delimiter .openParen :: inside) node ↔
      ∃ digits, inside = [.hex digits, .delimiter .closeParen] ∧ digits.length % 2 = 0 ∧
        node = .raw (bytesOf digits) := by
  constructor
  · intro h
    generalize hlexemes : Lexeme.keyword .raw :: Lexeme.delimiter .openParen :: inside = lexemes at h
    cases h with
    | raw even =>
      simp only [Grammar.call, List.cons_append, List.nil_append, List.cons.injEq, true_and]
        at hlexemes
      exact ⟨_, hlexemes, even, rfl⟩
    | multi sorted =>
      cases sorted <;> simp [Grammar.call, multisigKeyword] at hlexemes
    | _ => simp [Grammar.call] at hlexemes
  · rintro ⟨digits, rfl, even, rfl⟩
    exact .raw even

namespace Descriptor

/-- Whether a script is found behind its keyword, in capitals or not, depends on its digits alone. -/
theorem parse_call_raw_iff {digits : List Char} (hdigits : ∀ c ∈ digits, isHexDigit c = true)
    {node : Descriptor} :
    parse (call .raw digits) = .ok node ↔ node = .raw (bytesOf digits) ∧ digits.length % 2 = 0 ∧
      digits ≠ [] ∧ Address.parse? digits = none ∧
      WifKey.parse? (digits.takeWhile isBase58) = none := by
  have hplain : ∀ c ∈ call .raw digits, Checksum.Plain c :=
    plain_of_mem_call fun c hc => .inl (isAlphanum_of_isHexDigit (hdigits c hc))
  have hbody : Checksum.verify (call .raw digits) = .ok (call .raw digits) :=
    Checksum.verify_of_no_hash fun c hc => Checksum.ne_hash_of_plain (hplain c hc)
  rw [parse_eq_ok_iff_derives]
  constructor
  · rintro ⟨body, lexemes, hverify, hlexed, hderives⟩
    obtain rfl : call .raw digits = body := Except.ok.inj (hbody.symm.trans hverify)
    obtain ⟨inside, rfl, hinside⟩ := lexed_call_iff.mp hlexed
    obtain ⟨found, rfl, even, rfl⟩ := derives_raw_iff.mp hderives
    obtain ⟨rfl, htwo, hother⟩ := (lexed_hex_iff hdigits).mp hinside
    exact ⟨rfl, even, List.ne_nil_of_length_pos (by omega), hother⟩
  · rintro ⟨rfl, even, hne, hother⟩
    have hpos := List.length_pos_iff.mpr hne
    refine ⟨_, _, hbody, lexed_call_iff.mpr ⟨_, rfl, (lexed_hex_iff hdigits).mpr ⟨rfl, ?_, hother⟩⟩, ?_⟩
    · omega
    · exact derives_raw_iff.mpr ⟨digits, rfl, even, rfl⟩

/-- The text of a script reads as the script or not at all. It does read unless there are no bytes,
or their digits are taken for an address or, up to the first zero, for a secret key. -/
theorem parse_raw_text_iff {bytes : Bytes} {node : Descriptor} :
    parse (raw bytes).text = .ok node ↔ node = .raw bytes ∧ bytes ≠ [] ∧
      Address.parse? bytes.toHex = none ∧ WifKey.parse? (bytes.toHex.takeWhile isBase58) = none := by
  have hspells : bytesOf bytes.toHex = bytes := (ofHex?_eq_some (Bytes.ofHex?_toHex bytes)).2
  have even : bytes.toHex.length % 2 = 0 := by
    rw [Bytes.length_toHex, Nat.mul_mod_right]
  have hempty : bytes.toHex ≠ [] ↔ bytes ≠ [] := by
    rw [← List.length_pos_iff, ← List.length_pos_iff, Bytes.length_toHex]
    omega
  have whole : (raw bytes).text = call .raw bytes.toHex := rfl
  rw [whole, parse_call_raw_iff fun c => isHexDigit_of_mem_toHex, hspells, hempty]
  simp only [even, true_and]

/-- A script whose digits are those of an address; a capital keeps it from being read as one. -/
theorem parse_capitalSample :
    ∃ bytes ≠ [], parse "raw(Bc199999928c33eff2)".toList = .ok (.raw bytes) ∧
      parse (raw bytes).text ≠ .ok (.raw bytes) := by
  refine ⟨[0xbc, 0x19, 0x99, 0x99, 0x92, 0x8c, 0x33, 0xef, 0xf2], by simp, ?_⟩
  decide +kernel

end Descriptor

end OutputDescriptor
