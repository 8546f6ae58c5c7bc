import OutputDescriptor.Proofs.Token.Literals
import OutputDescriptor.Proofs.Token.Tiling

/-!
A literal by itself is a single token.

The rules are tried in order on runs that overlap, and the one for keywords does not look at what
follows its letters. What rules out a clash is how a literal begins. A version byte in front of a
payload leaves few possibilities for the first characters of its text in base 58, and the
human-readable part of an address is no keyword.
-/

namespace OutputDescriptor

open Lexer

/-- A source that a rule takes as a whole is a single token. -/
theorem tokenize_of_lexeme? {source : String} {lexeme : Lexeme}
    (h : lexeme? none source.toList = some (lexeme, source.toList.length)) :
    tokenize source.toList = .ok [⟨lexeme, 0, source.utf8ByteSize⟩] := by
  have small : ∀ c ∈ source.toList, c.toNat < 128 := by
    have taken := (small_of_lexeme? h).2
    rwa [List.take_length] at taken
  have size : source.utf8ByteSize = source.toList.length := by
    rw [Utf8.utf8ByteSize_eq, Utf8.length_bytes_of_lt small]
  rw [tokenize, scan_of_lexeme? 0 (text_ne_nil_of_lexeme? h) h, List.drop_length, Nat.zero_add, size]
  rfl

/-- Whatever can be read as an address, as a secret key or as an extended key is a single token of
that kind, which spans the source and carries what was read. -/
theorem tokenize_literal (source : String) :
    (∀ address, Address.parse? source.toList = some address →
      tokenize source.toList = .ok [⟨.address address, 0, source.utf8ByteSize⟩]) ∧
    (∀ key, WifKey.parse? source.toList = some key →
      tokenize source.toList = .ok [⟨.wif key, 0, source.utf8ByteSize⟩]) ∧
    (∀ key, Xpub.parse? source.toList = some key →
      tokenize source.toList = .ok [⟨.extendedKey (.xpub key), 0, source.utf8ByteSize⟩]) ∧
    (∀ key, Xprv.parse? source.toList = some key →
      tokenize source.toList = .ok [⟨.extendedKey (.xprv key), 0, source.utf8ByteSize⟩]) := by
  refine ⟨fun address h => ?_, fun key h => ?_, fun key h => ?_, fun key h => ?_⟩
  · exact tokenize_of_lexeme? (lexeme?_address h)
  · exact tokenize_of_lexeme? (lexeme?_wif h)
  · exact tokenize_of_lexeme? (lexeme?_extendedKey (ExtendedKey.parse?_of_xpub h))
  · exact tokenize_of_lexeme? (lexeme?_extendedKey (ExtendedKey.parse?_of_xprv h))

/-- An address in capitals, where the rule for keywords finds no letter, and a key of each kind. -/
theorem tokenize_literalSamples :
    let address := "BC1QW508D6QEJXTDG4Y5R3ZARVARY0C5XW7KV8F3T4"
    let wif := "5Kb8kLf9zgWQnogidDA76MzPL6TsZZY36hWXMssSzNydYXYB9KF"
    let xpub := "xpub661MyMwAqRbcFtXgS5sYJABqqG9YLmC4Q1Rdap9gSE8NqtwybGhePY2gZ29ESFjqJoCu1Rupje8YtG" ++
      "qsefD265TMg7usUDFdp6W1EGMcet8"
    let xprv := "xprv9s21ZrQH143K3QTDL4LXw2F7HEK3wJUD2nW2nRk4stbPy6cq3jPPqjiChkVvvNKmPGJxWUtg6LnF5k" ++
      "ejMRNNU3TGtRBeJgk33yuGBxrMPHi"
    (∃ found, Address.parse? address.toList = some found ∧
      tokenize address.toList = .ok [⟨.address found, 0, 42⟩]) ∧
    (∃ key, WifKey.parse? wif.toList = some key ∧
      tokenize wif.toList = .ok [⟨.wif key, 0, 51⟩]) ∧
    (∃ key, Xpub.parse? xpub.toList = some key ∧
      tokenize xpub.toList = .ok [⟨.extendedKey (.xpub key), 0, 111⟩]) ∧
    (∃ key, Xprv.parse? xprv.toList = some key ∧
      tokenize xprv.toList = .ok [⟨.extendedKey (.xprv key), 0, 111⟩]) := by
  intro address wif xpub xprv
  obtain ⟨found, hfound⟩ : ∃ found, Address.parse? address.toList = some found :=
    Option.isSome_iff_exists.mp (by decide +kernel)
  obtain ⟨key, hkey⟩ : ∃ key, WifKey.parse? wif.toList = some key :=
    Option.isSome_iff_exists.mp (by decide +kernel)
  obtain ⟨parent, hparent⟩ : ∃ key, Xpub.parse? xpub.toList = some key :=
    Option.isSome_iff_exists.mp (by decide +kernel)
  obtain ⟨secret, hsecret⟩ : ∃ key, Xprv.parse? xprv.toList = some key :=
    Option.isSome_iff_exists.mp (by decide +kernel)
  have sizes : address.utf8ByteSize = 42 ∧ wif.utf8ByteSize = 51 ∧ xpub.utf8ByteSize = 111 ∧
      xprv.utf8ByteSize = 111 := by
    decide +kernel
  refine ⟨⟨found, hfound, ?_⟩, ⟨key, hkey, ?_⟩, ⟨parent, hparent, ?_⟩, ⟨secret, hsecret, ?_⟩⟩
  · rw [(tokenize_literal address).1 found hfound, sizes.1]
  · rw [(tokenize_literal wif).2.1 key hkey, sizes.2.1]
  · rw [(tokenize_literal xpub).2.2.1 parent hparent, sizes.2.2.1]
  · rw [(tokenize_literal xprv).2.2.2 secret hsecret, sizes.2.2.2]

end OutputDescriptor
