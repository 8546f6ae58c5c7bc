import Mathlib.Data.List.Basic
import OutputDescriptor.Proofs.Grammar.Key
import OutputDescriptor.Proofs.Key.Laws
import OutputDescriptor.Proofs.Token.Path

/-!
The paths of key expressions are the paths that stand alone.

A path is read in two ways. Alone it is split at its slashes; inside a descriptor it is a sequence of
tokens, cut where the longest runs end. Both accept the same texts and find the same paths in them:
behind an extended key those that start at the key itself, in brackets those that start at a
fingerprint. Only the capital that marks a hardened step of a path that stands alone is left out.
-/

namespace OutputDescriptor

open Lexer Grammar

theorem Parser.exists_parses_key_iff {text : List Char} {expr : KeyExpression} :
    (∃ tokens, tokenize text = .ok tokens ∧ Parses Parser.key tokens expr []) ↔
      ∃ lexemes, Lexed none text lexemes ∧ KeyOf lexemes expr := by
  constructor
  · intro ⟨tokens, htokens, hparses⟩
    obtain ⟨lexemes, hkey, hconsumes⟩ := keyOf_of_parses hparses
    rw [Consumes.iff_of_nil] at hconsumes
    exact ⟨lexemes, hconsumes ▸ lexed_of_tokenize htokens, hkey⟩
  · intro ⟨lexemes, hlexed, hkey⟩
    obtain ⟨tokens, htokens, hlexemes⟩ := tokenize_of_lexed hlexed
    have hconsumes : Consumes tokens lexemes [] := Consumes.iff_of_nil.mpr hlexemes
    exact ⟨tokens, htokens, parses_key hkey hlexed.occurs hconsumes (by simp [Stops])⟩

/-! ### Behind an extended key -/

theorem Grammar.keyOf_extendedKey_iff {key : ExtendedKey} {tail : List Lexeme}
    {expr : KeyExpression} :
    KeyOf (.extendedKey key :: tail) expr ↔
      ∃ path : Path, path.origin = .unnamed ∧ StepsOf tail path.steps ∧
        expr = ⟨none, .extended key path⟩ := by
  constructor
  · intro h
    generalize hlexemes : Lexeme.extendedKey key :: tail = lexemes at h
    cases h with
    | bare material =>
      cases material with
      | extended key hsteps last =>
        cases hlexemes
        exact ⟨_, rfl, hsteps, rfl⟩
      | literal _ _ _ => cases hlexemes
      | wif _ => cases hlexemes
    | withOrigin front _ =>
      cases front
      cases hlexemes
  · intro ⟨path, horigin, hsteps, heq⟩
    obtain ⟨origin, steps, last, _⟩ := path
    subst horigin heq
    exact .bare (.extended key hsteps last)

theorem Path.parse_eq_ok_iff_of_unnamed {text : List Char} {path : Path}
    (unnamed : path.origin = .unnamed) :
    parse text = .ok path ↔ Step.SpellsAll text path.steps := by
  rw [parse_eq_ok_iff, unnamed]
  constructor
  · intro ⟨front, back, htext, horigin, hsteps⟩
    rw [Origin.parse_eq_unnamed_iff.mp horigin, List.nil_append] at htext
    rw [htext]
    exact hsteps
  · intro hsteps
    exact ⟨[], text, rfl, rfl, hsteps⟩

theorem Lexer.lexeme?_of_extendedKey {front : List Char} {token : Token} {key : ExtendedKey}
    (alone : tokenize front = .ok [token]) (hkey : token.lexeme = .extendedKey key) :
    lexeme? none front = some (.extendedKey key, front.length) := by
  have hlexed := lexed_of_tokenize alone
  rw [List.map_singleton, hkey] at hlexed
  obtain ⟨length, head, tail⟩ := lexed_cons_iff.mp hlexed
  have all : front.length ≤ length := List.drop_eq_nil_iff.mp (lexed_nil_iff.mp tail)
  have hrule : extendedKey front = some (.extendedKey key, length) := (ruleOf_of_lexeme? head).1
  obtain ⟨_, hlength, _⟩ := onRun_eq_some hrule
  have few : (front.takeWhile isBase58).length ≤ front.length :=
    (List.takeWhile_prefix isBase58).length_le
  rw [head, show length = front.length by omega]

/-- Behind an extended key stand the paths that start at no named key. -/
theorem Parser.exists_parses_children_iff {front text : List Char} {token : Token}
    {key : ExtendedKey} (alone : tokenize front = .ok [token])
    (hkey : token.lexeme = .extendedKey key) (hboundary : Boundary text) (noCapital : 'H' ∉ text)
    {expr : KeyExpression} :
    (∃ tokens, tokenize (front ++ text) = .ok tokens ∧ Parses Parser.key tokens expr []) ↔
      ∃ path, Path.parse text = .ok path ∧ path.origin = .unnamed ∧
        expr = ⟨none, .extended key path⟩ := by
  have head := lexeme?_of_extendedKey alone hkey
  have head : lexeme? none (front ++ text) = some (.extendedKey key, front.length) := by
    rw [lexeme?_append (text_ne_nil_of_lexeme? head) hboundary, head]
  rw [exists_parses_key_iff]
  constructor
  · intro ⟨lexemes, hlexed, hexpr⟩
    obtain ⟨tail, rfl, htail⟩ := (lexed_append_iff head).mp hlexed
    obtain ⟨path, unnamed, hsteps, heq⟩ := keyOf_extendedKey_iff.mp hexpr
    have spells := (exists_lexed_stepsOf_iff noCapital).mp ⟨tail, htail, hsteps⟩
    exact ⟨path, (Path.parse_eq_ok_iff_of_unnamed unnamed).mpr spells, unnamed, heq⟩
  · intro ⟨path, hparse, unnamed, heq⟩
    have spells := (Path.parse_eq_ok_iff_of_unnamed unnamed).mp hparse
    obtain ⟨tail, htail, hsteps⟩ := (exists_lexed_stepsOf_iff noCapital).mpr spells
    exact ⟨_, lexed_cons head htail, keyOf_extendedKey_iff.mpr ⟨path, unnamed, hsteps, heq⟩⟩

/-! ### In brackets -/

theorem Path.no_bracket {text : List Char} {path : Path} (h : parse text = .ok path) :
    ']' ∉ text := by
  intro hmem
  obtain (hchar | hchar) | hchar | hchar | hchar | hchar := Path.chars h hmem <;> cases hchar

theorem Grammar.keyOf_openBracket {tail : List Lexeme} {expr : KeyExpression}
    (h : KeyOf (.delimiter .openBracket :: tail) expr) :
    ∃ a b origin key, .delimiter .openBracket :: tail = a ++ b ∧ OriginOf a origin ∧
      MaterialOf b key ∧ expr = ⟨some origin, key⟩ := by
  generalize hlexemes : Lexeme.delimiter .openBracket :: tail = lexemes at h
  cases h with
  | bare material => cases material <;> cases hlexemes
  | withOrigin front material => exact ⟨_, _, _, _, rfl, front, material, rfl⟩

theorem Grammar.StepsOf.no_bracket {lexemes : List Lexeme} {steps : List Step}
    (h : StepsOf lexemes steps) : .delimiter .closeBracket ∉ lexemes := by
  have index : ¬ ∃ index, IndexOf (.delimiter .closeBracket) index := by
    intro ⟨_, h⟩
    cases h with
    | concrete numeral _ => cases numeral
  induction h with
  | nil => simp
  | cons head _ ih =>
    rw [List.mem_append, not_or]
    refine ⟨fun hmem => index ?_, ih⟩
    cases head with
    | normal h =>
      obtain rfl : Lexeme.delimiter .closeBracket = _ := by simpa using hmem
      exact ⟨_, h⟩
    | hardened h =>
      obtain rfl : Lexeme.delimiter .closeBracket = _ := by simpa using hmem
      exact ⟨_, h⟩

theorem Grammar.MaterialOf.no_bracket {lexemes : List Lexeme} {key : Key}
    (h : MaterialOf lexemes key) : .delimiter .closeBracket ∉ lexemes := by
  cases h with
  | literal _ _ _ => simp
  | wif _ => simp
  | extended _ hsteps _ => simpa using hsteps.no_bracket

theorem Grammar.materialOf_hex_iff {digits : List Char} {bytes : Bytes} {key : PublicKey}
    (hdigits : Bytes.ofHex? digits = some bytes) (hkey : PublicKey.ofBytes? bytes = some key)
    {found : Key} : MaterialOf [.hex digits] found ↔ found = .literal key := by
  obtain ⟨heven, rfl⟩ := ofHex?_eq_some hdigits
  obtain ⟨hbytes, hcurve⟩ := PublicKey.ofBytes?_eq_some hkey
  constructor
  · intro h
    cases h with
    | literal _ spells valid =>
      rw [spells, PublicKey.ofBytes?_toBytes valid] at hkey
      rw [Option.some.inj hkey]
  · rintro rfl
    exact .literal heven hbytes.symm hcurve

/-- The bytes of a compressed key begin with a small one, so its digits begin with a zero. -/
theorem Lexer.reads_keyDigits {digits : List Char} {bytes : Bytes} {key : PublicKey}
    (hdigits : Bytes.ofHex? digits = some bytes) (hlength : bytes.length = 33)
    (hkey : PublicKey.ofBytes? bytes = some key) : Reads digits [.hex digits] := by
  have hchars : ∀ c ∈ digits, isHexDigit c = true := Bytes.isSome_hexValue?_of_ofHex? hdigits
  have hhalf := length_bytesOf digits
  obtain ⟨heven, hspells⟩ := ofHex?_eq_some hdigits
  rw [hspells, hlength] at hhalf
  obtain ⟨hbytes, _⟩ := PublicKey.ofBytes?_eq_some hkey
  cases key with
  | uncompressed x y _ _ =>
    rw [← hbytes, PublicKey.length_toBytes] at hlength
    cases hlength
  | compressed point =>
    have small : (if point.odd then 3 else 2 : UInt8).toNat < 16 := by
      cases point.odd <;> decide
    rw [← hbytes, PublicKey.toBytes, Point.toBytes] at hdigits
    obtain ⟨rest, rfl⟩ := Bytes.front_of_ofHex? hdigits small
    rw [List.length_cons] at hhalf
    exact reads_hex_of_zero (by omega) hchars

/-- In brackets in front of a key stand the paths that start at a fingerprint. -/
theorem Parser.exists_parses_origin_iff {text digits : List Char} {bytes : Bytes} {key : PublicKey}
    (hdigits : Bytes.ofHex? digits = some bytes) (hlength : bytes.length = 33)
    (hkey : PublicKey.ofBytes? bytes = some key) (noCapital : 'H' ∉ text) {expr : KeyExpression} :
    (∃ tokens, tokenize ('[' :: text ++ ']' :: digits) = .ok tokens ∧
        Parses Parser.key tokens expr []) ↔
      ∃ path, Path.parse text = .ok path ∧ path.origin.fingerprint?.isSome = true ∧
        expr = ⟨some path, .literal key⟩ := by
  have hreads := reads_keyDigits hdigits hlength hkey
  have hopening : lexeme? none (['['] ++ (text ++ ']' :: digits)) =
      some (.delimiter .openBracket, 1) := lexeme?_delimiter .openBracket
  rw [exists_parses_key_iff]
  constructor
  · intro ⟨lexemes, hlexed, hexpr⟩
    obtain ⟨tail, rfl, _⟩ := (lexed_append_iff hopening).mp hlexed
    obtain ⟨a, b, path, found, hsplit, horigin, hmaterial, heq⟩ := keyOf_openBracket hexpr
    rw [hsplit] at hlexed
    obtain ⟨front, rest, _, htext, hparse, named, hback⟩ := parse_of_originOf horigin hlexed
    -- another bracket behind the one that closes the origin would have to be in the key
    have noBracket : ']' ∉ rest := fun hmem =>
      hmaterial.no_bracket (hback.mem_of_delimiter (d := .closeBracket) hmem)
    have hinside : front ++ ']' :: rest = text ++ ']' :: digits := (List.cons.inj htext).2.symm
    obtain ⟨rfl, _, rfl⟩ :=
      (List.append_cons_inj_of_notMem (Path.no_bracket hparse) noBracket).mp hinside
    obtain rfl := hback.unique (hreads.readsAs _)
    obtain rfl := (materialOf_hex_iff hdigits hkey).mp hmaterial
    exact ⟨path, hparse, named, heq⟩
  · intro ⟨path, hparse, named, heq⟩
    subst heq
    obtain ⟨lexemes, horigin, hfront⟩ := exists_originOf_of_parse hparse named noCapital
    have hback := hreads.delimiter_cons .closeBracket
    have whole := (hfront.append hback (boundary_char .closeBracket)).delimiter_cons .openBracket
    refine ⟨_, whole.readsAs none, ?_⟩
    have derived := KeyOf.withOrigin horigin ((materialOf_hex_iff hdigits hkey).mpr rfl)
    simpa using derived

/-- Both ways to read a path accept the same texts, apart from the capital marker, and find the same
path in them: behind an extended key, and in brackets in front of a public key. -/
theorem Parser.key_eq_ok_iff_path {text : List Char} (noCapital : 'H' ∉ text) :
    ((text = [] ∨ text.head? = some '/') → ∀ front token key, tokenize front = .ok [token] →
      token.lexeme = .extendedKey key → ∀ expr,
        ((∃ tokens, tokenize (front ++ text) = .ok tokens ∧ Parses Parser.key tokens expr []) ↔
          ∃ path, Path.parse text = .ok path ∧ path.origin = .unnamed ∧
            expr = ⟨none, .extended key path⟩)) ∧
    (∀ digits bytes key, Bytes.ofHex? digits = some bytes → bytes.length = 33 →
      PublicKey.ofBytes? bytes = some key → ∀ expr,
        ((∃ tokens, tokenize ('[' :: text ++ ']' :: digits) = .ok tokens ∧
            Parses Parser.key tokens expr []) ↔
          ∃ path, Path.parse text = .ok path ∧ path.origin.fingerprint?.isSome = true ∧
            expr = ⟨some path, .literal key⟩)) := by
  constructor
  · intro hstart front token key alone hkey expr
    have hboundary : Boundary text := by
      intro c hc
      obtain rfl | hslash := hstart
      · cases hc
      · rw [hslash] at hc
        cases hc
        rfl
    exact exists_parses_children_iff alone hkey hboundary noCapital
  · intro digits bytes key hdigits hlength hkey expr
    exact exists_parses_origin_iff hdigits hlength hkey noCapital

/-- Steps behind the public root, with leading zeros and both markers, and an origin in front of a
public key, in digits of both cases. -/
theorem Parser.key_of_pathSamples :
    let root : ExtendedKey := .xpub (OneChain.atRoot OneChain.rootPoint)
    let rootText := ("xpub661MyMwAqRbcFtXgS5sYJABqqG9YLmC4Q1Rdap9gSE8NqtwybGhePY2gZ29ESFjqJoCu1Rupje8YtGqse" ++
      "fD265TMg7usUDFdp6W1EGMcet8").toList
    let steps := "/0000000000044'/*h".toList
    let origin := "D34db33f/007h".toList
    let digits := "0279BE667ef9dcbbac55a06295ce870b07029bfcdb2dce28d959f2815b16f81798".toList
    (∃ tokens path, tokenize (rootText ++ steps) = .ok tokens ∧ Path.parse steps = .ok path ∧
      Parses Parser.key tokens ⟨none, .extended root path⟩ []) ∧
    ∃ tokens path key, tokenize ('[' :: origin ++ ']' :: digits) = .ok tokens ∧
      Path.parse origin = .ok path ∧ Parses Parser.key tokens ⟨some path, .literal key⟩ [] := by
  intro root rootText steps origin digits
  have smallSteps : 'H' ∉ steps := by decide
  have smallOrigin : 'H' ∉ origin := by decide
  obtain ⟨behind, _⟩ := key_eq_ok_iff_path smallSteps
  obtain ⟨_, inBrackets⟩ := key_eq_ok_iff_path smallOrigin
  constructor
  · let path : Path :=
      ⟨.unnamed, [⟨.concrete ⟨44, by decide⟩, true⟩, ⟨.wildcard, true⟩], by decide, by decide⟩
    have hpath : Path.parse steps = .ok path := by decide +kernel
    have alone : tokenize rootText = .ok [⟨.extendedKey root, 0, 111⟩] := by decide +kernel
    obtain ⟨tokens, htokens, hparses⟩ :=
      (behind (.inr rfl) rootText _ root alone rfl _).mpr ⟨path, hpath, rfl, rfl⟩
    exact ⟨tokens, path, htokens, hpath, hparses⟩
  · let key : PublicKey := .compressed OneKey.generator
    let path : Path := ⟨.fingerprint ⟨[0xd3, 0x4d, 0xb3, 0x3f], rfl⟩,
      [⟨.concrete ⟨7, by decide⟩, true⟩], by decide, by decide⟩
    have hpath : Path.parse origin = .ok path := by decide +kernel
    have hdigits : Bytes.ofHex? digits = some key.toBytes := by decide +kernel
    have hlength : key.toBytes.length = 33 := PublicKey.length_toBytes key
    have hkey : PublicKey.ofBytes? key.toBytes = some key :=
      PublicKey.ofBytes?_toBytes OneKey.generator_onCurve
    obtain ⟨tokens, htokens, hparses⟩ :=
      (inBrackets digits key.toBytes key hdigits hlength hkey _).mpr ⟨path, hpath, rfl, rfl⟩
    exact ⟨tokens, path, key, htokens, hpath, hparses⟩

end OutputDescriptor
