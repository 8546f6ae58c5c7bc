import OutputDescriptor.Derivation.Step
import OutputDescriptor.Proofs.Token.Reading

/-!
Literals are read as what they were written for.

The rules are tried in a fixed order, so it has to be shown for each literal that no earlier rule
fits. No address begins with a keyword. Keys are too long for an address and begin unlike one;
fingerprints are too short for one and for a key, and so are indices unless they begin with a zero,
which does not occur in base 58; and a keyword is none of them.
-/

namespace OutputDescriptor.Lexer

variable {previous : Option Lexeme} {text rest : List Char} {lexeme : Lexeme}

theorem keyword_eq_none (h : Keyword.ofText? (text.takeWhile Char.isLower) = none) :
    keyword text = none :=
  onRun_eq_none (by rw [h, Option.map_none])

theorem delimiter_eq_none (hne : text ≠ []) (h : ∀ c ∈ text, c.isAlphanum = true) :
    delimiter text = none := by
  cases text with
  | nil => exact absurd rfl hne
  | cons c text => exact delimiter_eq_none_of_isAlphanum (h c (by simp))

theorem address_eq_none (h : Address.parse? (text.takeWhile Char.isAlphanum) = none) :
    address text = none :=
  onRun_eq_none (by rw [h, Option.map_none])

/-- The runs of short texts are too short for keys. -/
theorem keys_eq_none_of_short (h : text.length ≤ 50) :
    wif text = none ∧ extendedKey text = none := by
  have hrun : (text.takeWhile isBase58).length ≤ 50 :=
    Nat.le_trans (List.takeWhile_prefix _).length_le h
  constructor
  · refine onRun_eq_none ?_
    cases hk : WifKey.parse? (text.takeWhile isBase58) with
    | none => rfl
    | some key => exact absurd (WifKey.distinguished_of_parse? hk).long (by omega)
  · refine onRun_eq_none ?_
    cases hk : ExtendedKey.parse? (text.takeWhile isBase58) with
    | none => rfl
    | some key => exact absurd (ExtendedKey.distinguished_of_parse? hk).long (by omega)

/-! ### Keys in base 58 -/

theorem isBase58_of_mem_encodeGuarded {payload : Bytes} {c : Char}
    (h : c ∈ Base58.encodeGuarded payload) : isBase58 c = true :=
  Base58.isSome_digit?_of_mem_encode h

theorem extendedKey_payload (key : ExtendedKey) :
    ∃ payload, key.text = Base58.encodeGuarded payload := by
  cases key with
  | xpub key => exact ⟨_, rfl⟩
  | xprv key => exact ⟨_, rfl⟩

/-- What comes before the rules for keys does not take a text of a key. -/
theorem before_keys (h : Distinguished text) (hchars : ∀ c ∈ text, isBase58 c = true) :
    text ≠ [] ∧ delimiter text = none ∧ keyword text = none ∧ address text = none := by
  have hne : text ≠ [] := by
    rintro rfl
    exact absurd h.long (by decide)
  have halnum : ∀ c ∈ text, c.isAlphanum = true := fun c hc => isAlphanum_of_isBase58 (hchars c hc)
  have hrun : text.takeWhile Char.isAlphanum = text := List.takeWhile_eq_self_iff.mpr halnum
  refine ⟨hne, delimiter_eq_none hne halnum, keyword_eq_none h.keyword, address_eq_none ?_⟩
  rw [hrun, h.not_address]

theorem lexeme?_wif {key : WifKey} (h : WifKey.parse? text = some key) :
    lexeme? previous text = some (.wif key, text.length) := by
  have hchars : ∀ c ∈ text, isBase58 c = true := by
    obtain ⟨_, rfl, _⟩ := WifKey.parse?_eq_some h
    exact fun c => isBase58_of_mem_encodeGuarded
  obtain ⟨hne, hdelimiter, hkeyword, haddress⟩ :=
    before_keys (WifKey.distinguished_of_parse? h) hchars
  have hfound : wif text = some (.wif key, text.length) :=
    onRun_whole hne hchars (by rw [h, Option.map_some])
  simp only [lexeme?, rules, List.findSome?_cons, hdelimiter, hkeyword, haddress, hfound]

theorem reads_wif (key : WifKey) : Reads key.text [.wif key] := by
  have hread := WifKey.parse?_text key
  have hlong := (WifKey.distinguished_of_parse? hread).long
  exact reads_of_lexeme? (List.ne_nil_of_length_pos (by omega)) fun _ => lexeme?_wif hread

theorem lexeme?_extendedKey {key : ExtendedKey} (h : ExtendedKey.parse? text = some key) :
    lexeme? previous text = some (.extendedKey key, text.length) := by
  have hchars : ∀ c ∈ text, isBase58 c = true := by
    obtain ⟨_, _, _, _, rfl | rfl⟩ := ExtendedKey.parse?_eq_some h
    · exact fun c => isBase58_of_mem_encodeGuarded
    · exact fun c => isBase58_of_mem_encodeGuarded
  obtain ⟨hne, hdelimiter, hkeyword, haddress⟩ :=
    before_keys (ExtendedKey.distinguished_of_parse? h) hchars
  have hwif : wif text = none := by
    refine onRun_eq_none ?_
    rw [List.takeWhile_eq_self_iff.mpr hchars, ExtendedKey.wif_parse?_eq_none h, Option.map_none]
  have hfound : extendedKey text = some (.extendedKey key, text.length) :=
    onRun_whole hne hchars (by rw [h, Option.map_some])
  simp only [lexeme?, rules, List.findSome?_cons, hdelimiter, hkeyword, haddress, hwif, hfound]

theorem reads_extendedKey {key : ExtendedKey} (valid : key.IsValid) :
    Reads key.text [.extendedKey key] := by
  have hread := ExtendedKey.parse?_text valid
  have hlong := (ExtendedKey.distinguished_of_parse? hread).long
  exact reads_of_lexeme? (List.ne_nil_of_length_pos (by omega)) fun _ => lexeme?_extendedKey hread

/-! ### Addresses -/

/-- The one keyword that begins like an address in base 58 has a letter that stands in none. -/
theorem exists_outside_base58 {name : Keyword} {c : Char} {back tail : List Char}
    (hc : c ∈ ['1', '2', '3', 'm', 'n']) (h : name.text ++ back = c :: tail) :
    ∃ d ∈ name.text, isBase58 d = false := by
  cases name with
  | multi => exact ⟨'l', by decide, by decide⟩
  | _ =>
    cases h
    exact absurd hc (by decide)

/-- The human-readable part in small letters is no keyword, and one in capitals begins with none. -/
theorem keyword_eq_none_of_readable {readable data : List Char} {network : Network}
    (h : Address.networkOfReadable? readable = some network) :
    keyword (readable ++ '1' :: data) = none := by
  obtain ⟨_, rfl | rfl⟩ := Address.networkOfReadable?_eq_some h
  · have hrun : (Address.readablePart network ++ '1' :: data).takeWhile Char.isLower =
        Address.readablePart network := by
      cases network <;> rfl
    refine keyword_eq_none ?_
    rw [hrun]
    cases network <;> decide
  · refine onRun_eq_none_of_head ?_
    cases network <;> simp [Address.readablePart]

/-- No address begins with a keyword. -/
theorem keyword_eq_none_of_address {found : Address} (h : Address.parse? text = some found) :
    keyword text = none := by
  obtain hhash | ⟨network, readable, data, rfl, hnetwork, _⟩ := Address.parse?_eq_some h
  · obtain ⟨_, _, version, hversion, hash, rfl⟩ := Address.parseHash?_eq_some hhash
    refine keyword_eq_none (Keyword.ofText?_eq_none fun name hname => ?_)
    obtain ⟨c, tail, hhead, hc⟩ := Address.head_of_hashVersion hversion hash
    obtain ⟨back, hback⟩ : name.text <+: Base58.encodeGuarded (version :: hash.val) :=
      hname ▸ List.takeWhile_prefix _
    obtain ⟨d, hd, houtside⟩ := exists_outside_base58 hc (hback.trans hhead)
    have hmem : d ∈ Base58.encodeGuarded (version :: hash.val) :=
      hback ▸ List.mem_append_left back hd
    rw [isBase58_of_mem_encodeGuarded hmem] at houtside
    cases houtside
  · exact keyword_eq_none_of_readable hnetwork

theorem lexeme?_address {found : Address} (h : Address.parse? text = some found) :
    lexeme? previous text = some (.address found, text.length) := by
  obtain ⟨hne, halnum⟩ := Address.isAlphanum_of_parse? h
  have hfound : address text = some (.address found, text.length) :=
    onRun_whole hne halnum (by rw [h, Option.map_some])
  simp only [lexeme?, rules, List.findSome?_cons, delimiter_eq_none hne halnum,
    keyword_eq_none_of_address h, hfound]

/-- An address that occurs in a text is written as a text that is read as the same address. -/
theorem reads_address {found : Address} (occurs : (Lexeme.address found).Occurs) :
    Reads found.text [.address found] := by
  obtain ⟨previous, source, length, h⟩ := occurs
  have hread := Address.parse?_text (address_of_lexeme? h)
  exact reads_of_lexeme? (Address.isAlphanum_of_parse? hread).1 fun _ => lexeme?_address hread

/-! ### Hex digits -/

theorem digitChar_isHexDigit : ∀ n < 16, isHexDigit (Nat.digitChar n) = true := by
  decide

theorem isHexDigit_of_mem_toHex {bytes : Bytes} {c : Char} (h : c ∈ bytes.toHex) :
    isHexDigit c = true := by
  obtain ⟨b, _, hc⟩ := List.mem_flatMap.mp h
  have bound : b.toNat < 256 := b.toNat_lt
  simp only [List.mem_cons, List.not_mem_nil, or_false] at hc
  rcases hc with rfl | rfl
  · exact digitChar_isHexDigit _ (by omega)
  · exact digitChar_isHexDigit _ (by omega)

/-- Hex digits that no earlier rule takes are read as hex digits. -/
theorem lexeme?_hex (htwo : 2 ≤ text.length) (hdigits : ∀ c ∈ text, isHexDigit c = true)
    (hkeyword : keyword text = none) (haddress : Address.parse? text = none)
    (hwif : wif text = none) (hkey : extendedKey text = none) :
    lexeme? previous text = some (.hex text, text.length) := by
  have hne : text ≠ [] := by
    rintro rfl
    simp at htwo
  have halnum : ∀ c ∈ text, c.isAlphanum = true :=
    fun c hc => isAlphanum_of_isHexDigit (hdigits c hc)
  have hrun : text.takeWhile Char.isAlphanum = text := List.takeWhile_eq_self_iff.mpr halnum
  have hfound : hex text = some (.hex text, text.length) := onRun_whole hne hdigits (if_pos htwo)
  have hnone : address text = none := address_eq_none (by rw [hrun, haddress])
  simp only [lexeme?, rules, List.findSome?_cons, delimiter_eq_none hne halnum, hkeyword, hnone,
    hwif, hkey, hfound]

theorem reads_hex (htwo : 2 ≤ text.length) (hdigits : ∀ c ∈ text, isHexDigit c = true)
    (hkeyword : keyword text = none) (haddress : Address.parse? text = none)
    (hwif : wif text = none) (hkey : extendedKey text = none) : Reads text [.hex text] := by
  have hne : text ≠ [] := by
    rintro rfl
    simp at htwo
  exact reads_of_lexeme? hne fun _ => lexeme?_hex htwo hdigits hkeyword haddress hwif hkey

theorem toHex_publicKey (key : PublicKey) :
    ∃ tail, Bytes.toHex key.toBytes = ['0'] ++ tail ∧ 50 ≤ tail.length := by
  have hlength : (Bytes.toHex key.toBytes).length = 2 * key.toBytes.length := Bytes.length_toHex _
  have hlong : 33 ≤ key.toBytes.length := by
    rw [PublicKey.length_toBytes]
    split <;> decide
  obtain ⟨tag, rest, hbytes, htag⟩ : ∃ tag rest, key.toBytes = tag :: rest ∧ tag.toNat / 16 = 0 := by
    cases key with
    | compressed point => cases hodd : point.odd <;> exact ⟨_, _, rfl, by simp [hodd]⟩
    | uncompressed x y _ _ => exact ⟨_, _, rfl, rfl⟩
  rw [hbytes, Bytes.toHex_cons, htag] at hlength ⊢
  rw [hbytes] at hlong
  refine ⟨_, rfl, ?_⟩
  rw [List.length_cons] at hlength
  omega

/-- Hex digits that begin with a zero, which no key in base 58 contains. -/
theorem reads_hex_of_zero {tail : List Char} (hlength : 50 ≤ tail.length)
    (hdigits : ∀ c ∈ '0' :: tail, isHexDigit c = true) :
    Reads ('0' :: tail) [.hex ('0' :: tail)] := by
  have hdistinguished : Distinguished ('0' :: tail) := .of_head (by decide) (by decide) hlength
  have hzero : ∀ c ∈ ('0' :: tail).head?, isBase58 c = false := by
    intro c hc
    cases hc
    decide
  refine reads_hex ?_ hdigits (keyword_eq_none hdistinguished.keyword) hdistinguished.not_address
    (onRun_eq_none_of_head hzero) (onRun_eq_none_of_head hzero)
  exact Nat.le_trans (by decide) (Nat.le_of_lt hdistinguished.long)

theorem reads_publicKey (key : PublicKey) :
    Reads (Bytes.toHex key.toBytes) [.hex (Bytes.toHex key.toBytes)] := by
  obtain ⟨tail, hhex, hlength⟩ := toHex_publicKey key
  have hdigits : ∀ c ∈ Bytes.toHex key.toBytes, isHexDigit c = true :=
    fun c => isHexDigit_of_mem_toHex
  rw [hhex] at hdigits ⊢
  exact reads_hex_of_zero hlength hdigits

/-- No keyword is made of hex digits. -/
theorem keyword_not_hex (name : Keyword) : ∃ c ∈ name.text, isHexDigit c = false := by
  cases name with
  | addr => exact ⟨'r', by decide, by decide⟩
  | combo => exact ⟨'o', by decide, by decide⟩
  | _ => exact ⟨_, List.mem_cons_self, by decide⟩

theorem keyword_eq_none_of_hex (hdigits : ∀ c ∈ text, isHexDigit c = true) :
    keyword text = none := by
  refine keyword_eq_none (Keyword.ofText?_eq_none fun name hname => ?_)
  obtain ⟨c, hc, hnot⟩ := keyword_not_hex name
  rw [hname] at hc
  rw [hdigits c (List.takeWhile_subset _ hc)] at hnot
  cases hnot

/-- A few hex digits are too short for anything else. -/
theorem reads_hex_of_few (htwo : 2 ≤ text.length) (hfew : text.length ≤ 8)
    (hdigits : ∀ c ∈ text, isHexDigit c = true) : Reads text [.hex text] := by
  have haddress : Address.parse? text = none := by
    cases ha : Address.parse? text with
    | none => rfl
    | some found =>
      rcases Address.shape_of_parse? ha with ⟨hlong, _⟩ | ⟨hlong, _⟩ <;> omega
  obtain ⟨hwif, hkey⟩ := keys_eq_none_of_short (Nat.le_trans hfew (by decide))
  exact reads_hex htwo hdigits (keyword_eq_none_of_hex hdigits) haddress hwif hkey

/-! ### Indices -/

/-- How the digits of an index are read: a single digit as a number, several ones as hex digits. -/
def digitsLexeme (digits : List Char) : Lexeme :=
  if 2 ≤ digits.length then .hex digits else .integer (Nat.ofDigitChars 10 digits 0)

/-- How an index is read that was written without leading zeros. -/
def numeral (n : Nat) : Lexeme :=
  if 2 ≤ (Nat.toDigits 10 n).length then .hex (Nat.toDigits 10 n) else .integer n

theorem digitsLexeme_toDigits (n : Nat) : digitsLexeme (Nat.toDigits 10 n) = numeral n := by
  rw [digitsLexeme, numeral, Nat.ofDigitChars_ten_toDigits]

theorem isLower_eq_false_of_isDigit {c : Char} (h : c.isDigit = true) : c.isLower = false := by
  cases hlower : c.isLower with
  | false => rfl
  | true =>
    have hle : c.val ≤ '9'.val := of_decide_eq_true (Bool.and_eq_true_iff.mp h).2
    have hge : 'a'.val ≤ c.val := of_decide_eq_true (Bool.and_eq_true_iff.mp hlower).1
    exact absurd (UInt32.le_trans hge hle) (by decide)

/-- A text that begins with a digit is no address if the digit is a zero, which stands in no text in
base 58, or if the text is no longer than an index with its marker. -/
theorem address_eq_none_of_digit {d : Char} (hd : d.isDigit = true)
    (h : d = '0' ∨ (d :: text).length ≤ 11) : address (d :: text) = none := by
  refine address_eq_none ?_
  have hrun : (d :: text).takeWhile Char.isAlphanum = d :: text.takeWhile Char.isAlphanum :=
    List.takeWhile_cons_of_pos (isAlphanum_of_isDigit hd)
  have hlength : ((d :: text).takeWhile Char.isAlphanum).length ≤ (d :: text).length :=
    (List.takeWhile_prefix _).length_le
  cases ha : Address.parse? ((d :: text).takeWhile Char.isAlphanum) with
  | none => rfl
  | some found =>
    rcases Address.shape_of_parse? ha with ⟨_, hfront⟩ | ⟨hlong, _, hchars⟩
    · rw [hrun, List.take_succ_cons] at hfront
      simp only [Address.fronts, List.mem_cons, List.cons.injEq, List.not_mem_nil,
        or_false] at hfront
      rcases hfront with ⟨rfl, _⟩ | ⟨rfl, _⟩ | ⟨rfl, _⟩ | ⟨rfl, _⟩ <;> exact absurd hd (by decide)
    · obtain rfl | hshort := h
      · rw [hrun] at hchars
        exact absurd (hchars '0' (by simp)) (by decide)
      · omega

/-- What comes before the rules for hex digits does not take the digits of an index. -/
theorem before_hex {d : Char} (hd : d.isDigit = true) (h : d = '0' ∨ (d :: text).length ≤ 11) :
    delimiter (d :: text) = none ∧ keyword (d :: text) = none ∧ address (d :: text) = none ∧
      wif (d :: text) = none ∧ extendedKey (d :: text) = none := by
  refine ⟨delimiter_eq_none_of_isAlphanum (isAlphanum_of_isDigit hd), ?_,
    address_eq_none_of_digit hd h, ?_⟩
  · refine onRun_eq_none_of_head fun c hc => ?_
    cases hc
    exact isLower_eq_false_of_isDigit hd
  · obtain rfl | hshort := h
    · have hzero : ∀ c ∈ ('0' :: text).head?, isBase58 c = false := by
        intro c hc
        cases hc
        decide
      exact ⟨onRun_eq_none_of_head hzero, onRun_eq_none_of_head hzero⟩
    · exact keys_eq_none_of_short (Nat.le_trans hshort (by decide))

/-- Without a zero in front, the digits of an index are few. -/
theorem zero_or_few {d : Char} {digits : List Char} (hd : d.isDigit = true)
    (lt : Nat.ofDigitChars 10 (d :: digits) 0 < 0x80000000) :
    d = '0' ∨ (d :: digits).length ≤ 10 := by
  by_cases hzero : d = '0'
  · exact .inl hzero
  · right
    have hle : '0'.toNat ≤ d.toNat := of_decide_eq_true (Bool.and_eq_true_iff.mp hd).1
    have hne : '0'.toNat ≠ d.toNat := fun h => hzero (Char.toNat_inj.mp h).symm
    have hvalue : Nat.ofDigitChars 10 (d :: digits) 0 =
        10 ^ digits.length * (d.toNat - '0'.toNat) + Nat.ofDigitChars 10 digits 0 := by
      rw [Nat.ofDigitChars_cons, Nat.ofDigitChars_eq_ofDigitChars_zero, Nat.mul_zero, Nat.zero_add]
    have hfirst : 10 ^ digits.length * 1 ≤ 10 ^ digits.length * (d.toNat - '0'.toNat) :=
      Nat.mul_le_mul_left _ (by omega)
    have hpower : 10 ^ digits.length < 10 ^ 10 := by omega
    have hlength : digits.length < 10 := (Nat.pow_lt_pow_iff_right (by decide)).mp hpower
    rw [List.length_cons]
    omega

section

variable {digits : List Char} (hnumeral : isNumeral digits = true)
  (lt : Nat.ofDigitChars 10 digits 0 < 0x80000000)

include hnumeral lt

/-- Digits end at whatever is no hex digit, even at a letter. -/
theorem lexeme?_digits (hlength : rest.length ≤ 1)
    (hrest : ∀ c ∈ rest.head?, isHexDigit c = false) :
    lexeme? previous (digits ++ rest) = some (digitsLexeme digits, digits.length) := by
  obtain ⟨hne, hdecimal⟩ := Bool.and_eq_true_iff.mp hnumeral
  rw [List.all_eq_true] at hdecimal
  have hdigits : ∀ c ∈ digits, isHexDigit c = true := fun c hc => isHexDigit_of_isDigit (hdecimal c hc)
  have hstop : ∀ c ∈ rest.head?, c.isDigit = false := by
    intro c hc
    cases hd : c.isDigit with
    | false => rfl
    | true => exact absurd (isHexDigit_of_isDigit hd) (by simp [hrest c hc])
  cases digits with
  | nil => cases hne
  | cons d tail =>
    have hd : d.isDigit = true := hdecimal d (by simp)
    have hplain : d = '0' ∨ (d :: (tail ++ rest)).length ≤ 11 := by
      refine (zero_or_few hd lt).imp_right fun hfew => ?_
      simp only [List.length_cons, List.length_append] at hfew ⊢
      omega
    obtain ⟨hdelimiter, hkeyword, haddress, hwif, hkey⟩ := before_hex hd hplain
    rw [← List.cons_append] at hdelimiter hkeyword haddress hwif hkey
    have hhex : hex (d :: tail ++ rest) = hex (d :: tail) := onRun_append hrest
    unfold digitsLexeme
    -- The rule for hex digits comes first and leaves only single digits to the one for numbers.
    by_cases htwo : 2 ≤ (d :: tail).length
    · have hfound : hex (d :: tail) = some (.hex (d :: tail), (d :: tail).length) :=
        onRun_whole (by simp) hdigits (if_pos htwo)
      rw [if_pos htwo]
      simp only [lexeme?, rules, List.findSome?_cons, hdelimiter, hkeyword, haddress, hwif, hkey,
        hhex, hfound]
    · have hnone : hex (d :: tail) = none := by
        refine onRun_eq_none ?_
        rw [List.takeWhile_eq_self_iff.mpr hdigits, if_neg htwo]
      have hinteger : integer (d :: tail ++ rest) = integer (d :: tail) := onRun_append hstop
      have hfound : integer (d :: tail) =
          some (.integer (Nat.ofDigitChars 10 (d :: tail) 0), (d :: tail).length) :=
        onRun_whole (by simp) hdecimal (if_pos (Nat.lt_trans lt (by decide)))
      rw [if_neg htwo]
      simp only [lexeme?, rules, List.findSome?_cons, hdelimiter, hkeyword, haddress, hwif, hkey,
        hhex, hnone, hinteger, hfound]

theorem reads_digits : Reads digits [digitsLexeme digits] := by
  have hne : digits ≠ [] := by
    rintro rfl
    cases hnumeral
  refine reads_of_lexeme? hne fun previous => ?_
  have alone : lexeme? previous (digits ++ []) = some (digitsLexeme digits, _) :=
    lexeme?_digits hnumeral lt (by simp) (by simp)
  rwa [List.append_nil] at alone

end

theorem digitsLexeme_isIndex (digits : List Char) : (digitsLexeme digits).isIndex = true := by
  unfold digitsLexeme
  split <;> rfl

theorem reads_numeral {n : Nat} (hn : n < 0x80000000) : Reads (Nat.toDigits 10 n) [numeral n] := by
  rw [← digitsLexeme_toDigits]
  exact reads_digits (ChildIndex.isNumeral_toDigits n) (by rwa [Nat.ofDigitChars_ten_toDigits])

/-- A marker is read behind an index, whichever character it is. -/
theorem lexeme?_marker {index : Lexeme} (hindex : index.isIndex = true) (marker : HardenedMarker)
    (hrest : Boundary rest) :
    lexeme? (some index) (marker.char :: rest) = some (.hardenedMarker, 1) := by
  have alone : lexeme? (some index) [marker.char] = some (.hardenedMarker, 1) := by
    have hfree : freeRules.findSome? (· [marker.char]) = none := by
      cases marker <;> decide
    rw [lexeme?_eq_or, hfree]
    cases marker <;> simp [hardenedMarker, HardenedMarker.char, hindex]
  have whole : lexeme? (some index) ([marker.char] ++ rest) = _ := lexeme?_append (by simp) hrest
  rwa [alone] at whole

theorem lexed_marker {index : Lexeme} (hindex : index.isIndex = true) (marker : HardenedMarker)
    {tail : List Lexeme} (hrest : Boundary rest) (h : ReadsAs rest tail) :
    Lexed (some index) (marker.char :: rest) (.hardenedMarker :: tail) := by
  have whole : Lexed (some index) ([marker.char] ++ rest) (.hardenedMarker :: tail) :=
    lexed_cons (lexeme?_marker hindex marker hrest) (h _)
  exact whole

/-- Digits end at their marker, which may be a letter that follows them at once. -/
theorem lexeme?_marked_digits {digits : List Char} (hnumeral : isNumeral digits = true)
    (lt : Nat.ofDigitChars 10 digits 0 < 0x80000000) (marker : HardenedMarker)
    (hrest : Boundary rest) :
    lexeme? previous (digits ++ (marker.char :: rest)) =
      some (digitsLexeme digits, digits.length) := by
  have hmarker : isHexDigit marker.char = false := by
    cases marker <;> decide
  have alone : lexeme? previous (digits ++ [marker.char]) =
      some (digitsLexeme digits, digits.length) :=
    lexeme?_digits hnumeral lt (by simp) (by simpa using hmarker)
  have whole : lexeme? previous (digits ++ [marker.char] ++ rest) = _ :=
    lexeme?_append (by simp) hrest
  rwa [alone, List.append_assoc] at whole

/-- An index with its marker. -/
theorem reads_marked_digits {digits : List Char} (hnumeral : isNumeral digits = true)
    (lt : Nat.ofDigitChars 10 digits 0 < 0x80000000) (marker : HardenedMarker) :
    Reads (digits ++ [marker.char]) [digitsLexeme digits, .hardenedMarker] := by
  intro rest tail hrest htail previous
  rw [List.append_assoc]
  exact lexed_cons (lexeme?_marked_digits hnumeral lt marker hrest)
    (lexed_marker (digitsLexeme_isIndex digits) marker hrest htail)

theorem reads_marked_wildcard (marker : HardenedMarker) :
    Reads ['*', marker.char] [.delimiter .asterisk, .hardenedMarker] := by
  intro rest tail hrest htail previous
  have head : lexeme? previous (['*'] ++ (marker.char :: rest)) =
      some (.delimiter .asterisk, 1) := rfl
  have whole : Lexed previous (['*'] ++ (marker.char :: rest))
      (.delimiter .asterisk :: .hardenedMarker :: tail) :=
    lexed_cons head (lexed_marker rfl marker hrest htail)
  exact whole

end OutputDescriptor.Lexer
