import OutputDescriptor.Address
import OutputDescriptor.Proofs.Base58
import OutputDescriptor.Proofs.Bech32

/-!
Addresses that were read are written as texts that read back.

A text in base 58 is the only one of its address, so it is written again. A witness address may have
been read from capitals and is written in small letters. Of either code it is known how its texts
begin: the version byte in front of a hash leaves few possibilities for the first digit.
-/

namespace OutputDescriptor.Address

/-! ### What can be an address -/

theorem networkOfReadable?_eq_some {readable : List Char} {network : Network}
    (h : networkOfReadable? readable = some network) :
    network ≠ .signet ∧
      (readable = readablePart network ∨ readable = (readablePart network).map Char.toUpper) := by
  obtain ⟨hfound, _⟩ := List.find?_eq_some_iff_append.mp h
  have hmem := List.mem_of_find?_eq_some h
  refine ⟨?_, by simpa using hfound⟩
  rintro rfl
  simp at hmem

/-- How bech32 addresses begin, without those of which the beginning is longer. -/
def fronts : List (List Char) :=
  [['b', 'c'], ['B', 'C'], ['t', 'b'], ['T', 'B']]

theorem front_of_networkOfReadable? {readable : List Char} {network : Network}
    (h : networkOfReadable? readable = some network) :
    2 ≤ readable.length ∧ readable.take 2 ∈ fronts := by
  obtain ⟨_, rfl | rfl⟩ := networkOfReadable?_eq_some h <;> cases network <;> decide

/-- What a witness address consists of. -/
theorem parseWitness?_eq_some {network : Network} {readable data : List Char} {address : Address}
    (h : parseWitness? network readable data = some address) :
    (6 ≤ data.length ∧ ∀ c ∈ data, c.isAlphanum = true) ∧
      ∃ program, address = ⟨network, .witness program⟩ := by
  simp only [parseWitness?, Option.bind_eq_bind, Option.bind_eq_some_iff] at h
  obtain ⟨⟨variant, symbols⟩, hdecode, h⟩ := h
  refine ⟨Bech32.decode?_eq_some hdecode, ?_⟩
  cases symbols with
  | nil => cases h
  | cons version symbols =>
    simp only [Option.bind_eq_some_iff] at h
    obtain ⟨bytes, _, program, _, h⟩ := h
    split at h <;> cases h
    exact ⟨program, rfl⟩

/-- The bytes in front of a hash that tell what it is a hash of, and the network. -/
def hashVersions : List UInt8 :=
  [0, 5, 111, 196]

/-- A base 58 address has a payload of 21 bytes and is written as it was read. -/
theorem parseHash?_eq_some {text : List Char} {address : Address}
    (h : parseHash? text = some address) :
    text.length ≤ 50 ∧ address.text = text ∧ ∃ version ∈ hashVersions, ∃ hash : ByteBlock 20,
      Base58.encodeGuarded (version :: hash.val) = text := by
  unfold parseHash? at h
  split at h
  · cases h
  · next hlong =>
    simp only [Option.bind_eq_bind, Option.bind_eq_some_iff] at h
    obtain ⟨payload, hpayload, h⟩ := h
    have htext := Base58.decodeGuarded?_eq_some.mp hpayload
    split at h
    · cases h
    · next version hash =>
      split at h
      · next hhash =>
        have found (hmem : version ∈ hashVersions) : ∃ version ∈ hashVersions,
            ∃ hash : ByteBlock 20, Base58.encodeGuarded (version :: hash.val) = text :=
          ⟨version, hmem, ⟨hash, hhash⟩, htext⟩
        refine ⟨by omega, ?_⟩
        split at h
        · next hversion =>
          subst hversion
          cases h
          exact ⟨htext, found (by decide)⟩
        · split at h
          · next hversion =>
            subst hversion
            cases h
            exact ⟨htext, found (by decide)⟩
          · split at h
            · next hversion =>
              subst hversion
              cases h
              exact ⟨htext, found (by decide)⟩
            · split at h
              · next hversion =>
                subst hversion
                cases h
                exact ⟨htext, found (by decide)⟩
              · cases h
      · cases h

/-- The single character that a text with such a version byte begins with. -/
theorem head_of_version (version : UInt8) (count low high : Nat) (hash : ByteBlock 20)
    (hversion : version ≠ 0) (hlow : low * 58 ^ count ≤ version.toNat * 256 ^ (20 + 4))
    (hhigh : (version.toNat + 1) * 256 ^ (20 + 4) ≤ (high + 1) * 58 ^ count) (hpos : 0 < low)
    (hdigit : high < 58) :
    ∃ digit tail, low ≤ digit ∧ digit ≤ high ∧
      Base58.encodeGuarded (version :: hash.val) = Base58.char digit :: tail := by
  have value : Bytes.toNat [version] = version.toNat := Nat.zero_add _
  rw [← value] at hlow hhigh
  obtain ⟨digit, tail, hle, hge, _, heq⟩ := Base58.encodeGuarded_front [version] count low high
    (by simpa using hversion) hash.property hlow hhigh hpos
  rw [Radix.digits_of_lt (by omega) (by omega)] at heq
  exact ⟨digit, tail, hle, hge, heq⟩

/-- Base 58 addresses begin with a digit or with one of two letters. -/
theorem head_of_hashVersion {version : UInt8} (h : version ∈ hashVersions) (hash : ByteBlock 20) :
    ∃ c tail, Base58.encodeGuarded (version :: hash.val) = c :: tail ∧
      c ∈ ['1', '2', '3', 'm', 'n'] := by
  simp only [hashVersions, List.mem_cons, List.not_mem_nil, or_false] at h
  rcases h with rfl | rfl | rfl | rfl
  · -- a zero is no part of the number and written by itself
    exact ⟨'1', _, rfl, by decide⟩
  · obtain ⟨digit, tail, hle, hge, heq⟩ := head_of_version 5 33 2 2 hash (by decide) (by decide)
      (by decide) (by decide) (by decide)
    obtain rfl : digit = 2 := by omega
    exact ⟨_, tail, heq, by decide⟩
  · obtain ⟨digit, tail, hle, hge, heq⟩ := head_of_version 111 33 44 45 hash (by decide) (by decide)
      (by decide) (by decide) (by decide)
    obtain rfl | rfl : digit = 44 ∨ digit = 45 := by omega
    · exact ⟨_, tail, heq, by decide⟩
    · exact ⟨_, tail, heq, by decide⟩
  · obtain ⟨digit, tail, hle, hge, heq⟩ := head_of_version 196 34 1 1 hash (by decide) (by decide)
      (by decide) (by decide) (by decide)
    obtain rfl : digit = 1 := by omega
    exact ⟨_, tail, heq, by decide⟩

/-- An address is read by one of the two codes. -/
theorem parse?_eq_some {text : List Char} {address : Address} (h : parse? text = some address) :
    parseHash? text = some address ∨ ∃ network readable data, text = readable ++ '1' :: data ∧
      networkOfReadable? readable = some network ∧
      parseWitness? network readable data = some address := by
  unfold parse? at h
  split at h
  · exact .inl h
  · next readable data hsplit =>
    split at h
    · next network hnetwork =>
      exact .inr ⟨network, readable, data, Bech32.split?_eq_some hsplit, hnetwork, h⟩
    · exact .inl h

/-- Short texts are no addresses, and longer ones are only with one of a few beginnings or if they are
written in base 58. -/
theorem shape_of_parse? {text : List Char} {address : Address} (h : parse? text = some address) :
    (9 ≤ text.length ∧ text.take 2 ∈ fronts) ∨
      (25 ≤ text.length ∧ text.length ≤ 50 ∧ ∀ c ∈ text, (Base58.digit? c).isSome = true) := by
  obtain hhash | ⟨network, readable, data, rfl, hnetwork, hwitness⟩ := parse?_eq_some h
  · obtain ⟨hlong, _, version, _, hash, rfl⟩ := parseHash?_eq_some hhash
    have hlength := Base58.length_of_decodeGuarded?
      (Base58.decodeGuarded?_encodeGuarded (version :: hash.val))
    rw [List.length_cons, hash.property] at hlength
    exact .inr ⟨hlength, hlong, fun c => Base58.isSome_digit?_of_mem_encode⟩
  · obtain ⟨htwo, hfront⟩ := front_of_networkOfReadable? hnetwork
    obtain ⟨⟨hdata, _⟩, _⟩ := parseWitness?_eq_some hwitness
    refine .inl ⟨?_, by rwa [List.take_append_of_le_length htwo]⟩
    rw [List.length_append, List.length_cons]
    omega

/-! ### Reading back -/

theorem readablePart_lower (network : Network) :
    (readablePart network).any Char.isUpper = false ∧
      (readablePart network).map Char.toLower = readablePart network := by
  cases network <;> decide

theorem networkOfReadable?_readablePart {network : Network} (h : network ≠ .signet) :
    networkOfReadable? (readablePart network) = some network := by
  cases network with
  | signet => exact absurd rfl h
  | _ => decide

theorem ofBytes?_program (program : WitnessProgram) :
    WitnessProgram.ofBytes? program.version program.program = some program := by
  obtain ⟨version, bytes, hlength, hzero⟩ := program
  unfold WitnessProgram.ofBytes?
  rw [dif_pos version.isLt, dif_pos ⟨hlength, hzero⟩]

/-- A written witness address reads back, unless its network writes addresses like another one. -/
theorem parse?_text_witness {network : Network} (hnetwork : network ≠ .signet)
    (program : WitnessProgram) :
    parse? (text ⟨network, .witness program⟩) = some ⟨network, .witness program⟩ := by
  obtain ⟨upper, lower⟩ := readablePart_lower network
  have hversion : (BitVec.ofNat 5 program.version.val).toNat = program.version.val := by
    have := program.version.isLt
    rw [BitVec.toNat_ofNat]
    omega
  have hdecode := Bech32.decode?_dataPart (variantOf program.version)
    (BitVec.ofNat 5 program.version :: Bech32.symbolsOfBytes program.program) upper lower
  have htext : text ⟨network, .witness program⟩ = Bech32.encode (variantOf program.version)
      (readablePart network)
      (BitVec.ofNat 5 program.version :: Bech32.symbolsOfBytes program.program) := rfl
  rw [htext, parse?, Bech32.split?_encode]
  dsimp only
  rw [networkOfReadable?_readablePart hnetwork]
  simp only [parseWitness?, hdecode, Option.bind_eq_bind, Option.bind_some,
    Bech32.bytesOfSymbols?_symbolsOfBytes, hversion, ofBytes?_program, if_true]

/-- An address that was read is written as it was, or it is a witness address. -/
theorem text_of_parse? {text : List Char} {address : Address} (h : parse? text = some address) :
    address.text = text ∨
      ∃ network program, network ≠ .signet ∧ address = ⟨network, .witness program⟩ := by
  obtain hhash | ⟨network, readable, data, _, hnetwork, hwitness⟩ := parse?_eq_some h
  · exact .inl (parseHash?_eq_some hhash).2.1
  · obtain ⟨_, program, rfl⟩ := parseWitness?_eq_some hwitness
    exact .inr ⟨network, program, (networkOfReadable?_eq_some hnetwork).1, rfl⟩

/-- An address that was read is written as a text that reads back. -/
theorem parse?_text {text : List Char} {address : Address} (h : parse? text = some address) :
    parse? address.text = some address := by
  rcases text_of_parse? h with heq | ⟨network, program, hnetwork, rfl⟩
  · rw [heq, h]
  · exact parse?_text_witness hnetwork program

/-! ### Characters -/

/-- The written form of a witness address, at its separator. -/
theorem witness_text (network : Network) (program : WitnessProgram) :
    ∃ variant symbols, text ⟨network, .witness program⟩ =
      readablePart network ++
        '1' :: Bech32.dataPart variant (readablePart network) symbols :=
  ⟨_, _, rfl⟩

theorem isAlphanum_of_mem_readablePart {network : Network} {c : Char}
    (h : c ∈ readablePart network) : c.isAlphanum = true := by
  have hall : (readablePart network).all Char.isAlphanum = true := by
    cases network <;> rfl
  exact List.all_eq_true.mp hall c h

/-- Addresses are written in letters and digits. -/
theorem isAlphanum_of_mem_text {address : Address} {c : Char} (h : c ∈ address.text) :
    c.isAlphanum = true := by
  obtain ⟨network, payload⟩ := address
  cases payload with
  | publicKeyHash hash => exact Base58.isAlphanum_of_digit? (Base58.isSome_digit?_of_mem_encode h)
  | scriptHash hash => exact Base58.isAlphanum_of_digit? (Base58.isSome_digit?_of_mem_encode h)
  | witness program =>
    obtain ⟨variant, symbols, htext⟩ := witness_text network program
    rw [htext, List.mem_append, List.mem_cons] at h
    rcases h with h | rfl | h
    · exact isAlphanum_of_mem_readablePart h
    · decide
    · obtain ⟨symbol, rfl⟩ := Bech32.exists_of_mem_dataPart h
      exact (Bech32.char_facts symbol).2.2.2

theorem isAlphanum_of_networkOfReadable? {readable : List Char} {network : Network}
    (h : networkOfReadable? readable = some network) : ∀ c ∈ readable, c.isAlphanum = true := by
  rw [← List.all_eq_true]
  obtain ⟨_, rfl | rfl⟩ := networkOfReadable?_eq_some h <;> cases network <;> rfl

/-- What is read as an address consists of letters and digits, and is not empty. -/
theorem isAlphanum_of_parse? {text : List Char} {address : Address} (h : parse? text = some address) :
    text ≠ [] ∧ ∀ c ∈ text, c.isAlphanum = true := by
  constructor
  · rintro rfl
    rcases shape_of_parse? h with ⟨hlength, _⟩ | ⟨hlength, _⟩ <;> simp at hlength
  · intro c hc
    obtain hhash | ⟨network, readable, data, rfl, hnetwork, hwitness⟩ := parse?_eq_some h
    · obtain ⟨_, _, version, _, hash, rfl⟩ := parseHash?_eq_some hhash
      exact Base58.isAlphanum_of_digit? (Base58.isSome_digit?_of_mem_encode hc)
    · obtain ⟨⟨_, hdata⟩, _⟩ := parseWitness?_eq_some hwitness
      rcases List.mem_append.mp hc with hc | hc
      · exact isAlphanum_of_networkOfReadable? hnetwork c hc
      · rcases List.mem_cons.mp hc with rfl | hc
        · decide
        · exact hdata c hc

end OutputDescriptor.Address
