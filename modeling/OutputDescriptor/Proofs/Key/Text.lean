import OutputDescriptor.Key.Extended
import OutputDescriptor.Proofs.Address
import OutputDescriptor.Token

/-!
Keys that were read are written as texts that read back.

Unlike an address, a key need not be written as it was read: single bytes of its payload are not
looked at. But the length and the first characters of a text follow from the version bytes, and they
already tell it from keywords and addresses.
-/

namespace OutputDescriptor

namespace Keyword

theorem text_of_ofText? {text : List Char} {keyword : Keyword} (h : ofText? text = some keyword) :
    keyword.text = text := by
  simpa using List.find?_some h

theorem ofText?_eq_none {text : List Char} (h : ∀ keyword : Keyword, keyword.text ≠ text) :
    ofText? text = none := by
  cases hk : ofText? text with
  | none => rfl
  | some keyword => exact absurd (text_of_ofText? hk) (h keyword)

end Keyword

/-- A text that is too long for an address and begins like neither an address nor a keyword. -/
structure Distinguished (text : List Char) : Prop where
  long : 50 < text.length
  front : text.take 2 ∉ Address.fronts
  keyword : Keyword.ofText? (text.takeWhile Char.isLower) = none

namespace Distinguished

theorem not_address {text : List Char} (h : Distinguished text) : Address.parse? text = none := by
  cases ha : Address.parse? text with
  | none => rfl
  | some address =>
    rcases Address.shape_of_parse? ha with ⟨_, hfront⟩ | ⟨_, hlength, _⟩
    · exact absurd hfront h.front
    · exact absurd h.long (by omega)

/-- The first character is no small letter. -/
theorem of_head {c : Char} {tail : List Char} (hc : c.isLower = false) (hfront : c ≠ 'B' ∧ c ≠ 'T')
    (hlength : 50 ≤ tail.length) : Distinguished ([c] ++ tail) where
  long := by
    simp only [List.length_append, List.length_cons, List.length_nil]
    omega
  front := by
    intro h
    cases tail with
    | nil => simp at hlength
    | cons d tail =>
      simp only [Address.fronts, List.singleton_append, List.take_succ_cons, List.take_zero,
        List.mem_cons, List.cons.injEq, List.not_mem_nil, or_false, and_true] at h
      rcases h with ⟨rfl, _⟩ | ⟨rfl, _⟩ | ⟨rfl, _⟩ | ⟨rfl, _⟩
      · exact absurd hc (by decide)
      · exact hfront.1 rfl
      · exact absurd hc (by decide)
      · exact hfront.2 rfl
  keyword := by
    rw [List.singleton_append, List.takeWhile_cons_of_neg (by simp [hc])]
    rfl

/-- The first two characters begin neither an address nor a keyword. -/
theorem of_front {c d : Char} {tail : List Char} (hfront : [c, d] ∉ Address.fronts)
    (hkeyword : ∀ keyword : Keyword, ∀ rest, keyword.text ≠ ([c, d] ++ rest).takeWhile Char.isLower)
    (hlength : 49 ≤ tail.length) : Distinguished ([c, d] ++ tail) where
  long := by
    simp only [List.length_append, List.length_cons, List.length_nil]
    omega
  front := by
    simpa using hfront
  keyword := Keyword.ofText?_eq_none fun keyword => hkeyword keyword tail

/-- It is enough to look at the ways in which texts with these version bytes begin. -/
theorem of_encodeGuarded {version rest : Bytes} {size : Nat} (power low high : Nat)
    (hhead : version.head?.any (· != 0) = true) (hsize : rest.length = size)
    (hlow : low * 58 ^ power ≤ version.toNat * 256 ^ (size + 4))
    (hhigh : (version.toNat + 1) * 256 ^ (size + 4) ≤ (high + 1) * 58 ^ power) (hpos : 0 < low)
    (hfronts : ∀ front tail, low ≤ front → front ≤ high → tail.length = power →
      Distinguished ((Radix.digits 58 front).map Base58.char ++ tail)) :
    Distinguished (Base58.encodeGuarded (version ++ rest)) := by
  obtain ⟨front, tail, hle, hge, hcount, heq⟩ :=
    Base58.encodeGuarded_front version power low high hhead hsize hlow hhigh hpos
  rw [heq]
  exact hfronts front tail hle hge hcount

end Distinguished

namespace WifKey

theorem networkOf?_version (network : KeyNetwork) : networkOf? (version network) = some network := by
  cases network <;> decide

/-- A written secret key reads back. -/
theorem parse?_text (key : WifKey) : parse? key.text = some key := by
  obtain ⟨network, compressed, secret⟩ := key
  have hlength : secret.toBytes.length = 32 := Bytes.length_bigEndian _ _
  have hfront (last : Bytes) : (secret.toBytes ++ last).take 32 = secret.toBytes :=
    List.take_left' hlength
  have hwhole : secret.toBytes.take 32 = secret.toBytes := by
    rw [← hlength, List.take_length]
  unfold parse? text
  rw [Base58.decodeGuarded?_encodeGuarded]
  cases compressed <;>
    simp [hlength, hfront, hwhole, networkOf?_version, SecretKey.ofBytes?_toBytes]

/-- What the text of a secret key holds. -/
theorem parse?_eq_some {text : List Char} {key : WifKey} (h : parse? text = some key) :
    ∃ rest, Base58.encodeGuarded (version key.network :: rest) = text ∧
      (rest.length = 32 ∨ rest.length = 33) := by
  simp only [parse?, Option.bind_eq_bind, Option.bind_eq_some_iff] at h
  obtain ⟨payload, hpayload, h⟩ := h
  cases payload with
  | nil => cases h
  | cons byte rest =>
    dsimp only at h
    split at h
    · next hlength =>
      simp only [Option.bind_eq_some_iff] at h
      obtain ⟨network, hnetwork, secret, _, heq⟩ := h
      cases heq
      refine ⟨rest, ?_, hlength⟩
      have hbyte : version network = byte := by
        unfold networkOf? at hnetwork
        split at hnetwork
        · next hbyte =>
          cases hnetwork
          exact hbyte.symm
        · split at hnetwork
          · next hbyte =>
            cases hnetwork
            exact hbyte.symm
          · cases hnetwork
      rw [hbyte, Base58.decodeGuarded?_eq_some.mp hpayload]
    · cases h

/-- The single characters that texts of secret keys begin with. -/
theorem distinguished_of_digit {front : Nat} (h : front ∈ [4, 8, 18, 19]) {tail : List Char}
    (hlength : 50 ≤ tail.length) :
    Distinguished ((Radix.digits 58 front).map Base58.char ++ tail) := by
  have facts : (Radix.digits 58 front).map Base58.char = [Base58.char front] ∧
      (Base58.char front).isLower = false ∧ Base58.char front ≠ 'B' ∧ Base58.char front ≠ 'T' := by
    simp only [List.mem_cons, List.not_mem_nil, or_false] at h
    rcases h with rfl | rfl | rfl | rfl <;> decide
  obtain ⟨hfront, hlower, hletters⟩ := facts
  rw [hfront]
  exact .of_head hlower hletters hlength

/-- The pairs of characters that they begin with otherwise. -/
theorem distinguished_of_pair {front : Nat} (hlow : 2050 ≤ front) (hhigh : front ≤ 2059)
    {tail : List Char} (hlength : 50 ≤ tail.length) :
    Distinguished ((Radix.digits 58 front).map Base58.char ++ tail) := by
  obtain ⟨k, rfl⟩ := Nat.exists_eq_add_of_le hlow
  have facts : ∀ k < 10, (Radix.digits 58 (2050 + k)).map Base58.char =
      ['c', Base58.char (20 + k)] ∧ (Base58.char (20 + k)).isLower = false := by decide
  obtain ⟨hfront, hlower⟩ := facts k (by omega)
  rw [hfront]
  refine .of_front ?_ ?_ (by omega)
  · intro h
    simp [Address.fronts] at h
  · intro keyword rest h
    rw [List.cons_append, List.takeWhile_cons_of_pos (by decide), List.cons_append,
      List.takeWhile_cons_of_neg (by simp [hlower])] at h
    cases keyword <;> simp [Keyword.text] at h

/-- Texts of secret keys begin with `5`, `K`, `L`, `9`, or with `c` and a capital. -/
theorem distinguished_of_parse? {text : List Char} {key : WifKey} (h : parse? text = some key) :
    Distinguished text := by
  obtain ⟨rest, rfl, hlength⟩ := parse?_eq_some h
  change Distinguished (Base58.encodeGuarded ([version key.network] ++ rest))
  cases key.network with
  | main =>
    rcases hlength with hlength | hlength
    · refine .of_encodeGuarded 50 4 4 (by decide) hlength (by decide) (by decide) (by decide) ?_
      intro front tail hlow hhigh hcount
      obtain rfl : front = 4 := by omega
      exact distinguished_of_digit (by simp) (by omega)
    · refine .of_encodeGuarded 51 18 19 (by decide) hlength (by decide) (by decide) (by decide) ?_
      intro front tail hlow hhigh hcount
      obtain rfl | rfl : front = 18 ∨ front = 19 := by omega
      · exact distinguished_of_digit (by simp) (by omega)
      · exact distinguished_of_digit (by simp) (by omega)
  | test =>
    rcases hlength with hlength | hlength
    · refine .of_encodeGuarded 50 8 8 (by decide) hlength (by decide) (by decide) (by decide) ?_
      intro front tail hlow hhigh hcount
      obtain rfl : front = 8 := by omega
      exact distinguished_of_digit (by simp) (by omega)
    · refine .of_encodeGuarded 50 2050 2059 (by decide) hlength (by decide) (by decide)
        (by decide) ?_
      intro front tail hlow hhigh hcount
      exact distinguished_of_pair hlow hhigh (by omega)

end WifKey

namespace ExtendedFormat

variable {K : Type} {format : ExtendedFormat K}

/-- What a format has to provide for its keys to read back. -/
structure Lawful (format : ExtendedFormat K) (Valid : K → Prop) : Prop where
  length_version : ∀ network, (format.version network).length = 4
  version_ne : format.version .main ≠ format.version .test
  length_write : ∀ key, (format.write key).length = 33
  read?_write : ∀ key, Valid key → format.read? (format.write key) = some key
  valid_of_read? : ∀ bytes key, format.read? bytes = some key → Valid key

variable {Valid : K → Prop}

theorem Lawful.networkOf?_version (lawful : Lawful format Valid) (network : KeyNetwork) :
    format.networkOf? (format.version network) = some network := by
  cases network with
  | main => simp [networkOf?]
  | test => simp [networkOf?, lawful.version_ne]

theorem version_of_networkOf? {bytes : Bytes} {network : KeyNetwork}
    (h : format.networkOf? bytes = some network) : format.version network = bytes := by
  simpa using List.find?_some h

/-- The bytes of an extended key, field by field. -/
def payload (format : ExtendedFormat K) (key : Extended K) : Bytes :=
  format.version key.network ++ ([key.depth] ++ (key.parent.val ++
    (Bytes.bigEndian 4 key.number.toNat ++ (key.chainCode.val ++ format.write key.key))))

theorem text_eq (key : Extended K) :
    format.text key = Base58.encodeGuarded (format.payload key) := by
  simp [text, payload]

theorem drop_of_drop {bytes front back : Bytes} {i j : Nat} (h : bytes.drop i = front ++ back)
    (hlength : front.length = j) : bytes.drop (i + j) = back := by
  rw [← List.drop_drop, h, List.drop_left' hlength]

theorem Lawful.ofPayload?_payload (lawful : Lawful format Valid) {key : Extended K}
    (valid : Valid key.key) : format.ofPayload? (format.payload key) = some key := by
  obtain ⟨network, depth, ⟨parent, hparent⟩, number, ⟨chainCode, hchain⟩, key⟩ := key
  have hversion := lawful.length_version network
  have hkey := lawful.length_write key
  have hnumber : Bytes.toNat (Bytes.bigEndian 4 number.toNat) = number.toNat :=
    Bytes.toNat_bigEndian_of_lt number.toNat_lt
  generalize hbytes : format.payload ⟨network, depth, ⟨parent, hparent⟩, number,
    ⟨chainCode, hchain⟩, key⟩ = bytes
  unfold payload at hbytes
  dsimp only at hbytes
  have hlength : bytes.length = 78 := by
    simp [← hbytes, hversion, hparent, hchain, hkey]
  have h0 : bytes.take 4 = format.version network := hbytes ▸ List.take_left' hversion
  have h4 : bytes.drop 4 = [depth] ++ (parent ++ (Bytes.bigEndian 4 number.toNat ++
      (chainCode ++ format.write key))) := hbytes ▸ List.drop_left' hversion
  have h5 := drop_of_drop h4 (List.length_singleton)
  have h9 := drop_of_drop h5 hparent
  have h13 := drop_of_drop h9 (Bytes.length_bigEndian _ _)
  have h45 := drop_of_drop h13 hchain
  have hdepth : bytes[4]?.getD 0 = depth := by
    rw [← Nat.add_zero 4, ← List.getElem?_drop, h4]
    rfl
  simp only [Nat.reduceAdd] at h5 h9 h13 h45
  unfold ofPayload?
  rw [dif_pos hlength]
  simp [h0, h5, h9, h13, h45, hdepth, hparent, hchain, lawful.networkOf?_version, hnumber,
    ChildNumber.ofNat_toNat, lawful.read?_write key valid]

/-- A written extended key reads back. -/
theorem Lawful.parse?_text (lawful : Lawful format Valid) {key : Extended K}
    (valid : Valid key.key) : format.parse? (format.text key) = some key := by
  rw [parse?, text_eq, Base58.decodeGuarded?_encodeGuarded]
  exact lawful.ofPayload?_payload valid

/-- What the text of an extended key holds. -/
theorem Lawful.parse?_eq_some (lawful : Lawful format Valid) {text : List Char} {key : Extended K}
    (h : format.parse? text = some key) :
    Valid key.key ∧ ∃ rest, rest.length = 74 ∧
      Base58.encodeGuarded (format.version key.network ++ rest) = text := by
  simp only [parse?, Option.bind_eq_bind, Option.bind_eq_some_iff] at h
  obtain ⟨bytes, hbytes, h⟩ := h
  unfold ofPayload? at h
  split at h
  · next hlength =>
    simp only [Option.bind_eq_bind, Option.bind_eq_some_iff] at h
    obtain ⟨network, hnetwork, material, hmaterial, heq⟩ := h
    cases heq
    refine ⟨lawful.valid_of_read? _ _ hmaterial, bytes.drop 4, by simp [hlength], ?_⟩
    rw [version_of_networkOf? hnetwork, List.take_append_drop]
    exact Base58.decodeGuarded?_eq_some.mp hbytes
  · cases h

end ExtendedFormat

theorem Xpub.lawful : Xpub.format.Lawful fun point => point.isOnCurve = true where
  length_version network := by cases network <;> rfl
  version_ne := by decide
  length_write point := by simp [Xpub.format, Point.toBytes]
  read?_write _ valid := Point.ofBytes?_toBytes valid
  valid_of_read? _ _ h := (Point.ofBytes?_eq_some h).2

theorem Xprv.lawful : Xprv.format.Lawful fun _ => True where
  length_version network := by cases network <;> rfl
  version_ne := by decide
  length_write secret := by simp [Xprv.format, SecretKey.toBytes]
  read?_write secret _ := SecretKey.ofBytes?_toBytes secret
  valid_of_read? _ _ _ := trivial

namespace ExtendedKey

/-- Public extended keys hold a point of the curve. -/
def IsValid : ExtendedKey → Prop
  | xpub key => key.key.isOnCurve = true
  | xprv _ => True

/-- The text of a private key has other version bytes than that of a public one. -/
theorem xpub_parse?_eq_none {text : List Char} {key : Xprv} (h : Xprv.parse? text = some key) :
    Xpub.parse? text = none := by
  cases hxpub : Xpub.parse? text with
  | none => rfl
  | some found =>
    obtain ⟨_, rest, _, htext⟩ := Xpub.lawful.parse?_eq_some hxpub
    obtain ⟨_, rest', _, htext'⟩ := Xprv.lawful.parse?_eq_some h
    have hfront := congrArg (List.take 4) (Base58.encodeGuarded_inj (htext.trans htext'.symm))
    rw [List.take_left' (Xpub.lawful.length_version _),
      List.take_left' (Xprv.lawful.length_version _)] at hfront
    have differ : ∀ a b, Xpub.format.version a ≠ Xprv.format.version b := by
      intro a b
      cases a <;> cases b <;> decide
    exact absurd hfront (differ _ _)

theorem parse?_of_xpub {text : List Char} {key : Xpub} (h : Xpub.parse? text = some key) :
    parse? text = some (.xpub key) := by
  rw [parse?, h]
  rfl

theorem parse?_of_xprv {text : List Char} {key : Xprv} (h : Xprv.parse? text = some key) :
    parse? text = some (.xprv key) := by
  rw [parse?, xpub_parse?_eq_none h, h]
  rfl

/-- A written extended key reads back. -/
theorem parse?_text {key : ExtendedKey} (valid : key.IsValid) : parse? key.text = some key := by
  cases key with
  | xpub key => exact parse?_of_xpub (Xpub.lawful.parse?_text valid)
  | xprv key => exact parse?_of_xprv (Xprv.lawful.parse?_text trivial)

/-- What the text of an extended key holds. -/
theorem parse?_eq_some {text : List Char} {key : ExtendedKey} (h : parse? text = some key) :
    key.IsValid ∧ ∃ network rest, rest.length = 74 ∧
      (Base58.encodeGuarded (Xpub.format.version network ++ rest) = text ∨
        Base58.encodeGuarded (Xprv.format.version network ++ rest) = text) := by
  rcases Option.or_eq_some_iff.mp h with h | ⟨_, h⟩
  · obtain ⟨key, hkey, rfl⟩ := Option.map_eq_some_iff.mp h
    obtain ⟨valid, rest, hlength, htext⟩ := Xpub.lawful.parse?_eq_some hkey
    exact ⟨valid, _, rest, hlength, .inl htext⟩
  · obtain ⟨key, hkey, rfl⟩ := Option.map_eq_some_iff.mp h
    obtain ⟨_, rest, hlength, htext⟩ := Xprv.lawful.parse?_eq_some hkey
    exact ⟨trivial, _, rest, hlength, .inr htext⟩

theorem front_of_version {version rest : Bytes} (front : Nat) {c : Char}
    (hhead : version.head?.any (· != 0) = true) (hlength : rest.length = 74)
    (hlow : front * 58 ^ 109 ≤ version.toNat * 256 ^ 78)
    (hhigh : (version.toNat + 1) * 256 ^ 78 ≤ (front + 1) * 58 ^ 109) (hpos : 0 < front)
    (hfront : (Radix.digits 58 front).map Base58.char = [c, 'p']) :
    ∃ tail, tail.length = 109 ∧ Base58.encodeGuarded (version ++ rest) = [c, 'p'] ++ tail := by
  obtain ⟨found, tail, hle, hge, hcount, heq⟩ :=
    Base58.encodeGuarded_front version 109 front front hhead hlength hlow hhigh hpos
  obtain rfl : found = front := Nat.le_antisymm hge hle
  exact ⟨tail, hcount, hfront ▸ heq⟩

/-- Texts of extended keys begin with `xp` or `tp`. -/
theorem front_of_parse? {text : List Char} {key : ExtendedKey} (h : parse? text = some key) :
    ∃ c tail, (c = 'x' ∨ c = 't') ∧ tail.length = 109 ∧ text = [c, 'p'] ++ tail := by
  obtain ⟨_, network, rest, hlength, rfl | rfl⟩ := parse?_eq_some h
  · cases network with
    | main =>
      refine ⟨'x', (front_of_version 3237 ?_ hlength ?_ ?_ (by decide) (by decide)).imp
        fun _ => .intro (.inl rfl)⟩ <;> decide
    | test =>
      refine ⟨'t', (front_of_version 3005 ?_ hlength ?_ ?_ (by decide) (by decide)).imp
        fun _ => .intro (.inr rfl)⟩ <;> decide
  · cases network with
    | main =>
      refine ⟨'x', (front_of_version 3237 ?_ hlength ?_ ?_ (by decide) (by decide)).imp
        fun _ => .intro (.inl rfl)⟩ <;> decide
    | test =>
      refine ⟨'t', (front_of_version 3005 ?_ hlength ?_ ?_ (by decide) (by decide)).imp
        fun _ => .intro (.inr rfl)⟩ <;> decide

theorem distinguished_of_parse? {text : List Char} {key : ExtendedKey} (h : parse? text = some key) :
    Distinguished text := by
  obtain ⟨c, tail, hc, hlength, rfl⟩ := front_of_parse? h
  refine .of_front ?_ ?_ (by omega)
  · rcases hc with rfl | rfl <;> decide
  · intro keyword rest h
    have hlower : c.isLower = true := by
      rcases hc with rfl | rfl <;> decide
    rw [List.cons_append, List.takeWhile_cons_of_pos hlower, List.cons_append,
      List.takeWhile_cons_of_pos (by decide)] at h
    rcases hc with rfl | rfl <;> cases keyword <;> simp [Keyword.text] at h

/-- An extended key is longer than any other secret key. -/
theorem wif_parse?_eq_none {text : List Char} {key : ExtendedKey} (h : parse? text = some key) :
    WifKey.parse? text = none := by
  cases hwif : WifKey.parse? text with
  | none => rfl
  | some found =>
    obtain ⟨tail, htail, hshort⟩ := WifKey.parse?_eq_some hwif
    obtain ⟨_, network, rest, hlength, htext | htext⟩ := parse?_eq_some h
    · have hpayload := congrArg List.length (Base58.encodeGuarded_inj (htail.trans htext.symm))
      rw [List.length_cons, List.length_append, Xpub.lawful.length_version, hlength] at hpayload
      omega
    · have hpayload := congrArg List.length (Base58.encodeGuarded_inj (htail.trans htext.symm))
      rw [List.length_cons, List.length_append, Xprv.lawful.length_version, hlength] at hpayload
      omega

end ExtendedKey

end OutputDescriptor
