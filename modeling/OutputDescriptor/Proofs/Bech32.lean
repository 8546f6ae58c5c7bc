import OutputDescriptor.Proofs.BchCode
import OutputDescriptor.Proofs.Bytes
import OutputDescriptor.Proofs.Traversal

/-!
Bech32 texts read back: bytes from their symbols, symbols from their checksum, and both parts from
the text, whose last separator stands between them since no symbol is written as one.
-/

namespace OutputDescriptor.Bech32

/-! ### Bytes and symbols -/

theorem value_symbolsOfBytes (bytes : Bytes) :
    Symbol.value (symbolsOfBytes bytes) =
      bytes.toNat * 2 ^ (5 * ((8 * bytes.length + 4) / 5) - 8 * bytes.length) := by
  have digits : symbolsOfBytes bytes = Symbol.digits ((8 * bytes.length + 4) / 5)
      (bytes.toNat <<< (5 * ((8 * bytes.length + 4) / 5) - 8 * bytes.length)) := rfl
  have width : (32 : Nat) ^ ((8 * bytes.length + 4) / 5) = 256 ^ bytes.length *
      2 ^ (5 * ((8 * bytes.length + 4) / 5) - 8 * bytes.length) := by
    have left : (32 : Nat) = 2 ^ 5 := rfl
    have right : (256 : Nat) = 2 ^ 8 := rfl
    rw [left, right, ← Nat.pow_mul, ← Nat.pow_mul, ← Nat.pow_add]
    congr 1
    omega
  rw [digits, Symbol.value_digits, Nat.shiftLeft_eq, Nat.mod_eq_of_lt]
  rw [width]
  exact Nat.mul_lt_mul_of_pos_right bytes.toNat_lt (Nat.two_pow_pos _)

/-- The bits that fill up the last symbol come off again. -/
theorem bytesOfSymbols?_symbolsOfBytes (bytes : Bytes) :
    bytesOfSymbols? (symbolsOfBytes bytes) = some bytes := by
  have hlength : (symbolsOfBytes bytes).length = (8 * bytes.length + 4) / 5 :=
    Symbol.length_digits _ _
  have hrest : 5 * ((8 * bytes.length + 4) / 5) % 8 =
      5 * ((8 * bytes.length + 4) / 5) - 8 * bytes.length := by omega
  have hcount : 5 * ((8 * bytes.length + 4) / 5) / 8 = bytes.length := by omega
  have hfew : 5 * ((8 * bytes.length + 4) / 5) - 8 * bytes.length < 5 := by omega
  have hvalue := value_symbolsOfBytes bytes
  unfold Symbol.value at hvalue
  unfold bytesOfSymbols?
  dsimp only
  rw [hvalue, hlength, hrest, hcount, Nat.one_shiftLeft, Nat.shiftRight_eq_div_pow,
    Nat.mul_mod_left, Nat.mul_div_cancel _ (Nat.two_pow_pos _), Bytes.bigEndian_toNat,
    if_pos ⟨hfew, rfl⟩]

/-! ### Texts -/

theorem char_facts : ∀ symbol : Symbol, symbol.char ≠ '1' ∧ symbol.char.isUpper = false ∧
    symbol.char.toLower = symbol.char ∧ symbol.char.isAlphanum = true := by
  decide

theorem split?_append {readable data : List Char} (h : ∀ c ∈ data, c ≠ '1') :
    split? (readable ++ '1' :: data) = some (readable, data) := by
  have behind : (readable ++ '1' :: data).reverse.takeWhile (· != '1') = data.reverse := by
    have hreverse : ∀ c ∈ data.reverse, (c != '1') = true := by
      intro c hc
      simpa using h c (List.mem_reverse.mp hc)
    have swap : (readable ++ '1' :: data).reverse = data.reverse ++ '1' :: readable.reverse := by
      simp
    rw [swap, List.takeWhile_append_of_pos hreverse]
    simp
  have front : (readable ++ '1' :: data).take readable.length = readable := List.take_left' rfl
  have hlength : (readable ++ '1' :: data).length - 1 - data.length = readable.length := by
    simp only [List.length_append, List.length_cons]
    omega
  unfold split?
  dsimp only
  rw [behind, List.length_reverse, hlength, front, List.reverse_reverse, if_pos]
  simp only [List.length_append, List.length_cons]
  omega

theorem split?_eq_some {text readable data : List Char} (h : split? text = some (readable, data)) :
    text = readable ++ '1' :: data := by
  simp only [split?] at h
  split at h
  · next behind =>
    cases h
    have cut : text.reverse.takeWhile (· != '1') ++ text.reverse.dropWhile (· != '1') =
        text.reverse := List.takeWhile_append_dropWhile
    have stop := List.head?_dropWhile_not (· != '1') text.reverse
    generalize text.reverse.takeWhile (· != '1') = back at cut behind ⊢
    cases hdrop : text.reverse.dropWhile (· != '1') with
    | nil =>
      have hlength := congrArg List.length cut
      rw [hdrop, List.append_nil, List.length_reverse] at hlength
      omega
    | cons c front =>
      obtain rfl : c = '1' := by
        rw [hdrop] at stop
        simpa using stop
      have whole : text = front.reverse ++ '1' :: back.reverse := by
        rw [← List.reverse_reverse text, ← cut, hdrop]
        simp
      have hlength : text.length - 1 - back.length = front.reverse.length := by
        rw [whole]
        simp only [List.length_append, List.length_cons, List.length_reverse]
        omega
      rw [hlength, whole, List.take_left' rfl]
  · cases h

theorem isAlphanum_of_ofChar? {c : Char} (h : (Symbol.ofChar? c.toLower).isSome = true) :
    c.isAlphanum = true := by
  cases hupper : c.isUpper with
  | true =>
    show ((c.isUpper || c.isLower) || c.isDigit) = true
    rw [hupper, Bool.true_or, Bool.true_or]
  | false =>
    have alphanumeric : Symbol.alphabet.all Char.isAlphanum = true := by decide
    have unchanged : c.toLower = c := dif_neg (of_decide_eq_false hupper)
    rw [unchanged, Symbol.ofChar?, Option.isSome_map, List.isSome_idxOf?] at h
    exact List.all_eq_true.mp alphanumeric c h

theorem mapM_ofChar?_map_char (symbols : List Symbol) :
    ((symbols.map Symbol.char).map Char.toLower).mapM Symbol.ofChar? = some symbols := by
  have lower : (symbols.map Symbol.char).map Char.toLower = symbols.map Symbol.char := by
    rw [List.map_map]
    exact List.map_congr_left fun symbol _ => (char_facts symbol).2.2.1
  rw [lower]
  exact mapM_map_of_read fun symbol _ => Symbol.ofChar?_char symbol

theorem isMixedCase_encoded {readable : List Char} (symbols : List Symbol)
    (upper : readable.any Char.isUpper = false) :
    isMixedCase (readable ++ symbols.map Symbol.char) = false := by
  have hsymbols : (symbols.map Symbol.char).any Char.isUpper = false := by
    rw [List.any_eq_false]
    intro c hc
    obtain ⟨symbol, _, rfl⟩ := List.mem_map.mp hc
    simp [(char_facts symbol).2.1]
  rw [isMixedCase, List.any_append, upper, hsymbols]
  rfl

/-- The checksum of a variant is recognised as that variant's. -/
theorem variant?_checksum (variant : Variant) (readable : List Char) (symbols : List Symbol) :
    variant? readable (symbols ++ code.checksum variant.residue (expand readable ++ symbols)) =
      some variant := by
  have residue : code.remainder (expand readable ++
      (symbols ++ code.checksum variant.residue (expand readable ++ symbols))) = variant.residue := by
    rw [← List.append_assoc]
    exact BchCode.remainder_checksum _ _
  unfold variant?
  dsimp only
  rw [residue]
  cases variant <;> decide

/-- The symbols that are read stand there in letters and digits, at least those of a checksum. -/
theorem decode?_eq_some {readable data : List Char} {found : Variant × List Symbol}
    (h : decode? readable data = some found) :
    6 ≤ data.length ∧ ∀ c ∈ data, c.isAlphanum = true := by
  unfold decode? at h
  split at h
  · cases h
  · simp only [Option.bind_eq_bind, Option.bind_eq_some_iff] at h
    obtain ⟨symbols, hsymbols, h⟩ := h
    split at h
    · cases h
    · have hlength := length_of_mapM hsymbols
      rw [List.length_map] at hlength
      refine ⟨by omega, fun c hc => isAlphanum_of_ofChar? ?_⟩
      exact isSome_mapM_iff.mp (Option.isSome_of_eq_some hsymbols) _ (List.mem_map_of_mem hc)

/-- What an encoded text has behind its separator. -/
def dataPart (variant : Variant) (readable : List Char) (symbols : List Symbol) : List Char :=
  (symbols ++ code.checksum variant.residue (expand readable ++ symbols)).map Symbol.char

theorem exists_of_mem_dataPart {variant : Variant} {readable : List Char} {symbols : List Symbol}
    {c : Char} (h : c ∈ dataPart variant readable symbols) : ∃ symbol : Symbol, symbol.char = c := by
  obtain ⟨symbol, _, rfl⟩ := List.mem_map.mp h
  exact ⟨symbol, rfl⟩

theorem split?_encode (variant : Variant) (readable : List Char) (symbols : List Symbol) :
    split? (encode variant readable symbols) =
      some (readable, dataPart variant readable symbols) := by
  refine split?_append fun c hc => ?_
  obtain ⟨symbol, rfl⟩ := exists_of_mem_dataPart hc
  exact (char_facts symbol).1

/-- Symbols behind a human-readable part in small letters read back with the variant whose checksum
follows them. -/
theorem decode?_dataPart {readable : List Char} (variant : Variant) (symbols : List Symbol)
    (upper : readable.any Char.isUpper = false) (lower : readable.map Char.toLower = readable) :
    decode? readable (dataPart variant readable symbols) = some (variant, symbols) := by
  have hlength : (code.checksum variant.residue (expand readable ++ symbols)).length = 6 :=
    BchCode.length_symbolsOf _
  have hvariant := variant?_checksum variant readable symbols
  unfold decode? dataPart
  rw [isMixedCase_encoded _ upper, mapM_ofChar?_map_char, lower]
  simp [hlength, hvariant]

end OutputDescriptor.Bech32
