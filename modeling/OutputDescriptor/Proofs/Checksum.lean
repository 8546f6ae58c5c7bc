import Mathlib.Data.List.Basic
import Mathlib.Data.List.TakeWhile
import OutputDescriptor.Checksum
import OutputDescriptor.Proofs.BchCode

/-!
Texts made of letters, digits and the punctuation of descriptors can be given a checksum, and the
checksum comes off again.
-/

namespace OutputDescriptor.Checksum

/-- The characters that written descriptors are made of. -/
def Plain (c : Char) : Prop :=
  c.isAlphanum = true ∨ c ∈ ['(', ')', '[', ']', ',', '/', '*', '\'']

theorem lt_of_isAlphanum {c : Char} (h : c.isAlphanum = true) : c.toNat < 128 := by
  have below (d : Char) (hd : d.toNat < 128) (hle : c.val ≤ d.val) : c.toNat < 128 :=
    Nat.lt_of_le_of_lt (UInt32.le_iff_toNat_le.mp hle) hd
  rcases Bool.or_eq_true_iff.mp h with h | h
  · rcases Bool.or_eq_true_iff.mp h with h | h
    · exact below 'Z' (by decide) (of_decide_eq_true h).2
    · exact below 'z' (by decide) (of_decide_eq_true (Bool.and_eq_true_iff.mp h).2)
  · exact below '9' (by decide) (of_decide_eq_true (Bool.and_eq_true_iff.mp h).2)

theorem small_mem_alphabet : ∀ n < 128, (Char.ofNat n).isAlphanum = true →
    alphabet.elem (Char.ofNat n) = true := by
  decide +kernel

theorem mem_alphabet_of_plain {c : Char} (h : Plain c) : c ∈ alphabet := by
  rcases h with h | h
  · have found := small_mem_alphabet c.toNat (lt_of_isAlphanum h)
    rw [Char.ofNat_toNat] at found
    exact List.elem_iff.mp (found h)
  · have marks : ['(', ')', '[', ']', ',', '/', '*', '\''].all (alphabet.elem ·) = true := by decide
    exact List.elem_iff.mp (List.all_eq_true.mp marks c h)

theorem ne_hash_of_plain {c : Char} (h : Plain c) : c ≠ '#' := by
  rintro rfl
  rcases h with h | h
  · exact absurd h (by decide)
  · exact absurd h (by decide)

theorem position_eq_ok {c : Char} (h : c ∈ alphabet) : position c = .ok (alphabet.idxOf c) := by
  unfold position
  cases hfound : alphabet.idxOf? c with
  | some n => rw [List.idxOf_eq_getD_idxOf?, hfound, Option.getD_some]
  | none => exact absurd h (List.idxOf?_eq_none_iff.mp hfound)

theorem mapM_position {text : List Char} (h : ∀ c ∈ text, c ∈ alphabet) :
    text.mapM position = .ok (text.map alphabet.idxOf) := by
  induction text with
  | nil => rfl
  | cons c text ih =>
    rw [List.mapM_cons, position_eq_ok (h c (by simp)), ih fun x hx => h x (by simp [hx])]
    rfl

theorem of_eq_ok {text : List Char} (h : ∀ c ∈ text, c ∈ alphabet) :
    Checksum.of text =
      .ok ((code.checksum 1 (symbols (text.map alphabet.idxOf))).map Symbol.char) := by
  rw [Checksum.of, mapM_position h]
  rfl

@[simp] theorem length_checksum (residue : BitVec (5 * 8)) (symbols : List Symbol) :
    (code.checksum residue symbols).length = 8 :=
  BchCode.length_symbolsOf _

/-- A text over the alphabet has a checksum of eight characters. -/
theorem exists_of {text : List Char} (h : ∀ c ∈ text, c ∈ alphabet) :
    ∃ found, Checksum.of text = .ok found ∧ found.length = 8 := by
  refine ⟨_, of_eq_ok h, ?_⟩
  rw [List.length_map, length_checksum]

theorem hash_notMem_of {text found : List Char} (h : Checksum.of text = .ok found) :
    '#' ∉ found := by
  have other : ∀ symbol : Symbol, symbol.char ≠ '#' := by decide
  unfold Checksum.of at h
  cases hpositions : text.mapM position with
  | error e =>
    rw [hpositions] at h
    cases h
  | ok positions =>
    rw [hpositions] at h
    obtain rfl := Except.ok.inj h
    intro hmem
    obtain ⟨symbol, _, hchar⟩ := List.mem_map.mp hmem
    exact other symbol hchar

theorem verify_of_no_hash {text : List Char} (h : ∀ c ∈ text, c ≠ '#') : verify text = .ok text := by
  have hall : ∀ c ∈ text, (c != '#') = true := fun c hc => by simpa using h c hc
  have hnone : text.dropWhile (· != '#') = [] := List.dropWhile_eq_nil_iff.mpr hall
  unfold verify
  dsimp only
  rw [hnone]

/-- What stands behind a text is taken for its checksum. -/
theorem verify_split {text : List Char} (found : List Char) (h : ∀ c ∈ text, c ≠ '#') :
    verify (text ++ '#' :: found) =
      if found.length ≠ 8 then .error (.invalidLength found.length)
      else Checksum.of text >>= fun expected =>
        if expected = found then .ok text else .error (.mismatch expected found) := by
  have hall : ∀ c ∈ text, (c != '#') = true := fun c hc => by simpa using h c hc
  have hbody : (text ++ '#' :: found).takeWhile (· != '#') = text := by
    rw [List.takeWhile_append_of_pos hall]
    simp
  have hrest : (text ++ '#' :: found).dropWhile (· != '#') = '#' :: found := by
    rw [List.dropWhile_append_of_pos hall]
    simp
  unfold verify
  dsimp only
  rw [hbody, hrest]
  dsimp only
  split
  · rfl
  · rfl

theorem verify_hash {text expected found : List Char} (h : ∀ c ∈ text, c ≠ '#')
    (hexpected : Checksum.of text = .ok expected) (hlength : found.length = 8) :
    verify (text ++ '#' :: found) =
      if expected = found then .ok text else .error (.mismatch expected found) := by
  rw [verify_split found h, hexpected, if_neg (by simp [hlength])]
  rfl

/-- The checksum of a text comes off again. -/
theorem verify_append {text found : List Char} (h : ∀ c ∈ text, c ≠ '#')
    (hfound : Checksum.of text = .ok found) (hlength : found.length = 8) :
    verify (text ++ '#' :: found) = .ok text :=
  (verify_hash h hfound hlength).trans (if_pos rfl)

end OutputDescriptor.Checksum
