import OutputDescriptor.Bytes

/-!
Texts as the bytes that encode them.

A character below 128 is a single byte, and every other character begins with a byte from 128 on. So
a run of a class of such characters is as long in bytes as it is in characters, and it begins and
ends where characters begin and end.
-/

namespace OutputDescriptor.Utf8

def bytes (text : List Char) : Bytes :=
  text.flatMap String.utf8EncodeChar

/-- The length of the longest run of single bytes that are characters of a class. -/
def run (inClass : Char → Bool) (bytes : Bytes) : Nat :=
  (bytes.takeWhile fun byte => inClass (Char.ofUInt8 byte)).length

theorem bytes_cons (c : Char) (text : List Char) :
    bytes (c :: text) = String.utf8EncodeChar c ++ bytes text :=
  List.flatMap_cons

@[simp] theorem bytes_append (a b : List Char) : bytes (a ++ b) = bytes a ++ bytes b :=
  List.flatMap_append

theorem utf8EncodeChar_of_lt {c : Char} (h : c.toNat < 128) :
    String.utf8EncodeChar c = [c.val.toUInt8] := by
  have small : c.val ≤ 127 := UInt32.le_iff_toNat_le.mpr (Nat.le_of_lt_succ h)
  exact String.utf8EncodeChar_eq_singleton (Char.utf8Size_eq_one_iff.mpr small)

theorem ofUInt8_of_lt {c : Char} (h : c.toNat < 128) : Char.ofUInt8 c.val.toUInt8 = c := by
  have value : c.val.toUInt8.toUInt32.toNat = c.val.toNat := by
    rw [UInt8.toNat_toUInt32, UInt32.toNat_toUInt8]
    exact Nat.mod_eq_of_lt (Nat.lt_trans h (by decide))
  exact Char.ext (UInt32.toNat_inj.mp value)

/-- The first byte of a longer character is none of a shorter one. -/
theorem utf8EncodeChar_of_le {c : Char} (h : 128 ≤ c.toNat) :
    ∃ byte rest, String.utf8EncodeChar c = byte :: rest ∧ 128 ≤ byte.toNat := by
  have marked (low mark : UInt8) (hmark : 128 ≤ mark.toNat) : 128 ≤ (low ||| mark).toNat := by
    rw [UInt8.toNat_or]
    exact Nat.le_trans hmark Nat.right_le_or
  rcases c.utf8Size_eq with size | size | size | size
  · have small : c.toNat ≤ 127 := UInt32.le_iff_toNat_le.mp (Char.utf8Size_eq_one_iff.mp size)
    omega
  · exact ⟨_, _, String.utf8EncodeChar_eq_cons_cons size, marked _ _ (by decide)⟩
  · exact ⟨_, _, String.utf8EncodeChar_eq_cons_cons_cons size, marked _ _ (by decide)⟩
  · exact ⟨_, _, String.utf8EncodeChar_eq_cons_cons_cons_cons size, marked _ _ (by decide)⟩

theorem length_bytes_of_lt {text : List Char} (h : ∀ c ∈ text, c.toNat < 128) :
    (bytes text).length = text.length := by
  induction text with
  | nil => rfl
  | cons c text ih =>
    rw [List.forall_mem_cons] at h
    rw [bytes_cons, utf8EncodeChar_of_lt h.1, List.length_append, ih h.2, List.length_singleton,
      List.length_cons, Nat.add_comm]

/-- Counted in bytes, a run is as long as it is in characters. -/
theorem run_bytes {inClass : Char → Bool} (small : ∀ c, inClass c = true → c.toNat < 128)
    (text : List Char) : run inClass (bytes text) = (text.takeWhile inClass).length := by
  unfold run
  induction text with
  | nil => rfl
  | cons c text ih =>
    rw [bytes_cons]
    by_cases hlt : c.toNat < 128
    · rw [utf8EncodeChar_of_lt hlt, List.singleton_append, List.takeWhile_cons, List.takeWhile_cons,
        ofUInt8_of_lt hlt]
      split
      · rw [List.length_cons, List.length_cons, ih]
      · rfl
    · obtain ⟨byte, rest, hbytes, hbyte⟩ := utf8EncodeChar_of_le (Nat.not_lt.mp hlt)
      have outside : inClass c = false := by
        rw [Bool.eq_false_iff]
        exact fun h => hlt (small c h)
      have outside' : inClass (Char.ofUInt8 byte) = false := by
        rw [Bool.eq_false_iff]
        intro h
        have := small _ h
        have value : (Char.ofUInt8 byte).toNat = byte.toNat := UInt8.toNat_toUInt32 byte
        omega
      rw [hbytes, List.cons_append, List.takeWhile_cons_of_neg (by simp [outside']),
        List.takeWhile_cons_of_neg (by simp [outside])]
      rfl

theorem bytes_toList (source : String) : source.toByteArray.data.toList = bytes source.toList := by
  have whole : source.toByteArray = (bytes source.toList).toByteArray := by
    have h := String.toByteArray_ofList (l := source.toList)
    rwa [String.ofList_toList] at h
  rw [whole, List.toList_data_toByteArray]

theorem utf8ByteSize_eq (source : String) : source.utf8ByteSize = (bytes source.toList).length := by
  rw [← bytes_toList, Array.length_toList]
  rfl

/-- Behind characters that are single bytes there is a boundary between characters. -/
theorem isValid_of_toList {source : String} {front rest : List Char}
    (split : source.toList = front ++ rest) (small : ∀ c ∈ front, c.toNat < 128) :
    (⟨front.length⟩ : String.Pos.Raw).IsValid source := by
  refine String.Pos.Raw.isValid_iff_exists_append.mpr
    ⟨String.ofList front, String.ofList rest, ?_, String.Pos.Raw.ext ?_⟩
  · rw [← String.ofList_append, ← split, String.ofList_toList]
  · show front.length = (String.ofList front).utf8ByteSize
    rw [utf8ByteSize_eq, String.toList_ofList, length_bytes_of_lt small]

end OutputDescriptor.Utf8
