/-!
Child numbers of hierarchical keys.

The 32 bit numbers of a key's children fall into two halves. The lower half numbers the normal
children; the upper half numbers the hardened ones, which only the private key can derive. An index
counts within one half, so it stays below `0x80000000`, and a child number is an index with its half.
-/

namespace OutputDescriptor

/-- Why a derivation path is refused. -/
inductive PathError
  | indexOutOfRange (index : Nat)
  | wildcardNotLast
  | wildcardInOrigin
  | invalidStep (text : List Char)
  | invalidOrigin (text : List Char)
deriving DecidableEq

namespace PathError

def message : PathError → String
  | indexOutOfRange index =>
    s!"derivation index {index} does not fit into the unhardened index range."
  | wildcardNotLast => "wildcard may be used only as the last derivation step."
  | wildcardInOrigin => "key origin derivation path can't contain a wildcard."
  | invalidStep text => s!"invalid derivation step `{String.ofList text}`."
  | invalidOrigin text =>
    s!"invalid key origin `{String.ofList text}`; origin must be `m` or a 4-byte hex fingerprint."

end PathError

/-- Text made of decimal digits only, and of at least one. -/
def isNumeral (text : List Char) : Bool :=
  !text.isEmpty && text.all Char.isDigit

structure ChildIndex where
  val : Nat
  val_lt : val < 0x80000000
deriving DecidableEq

namespace ChildIndex

instance : Inhabited ChildIndex := ⟨⟨0, by decide⟩⟩

def ofNat? (n : Nat) : Option ChildIndex :=
  if h : n < 0x80000000 then some ⟨n, h⟩ else none

def ofNat (n : Nat) : Except PathError ChildIndex :=
  match ofNat? n with
  | some index => .ok index
  | none => .error (.indexOutOfRange n)

/-- Reads a numeral. One that no child number can reach is no step at all, while one in the hardened
half is an index out of range. -/
def parse (text : List Char) : Except PathError ChildIndex :=
  let n := Nat.ofDigitChars 10 text 0
  if isNumeral text && decide (n < 0x100000000) then ofNat n else .error (.invalidStep text)

def render (index : ChildIndex) : List Char :=
  Nat.toDigits 10 index.val

@[simp] theorem ofNat?_val (index : ChildIndex) : ofNat? index.val = some index :=
  dif_pos index.val_lt

theorem ofNat?_eq_some {n : Nat} {index : ChildIndex} (h : ofNat? n = some index) :
    index.val = n := by
  unfold ofNat? at h
  split at h <;> simp at h
  rw [← h]

theorem isNumeral_toDigits (n : Nat) : isNumeral (Nat.toDigits 10 n) = true := by
  simp only [isNumeral, Bool.and_eq_true, Bool.not_eq_true', List.isEmpty_eq_false_iff,
    List.all_eq_true]
  exact ⟨Nat.toDigits_ne_nil, fun c hc => Nat.isDigit_of_mem_toDigits (by decide) (by decide) hc⟩

theorem isDigit_of_mem_render {index : ChildIndex} {c : Char} (h : c ∈ index.render) :
    c.isDigit = true :=
  Nat.isDigit_of_mem_toDigits (by decide) (by decide) h

/-- An index reads back from its numeral. -/
theorem parse_render (index : ChildIndex) : parse index.render = .ok index := by
  have small : decide (index.val < 0x100000000) = true :=
    decide_eq_true (Nat.lt_trans index.val_lt (by decide))
  simp only [parse, render, isNumeral_toDigits, Nat.ofDigitChars_ten_toDigits, small, ofNat,
    ofNat?_val, Bool.and_self, if_true]

end ChildIndex

/-- The number of a child: its index and whether it lies in the hardened half. -/
structure ChildNumber where
  index : ChildIndex
  hardened : Bool
deriving DecidableEq

namespace ChildNumber

def toNat (number : ChildNumber) : Nat :=
  number.index.val + if number.hardened then 0x80000000 else 0

/-- The child number of a 32 bit value. -/
def ofNat (n : Nat) : ChildNumber where
  index := ⟨n % 0x80000000, Nat.mod_lt _ (by decide)⟩
  hardened := decide (0x80000000 ≤ n)

theorem toNat_lt (number : ChildNumber) : number.toNat < 0x100000000 := by
  have := number.index.val_lt
  unfold toNat
  split <;> omega

theorem ofNat_toNat (number : ChildNumber) : ofNat number.toNat = number := by
  obtain ⟨⟨n, hn⟩, hardened⟩ := number
  cases hardened
  · have lower : ¬ 0x80000000 ≤ n := Nat.not_le.mpr hn
    simp only [ofNat, toNat, Bool.false_eq_true, if_false, Nat.add_zero, Nat.mod_eq_of_lt hn,
      decide_eq_false lower]
  · have upper : 0x80000000 ≤ n + 0x80000000 := Nat.le_add_left _ _
    simp only [ofNat, toNat, if_true, Nat.add_mod_right, Nat.mod_eq_of_lt hn,
      decide_eq_true upper]

end ChildNumber

end OutputDescriptor
