import Mathlib.Algebra.Group.Nat.Defs
import Mathlib.Data.List.Induction
import OutputDescriptor.Bech32

/-!
Five bit symbols as the digits of a number in base 32. A count of digits and the numbers below the
power of 32 with that exponent determine each other.
-/

namespace OutputDescriptor.Symbol

/-- The number that symbols spell, most significant first. -/
def value (symbols : List Symbol) : Nat :=
  symbols.foldl (fun n symbol => 32 * n + symbol.toNat) 0

/-- The `count` low digits of a number. -/
def digits (count n : Nat) : List Symbol :=
  (List.range count).map fun i => BitVec.ofNat 5 (n >>> (5 * (count - 1 - i)))

@[simp] theorem length_digits (count n : Nat) : (digits count n).length = count := by
  simp [digits]

@[simp] theorem value_nil : value [] = 0 := rfl

theorem value_append_singleton (symbols : List Symbol) (symbol : Symbol) :
    value (symbols ++ [symbol]) = 32 * value symbols + symbol.toNat := by
  simp [value]

theorem value_lt (symbols : List Symbol) : value symbols < 32 ^ symbols.length := by
  induction symbols using List.reverseRecOn with
  | nil => simp
  | append_singleton symbols symbol ih =>
    have bound : symbol.toNat < 32 := symbol.isLt
    have room : 32 ^ (symbols.length + 1) = 32 * 32 ^ symbols.length := Nat.pow_succ'
    rw [value_append_singleton, List.length_append, List.length_singleton, room]
    omega

theorem digits_succ (count n : Nat) :
    digits (count + 1) n = digits count (n / 32) ++ [BitVec.ofNat 5 n] := by
  have front : (List.range count).map (fun i => BitVec.ofNat 5 (n >>> (5 * (count + 1 - 1 - i)))) =
      digits count (n / 32) := by
    refine List.map_congr_left fun i hi => ?_
    have hi : i < count := List.mem_range.mp hi
    have shift : 5 * (count + 1 - 1 - i) = 5 + 5 * (count - 1 - i) := by omega
    have quotient : n >>> 5 = n / 32 := Nat.shiftRight_eq_div_pow n 5
    rw [shift, Nat.shiftRight_add, quotient]
  have last : 5 * (count + 1 - 1 - count) = 0 := by omega
  rw [digits, List.range_succ, List.map_append, front, List.map_singleton, last]
  rfl

/-- Writing a number and reading it back keeps the digits there was room for. -/
theorem value_digits (count n : Nat) : value (digits count n) = n % 32 ^ count := by
  induction count generalizing n with
  | zero => simp [digits, Nat.mod_one]
  | succ count ih =>
    have digit : (BitVec.ofNat 5 n).toNat = n % 32 := by simp
    rw [digits_succ, value_append_singleton, ih, digit, Nat.pow_succ', Nat.mod_mul]
    omega

theorem digits_value (symbols : List Symbol) :
    digits symbols.length (value symbols) = symbols := by
  induction symbols using List.reverseRecOn with
  | nil => rfl
  | append_singleton symbols symbol ih =>
    have bound : symbol.toNat < 32 := symbol.isLt
    have quotient : (32 * value symbols + symbol.toNat) / 32 = value symbols := by omega
    have digit : BitVec.ofNat 5 (32 * value symbols + symbol.toNat) = symbol := by
      apply BitVec.eq_of_toNat_eq
      rw [BitVec.toNat_ofNat]
      omega
    rw [List.length_append, List.length_singleton, digits_succ, value_append_singleton, quotient, ih,
      digit]

end OutputDescriptor.Symbol
