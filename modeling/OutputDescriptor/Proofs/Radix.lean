import Mathlib.Algebra.Group.Nat.Defs
import Mathlib.Data.List.Induction
import OutputDescriptor.Radix

/-!
Digits and the numbers they spell determine each other, up to leading zeros.
-/

namespace OutputDescriptor.Radix

variable {base : Nat}

@[simp] theorem value_nil : value base [] = 0 := rfl

@[simp] theorem digits_zero : digits base 0 = [] := rfl

/-- A count of digits beyond the size of the number makes no difference. -/
theorem lowDigits_congr (hbase : 2 ≤ base) :
    ∀ {count count' n : Nat}, n ≤ count → n ≤ count' →
      lowDigits base count n = lowDigits base count' n := by
  intro count
  induction count with
  | zero =>
    intro count' n hn _
    obtain rfl := Nat.le_zero.mp hn
    cases count' <;> rfl
  | succ count ih =>
    intro count' n hn hn'
    by_cases h0 : n = 0
    · subst h0
      cases count' <;> rfl
    · have smaller : n / base < n := Nat.div_lt_self (Nat.pos_of_ne_zero h0) hbase
      cases count' with
      | zero => omega
      | succ count' =>
        have left : n / base ≤ count := by omega
        have right : n / base ≤ count' := by omega
        rw [lowDigits, lowDigits, if_neg h0, if_neg h0, ih left right]

/-- The last digit is the remainder, and the others are the digits of the quotient. -/
theorem digits_eq_append_singleton (hbase : 2 ≤ base) {n : Nat} (hn : n ≠ 0) :
    digits base n = digits base (n / base) ++ [n % base] := by
  obtain ⟨m, rfl⟩ := Nat.exists_eq_succ_of_ne_zero hn
  have smaller : (m + 1) / base < m + 1 := Nat.div_lt_self (by omega) hbase
  have quotient : lowDigits base m ((m + 1) / base) =
      lowDigits base ((m + 1) / base) ((m + 1) / base) :=
    lowDigits_congr hbase (by omega) (Nat.le_refl _)
  rw [digits, lowDigits, if_neg hn, List.reverse_cons, quotient]
  rfl

theorem digits_of_lt {d : Nat} (hpos : d ≠ 0) (hlt : d < base) : digits base d = [d] := by
  rw [digits_eq_append_singleton (by omega) hpos, Nat.div_eq_of_lt hlt, digits_zero, List.nil_append,
    Nat.mod_eq_of_lt hlt]

theorem digits_ne_nil (hbase : 2 ≤ base) {n : Nat} (hn : n ≠ 0) : digits base n ≠ [] := by
  rw [digits_eq_append_singleton hbase hn]
  simp

/-- Reading digits and writing the number again loses the leading zeros. -/
theorem digits_value (hbase : 2 ≤ base) {ds : List Nat} (hds : ∀ d ∈ ds, d < base) :
    digits base (value base ds) = ds.dropWhile (· == 0) := by
  induction ds using List.reverseRecOn with
  | nil => rfl
  | append_singleton ds d ih =>
    have front := ih fun x hx => hds x (by simp [hx])
    have hd : d < base := hds d (by simp)
    have quotient : (base * value base ds + d) / base = value base ds := by
      rw [Nat.mul_add_div (by omega), Nat.div_eq_of_lt hd, Nat.add_zero]
    have remainder : (base * value base ds + d) % base = d := by
      rw [Nat.mul_add_mod, Nat.mod_eq_of_lt hd]
    rw [value_append_singleton, List.dropWhile_append]
    by_cases h0 : value base ds = 0
    · rw [h0, digits_zero] at front
      rw [h0, ← front, Nat.mul_zero, Nat.zero_add]
      by_cases hd0 : d = 0
      · simp [hd0]
      · rw [digits_of_lt hd0 hd]
        simp [hd0]
    · have hne : ds.dropWhile (· == 0) ≠ [] := front ▸ digits_ne_nil hbase h0
      have hn : base * value base ds + d ≠ 0 := by
        have := Nat.mul_pos (Nat.lt_of_lt_of_le (by decide) hbase) (Nat.pos_of_ne_zero h0)
        omega
      rw [digits_eq_append_singleton hbase hn, quotient, remainder, front]
      simp [hne]

theorem value_dropWhile (ds : List Nat) : value base (ds.dropWhile (· == 0)) = value base ds := by
  induction ds with
  | nil => rfl
  | cons d ds ih =>
    by_cases hd : d = 0
    · subst hd
      simpa [value] using ih
    · simp [hd]

theorem value_replicate_append (zeros : Nat) (ds : List Nat) :
    value base (List.replicate zeros 0 ++ ds) = value base ds := by
  induction zeros with
  | zero => rfl
  | succ zeros ih => simpa [List.replicate_succ, value] using ih

theorem value_lt {ds : List Nat} (hds : ∀ d ∈ ds, d < base) :
    value base ds < base ^ ds.length := by
  induction ds using List.reverseRecOn with
  | nil => simp
  | append_singleton ds d ih =>
    have front := ih fun x hx => hds x (by simp [hx])
    have hd : d < base := hds d (by simp)
    have room : base * (value base ds + 1) ≤ base * base ^ ds.length := Nat.mul_le_mul_left _ front
    rw [Nat.mul_add, Nat.mul_one] at room
    rw [value_append_singleton, List.length_append, List.length_singleton, Nat.pow_succ']
    omega

theorem length_digits_le (hbase : 2 ≤ base) :
    ∀ {count n : Nat}, n < base ^ count → (digits base n).length ≤ count := by
  intro count
  induction count with
  | zero =>
    intro n hn
    rw [Nat.pow_zero, Nat.lt_one_iff] at hn
    simp [hn]
  | succ count ih =>
    intro n hn
    by_cases h0 : n = 0
    · simp [h0]
    · rw [Nat.pow_succ] at hn
      have shorter := ih (Nat.div_lt_of_lt_mul (Nat.mul_comm base _ ▸ hn))
      rw [digits_eq_append_singleton hbase h0, List.length_append, List.length_singleton]
      omega

/-- The digits in front are those of the quotient by a power of the base. -/
theorem digits_eq_append (hbase : 2 ≤ base) :
    ∀ {count n : Nat}, base ^ count ≤ n →
      ∃ tail, digits base n = digits base (n / base ^ count) ++ tail ∧ tail.length = count := by
  intro count
  induction count with
  | zero =>
    intro n _
    exact ⟨[], by simp, rfl⟩
  | succ count ih =>
    intro n hn
    have hpos : 0 < base ^ (count + 1) := Nat.pow_pos (by omega)
    have hle : base ^ count ≤ n / base := by
      rw [Nat.le_div_iff_mul_le (by omega), ← Nat.pow_succ]
      exact hn
    obtain ⟨tail, htail, hlength⟩ := ih hle
    refine ⟨tail ++ [n % base], ?_, by simp [hlength]⟩
    rw [digits_eq_append_singleton hbase (by omega), htail, Nat.div_div_eq_div_mul, Nat.pow_succ',
      List.append_assoc]

end OutputDescriptor.Radix
