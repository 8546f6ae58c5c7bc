/-!
Numbers as digits in a base: `value` reads digits and `digits` writes them without leading zeros.
-/

namespace OutputDescriptor.Radix

/-- The number spelled by digits, most significant first. -/
def value (base : Nat) (digits : List Nat) : Nat :=
  digits.foldl (fun n digit => base * n + digit) 0

/-- At most `count` digits of a number, least significant first and without zeros at the end. -/
def lowDigits (base : Nat) : (count : Nat) → Nat → List Nat
  | 0, _ => []
  | count + 1, n => if n = 0 then [] else n % base :: lowDigits base count (n / base)

/-- All digits of a number, most significant first; a number has no more digits than its size. -/
def digits (base n : Nat) : List Nat :=
  (lowDigits base n n).reverse

theorem value_append_singleton (base : Nat) (ds : List Nat) (d : Nat) :
    value base (ds ++ [d]) = base * value base ds + d := by
  simp [value]

theorem value_reverse_lowDigits {base : Nat} (hbase : 2 ≤ base) :
    ∀ {count n : Nat}, n ≤ count → value base (lowDigits base count n).reverse = n := by
  intro count
  induction count with
  | zero =>
    intro n hn
    obtain rfl := Nat.le_zero.mp hn
    rfl
  | succ count ih =>
    intro n hn
    by_cases h0 : n = 0
    · subst h0
      simp [lowDigits, value]
    · have smaller : n / base ≤ count := by
        have := Nat.div_lt_self (Nat.pos_of_ne_zero h0) hbase
        omega
      rw [lowDigits, if_neg h0, List.reverse_cons, value_append_singleton, ih smaller]
      exact Nat.div_add_mod n base

/-- The digits of a number spell it. -/
theorem value_digits {base : Nat} (hbase : 2 ≤ base) (n : Nat) : value base (digits base n) = n :=
  value_reverse_lowDigits hbase (Nat.le_refl n)

theorem lt_of_mem_digits {base : Nat} (hbase : 2 ≤ base) {n d : Nat} (hd : d ∈ digits base n) :
    d < base := by
  have low : ∀ count n, d ∈ lowDigits base count n → d < base := by
    intro count
    induction count with
    | zero => intro n h; simp [lowDigits] at h
    | succ count ih =>
      intro n h
      rw [lowDigits] at h
      split at h
      · simp at h
      · rcases List.mem_cons.mp h with rfl | h
        · exact Nat.mod_lt _ (by omega)
        · exact ih _ h
  exact low n n (by simpa [digits] using hd)

end OutputDescriptor.Radix
