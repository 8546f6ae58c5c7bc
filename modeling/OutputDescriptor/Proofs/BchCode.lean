import OutputDescriptor.Proofs.Symbol

/-!
Codes are linear: feeding the sum of two texts to the sum of two registers gives the sum of both
results. Fed to an empty register, as many symbols as it has room for just fill it. Hence a checksum
leads to its residue, and it is the only one of its length that does.
-/

namespace OutputDescriptor.BchCode

variable {size : Nat} {code : BchCode size}

/-- The register after symbols, starting from any register. -/
def run (code : BchCode size) (register : BitVec (5 * size)) (symbols : List Symbol) :
    BitVec (5 * size) :=
  symbols.foldl code.feed register

theorem run_append (register : BitVec (5 * size)) (a b : List Symbol) :
    code.run register (a ++ b) = code.run (code.run register a) b := by
  simp [run]

theorem foldl_xor {width : Nat} (top top' : BitVec width) :
    ∀ (generators : List (BitVec width × Nat)) (a b : BitVec width),
      generators.foldl
          (fun r (generator, bit) => if (top ^^^ top').getLsbD bit then r ^^^ generator else r)
          (a ^^^ b) =
        generators.foldl
            (fun r (generator, bit) => if top.getLsbD bit then r ^^^ generator else r) a ^^^
          generators.foldl
            (fun r (generator, bit) => if top'.getLsbD bit then r ^^^ generator else r) b
  | [], a, b => rfl
  | (generator, bit) :: generators, a, b => by
    have step : (if (top ^^^ top').getLsbD bit then a ^^^ b ^^^ generator else a ^^^ b) =
        (if top.getLsbD bit then a ^^^ generator else a) ^^^
          (if top'.getLsbD bit then b ^^^ generator else b) := by
      rw [BitVec.getLsbD_xor]
      cases top.getLsbD bit <;> cases top'.getLsbD bit
      · simp
      · simp [BitVec.xor_assoc]
      · simp [BitVec.xor_assoc, BitVec.xor_comm b generator]
      · have cancel : a ^^^ generator ^^^ (b ^^^ generator) = a ^^^ b := by
          rw [BitVec.xor_comm b generator, BitVec.xor_assoc, ← BitVec.xor_assoc generator generator b]
          simp
        simp [cancel]
    simp only [List.foldl_cons]
    rw [step, foldl_xor top top' generators]

theorem feed_xor (a b : BitVec (5 * size)) (s t : Symbol) :
    code.feed (a ^^^ b) (s ^^^ t) = code.feed a s ^^^ code.feed b t := by
  have shifted : ((a ^^^ b) <<< 5) ^^^ (s ^^^ t).setWidth (5 * size) =
      ((a <<< 5) ^^^ s.setWidth (5 * size)) ^^^ ((b <<< 5) ^^^ t.setWidth (5 * size)) := by
    rw [BitVec.shiftLeft_xor_distrib, BitVec.setWidth_xor]
    ac_rfl
  unfold feed
  rw [shifted, BitVec.ushiftRight_xor_distrib, foldl_xor]

/-- Sums of texts lead to sums of registers. -/
theorem run_xor (a b : BitVec (5 * size)) :
    ∀ s t : List Symbol, s.length = t.length →
      code.run (a ^^^ b) (s.zipWith (· ^^^ ·) t) = code.run a s ^^^ code.run b t := by
  intro s
  induction s generalizing a b with
  | nil =>
    intro t h
    obtain rfl := List.length_eq_zero_iff.mp h.symm
    rfl
  | cons x s ih =>
    intro t h
    cases t with
    | nil => cases h
    | cons y t =>
      have tail := ih (code.feed a x) (code.feed b y) t (Nat.succ.inj h)
      simp only [List.zipWith_cons_cons, run, List.foldl_cons] at tail ⊢
      rw [feed_xor, tail]

/-! ### Filling an empty register -/

theorem foldl_of_zero {width : Nat} (generators : List (BitVec width × Nat)) (r : BitVec width) :
    generators.foldl
      (fun r (generator, bit) => if (0 : BitVec width).getLsbD bit then r ^^^ generator else r) r =
        r := by
  induction generators generalizing r with
  | nil => rfl
  | cons entry generators ih =>
    obtain ⟨generator, bit⟩ := entry
    have unset : (0 : BitVec width).getLsbD bit = false := BitVec.getLsbD_zero
    have kept : (if (0 : BitVec width).getLsbD bit then r ^^^ generator else r) = r := by
      rw [unset, if_neg Bool.false_ne_true]
    rw [List.foldl_cons]
    dsimp only
    rw [kept, ih]

theorem mul_xor_of_lt (n : Nat) {digit : Nat} (h : digit < 2 ^ 5) :
    n * 2 ^ 5 ^^^ digit = 32 * n + digit := by
  apply Nat.eq_of_testBit_eq
  intro i
  have sum : 32 * n + digit = 2 ^ 5 * n + digit := rfl
  rw [Nat.testBit_xor, Nat.testBit_mul_two_pow, sum, Nat.testBit_two_pow_mul_add n h]
  by_cases hi : i < 5
  · have low : ¬ 5 ≤ i := by omega
    simp [hi, low]
  · have high : digit.testBit i = false := by
      apply Nat.testBit_lt_two_pow
      exact Nat.lt_of_lt_of_le h (Nat.pow_le_pow_right (by decide) (by omega))
    have upper : 5 ≤ i := by omega
    simp [hi, upper, high]

theorem two_pow_width (hsize : 0 < size) : (2 : Nat) ^ (5 * size) = 32 ^ (size - 1) * 32 := by
  have exponent : 5 * size = 5 * (size - 1) + 5 := by omega
  rw [exponent, Nat.pow_add, Nat.pow_mul]

/-- Pushing out takes away all symbols but the oldest. -/
theorem toNat_pushedOut (register : BitVec (5 * size)) :
    (register >>> (5 * size - 5)).toNat = register.toNat / 32 ^ (size - 1) := by
  have exponent : 5 * size - 5 = 5 * (size - 1) := by omega
  rw [BitVec.toNat_ushiftRight, Nat.shiftRight_eq_div_pow, exponent, Nat.pow_mul]

/-- While nothing is pushed out, feeding is appending a digit. -/
theorem toNat_feed (register : BitVec (5 * size)) (symbol : Symbol) (hsize : 0 < size)
    (room : register.toNat < 32 ^ (size - 1)) :
    (code.feed register symbol).toNat = 32 * register.toNat + symbol.toNat := by
  have width := two_pow_width hsize
  have top : register >>> (5 * size - 5) = 0 := by
    apply BitVec.eq_of_toNat_eq
    rw [toNat_pushedOut, Nat.div_eq_of_lt room]
    rfl
  have bound : symbol.toNat < 2 ^ 5 := symbol.isLt
  unfold feed
  rw [top, foldl_of_zero, BitVec.toNat_xor, BitVec.toNat_shiftLeft, BitVec.toNat_setWidth,
    Nat.shiftLeft_eq, Nat.mod_eq_of_lt (by omega), Nat.mod_eq_of_lt (by omega)]
  exact mul_xor_of_lt register.toNat bound

/-- Symbols that an empty register has room for stay in it as its digits. -/
theorem toNat_run_zero (symbols : List Symbol) (room : symbols.length ≤ size) :
    (code.run 0 symbols).toNat = Symbol.value symbols := by
  induction symbols using List.reverseRecOn with
  | nil => simp [run]
  | append_singleton symbols symbol ih =>
    rw [List.length_append, List.length_singleton] at room
    have ih := ih (by omega)
    have small : (code.run 0 symbols).toNat < 32 ^ (size - 1) := by
      have hlt := Symbol.value_lt symbols
      have hle : 32 ^ symbols.length ≤ 32 ^ (size - 1) := Nat.pow_le_pow_right (by decide) (by omega)
      omega
    have last : code.run 0 (symbols ++ [symbol]) = code.feed (code.run 0 symbols) symbol :=
      run_append 0 symbols [symbol]
    rw [last, toNat_feed _ _ (by omega) small, ih, Symbol.value_append_singleton]

theorem symbolsOf_eq_digits (register : BitVec (5 * size)) :
    symbolsOf register = Symbol.digits size register.toNat := by
  refine List.map_congr_left fun i _ => ?_
  apply BitVec.eq_of_toNat_eq
  rw [BitVec.toNat_setWidth, BitVec.toNat_ushiftRight, BitVec.toNat_ofNat]

theorem run_zero_symbolsOf (register : BitVec (5 * size)) :
    code.run 0 (symbolsOf register) = register := by
  apply BitVec.eq_of_toNat_eq
  have bound : register.toNat < 32 ^ size := by
    have h := register.isLt
    rwa [Nat.pow_mul] at h
  rw [toNat_run_zero _ (Nat.le_of_eq (length_symbolsOf register)), symbolsOf_eq_digits,
    Symbol.value_digits, Nat.mod_eq_of_lt bound]

theorem symbolsOf_run_zero {symbols : List Symbol} (hlength : symbols.length = size) :
    symbolsOf (code.run 0 symbols) = symbols := by
  rw [symbolsOf_eq_digits, toNat_run_zero _ (Nat.le_of_eq hlength), ← hlength, Symbol.digits_value]

/-! ### Checksums -/

/-- Symbols add to a register what they lead an empty one to. -/
theorem run_eq_xor (register : BitVec (5 * size)) (symbols : List Symbol) :
    code.run register symbols =
      code.run register (List.replicate symbols.length 0) ^^^ code.run 0 symbols := by
  have sum : symbols = (List.replicate symbols.length 0).zipWith (· ^^^ ·) symbols := by
    apply List.ext_getElem
    · simp
    · intro i _ _
      simp
  have same : register ^^^ 0 = register := BitVec.xor_zero
  rw [← run_xor _ _ _ _ (List.length_replicate), ← sum, same]

/-- What follows a text adds to what the text itself leads to. -/
theorem remainder_append (symbols last : List Symbol) :
    code.remainder (symbols ++ last) =
      code.remainder (symbols ++ List.replicate last.length 0) ^^^ code.run 0 last := by
  have split (tail : List Symbol) :
      code.remainder (symbols ++ tail) = code.run (code.remainder symbols) tail :=
    run_append 1 symbols tail
  rw [split, split, run_eq_xor]

/-- A text followed by symbols has the residue exactly if these are its checksum. -/
theorem remainder_eq_iff {residue : BitVec (5 * size)} {symbols last : List Symbol}
    (hlength : last.length = size) :
    code.remainder (symbols ++ last) = residue ↔ last = code.checksum residue symbols := by
  rw [remainder_append, hlength, checksum]
  have cancel (a b : BitVec (5 * size)) : a ^^^ (a ^^^ b) = b := by
    rw [← BitVec.xor_assoc, BitVec.xor_self, BitVec.zero_xor]
  constructor
  · rintro rfl
    rw [cancel, symbolsOf_run_zero hlength]
  · intro h
    rw [h, run_zero_symbolsOf, cancel]

theorem remainder_checksum (residue : BitVec (5 * size)) (symbols : List Symbol) :
    code.remainder (symbols ++ code.checksum residue symbols) = residue :=
  (remainder_eq_iff (length_symbolsOf _)).mpr rfl

/-! ### Bursts -/

/-- What bits pushed out of the register add to it. -/
def added (code : BchCode size) (pushedOut : BitVec (5 * size)) : BitVec (5 * size) :=
  code.generators.zipIdx.foldl
    (fun r (generator, bit) => if pushedOut.getLsbD bit then r ^^^ generator else r) 0

/-- No bits are pushed out without a trace in the last symbol. -/
def Reversible (code : BchCode size) : Prop :=
  ∀ n < 32, (code.added (BitVec.ofNat (5 * size) n)).setWidth 5 = (0 : Symbol) → n = 0

theorem feed_zero (register : BitVec (5 * size)) :
    code.feed register 0 = code.added (register >>> (5 * size - 5)) ^^^ register <<< 5 := by
  have sum := foldl_xor (register >>> (5 * size - 5)) 0 code.generators.zipIdx 0 (register <<< 5)
  have top : register >>> (5 * size - 5) ^^^ 0 = register >>> (5 * size - 5) := BitVec.xor_zero
  have low : (0 : BitVec (5 * size)) ^^^ register <<< 5 = register <<< 5 := BitVec.zero_xor
  have nothing : register <<< 5 ^^^ (0 : Symbol).setWidth (5 * size) = register <<< 5 := by simp
  rw [top, low, foldl_of_zero] at sum
  unfold feed
  rw [nothing]
  exact sum

/-- Nothing leads to an empty register but an empty one: what is pushed out leaves a trace, and what
is not moves up. -/
theorem eq_zero_of_feed (reversible : code.Reversible) {register : BitVec (5 * size)}
    (h : code.feed register 0 = 0) : register = 0 := by
  by_cases hsize : size = 0
  · subst hsize
    exact BitVec.of_length_zero
  have width := two_pow_width (Nat.pos_of_ne_zero hsize)
  have few : register.toNat / 32 ^ (size - 1) < 32 :=
    Nat.div_lt_of_lt_mul (Nat.lt_of_lt_of_eq register.isLt width)
  have last : (register <<< 5).setWidth 5 = (0 : Symbol) := by
    ext i hi
    simp [hi]
  have pushed : code.added (register >>> (5 * size - 5)) = register <<< 5 :=
    BitVec.xor_eq_zero_iff.mp ((feed_zero register).symm.trans h)
  have top : register.toNat / 32 ^ (size - 1) = 0 := by
    refine reversible _ few ?_
    rw [← toNat_pushedOut, BitVec.ofNat_toNat, BitVec.setWidth_eq, pushed, last]
  have room : register.toNat < 32 ^ (size - 1) :=
    (Nat.div_eq_zero_iff_lt (Nat.pow_pos (by decide))).mp top
  have moved : (code.feed register 0).toNat = 32 * register.toNat + (0 : Symbol).toNat :=
    toNat_feed register 0 (Nat.pos_of_ne_zero hsize) room
  rw [h] at moved
  apply BitVec.eq_of_toNat_eq
  have zero : (0 : BitVec (5 * size)).toNat = 0 := by simp
  omega

theorem feed_injective (reversible : code.Reversible) {a b : BitVec (5 * size)} {symbol : Symbol}
    (h : code.feed a symbol = code.feed b symbol) : a = b := by
  have same : symbol ^^^ symbol = 0 := BitVec.xor_self
  have sum : code.feed (a ^^^ b) (symbol ^^^ symbol) = code.feed a symbol ^^^ code.feed b symbol :=
    feed_xor a b symbol symbol
  rw [h, same, BitVec.xor_self] at sum
  exact BitVec.xor_eq_zero_iff.mp (eq_zero_of_feed reversible sum)

/-- What registers differ in is never lost. -/
theorem run_injective (reversible : code.Reversible) {symbols : List Symbol} :
    ∀ {a b : BitVec (5 * size)}, code.run a symbols = code.run b symbols → a = b := by
  induction symbols with
  | nil => exact id
  | cons symbol symbols ih => exact fun h => feed_injective reversible (ih h)

/-- From one register, texts that it has room for lead to different ones. -/
theorem eq_of_run_eq {register : BitVec (5 * size)} {s t : List Symbol}
    (hlength : s.length = t.length) (room : s.length ≤ size)
    (h : code.run register s = code.run register t) : s = t := by
  rw [run_eq_xor register s, run_eq_xor register t, hlength] at h
  have same : code.run 0 s = code.run 0 t := (BitVec.xor_right_inj _).mp h
  have value := congrArg BitVec.toNat same
  rw [toNat_run_zero s room, toNat_run_zero t (hlength ▸ room)] at value
  rw [← Symbol.digits_value s, ← Symbol.digits_value t, value, hlength]

/-- A burst of errors that the register has room for changes the checksum, whatever stands in front
of it and behind it. -/
theorem checksum_ne_of_burst (reversible : code.Reversible) (residue : BitVec (5 * size))
    {front s t back : List Symbol} (hlength : s.length = t.length) (room : s.length ≤ size)
    (hne : s ≠ t) :
    code.checksum residue (front ++ s ++ back) ≠ code.checksum residue (front ++ t ++ back) := by
  intro h
  have whole : code.remainder (front ++ s ++ back ++ code.checksum residue (front ++ s ++ back)) =
      code.remainder (front ++ t ++ back ++ code.checksum residue (front ++ t ++ back)) :=
    (remainder_checksum residue _).trans (remainder_checksum residue _).symm
  rw [h] at whole
  have split (u tail : List Symbol) : code.remainder (front ++ u ++ back ++ tail) =
      code.run (code.run (code.run 1 front) u) (back ++ tail) := by
    rw [← run_append, ← run_append, List.append_assoc, List.append_assoc]
    rfl
  rw [split, split] at whole
  exact hne (eq_of_run_eq hlength room (run_injective reversible whole))

end OutputDescriptor.BchCode
