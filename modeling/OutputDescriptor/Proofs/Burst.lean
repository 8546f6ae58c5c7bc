import Mathlib.Data.List.Basic
import OutputDescriptor.Proofs.Checksum

/-!
Short bursts of errors never keep a checksum.

Four neighbours lie in two groups of three characters, however the groups fall. A group is given to
the code as four symbols, from which its characters can be told; so the two texts differ in at most
eight neighbouring symbols, and that is what the register has room for.
-/

namespace OutputDescriptor.Checksum

/-- Texts that differ at `width` neighbouring places at most. -/
def DifferWithin (width : Nat) (s t : List Char) : Prop :=
  ∃ start, ∀ i, s[i]? ≠ t[i]? → start ≤ i ∧ i < start + width

/-- Rewriting a short stretch of a text, such as one character or two neighbours that swap places. -/
theorem differWithin_append {width : Nat} {a b : List Char} (front back : List Char)
    (hlength : a.length = b.length) (hwidth : a.length ≤ width) :
    DifferWithin width (front ++ a ++ back) (front ++ b ++ back) := by
  refine ⟨front.length, fun i hi => ?_⟩
  by_contra hout
  refine hi ?_
  rcases Nat.lt_or_ge i front.length with hbefore | hfrom
  · rw [List.append_assoc, List.append_assoc, List.getElem?_append_left hbefore,
      List.getElem?_append_left hbefore]
  · have hbehind : (front ++ a).length ≤ i := by
      rw [List.length_append]
      omega
    have hbehind' : (front ++ b).length ≤ i := by
      rw [List.length_append]
      omega
    rw [List.getElem?_append_right hbehind, List.getElem?_append_right hbehind',
      List.length_append, List.length_append, hlength]

@[simp] theorem length_alphabet : alphabet.length = 95 := by
  decide

theorem code_reversible : code.Reversible := by
  unfold BchCode.Reversible
  decide

/-! ### Groups of three -/

theorem symbols_append {a : List Nat} (h : a.length % 3 = 0) (b : List Nat) :
    symbols (a ++ b) = symbols a ++ symbols b := by
  induction a using symbols.induct with
  | case1 => rfl
  | case2 x => simp at h
  | case3 x y => simp at h
  | case4 x y z rest ih =>
    have hrest : rest.length % 3 = 0 := by
      simp only [List.length_cons] at h
      omega
    simp [symbols, ih hrest]

theorem length_symbols (positions : List Nat) :
    (symbols positions).length = positions.length + (positions.length + 2) / 3 := by
  induction positions using symbols.induct with
  | case1 => rfl
  | case2 x => simp [symbols]
  | case3 x y => simp [symbols]
  | case4 x y z rest ih =>
    simp only [symbols, List.length_cons, ih]
    omega

theorem mod_of_lowBits {n m : Nat} (h : lowBits n = lowBits m) : n % 32 = m % 32 := by
  have value := congrArg BitVec.toNat h
  simpa [lowBits] using value

/-- There are but three classes, so three of them in base three can be told apart. -/
theorem div_of_classes {a b c a' b' c' : Nat} (bound : ∀ n ∈ [a, b, c, a', b', c'], n < 96)
    (h : classes [a, b, c] = classes [a', b', c']) :
    a / 32 = a' / 32 ∧ b / 32 = b' / 32 ∧ c / 32 = c' / 32 := by
  have quotient : ∀ n ∈ [a, b, c, a', b', c'], n / 32 < 3 := fun n hn =>
    Nat.div_lt_of_lt_mul (bound n hn)
  have value := congrArg BitVec.toNat h
  simp only [List.forall_mem_cons, List.not_mem_nil, false_implies, implies_true, and_true]
    at quotient
  simp only [classes, List.foldl_cons, List.foldl_nil, BitVec.toNat_ofNat] at value
  generalize a / 32 = qa, b / 32 = qb, c / 32 = qc, a' / 32 = qa', b' / 32 = qb', c' / 32 = qc'
    at quotient value ⊢
  rw [Nat.mod_eq_of_lt (by omega), Nat.mod_eq_of_lt (by omega)] at value
  omega

/-- A group of three can be told from its symbols. -/
theorem group_eq {a b c a' b' c' : Nat} (bound : ∀ n ∈ [a, b, c, a', b', c'], n < 96)
    (ha : lowBits a = lowBits a') (hb : lowBits b = lowBits b') (hc : lowBits c = lowBits c')
    (h : classes [a, b, c] = classes [a', b', c']) : a = a' ∧ b = b' ∧ c = c' := by
  obtain ⟨qa, qb, qc⟩ := div_of_classes bound h
  refine ⟨?_, ?_, ?_⟩
  · rw [← Nat.div_add_mod a 32, qa, mod_of_lowBits ha, Nat.div_add_mod]
  · rw [← Nat.div_add_mod b 32, qb, mod_of_lowBits hb, Nat.div_add_mod]
  · rw [← Nat.div_add_mod c 32, qc, mod_of_lowBits hc, Nat.div_add_mod]

theorem symbols_injective {u v : List Nat} (hlength : u.length = v.length)
    (hu : ∀ n ∈ u, n < 96) (hv : ∀ n ∈ v, n < 96) (h : symbols u = symbols v) : u = v := by
  induction u using symbols.induct generalizing v with
  | case1 => exact (List.length_eq_zero_iff.mp hlength.symm).symm
  | case2 c =>
    obtain ⟨c', rfl⟩ := List.length_eq_one_iff.mp hlength.symm
    simp only [symbols, List.cons.injEq, and_true] at h
    obtain ⟨_, _, rfl⟩ := @group_eq 0 0 c 0 0 c' (by simp_all) rfl rfl h.1 h.2
    rfl
  | case3 b c =>
    obtain ⟨b', c', rfl⟩ := List.length_eq_two.mp hlength.symm
    simp only [symbols, List.cons.injEq, and_true] at h
    obtain ⟨hb, hc, hclasses⟩ := h
    obtain ⟨_, rfl, rfl⟩ := @group_eq 0 b c 0 b' c' (by simp_all) rfl hb hc hclasses
    rfl
  | case4 a b c rest ih =>
    obtain ⟨a', v, rfl⟩ := List.exists_of_length_succ v hlength.symm
    obtain ⟨b', v, rfl⟩ := List.exists_of_length_succ v (Nat.succ.inj hlength).symm
    obtain ⟨c', v, rfl⟩ :=
      List.exists_of_length_succ v (Nat.succ.inj (Nat.succ.inj hlength)).symm
    simp only [symbols, List.cons.injEq] at h
    obtain ⟨ha, hb, hc, hclasses, hrest⟩ := h
    obtain ⟨rfl, rfl, rfl⟩ := group_eq (by simp_all) ha hb hc hclasses
    rw [ih (by simpa using hlength) (by simp_all) (by simp_all) hrest]

/-! ### Texts -/

/-- Texts of one length that differ within four places, cut along the borders of groups. -/
theorem exists_groups {s t : List Char} (hlength : s.length = t.length) (hne : s ≠ t)
    (h : DifferWithin 4 s t) : ∃ front a b back, s = front ++ a ++ back ∧ t = front ++ b ++ back ∧
      front.length % 3 = 0 ∧ a.length = b.length ∧ a.length ≤ 6 ∧ (a.length = 6 ∨ back = []) := by
  obtain ⟨start, hburst⟩ := h
  obtain ⟨i, hi⟩ : ∃ i, s[i]? ≠ t[i]? := by
    by_contra hsame
    exact hne (List.ext_getElem? fun i => not_not.mp fun hi => hsame ⟨i, hi⟩)
  have hstart : start < s.length := by
    by_contra hlong
    have hbeyond : s.length ≤ i := Nat.le_trans (Nat.le_of_not_lt hlong) (hburst i hi).1
    rw [List.getElem?_eq_none hbeyond, List.getElem?_eq_none (hlength ▸ hbeyond)] at hi
    exact hi rfl
  have same (i : Nat) (hi : i < start ∨ start + 4 ≤ i) : s[i]? = t[i]? := by
    by_contra hdiffer
    have := hburst i hdiffer
    omega
  -- the group of the first difference and the next one
  obtain ⟨first, hfirst⟩ : ∃ first, first = start / 3 * 3 := ⟨_, rfl⟩
  have hfront : t.take first = s.take first := by
    refine List.ext_getElem? fun i => ?_
    rw [List.getElem?_take, List.getElem?_take]
    split
    · exact (same i (by omega)).symm
    · rfl
  have hback : (t.drop first).drop 6 = (s.drop first).drop 6 := by
    refine List.ext_getElem? fun i => ?_
    rw [List.drop_drop, List.drop_drop, List.getElem?_drop, List.getElem?_drop]
    exact (same _ (by omega)).symm
  have cut (u : List Char) :
      u = u.take first ++ (u.drop first).take 6 ++ (u.drop first).drop 6 := by
    rw [List.append_assoc, List.take_append_drop, List.take_append_drop]
  refine ⟨s.take first, (s.drop first).take 6, (t.drop first).take 6, (s.drop first).drop 6, cut s,
    ?_, ?_, ?_, ?_, ?_⟩
  · rw [← hfront, ← hback]
    exact cut t
  · rw [List.length_take]
    omega
  · simp only [List.length_take, List.length_drop, hlength]
  · exact List.length_take_le _ _
  · rw [List.length_take, List.drop_eq_nil_iff]
    omega

/-- Positions that differ in two groups at most lead to different checksums. -/
theorem checksum_ne_of_groups {front a b back : List Nat} (hfront : front.length % 3 = 0)
    (hlength : a.length = b.length) (few : a.length ≤ 6) (border : a.length = 6 ∨ back = [])
    (ha : ∀ n ∈ a, n < 96) (hb : ∀ n ∈ b, n < 96) (hne : a ≠ b) (residue : BitVec (5 * 8)) :
    code.checksum residue (symbols (front ++ a ++ back)) ≠
      code.checksum residue (symbols (front ++ b ++ back)) := by
  have split {u : List Nat} (hu : u.length = a.length) :
      symbols (front ++ u ++ back) = symbols front ++ symbols u ++ symbols back := by
    rcases border with hsix | rfl
    · have hwhole : (front ++ u).length % 3 = 0 := by
        rw [List.length_append]
        omega
      rw [symbols_append hwhole, symbols_append hfront]
    · rw [List.append_nil, symbols_append hfront, symbols, List.append_nil]
  rw [split rfl, split hlength.symm]
  apply BchCode.checksum_ne_of_burst code_reversible residue
  · rw [length_symbols, length_symbols, hlength]
  · rw [length_symbols]
    omega
  · exact fun h => hne (symbols_injective hlength ha hb h)

theorem char_injective : Function.Injective Symbol.char := fun a b h => by
  have back := congrArg Symbol.ofChar? h
  rwa [Symbol.ofChar?_char, Symbol.ofChar?_char, Option.some.injEq] at back

theorem idxOf_injective {s t : List Char} (hlength : s.length = t.length)
    (hs : ∀ c ∈ s, c ∈ alphabet) (h : s.map alphabet.idxOf = t.map alphabet.idxOf) : s = t := by
  induction s generalizing t with
  | nil => exact (List.length_eq_zero_iff.mp hlength.symm).symm
  | cons c s ih =>
    obtain ⟨d, t, rfl⟩ := List.exists_of_length_succ t hlength.symm
    obtain ⟨hhead, htail⟩ := List.cons.inj h
    rw [(List.idxOf_inj (hs c (by simp))).mp hhead,
      ih (Nat.succ.inj hlength) (fun x hx => hs x (by simp [hx])) htail]

/-- Texts over the alphabet that differ within four neighbouring characters have different
checksums, so neither passes with the checksum of the other. -/
theorem verify_eq_mismatch_of_differWithin {s t : List Char} (hlength : s.length = t.length)
    (hs : ∀ c ∈ s, c ∈ alphabet ∧ c ≠ '#') (ht : ∀ c ∈ t, c ∈ alphabet ∧ c ≠ '#') (hne : s ≠ t)
    (h : DifferWithin 4 s t) : ∃ found expected, Checksum.of s = .ok found ∧
      Checksum.of t = .ok expected ∧ found ≠ expected ∧
      verify (t ++ '#' :: found) = .error (.mismatch expected found) := by
  have hfound := of_eq_ok fun c hc => (hs c hc).1
  have hexpected := of_eq_ok fun c hc => (ht c hc).1
  have position_lt {u : List Char} (hu : ∀ c ∈ u, c ∈ alphabet) :
      ∀ n ∈ u.map alphabet.idxOf, n < 96 := by
    intro n hn
    obtain ⟨c, hc, rfl⟩ := List.mem_map.mp hn
    have inside := List.idxOf_lt_length_of_mem (hu c hc)
    rw [length_alphabet] at inside
    omega
  have differ : code.checksum 1 (symbols (s.map alphabet.idxOf)) ≠
      code.checksum 1 (symbols (t.map alphabet.idxOf)) := by
    obtain ⟨front, a, b, back, rfl, rfl, hfront, hab, few, border⟩ := exists_groups hlength hne h
    have ha : ∀ c ∈ a, c ∈ alphabet := fun c hc => (hs c (by simp [hc])).1
    have hb : ∀ c ∈ b, c ∈ alphabet := fun c hc => (ht c (by simp [hc])).1
    simp only [List.map_append]
    apply checksum_ne_of_groups
    · rwa [List.length_map]
    · rw [List.length_map, List.length_map, hab]
    · rwa [List.length_map]
    · rwa [List.length_map, List.map_eq_nil_iff]
    · exact position_lt ha
    · exact position_lt hb
    · intro heq
      exact hne (by rw [idxOf_injective hab ha heq])
  refine ⟨_, _, hfound, hexpected, fun heq => differ (char_injective.list_map heq), ?_⟩
  rw [verify_hash (fun c hc => (ht c hc).2) hexpected (by rw [List.length_map, length_checksum]),
    if_neg fun heq => differ (char_injective.list_map heq.symm)]

/-- Four characters that are rewritten across the border of two groups. -/
theorem verify_rewrittenSample :
    ("raw(deadbeef)".toList.length = "raw(bafcbeef)".toList.length ∧
      (∀ c ∈ "raw(deadbeef)".toList, c ∈ alphabet ∧ c ≠ '#') ∧
      (∀ c ∈ "raw(bafcbeef)".toList, c ∈ alphabet ∧ c ≠ '#') ∧
      "raw(deadbeef)".toList ≠ "raw(bafcbeef)".toList ∧
      DifferWithin 4 "raw(deadbeef)".toList "raw(bafcbeef)".toList) ∧
    ∃ found expected, Checksum.of "raw(deadbeef)".toList = .ok found ∧
      Checksum.of "raw(bafcbeef)".toList = .ok expected ∧ found ≠ expected ∧
      verify ("raw(bafcbeef)".toList ++ '#' :: found) = .error (.mismatch expected found) := by
  have hlength : "raw(deadbeef)".toList.length = "raw(bafcbeef)".toList.length := by decide
  have covered {text : List Char} (h : text.all (fun c => alphabet.elem c && c != '#') = true) :
      ∀ c ∈ text, c ∈ alphabet ∧ c ≠ '#' := by
    simpa using h
  have hs : ∀ c ∈ "raw(deadbeef)".toList, c ∈ alphabet ∧ c ≠ '#' := covered (by decide)
  have ht : ∀ c ∈ "raw(bafcbeef)".toList, c ∈ alphabet ∧ c ≠ '#' := covered (by decide)
  have hne : "raw(deadbeef)".toList ≠ "raw(bafcbeef)".toList := by decide
  have burst : DifferWithin 4 "raw(deadbeef)".toList "raw(bafcbeef)".toList :=
    @differWithin_append 4 "dead".toList "bafc".toList "raw(".toList "beef)".toList rfl (by decide)
  exact ⟨⟨hlength, hs, ht, hne, burst⟩,
    verify_eq_mismatch_of_differWithin hlength hs ht hne burst⟩

end OutputDescriptor.Checksum
