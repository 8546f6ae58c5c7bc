import OutputDescriptor.Proofs.Burst
import OutputDescriptor.Proofs.RoundTrip
import OutputDescriptor.Proofs.Traversal

/-!
A checksum is right exactly if text and checksum together lead the register to one.

The register can follow a text character by character: it takes the low bits of each one at once and
keeps the classes of an unfinished group aside. Where a text ends, the characters of the checksum go
in as the symbols they are. No checksum is computed on the way, and yet no other one passes.
-/

namespace OutputDescriptor.Checksum

/-- A text on its way into the register: the classes of the last group, packed as far as they are
known, are not part of it yet. -/
structure Intake where
  register : BitVec (5 * 8)
  packed : Nat
  count : Nat

namespace Intake

def start : Intake := ⟨1, 0, 0⟩

/-- Takes the character at a position of the alphabet; the third one of a group completes it. -/
def take (intake : Intake) (position : Nat) : Intake :=
  let register := code.feed intake.register (lowBits position)
  let packed := 3 * intake.packed + position / 32
  if intake.count = 2 then ⟨code.feed register (BitVec.ofNat 5 packed), 0, 0⟩
  else ⟨register, packed, intake.count + 1⟩

/-- Feeds the classes of a group that the end of the text has cut short. -/
def finish (intake : Intake) : BitVec (5 * 8) :=
  if intake.count = 0 then intake.register
  else code.feed intake.register (BitVec.ofNat 5 intake.packed)

/-- Character by character or symbol by symbol, the register is the same in the end. -/
theorem finish_foldl_take (register : BitVec (5 * 8)) (positions : List Nat) :
    (positions.foldl take ⟨register, 0, 0⟩).finish = code.run register (symbols positions) := by
  induction positions using symbols.induct generalizing register with
  | case1 => rfl
  | case2 a => rfl
  | case3 a b => rfl
  | case4 a b c rest ih =>
    -- a whole group leaves nothing aside, so the rest starts afresh
    have group : [a, b, c].foldl take ⟨register, 0, 0⟩ =
        ⟨code.run register (symbols [a, b, c]), 0, 0⟩ := rfl
    have split : symbols (a :: b :: c :: rest) = symbols [a, b, c] ++ symbols rest := rfl
    have front : (a :: b :: c :: rest).foldl take ⟨register, 0, 0⟩ =
        rest.foldl take ([a, b, c].foldl take ⟨register, 0, 0⟩) := rfl
    rw [front, group, ih, split, BchCode.run_append]

end Intake

/-- Where a text and the symbols of a checksum lead the register. There is no answer where a
character stands for nothing. -/
def residue? (text found : List Char) : Option (BitVec (5 * 8)) := do
  let positions ← text.mapM (alphabet.idxOf? ·)
  let last ← found.mapM Symbol.ofChar?
  some (last.foldl code.feed (positions.foldl Intake.take .start).finish)

/-! ### Texts and checksums that stand for something -/

theorem mem_alphabet_of_position {c : Char} {n : Nat} (h : position c = .ok n) : c ∈ alphabet := by
  unfold position at h
  cases hfound : alphabet.idxOf? c with
  | some n =>
    have inside := List.isSome_idxOf? (l := alphabet) (a := c)
    simpa [hfound] using inside
  | none =>
    rw [hfound] at h
    cases h

theorem mem_alphabet_of_mapM {text : List Char} {positions : List Nat}
    (h : text.mapM position = .ok positions) : ∀ c ∈ text, c ∈ alphabet := by
  induction text generalizing positions with
  | nil => simp
  | cons c text ih =>
    obtain ⟨_, _, hc, hrest, _⟩ := mapM_cons_eq_ok.mp h
    exact List.forall_mem_cons.mpr ⟨mem_alphabet_of_position hc, ih hrest⟩

theorem of_eq_ok_iff {text found : List Char} :
    Checksum.of text = .ok found ↔ (∀ c ∈ text, c ∈ alphabet) ∧
      found = (code.checksum 1 (symbols (text.map alphabet.idxOf))).map Symbol.char := by
  constructor
  · intro h
    have covered : ∀ c ∈ text, c ∈ alphabet := by
      unfold Checksum.of at h
      cases hpositions : text.mapM position with
      | error e =>
        rw [hpositions] at h
        cases h
      | ok positions => exact mem_alphabet_of_mapM hpositions
    rw [of_eq_ok covered, Except.ok.injEq] at h
    exact ⟨covered, h.symm⟩
  · rintro ⟨covered, rfl⟩
    exact of_eq_ok covered

theorem mapM_idxOf? {text : List Char} (covered : ∀ c ∈ text, c ∈ alphabet) :
    text.mapM (alphabet.idxOf? ·) = some (text.map alphabet.idxOf) := by
  induction text with
  | nil => rfl
  | cons c text ih =>
    obtain ⟨hc, htext⟩ := List.forall_mem_cons.mp covered
    obtain ⟨n, hn⟩ := Option.isSome_iff_exists.mp (List.isSome_idxOf?.mpr hc)
    have index : alphabet.idxOf c = n := by rw [List.idxOf_eq_getD_idxOf?, hn, Option.getD_some]
    rw [List.map_cons, index]
    exact mapM_cons_eq_some.mpr ⟨n, _, hn, ih htext, rfl⟩

theorem char_of_ofChar? {c : Char} {symbol : Symbol} (h : Symbol.ofChar? c = some symbol) :
    symbol.char = c := by
  obtain ⟨n, hn, rfl⟩ := Option.map_eq_some_iff.mp h
  obtain ⟨inside, rfl, _⟩ := List.idxOf?_eq_some_iff.mp hn
  have small : n % 2 ^ 5 = n := Nat.mod_eq_of_lt inside
  rw [Symbol.char, BitVec.toNat_ofNat, small, List.getD_eq_getElem?_getD,
    List.getElem?_eq_getElem inside, Option.getD_some]

/-- The residue as the remainder of a code, where text and checksum stand for something. -/
theorem residue?_eq_some_iff {text found : List Char} {residue : BitVec (5 * 8)} :
    residue? text found = some residue ↔ (∀ c ∈ text, c ∈ alphabet) ∧
      ∃ last : List Symbol, found = last.map Symbol.char ∧
        code.remainder (symbols (text.map alphabet.idxOf) ++ last) = residue := by
  have whole (positions : List Nat) (last : List Symbol) :
      last.foldl code.feed (positions.foldl Intake.take .start).finish =
        code.remainder (symbols positions ++ last) := by
    have text := Intake.finish_foldl_take 1 positions
    have split := @BchCode.run_append 8 code 1 (symbols positions) last
    rw [← text] at split
    exact split.symm
  simp only [residue?, whole, Option.bind_eq_bind, Option.bind_eq_some_iff, Option.some.injEq]
  constructor
  · rintro ⟨positions, hpositions, last, hlast, equation⟩
    have covered : ∀ c ∈ text, c ∈ alphabet := fun c hc => List.isSome_idxOf?.mp
      (isSome_mapM_iff.mp (Option.isSome_of_eq_some hpositions) c hc)
    obtain rfl := Option.some.inj ((mapM_idxOf? covered).symm.trans hpositions)
    exact ⟨covered, last, (map_of_mapM hlast fun _ _ _ => char_of_ofChar?).symm, equation⟩
  · rintro ⟨covered, last, rfl, equation⟩
    have hlast : (last.map Symbol.char).mapM Symbol.ofChar? = some last :=
      mapM_map_of_read fun symbol _ => Symbol.ofChar?_char symbol
    exact ⟨_, mapM_idxOf? covered, last, hlast, equation⟩

/-- A checksum of eight characters is that of a text exactly if both together lead to one. -/
theorem of_eq_ok_iff_residue? {text found : List Char} (hlength : found.length = 8) :
    Checksum.of text = .ok found ↔ residue? text found = some 1 := by
  rw [of_eq_ok_iff, residue?_eq_some_iff]
  refine and_congr_right fun _ => ⟨?_, ?_⟩
  · rintro rfl
    exact ⟨_, rfl, BchCode.remainder_checksum 1 _⟩
  · rintro ⟨last, rfl, equation⟩
    rw [List.length_map] at hlength
    rw [(BchCode.remainder_eq_iff hlength).mp equation]

theorem verify_eq_ok_iff {text found body : List Char} (h : ∀ c ∈ text, c ≠ '#') :
    verify (text ++ '#' :: found) = .ok body ↔ Checksum.of text = .ok found ∧ body = text := by
  have eight {expected : List Char} (hof : Checksum.of text = .ok expected) :
      expected.length = 8 := by
    rw [(of_eq_ok_iff.mp hof).2, List.length_map, length_checksum]
  constructor
  · intro hverify
    rw [verify_split found h] at hverify
    split at hverify
    · cases hverify
    · cases hof : Checksum.of text with
      | error e =>
        rw [hof] at hverify
        cases hverify
      | ok expected =>
        rw [hof] at hverify
        change (if expected = found then _ else _) = _ at hverify
        split at hverify
        · next same => exact ⟨congrArg _ same, (Except.ok.inj hverify).symm⟩
        · cases hverify
  · rintro ⟨hof, rfl⟩
    exact (verify_hash h hof (eight hof)).trans (if_pos rfl)

end OutputDescriptor.Checksum

namespace OutputDescriptor.Descriptor

open Checksum

theorem parse_hash_eq_ok_iff {text found : List Char} {node : Descriptor}
    (h : ∀ c ∈ text, c ≠ '#') : parse (text ++ '#' :: found) = .ok node ↔
      Checksum.of text = .ok found ∧ parse text = .ok node := by
  rw [parse_eq_ok, parse_eq_ok, verify_of_no_hash h]
  constructor
  · rintro ⟨body, tokens, hbody, htokens, hnode⟩
    obtain ⟨hof, rfl⟩ := (verify_eq_ok_iff h).mp hbody
    exact ⟨hof, _, tokens, rfl, htokens, hnode⟩
  · rintro ⟨hof, body, tokens, hbody, htokens, hnode⟩
    obtain rfl := Except.ok.inj hbody
    exact ⟨_, tokens, (verify_eq_ok_iff h).mpr ⟨hof, rfl⟩, htokens, hnode⟩

/-- Eight characters are the checksum of a text exactly if they lead the register to one behind it.
What is read with a checksum behind it is what is read without, provided the checksum is right. -/
theorem parse_checked_iff (text found : List Char) :
    (found.length = 8 → (Checksum.of text = .ok found ↔ residue? text found = some 1)) ∧
    ((∀ c ∈ text, c ≠ '#') → ∀ node, parse (text ++ '#' :: found) = .ok node ↔
      Checksum.of text = .ok found ∧ parse text = .ok node) :=
  ⟨of_eq_ok_iff_residue?, fun h _ => parse_hash_eq_ok_iff h⟩

theorem parse_checkedSample :
    "89f8spxm".toList.length = 8 ∧ (∀ c ∈ "raw(deadbeef)".toList, c ≠ '#') ∧
      residue? "raw(deadbeef)".toList "89f8spxm".toList = some 1 ∧
      parse ("raw(deadbeef)".toList ++ '#' :: "89f8spxm".toList) =
        .ok (.raw [0xde, 0xad, 0xbe, 0xef]) := by
  have nowhere : "raw(deadbeef)".toList.all (· != '#') = true := by decide
  have plain : ∀ c ∈ "raw(deadbeef)".toList, c ≠ '#' := fun c hc =>
    bne_iff_ne.mp (List.all_eq_true.mp nowhere c hc)
  have known : Checksum.of "raw(deadbeef)".toList = .ok "89f8spxm".toList := by decide +kernel
  have reads : parse "raw(deadbeef)".toList = .ok (.raw [0xde, 0xad, 0xbe, 0xef]) := by
    decide +kernel
  obtain ⟨equation, carried⟩ := parse_checked_iff "raw(deadbeef)".toList "89f8spxm".toList
  exact ⟨rfl, plain, (equation rfl).mp known, (carried plain _).mpr ⟨known, reads⟩⟩

end OutputDescriptor.Descriptor
