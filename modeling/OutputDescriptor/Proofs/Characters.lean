import OutputDescriptor.Descriptor.Text
import OutputDescriptor.Proofs.Checksum
import OutputDescriptor.Proofs.Token.Literals

/-!
Every tree is written in characters that a checksum covers, also one that the language refuses. So
its text with a checksum can always be written, and the checksum comes off again.
-/

namespace OutputDescriptor

open Checksum Lexer

theorem plain_of_mem_toHex {bytes : Bytes} {c : Char} (h : c ∈ bytes.toHex) : Plain c :=
  .inl (isAlphanum_of_isHexDigit (isHexDigit_of_mem_toHex h))

theorem plain_of_mem_toDigits {n : Nat} {c : Char} (h : c ∈ Nat.toDigits 10 n) : Plain c :=
  .inl (isAlphanum_of_isDigit (Nat.isDigit_of_mem_toDigits (by decide) (by decide) h))

theorem plain_of_mem_encodeGuarded {payload : Bytes} {c : Char}
    (h : c ∈ Base58.encodeGuarded payload) : Plain c :=
  .inl (isAlphanum_of_isBase58 (isBase58_of_mem_encodeGuarded h))

namespace Step

theorem plain_of_mem_render {marker : HardenedMarker} {step : Step} {c : Char}
    (h : c ∈ step.render marker) : Plain c := by
  rcases List.mem_append.mp h with h | h
  · cases hindex : step.index with
    | concrete index =>
      rw [hindex] at h
      exact plain_of_mem_toDigits h
    | wildcard =>
      rw [hindex] at h
      obtain rfl := List.mem_singleton.mp h
      exact .inr (by decide)
  · split at h
    · obtain rfl := List.mem_singleton.mp h
      cases marker with
      | letter => exact .inl (by decide)
      | apostrophe => exact .inr (by decide)
    · simp at h

end Step

namespace Path

theorem plain_of_mem_render {marker : HardenedMarker} {path : Path} {c : Char}
    (h : c ∈ path.render marker) : Plain c := by
  rcases List.mem_append.mp h with h | h
  · cases horigin : path.origin with
    | unnamed =>
      rw [horigin] at h
      simp [Origin.render] at h
    | master =>
      rw [horigin] at h
      obtain rfl := List.mem_singleton.mp h
      exact .inl (by decide)
    | fingerprint fp =>
      rw [horigin] at h
      exact plain_of_mem_toHex h
  · obtain ⟨step, _, h⟩ := List.mem_flatMap.mp h
    rcases List.mem_cons.mp h with rfl | h
    · exact .inr (by decide)
    · exact Step.plain_of_mem_render h

end Path

namespace KeyExpression

theorem plain_of_mem_material {marker : HardenedMarker} {key : Key} {c : Char}
    (h : c ∈ key.render marker) : Plain c := by
  cases key with
  | literal key => exact plain_of_mem_toHex h
  | wif key => exact plain_of_mem_encodeGuarded h
  | extended key children =>
    rcases List.mem_append.mp h with h | h
    · obtain ⟨payload, hpayload⟩ := extendedKey_payload key
      rw [hpayload] at h
      exact plain_of_mem_encodeGuarded h
    · exact Path.plain_of_mem_render h

theorem plain_of_mem_render {marker : HardenedMarker} {expr : KeyExpression} {c : Char}
    (h : c ∈ expr.render marker) : Plain c := by
  obtain ⟨origin, key⟩ := expr
  rcases List.mem_append.mp h with h | h
  · cases origin with
    | none => simp at h
    | some path =>
      simp only [List.cons_append, List.mem_cons, List.mem_append, List.not_mem_nil, or_false] at h
      rcases h with rfl | h | rfl
      · exact .inr (by decide)
      · exact Path.plain_of_mem_render h
      · exact .inr (by decide)
  · exact plain_of_mem_material h

end KeyExpression

namespace Descriptor

theorem plain_of_mem_call {keyword : Keyword} {argument : List Char}
    (hargument : ∀ c ∈ argument, Plain c) : ∀ c ∈ call keyword argument, Plain c := by
  intro c h
  simp only [call, List.append_assoc, List.cons_append, List.mem_append, List.mem_cons,
    List.not_mem_nil, or_false] at h
  rcases h with h | rfl | h | rfl
  · exact .inl (isAlphanum_of_isLower (isLower_of_mem_text h))
  · exact .inr (by decide)
  · exact hargument c h
  · exact .inr (by decide)

/-- The characters of a written tree are letters, digits and the punctuation of descriptors. -/
theorem plain_of_mem_text (node : Descriptor) : ∀ c ∈ node.text, Plain c := by
  induction node with
  | raw script => exact plain_of_mem_call fun c => plain_of_mem_toHex
  | pk key => exact plain_of_mem_call fun c => KeyExpression.plain_of_mem_render
  | pkh key => exact plain_of_mem_call fun c => KeyExpression.plain_of_mem_render
  | wpkh key => exact plain_of_mem_call fun c => KeyExpression.plain_of_mem_render
  | combo key => exact plain_of_mem_call fun c => KeyExpression.plain_of_mem_render
  | multi threshold keys sorted =>
    refine plain_of_mem_call fun c h => ?_
    rcases List.mem_append.mp h with h | h
    · exact plain_of_mem_toDigits h
    · obtain ⟨key, _, h⟩ := List.mem_flatMap.mp h
      rcases List.mem_cons.mp h with rfl | h
      · exact .inr (by decide)
      · exact KeyExpression.plain_of_mem_render h
  | wsh inner ih => exact plain_of_mem_call ih
  | sh inner ih => exact plain_of_mem_call ih
  | addr address => exact plain_of_mem_call fun c h => .inl (Address.isAlphanum_of_mem_text h)

theorem verify_text (node : Descriptor) : verify node.text = .ok node.text :=
  verify_of_no_hash fun c hc => ne_hash_of_plain (node.plain_of_mem_text c hc)

theorem checkedText_eq_ok {node : Descriptor} {text : List Char} :
    node.checkedText = .ok text ↔
      ∃ found, Checksum.of node.text = .ok found ∧ text = node.text ++ '#' :: found := by
  cases hfound : Checksum.of node.text with
  | error e => simp [checkedText, hfound, bind, Except.bind]
  | ok found => simp [checkedText, hfound, bind, Except.bind, eq_comm]

/-- A text with a checksum can be written for any tree, and it is found to be right. -/
theorem exists_checkedText (node : Descriptor) :
    ∃ text, node.checkedText = .ok text ∧ verify text = .ok node.text := by
  have hplain := node.plain_of_mem_text
  obtain ⟨found, hfound, hlength⟩ := exists_of fun c hc => mem_alphabet_of_plain (hplain c hc)
  refine ⟨node.text ++ '#' :: found, checkedText_eq_ok.mpr ⟨found, hfound, rfl⟩, ?_⟩
  exact verify_append (fun c hc => ne_hash_of_plain (hplain c hc)) hfound hlength

/-- Any tree can be written with a checksum, also one that the language refuses. Only the mark in
front of the checksum is a `#`, and the text before it comes off when the checksum is verified. -/
theorem checkedText_verifies (node : Descriptor) :
    ∃ text, node.checkedText = .ok text ∧ text.count '#' = 1 ∧ verify text = .ok node.text := by
  obtain ⟨text, htext, hverify⟩ := node.exists_checkedText
  obtain ⟨found, hfound, rfl⟩ := checkedText_eq_ok.mp htext
  have body : '#' ∉ node.text := fun hmem => ne_hash_of_plain (node.plain_of_mem_text _ hmem) rfl
  have once : (node.text ++ '#' :: found).count '#' = 1 := by
    rw [List.count_append, List.count_cons_self, List.count_eq_zero.mpr body,
      List.count_eq_zero.mpr (hash_notMem_of hfound)]
  exact ⟨_, htext, once, hverify⟩

example : (raw [0xde, 0xad, 0xbe, 0xef]).checkedText = .ok "raw(deadbeef)#89f8spxm".toList := by
  decide +kernel

end Descriptor

end OutputDescriptor
