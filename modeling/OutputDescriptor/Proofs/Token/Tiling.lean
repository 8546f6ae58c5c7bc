import OutputDescriptor.Proofs.Checksum
import OutputDescriptor.Proofs.Token.Reading
import OutputDescriptor.Proofs.Utf8

/-!
Tokens tile the text that they are read from.

Tokenizing goes through states: the tokens so far, and what is left of the text. Every state keeps
three things. The tokens lead from the start of the text to what is left, without gap or overlap;
they have taken nothing but characters of a single byte, so that places count bytes and characters
alike; and a hardened marker stands behind an index. A state in which no rule fits is the last one.
If nothing is left there the tokens are the answer, and if anything is left its place is the error.
-/

namespace OutputDescriptor

/-- Tokens that lead from one place to another, each beginning where the one before ended, and none
of them empty. -/
def Tiles : (start : Nat) → List Token → (stop : Nat) → Prop
  | start, [], stop => start = stop
  | start, token :: tokens, stop =>
    token.start = start ∧ start < token.stop ∧ Tiles token.stop tokens stop

namespace Tiles

variable {start middle stop : Nat} {tokens : List Token} {token : Token}

theorem concat (h : Tiles start tokens middle) (hstart : token.start = middle)
    (hpos : middle < token.stop) : Tiles start (tokens ++ [token]) token.stop := by
  induction tokens generalizing start with
  | nil =>
    obtain rfl : start = middle := h
    exact ⟨hstart, hpos, rfl⟩
  | cons first tokens ih =>
    obtain ⟨hfirst, hne, htail⟩ := h
    exact ⟨hfirst, hne, ih htail⟩

/-- There are at most as many tokens as bytes. -/
theorem add_length_le (h : Tiles start tokens stop) : start + tokens.length ≤ stop := by
  induction tokens generalizing start with
  | nil => exact Nat.le_of_eq h
  | cons token tokens ih =>
    obtain ⟨_, hne, htail⟩ := h
    have := ih htail
    rw [List.length_cons]
    omega

end Tiles

theorem Lexeme.isIndex_iff {lexeme : Lexeme} :
    lexeme.isIndex = true ↔ (∃ value, lexeme = .integer value) ∨ (∃ digits, lexeme = .hex digits) ∨
      lexeme = .delimiter .asterisk := by
  cases lexeme with
  | delimiter d => cases d <;> simp [isIndex]
  | _ => simp [isIndex]

/-- Each hardened marker directly follows an integer, hex digits or a wildcard. -/
def MarkersFollowIndices (tokens : List Token) : Prop :=
  ∀ front marker back, tokens = front ++ marker :: back → marker.lexeme = .hardenedMarker →
    ∃ index, front.getLast? = some index ∧ ((∃ value, index.lexeme = .integer value) ∨
      (∃ digits, index.lexeme = .hex digits) ∨ index.lexeme = .delimiter .asterisk)

namespace Lexer

variable {text rest : List Char} {tokens : List Token} {lexeme : Lexeme} {length : Nat}

/-- Where the tokens end. -/
def reach (tokens : List Token) : Nat :=
  (tokens.getLast?.map Token.stop).getD 0

def lastLexeme (tokens : List Token) : Option Lexeme :=
  tokens.getLast?.map Token.lexeme

@[simp] theorem reach_concat (tokens : List Token) (token : Token) :
    reach (tokens ++ [token]) = token.stop := by
  simp [reach]

@[simp] theorem lastLexeme_concat (tokens : List Token) (token : Token) :
    lastLexeme (tokens ++ [token]) = some token.lexeme := by
  simp [lastLexeme]

/-- The states of tokenizing a text: the tokens that were read, and what is left. -/
inductive Reached (text : List Char) : List Token → List Char → Prop
  | start : Reached text [] text
  | next {tokens : List Token} {rest : List Char} {lexeme : Lexeme} {length : Nat}
    (before : Reached text tokens rest)
    (head : lexeme? (lastLexeme tokens) rest = some (lexeme, length)) :
    Reached text (tokens ++ [⟨lexeme, reach tokens, reach tokens + length⟩]) (rest.drop length)

/-! ### What every state keeps -/

/-- A lexeme takes characters that are there, and each of them is a single byte. -/
theorem small_of_lexeme? {previous : Option Lexeme}
    (h : lexeme? previous text = some (lexeme, length)) :
    length ≤ text.length ∧ ∀ c ∈ text.take length, c.toNat < 128 := by
  refine (taken_of_lexeme? h).imp_right ?_
  rintro (halnum | ⟨d, _, htake⟩ | ⟨_, c, htake, hc⟩)
  · exact fun c hc => Checksum.lt_of_isAlphanum (halnum c hc)
  · rw [htake, List.forall_mem_singleton]
    cases d <;> decide
  · rw [htake, List.forall_mem_singleton]
    obtain rfl | rfl := hc <;> decide

/-- The tokens tile the front of the text, which is cut off between characters, and each marker
belongs to an index. -/
structure Tiled (text : List Char) (tokens : List Token) (rest : List Char) : Prop where
  tiles : Tiles 0 tokens (reach tokens)
  cut : ∃ front, text = front ++ rest ∧ front.length = reach tokens ∧ ∀ c ∈ front, c.toNat < 128
  markers : MarkersFollowIndices tokens

theorem Tiled.start : Tiled text [] text where
  tiles := rfl
  cut := ⟨[], by simp [reach]⟩
  markers := by
    intro front marker back h
    simp at h

theorem markers_concat {token : Token} (markers : MarkersFollowIndices tokens)
    (behind : token.lexeme = .hardenedMarker →
      ∃ index, lastLexeme tokens = some index ∧ index.isIndex = true) :
    MarkersFollowIndices (tokens ++ [token]) := by
  intro front marker back h hmarker
  rcases List.eq_nil_or_concat back with rfl | ⟨back, last, rfl⟩
  · -- the marker is the token that was added
    obtain ⟨rfl, htoken⟩ := List.append_inj' h rfl
    obtain rfl : token = marker := by simpa using htoken
    obtain ⟨index, hlast, hindex⟩ := behind hmarker
    obtain ⟨before, hbefore, rfl⟩ := Option.map_eq_some_iff.mp hlast
    exact ⟨before, hbefore, Lexeme.isIndex_iff.mp hindex⟩
  · rw [List.concat_eq_append, ← List.cons_append, ← List.append_assoc] at h
    exact markers front marker back (List.append_inj' h rfl).1 hmarker

/-- One step keeps all of it. -/
theorem Tiled.next (h : Tiled text tokens rest)
    (head : lexeme? (lastLexeme tokens) rest = some (lexeme, length)) :
    Tiled text (tokens ++ [⟨lexeme, reach tokens, reach tokens + length⟩]) (rest.drop length) where
  tiles := by
    obtain ⟨_, hpos⟩ := ruleOf_of_lexeme? head
    rw [reach_concat]
    exact h.tiles.concat rfl (Nat.lt_add_of_pos_right hpos)
  cut := by
    obtain ⟨front, htext, hlength, small⟩ := h.cut
    obtain ⟨hle, taken⟩ := small_of_lexeme? head
    refine ⟨front ++ rest.take length, ?_, ?_, ?_⟩
    · rw [List.append_assoc, List.take_append_drop, htext]
    · rw [List.length_append, List.length_take_of_le hle, hlength, reach_concat]
    · intro c hc
      rcases List.mem_append.mp hc with hc | hc
      · exact small c hc
      · exact taken c hc
  markers := by
    refine markers_concat h.markers fun hmarker => ?_
    obtain rfl : lexeme = .hardenedMarker := hmarker
    exact (hardenedMarker_of_lexeme? head).2.2

theorem Reached.tiled (h : Reached text tokens rest) : Tiled text tokens rest := by
  induction h with
  | start => exact .start
  | next _ head ih => exact ih.next head

/-! ### The last state -/

/-- From every state a last one is reached, since every lexeme takes something. -/
theorem Reached.exists_last {tokens : List Token} {rest : List Char}
    (h : Reached text tokens rest) :
    ∃ tokens' rest', Reached text tokens' rest' ∧ lexeme? (lastLexeme tokens') rest' = none := by
  cases head : lexeme? (lastLexeme tokens) rest with
  | none => exact ⟨tokens, rest, h, head⟩
  | some found =>
    have hpos := (ruleOf_of_lexeme? head).2
    have hle := (small_of_lexeme? head).1
    exact (h.next head).exists_last
termination_by rest.length
decreasing_by
  rw [List.length_drop]
  omega

/-- What remains to be done in a state is to tokenize what is left. -/
theorem Reached.tokenize_eq (h : Reached text tokens rest) :
    tokenize text = (scan (reach tokens) (lastLexeme tokens) 0 rest).map (tokens ++ ·) := by
  induction h with
  | start =>
    show scan 0 none 0 text = (scan 0 none 0 text).map ([] ++ ·)
    cases scan 0 none 0 text <;> rfl
  | @next tokens rest lexeme length _ head ih =>
    rw [ih, scan_of_lexeme? _ (text_ne_nil_of_lexeme? head) head, reach_concat, lastLexeme_concat]
    cases scan (reach tokens + length) (some lexeme) 0 (rest.drop length) with
    | error error => rfl
    | ok tail =>
      show Except.ok (tokens ++ _ :: tail) = Except.ok ((tokens ++ [_]) ++ tail)
      rw [List.append_assoc, List.singleton_append]

/-- The answer is told by the last state. -/
theorem tokenize_outcome (text : List Char) :
    ∃ tokens rest, Reached text tokens rest ∧ lexeme? (lastLexeme tokens) rest = none ∧
      tokenize text = if rest = [] then .ok tokens else .error ⟨reach tokens⟩ := by
  obtain ⟨tokens, rest, hreached, stuck⟩ := (Reached.start : Reached text [] text).exists_last
  refine ⟨tokens, rest, hreached, stuck, ?_⟩
  rw [hreached.tokenize_eq]
  cases rest with
  | nil =>
    rw [if_pos rfl, scan]
    exact congrArg Except.ok (List.append_nil tokens)
  | cons c rest =>
    rw [if_neg (by simp), scan, stuck]
    rfl

/-! ### Sources -/

/-- The classes of characters whose runs are cut off. -/
def runClasses : List (Char → Bool) :=
  [Char.isLower, Char.isAlphanum, isBase58, isHexDigit, Char.isDigit]

theorem lt_of_runClass {inClass : Char → Bool} (h : inClass ∈ runClasses) {c : Char}
    (hc : inClass c = true) : c.toNat < 128 := by
  refine Checksum.lt_of_isAlphanum ?_
  simp only [runClasses, List.mem_cons, List.not_mem_nil, or_false] at h
  rcases h with rfl | rfl | rfl | rfl | rfl
  · exact isAlphanum_of_isLower hc
  · exact hc
  · exact isAlphanum_of_isBase58 hc
  · exact isAlphanum_of_isHexDigit hc
  · exact isAlphanum_of_isDigit hc

/-- What is left of a source begins at a boundary between its characters, and so does what is left
behind each run, counted in bytes as in characters. -/
structure CutsCleanly (source : String) (position : Nat) (rest : List Char) : Prop where
  boundary : (⟨position⟩ : String.Pos.Raw).IsValid source
  remainder : source.toByteArray.data.toList.drop position = Utf8.bytes rest
  run : ∀ inClass ∈ runClasses,
    Utf8.run inClass (Utf8.bytes rest) = (rest.takeWhile inClass).length ∧
      (⟨position + Utf8.run inClass (Utf8.bytes rest)⟩ : String.Pos.Raw).IsValid source

theorem cutsCleanly_of_cut {source : String} {front rest : List Char}
    (split : source.toList = front ++ rest) (small : ∀ c ∈ front, c.toNat < 128) :
    CutsCleanly source front.length rest where
  boundary := Utf8.isValid_of_toList split small
  remainder := by
    rw [Utf8.bytes_toList, split, Utf8.bytes_append, List.drop_left' (Utf8.length_bytes_of_lt small)]
  run := by
    intro inClass hclass
    have hrun := Utf8.run_bytes (fun c => lt_of_runClass hclass) rest
    refine ⟨hrun, ?_⟩
    have behind : source.toList = (front ++ rest.takeWhile inClass) ++ rest.dropWhile inClass := by
      rw [List.append_assoc, List.takeWhile_append_dropWhile, split]
    rw [hrun, ← List.length_append]
    refine Utf8.isValid_of_toList behind fun c hc => ?_
    rcases List.mem_append.mp hc with hc | hc
    · exact small c hc
    · exact lt_of_runClass hclass (List.mem_takeWhile_imp hc)

end Lexer

open Lexer

/-- Whatever characters a source has, tokenizing cuts it between characters only, also where it looks
for runs, and comes to an end with no more tokens than bytes. Either the tokens tile the source, or
they tile it up to a boundary between characters at which no rule fits. -/
theorem tokenize_tiles (source : String) :
    (∀ tokens rest, Reached source.toList tokens rest →
      tokens.length ≤ source.utf8ByteSize ∧ CutsCleanly source (reach tokens) rest) ∧
    match tokenize source.toList with
    | .ok tokens =>
      Reached source.toList tokens [] ∧ Tiles 0 tokens source.utf8ByteSize ∧
        (tokens = [] ↔ source = "") ∧ MarkersFollowIndices tokens
    | .error error =>
      error.position < source.utf8ByteSize ∧
        (⟨error.position⟩ : String.Pos.Raw).IsValid source ∧
        ∃ tokens rest, Reached source.toList tokens rest ∧ reach tokens = error.position ∧
          Tiles 0 tokens error.position ∧ ∀ rule ∈ rules (lastLexeme tokens), rule rest = none := by
  have bounds (tokens : List Token) (rest : List Char) (h : Reached source.toList tokens rest) :
      tokens.length ≤ reach tokens ∧
        source.utf8ByteSize = reach tokens + (Utf8.bytes rest).length ∧
        CutsCleanly source (reach tokens) rest := by
    obtain ⟨front, split, hlength, small⟩ := h.tiled.cut
    have hcount := h.tiled.tiles.add_length_le
    rw [Nat.zero_add] at hcount
    refine ⟨hcount, ?_, hlength ▸ cutsCleanly_of_cut split small⟩
    rw [Utf8.utf8ByteSize_eq, split, Utf8.bytes_append, List.length_append,
      Utf8.length_bytes_of_lt small, hlength]
  constructor
  · intro tokens rest h
    obtain ⟨hcount, hsize, cuts⟩ := bounds tokens rest h
    exact ⟨by omega, cuts⟩
  · obtain ⟨tokens, rest, hreached, stuck, outcome⟩ := tokenize_outcome source.toList
    obtain ⟨hcount, hsize, cuts⟩ := bounds tokens rest hreached
    have tiled := hreached.tiled
    rw [outcome]
    cases rest with
    | nil =>
      rw [if_pos rfl]
      have hend : source.utf8ByteSize = reach tokens := hsize
      refine ⟨hreached, hend ▸ tiled.tiles, ?_, tiled.markers⟩
      rw [← String.utf8ByteSize_eq_zero_iff, hend]
      constructor
      · rintro rfl
        rfl
      · intro hzero
        exact List.length_eq_zero_iff.mp (by omega)
    | cons c rest =>
      rw [if_neg (by simp)]
      have hne : 0 < (Utf8.bytes (c :: rest)).length := by
        rw [Utf8.bytes_cons, List.length_append, String.length_utf8EncodeChar]
        have := c.utf8Size_pos
        omega
      refine ⟨by show reach tokens < _; omega, cuts.boundary, tokens, c :: rest, hreached, rfl,
        tiled.tiles, ?_⟩
      exact List.findSome?_eq_none_iff.mp stuck

/-- A letter of two bytes behind a marker, where the tokens end. -/
theorem tokenize_omegaSample :
    let source := "[d34db33f/44h/*'Ω]"
    tokenize source.toList = .error ⟨16⟩ ∧ (⟨16⟩ : String.Pos.Raw).IsValid source ∧
      ∃ tokens rest, Reached source.toList tokens rest ∧ Tiles 0 tokens 16 ∧
        CutsCleanly source 16 rest := by
  intro source
  have outcome : tokenize source.toList = .error ⟨16⟩ := by decide +kernel
  obtain ⟨states, last⟩ := tokenize_tiles source
  rw [outcome] at last
  obtain ⟨_, boundary, tokens, rest, hreached, hend, tiles, _⟩ := last
  have cuts := (states tokens rest hreached).2
  rw [hend] at cuts
  exact ⟨outcome, boundary, tokens, rest, hreached, tiles, cuts⟩

end OutputDescriptor
