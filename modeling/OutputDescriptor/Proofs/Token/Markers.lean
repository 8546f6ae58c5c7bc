import OutputDescriptor.Proofs.Grammar.Adjacency
import OutputDescriptor.Proofs.RoundTrip
import OutputDescriptor.Proofs.Token.Path

/-!
The two hardened markers stand for each other.

One of them is a letter, which the run of letters and digits in front of it goes on into, and the
other is not. So it has to be shown that no token begins or ends elsewhere when a marker is replaced.
In a descriptor only an index can stand in front of a marker: its digits are too few for anything but
an index, whatever follows them, and end at the letter all the same. Behind a marker stands a
delimiter, or nothing. Everywhere else delimiters keep the runs apart, and they stay what they are.
-/

namespace OutputDescriptor

open Grammar

namespace Lexer

variable {previous : Option Lexeme} {text rest rest' : List Char} {lexeme : Lexeme}
  {length position : Nat} {tokens : List Token} {marked : Nat → Bool}

/-! ### Replacing markers -/

/-- The other one of the two characters that mark a hardened step. -/
def otherMarker (c : Char) : Char :=
  if c = 'h' then '\'' else 'h'

theorem exists_char_otherMarker (c : Char) :
    ∃ marker : HardenedMarker, otherMarker c = marker.char := by
  unfold otherMarker
  split
  · exact ⟨.apostrophe, rfl⟩
  · exact ⟨.letter, rfl⟩

/-- A text that begins at a position, with the other marker at the marked places. -/
def remarkFrom (marked : Nat → Bool) (position : Nat) (text : List Char) : List Char :=
  text.mapIdx fun i c => if marked (position + i) then otherMarker c else c

theorem remarkFrom_append (front rest : List Char) :
    remarkFrom marked position (front ++ rest) =
      remarkFrom marked position front ++ remarkFrom marked (position + front.length) rest := by
  unfold remarkFrom
  rw [List.mapIdx_append]
  simp only [Nat.add_assoc, Nat.add_comm front.length]

theorem remarkFrom_cons (c : Char) (rest : List Char) :
    remarkFrom marked position (c :: rest) =
      (if marked position then otherMarker c else c) :: remarkFrom marked (position + 1) rest :=
  remarkFrom_append [c] rest

theorem remarkFrom_split {n : Nat} (hle : n ≤ text.length) :
    remarkFrom marked position text = remarkFrom marked position (text.take n) ++
      remarkFrom marked (position + n) (text.drop n) := by
  have split : remarkFrom marked position (text.take n ++ text.drop n) = _ := remarkFrom_append _ _
  rwa [List.take_append_drop, List.length_take_of_le hle] at split

theorem remarkFrom_of_unmarked (h : ∀ i < text.length, marked (position + i) = false) :
    remarkFrom marked position text = text := by
  refine List.ext_getElem (by simp [remarkFrom]) fun i _ hi => ?_
  simp [remarkFrom, h i hi]

/-- No place of a token other than a marker is marked. -/
def MarkersOnly (marked : Nat → Bool) (tokens : List Token) : Prop :=
  ∀ token ∈ tokens, token.lexeme ≠ .hardenedMarker →
    ∀ i, token.start ≤ i → i < token.stop → marked i = false

theorem MarkersOnly.tail {token : Token} (h : MarkersOnly marked (token :: tokens)) :
    MarkersOnly marked tokens :=
  fun other hother => h other (List.mem_cons_of_mem _ hother)

/-! ### One token -/

theorem lexeme?_congr_rest (hne : text ≠ []) (hrest : Boundary rest) (hrest' : Boundary rest') :
    lexeme? previous (text ++ rest') = lexeme? previous (text ++ rest) := by
  rw [lexeme?_append hne hrest, lexeme?_append hne hrest']

/-- In front of either marker an index is the same. -/
theorem lexeme?_index {front : List Char} {index : StepIndex} (hindex : IndexOf lexeme index)
    {marker : HardenedMarker} (marker' : HardenedMarker) (hrest : Boundary rest)
    (hrest' : Boundary rest')
    (h : lexeme? previous (front ++ marker.char :: rest) = some (lexeme, front.length)) :
    lexeme? previous (front ++ marker'.char :: rest') = some (lexeme, front.length) := by
  have spells := spells_of_lexeme? hindex h
  rw [List.take_left' rfl] at spells
  cases spells with
  | wildcard =>
    obtain rfl : lexeme = .delimiter .asterisk := (Prod.ext_iff.mp (Option.some.inj h)).1.symm
    exact lexeme?_delimiter .asterisk
  | concrete numeral lt =>
    rw [lexeme?_marked_digits numeral lt marker hrest] at h
    rw [lexeme?_marked_digits numeral lt marker' hrest', h]

/-- What begins with a delimiter begins with the same delimiter after all replacements. -/
theorem boundary_remarkFrom (h : scan position previous 0 text = .ok tokens)
    (only : MarkersOnly marked tokens)
    (detached : ∀ lexeme ∈ (tokens.map Token.lexeme).head?, ∃ d, lexeme = .delimiter d) :
    Boundary text ∧ Boundary (remarkFrom marked position text) := by
  obtain ⟨rfl, _⟩ | ⟨lexeme, length, tail, head, _, rfl⟩ := scan_eq_ok h
  · exact ⟨boundary_nil, boundary_nil⟩
  · obtain ⟨d, rfl⟩ := detached lexeme rfl
    obtain ⟨rfl, rest, rfl⟩ := delimiter_of_lexeme? head
    have unmarked : marked position = false :=
      only _ List.mem_cons_self (by simp) position (Nat.le_refl _) (Nat.lt_succ_self _)
    rw [remarkFrom_cons, unmarked]
    exact ⟨boundary_char d, boundary_char d⟩

/-- Behind a marker the text goes on at a boundary, before the replacements and after. -/
theorem marker_remarkFrom {marker : Token} {tail : List Token}
    (h : scan position previous 0 text = .ok (marker :: tail))
    (hmarker : marker.lexeme = .hardenedMarker) (only : MarkersOnly marked tail)
    (spaced : Spaced (.hardenedMarker :: tail.map Token.lexeme)) :
    ∃ (found new : HardenedMarker) (rest rest' : List Char), text = found.char :: rest ∧
      remarkFrom marked position text = new.char :: rest' ∧ Boundary rest ∧ Boundary rest' ∧
      ∃ index, previous = some index ∧ index.isIndex = true := by
  obtain ⟨_, heq⟩ | ⟨lexeme, length, _, head, behind, heq⟩ := scan_eq_ok h
  · cases heq
  · cases heq
    obtain rfl : lexeme = .hardenedMarker := hmarker
    obtain ⟨rfl, ⟨c, rest, rfl, hc⟩, hprevious⟩ := hardenedMarker_of_lexeme? head
    obtain ⟨follows, _⟩ := List.isChain_cons.mp spaced
    obtain ⟨hrest, hrest'⟩ := boundary_remarkFrom behind only fun next hnext =>
      (follows next hnext).marker
    obtain ⟨found, rfl⟩ : ∃ found : HardenedMarker, c = found.char := by
      obtain rfl | rfl := hc
      · exact ⟨.letter, rfl⟩
      · exact ⟨.apostrophe, rfl⟩
    obtain ⟨new, hnew⟩ : ∃ new : HardenedMarker,
        (if marked position then otherMarker found.char else found.char) = new.char := by
      split
      · exact exists_char_otherMarker found.char
      · exact ⟨found, rfl⟩
    refine ⟨found, new, rest, remarkFrom marked (position + 1) rest, rfl, ?_, hrest, hrest',
      hprevious⟩
    rw [remarkFrom_cons, hnew]

/-- What is no marker is read as before, whatever is replaced behind it. -/
theorem lexeme?_remark_behind {front : List Char} {tail : List Token} (hne : front ≠ [])
    (head : lexeme? previous (front ++ rest) = some (lexeme, front.length))
    (behind : scan position (some lexeme) 0 rest = .ok tail) (only : MarkersOnly marked tail)
    (spaced : Spaced (lexeme :: tail.map Token.lexeme)) :
    lexeme? previous (front ++ remarkFrom marked position rest) = some (lexeme, front.length) := by
  obtain ⟨follows, onward⟩ := List.isChain_cons.mp spaced
  have apart (detached : ∀ next ∈ (tail.map Token.lexeme).head?, ∃ d, next = .delimiter d) :
      lexeme? previous (front ++ remarkFrom marked position rest) =
        some (lexeme, front.length) := by
    obtain ⟨hrest, hrest'⟩ := boundary_remarkFrom behind only detached
    rw [lexeme?_congr_rest hne hrest hrest', head]
  cases tail with
  | nil => exact apart (by simp)
  | cons next more =>
    have hfollows : Follows lexeme next.lexeme := follows _ rfl
    generalize hnext : next.lexeme = kind at hfollows
    cases hfollows with
    | behindDelimiter d _ =>
      obtain ⟨hlength, _, htext⟩ := delimiter_of_lexeme? head
      obtain ⟨c, rfl⟩ := List.length_eq_one_iff.mp hlength
      cases htext
      exact lexeme?_delimiter d
    | beforeDelimiter _ d =>
      refine apart fun first hfirst => ⟨d, ?_⟩
      rw [← hnext]
      exact (Option.some.inj hfirst).symm
    | marked hindex =>
      have spacedBehind : Spaced (.hardenedMarker :: more.map Token.lexeme) := hnext ▸ onward
      obtain ⟨found, new, after, after', rfl, hreplaced, hafter, hafter', _⟩ :=
        marker_remarkFrom behind hnext only.tail spacedBehind
      rw [hreplaced]
      exact lexeme?_index hindex new hafter hafter' head

/-- The first lexeme is the same after all replacements, and as long as before. -/
theorem lexeme?_remarkFrom {tail : List Token}
    (h : scan position previous 0 text = .ok (⟨lexeme, position, position + length⟩ :: tail))
    (head : lexeme? previous text = some (lexeme, length))
    (behind : scan (position + length) (some lexeme) 0 (text.drop length) = .ok tail)
    (only : MarkersOnly marked (⟨lexeme, position, position + length⟩ :: tail))
    (spaced : Spaced (lexeme :: tail.map Token.lexeme)) :
    lexeme? previous (remarkFrom marked position text) = some (lexeme, length) := by
  by_cases hmarker : lexeme = .hardenedMarker
  · subst hmarker
    obtain ⟨_, new, _, _, _, hreplaced, _, hrest, index, rfl, hindex⟩ :=
      marker_remarkFrom h rfl only.tail spaced
    obtain ⟨rfl, _⟩ := hardenedMarker_of_lexeme? head
    rw [hreplaced]
    exact lexeme?_marker hindex new hrest
  · obtain ⟨hle, _⟩ := taken_of_lexeme? head
    obtain ⟨_, hpos⟩ := ruleOf_of_lexeme? head
    have hlength : (text.take length).length = length := List.length_take_of_le hle
    have unmarked : remarkFrom marked position (text.take length) = text.take length := by
      refine remarkFrom_of_unmarked fun i hi => ?_
      rw [hlength] at hi
      exact only _ List.mem_cons_self hmarker _ (Nat.le_add_right _ _) (Nat.add_lt_add_left hi _)
    have headRead : lexeme? previous (text.take length ++ text.drop length) =
        some (lexeme, (text.take length).length) := by
      rw [List.take_append_drop, hlength, head]
    have replaced := lexeme?_remark_behind (List.ne_nil_of_length_pos (by omega)) headRead behind
      only.tail spaced
    rw [remarkFrom_split hle, unmarked, replaced, hlength]

/-! ### Whole texts -/

/-- After all replacements the tokens are the same, at the same places. -/
theorem scan_remarkFrom (h : scan position previous 0 text = .ok tokens)
    (only : MarkersOnly marked tokens) (spaced : Spaced (tokens.map Token.lexeme)) :
    scan position previous 0 (remarkFrom marked position text) = .ok tokens := by
  induction tokens generalizing position previous text with
  | nil =>
    obtain ⟨rfl, _⟩ | ⟨_, _, _, _, _, heq⟩ := scan_eq_ok h
    · exact h
    · cases heq
  | cons token tail ih =>
    obtain ⟨_, heq⟩ | ⟨lexeme, length, _, head, behind, heq⟩ := scan_eq_ok h
    · cases heq
    · cases heq
      have headReads := lexeme?_remarkFrom h head behind only spaced
      have tailReads := ih behind only.tail (List.isChain_cons.mp spaced).2
      obtain ⟨hle, _⟩ := taken_of_lexeme? head
      have hdrop : (remarkFrom marked position text).drop length =
          remarkFrom marked (position + length) (text.drop length) := by
        rw [remarkFrom_split hle, List.drop_left' (by simp [remarkFrom, hle])]
      rw [scan_of_lexeme? position (text_ne_nil_of_lexeme? headReads) headReads, hdrop, tailReads]
      rfl

/-- No token begins inside of another one. -/
theorem eq_of_start_within (h : scan position previous 0 text = .ok tokens) :
    ∀ token ∈ tokens, ∀ other ∈ tokens, token.start ≤ other.start → other.start < token.stop →
      other = token := by
  induction tokens generalizing position previous text with
  | nil => simp
  | cons first tail ih =>
    obtain ⟨_, heq⟩ | ⟨lexeme, length, _, head, behind, heq⟩ := scan_eq_ok h
    · cases heq
    · cases heq
      obtain ⟨_, hpos⟩ := ruleOf_of_lexeme? head
      obtain ⟨beyond, _⟩ := ascending_of_scan behind
      intro token htoken other hother hstart hstop
      rcases List.mem_cons.mp htoken with rfl | htoken
      · rcases List.mem_cons.mp hother with rfl | hother
        · rfl
        · exact absurd hstop (Nat.not_lt.mpr (beyond other hother))
      · rcases List.mem_cons.mp hother with rfl | hother
        · have := beyond token htoken
          dsimp only at hstart
          omega
        · exact ih behind token htoken other hother hstart hstop

end Lexer

/-! ### Descriptors -/

section

variable {text : List Char} {tokens : List Token} {chosen : Token → Bool}

/-- Whether one of the chosen markers stands at a place. -/
def isChosen (tokens : List Token) (chosen : Token → Bool) (place : Nat) : Bool :=
  tokens.any fun token => token.lexeme == .hardenedMarker && chosen token && token.start == place

/-- The text with the other marker in place of each chosen one. -/
def remark (tokens : List Token) (chosen : Token → Bool) (text : List Char) : List Char :=
  text.mapIdx fun place c => if isChosen tokens chosen place then Lexer.otherMarker c else c

theorem remark_eq_remarkFrom :
    remark tokens chosen text = Lexer.remarkFrom (isChosen tokens chosen) 0 text := by
  simp [remark, Lexer.remarkFrom]

theorem markersOnly_isChosen (h : tokenize text = .ok tokens) :
    Lexer.MarkersOnly (isChosen tokens chosen) tokens := by
  intro token htoken hlexeme place hstart hstop
  rw [Bool.eq_false_iff]
  intro hchosen
  obtain ⟨marker, hmarker, fits⟩ := List.any_eq_true.mp hchosen
  simp only [Bool.and_eq_true, beq_iff_eq] at fits
  obtain ⟨⟨hkind, _⟩, rfl⟩ := fits
  rw [Lexer.eq_of_start_within h token htoken marker hmarker hstart hstop] at hkind
  exact hlexeme hkind

theorem tokenize_remark (h : tokenize text = .ok tokens) (spaced : Spaced (tokens.map Token.lexeme)) :
    tokenize (remark tokens chosen text) = .ok tokens := by
  rw [remark_eq_remarkFrom]
  exact Lexer.scan_remarkFrom h (markersOnly_isChosen h) spaced

theorem no_hash_remark (plain : '#' ∉ text) : '#' ∉ remark tokens chosen text := by
  intro hmem
  obtain ⟨place, hplace, hchar⟩ := List.mem_mapIdx.mp hmem
  split at hchar
  · obtain ⟨marker, hmarker⟩ := Lexer.exists_char_otherMarker text[place]
    rw [hmarker] at hchar
    cases marker <;> cases hchar
  · exact plain (hchar ▸ List.getElem_mem hplace)

theorem Checksum.verify_of_plain (plain : '#' ∉ text) : verify text = .ok text :=
  verify_of_no_hash fun _ hc hash => plain (hash ▸ hc)

namespace Descriptor

variable {node : Descriptor}

theorem spaced_of_ofTokens (h : ofTokens tokens = .ok node) : Spaced (tokens.map Token.lexeme) := by
  obtain ⟨lexemes, hderives, hconsumes⟩ := Parser.derives_of_parses
    (Parser.parses_descriptor.mp (ofTokens_eq_ok.mp h))
  rw [Consumes.iff_of_nil.mp hconsumes]
  exact hderives.spaced

/-- In a descriptor without a checksum any of the hardened markers may be replaced by the other one.
The text is split into the same tokens and read as the same descriptor, which then has the same
written form. -/
theorem parse_remark (reads : parse text = .ok node) (plain : '#' ∉ text) :
    ∃ tokens, tokenize text = .ok tokens ∧ ∀ chosen : Token → Bool,
      tokenize (remark tokens chosen text) = .ok tokens ∧
        parse (remark tokens chosen text) = .ok node := by
  obtain ⟨body, tokens, hbody, htokens, hnode⟩ := parse_eq_ok.mp reads
  obtain rfl : text = body := by
    rw [Checksum.verify_of_plain plain] at hbody
    exact Except.ok.inj hbody
  refine ⟨tokens, htokens, fun chosen => ?_⟩
  have same : tokenize (remark tokens chosen text) = .ok tokens :=
    tokenize_remark htokens (spaced_of_ofTokens hnode)
  have verified : Checksum.verify (remark tokens chosen text) = .ok _ :=
    Checksum.verify_of_plain (no_hash_remark plain)
  exact ⟨same, parse_eq_ok.mpr ⟨_, tokens, verified, same, hnode⟩⟩

/-- An extended key with its origin and a wildcard, and three markers. -/
def markersSample (first second last : Char) : List Char :=
  "wpkh([d34db33f/44".toList ++ first :: "/0".toList ++ second ::
    ("]xpub661MyMwAqRbcFtXgS5sYJABqqG9YLmC4Q1Rdap9gSE8NqtwybGhePY2gZ29ESFjqJoCu1Rupje8YtG" ++
      "qsefD265TMg7usUDFdp6W1EGMcet8/0/*").toList ++ [last, ')']

/-- The marker at the twentieth place is kept, and the others are replaced. -/
theorem parse_remark_markersSample :
    ∃ node, parse (markersSample 'h' '\'' 'h') = .ok node ∧
      parse (markersSample '\'' '\'' '\'') = .ok node := by
  let text := markersSample 'h' '\'' 'h'
  let chosen (token : Token) : Bool := token.start != 20
  have plain : '#' ∉ text := by decide +kernel
  have runs : (tokenize text).toOption.map (fun tokens =>
      (remark tokens chosen text, (ofTokens tokens).toOption.isSome)) =
        some (markersSample '\'' '\'' '\'', true) := by decide +kernel
  obtain ⟨tokens, htokens, hfacts⟩ := exists_ok_of_toOption_map runs
  obtain ⟨replaced, accepted⟩ := Prod.mk.inj hfacts
  cases hnode : ofTokens tokens with
  | error => simp [hnode, Except.toOption] at accepted
  | ok node =>
    have reads : parse text = .ok node :=
      parse_eq_ok.mpr ⟨text, tokens, Checksum.verify_of_plain plain, htokens, hnode⟩
    obtain ⟨_, htokens', same⟩ := parse_remark reads plain
    obtain rfl := Except.ok.inj (htokens.symm.trans htokens')
    obtain ⟨_, hparse⟩ := same chosen
    exact ⟨node, reads, replaced ▸ hparse⟩

end Descriptor

end

end OutputDescriptor
