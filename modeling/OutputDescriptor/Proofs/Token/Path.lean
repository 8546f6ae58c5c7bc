import OutputDescriptor.Proofs.Derivation.Spelling
import OutputDescriptor.Proofs.Grammar.Key
import OutputDescriptor.Proofs.Token.Literals

/-!
Texts of paths and the lexemes of paths.

Both are described by a relation to the steps they stand for. A text of steps is read as lexemes of
the same steps, unless it marks a step by a capital, which is no marker inside a descriptor. And a
text whose lexemes begin with those of steps begins with a text of the same steps: digits are taken
as a whole, and a marker is bound to the index in front of it. The same holds of origins in brackets.
-/

namespace OutputDescriptor

open Lexer Grammar

theorem Grammar.numeral_digitsLexeme {digits : List Char} (h : isNumeral digits = true) :
    Numeral (digitsLexeme digits) (Nat.ofDigitChars 10 digits 0) := by
  unfold digitsLexeme
  by_cases htwo : 2 ≤ digits.length
  · rw [if_pos htwo]
    exact .digits fun c hc => StepIndex.isDigit_of_isNumeral h hc
  · rw [if_neg htwo]
    exact .integer _

/-! ### From texts to lexemes -/

/-- An index is read alone, and in front of a marker. -/
theorem StepIndex.Spells.reads {text : List Char} {index : StepIndex} (h : index.Spells text) :
    ∃ lexeme, IndexOf lexeme index ∧ Reads text [lexeme] ∧
      ∀ marker : HardenedMarker, Reads (text ++ [marker.char]) [lexeme, .hardenedMarker] := by
  cases h with
  | wildcard =>
    exact ⟨_, .wildcard, reads_nil.delimiter_cons .asterisk, reads_marked_wildcard⟩
  | concrete numeral lt =>
    exact ⟨_, .concrete (numeral_digitsLexeme numeral) lt, reads_digits numeral lt,
      reads_marked_digits numeral lt⟩

theorem Step.exists_marker {c : Char} (marks : isMarker c = true) (noCapital : c ≠ 'H') :
    ∃ marker : HardenedMarker, marker.char = c := by
  simp only [isMarker, Bool.or_eq_true, beq_iff_eq] at marks
  obtain (rfl | rfl) | rfl := marks
  · exact ⟨.letter, rfl⟩
  · exact absurd rfl noCapital
  · exact ⟨.apostrophe, rfl⟩

theorem Step.Spells.reads {text : List Char} {step : Step} (h : Spells text step)
    (noCapital : 'H' ∉ text) : ∃ lexemes, StepOf lexemes step ∧ Reads ('/' :: text) lexemes := by
  cases h with
  | normal hindex =>
    obtain ⟨lexeme, hlexeme, hreads, _⟩ := hindex.reads
    exact ⟨_, .normal hlexeme, hreads.delimiter_cons .slash⟩
  | @hardened text index hindex c marks =>
    have small : c ≠ 'H' := by
      intro h
      exact noCapital (by simp [h])
    obtain ⟨marker, rfl⟩ := exists_marker marks small
    obtain ⟨lexeme, hlexeme, _, hreads⟩ := hindex.reads
    exact ⟨_, .hardened hlexeme, (hreads marker).delimiter_cons .slash⟩

theorem Step.SpellsAll.boundary {text : List Char} {steps : List Step} (h : SpellsAll text steps) :
    Boundary text := by
  cases h with
  | nil => exact boundary_nil
  | cons _ _ => exact boundary_char .slash

theorem Step.SpellsAll.reads {text : List Char} {steps : List Step} (h : SpellsAll text steps) :
    'H' ∉ text → ∃ lexemes, StepsOf lexemes steps ∧ Reads text lexemes := by
  induction h with
  | nil => exact fun _ => ⟨[], .nil, reads_nil⟩
  | cons head tail ih =>
    intro noCapital
    simp only [List.cons_append, List.mem_cons, List.mem_append, not_or] at noCapital
    obtain ⟨a, ha, hreads⟩ := head.reads noCapital.2.1
    obtain ⟨b, hb, hreads'⟩ := ih noCapital.2.2
    exact ⟨a ++ b, .cons ha hb, hreads.append hreads' tail.boundary⟩

/-! ### From lexemes to texts -/

namespace Lexer

variable {previous : Option Lexeme} {text : List Char} {lexeme : Lexeme} {length : Nat}

theorem take_of_hex {digits : List Char} (h : lexeme? previous text = some (.hex digits, length)) :
    text.take length = digits := by
  obtain ⟨hrule, _⟩ := ruleOf_of_lexeme? h
  change hex text = _ at hrule
  obtain ⟨hread, _, _⟩ := onRun_eq_some hrule
  split at hread <;> cases hread
  exact (take_of_onRun hrule).1

theorem marker_of_lexeme? (h : lexeme? previous text = some (.hardenedMarker, length)) :
    length = 1 ∧ ∃ marker rest, text = marker :: rest ∧ Step.isMarker marker = true := by
  obtain ⟨hlength, ⟨marker, rest, htext, hmarker⟩, _⟩ := hardenedMarker_of_lexeme? h
  refine ⟨hlength, marker, rest, htext, ?_⟩
  obtain rfl | rfl := hmarker <;> decide

theorem spells_of_lexeme? {index : StepIndex} (hindex : IndexOf lexeme index)
    (h : lexeme? previous text = some (lexeme, length)) : index.Spells (text.take length) := by
  cases hindex with
  | wildcard =>
    obtain ⟨rfl, rest, rfl⟩ := delimiter_of_lexeme? h
    exact .wildcard
  | @concrete _ n numeral lt =>
    cases numeral with
    | integer =>
      have hrule : integer text = some (.integer n, length) := (ruleOf_of_lexeme? h).1
      obtain ⟨htake, hne⟩ := take_of_onRun hrule
      obtain ⟨hread, _, _⟩ := onRun_eq_some hrule
      dsimp only at hread
      split at hread <;> cases hread
      rw [htake]
      refine .concrete ?_ lt
      simp [isNumeral, hne]
    | @digits ds decimal =>
      obtain ⟨htwo, _⟩ := hex_of_lexeme? h
      have hne : ds ≠ [] := List.length_pos_iff.mp (by omega)
      rw [take_of_hex h]
      refine .concrete ?_ lt
      simpa [isNumeral, hne] using decimal

/-- The lexemes of a step are read off a text of that step. -/
theorem Lexed.spells_of_stepOf {a b : List Lexeme} {step : Step} (hstep : StepOf a step)
    (h : Lexed previous text (a ++ b)) :
    ∃ front rest previous', text = '/' :: front ++ rest ∧ Step.Spells front step ∧
      Lexed previous' rest b := by
  cases hstep with
  | @normal lexeme index hindex =>
    obtain ⟨_, hslash, h⟩ := lexed_cons_iff.mp h
    obtain ⟨rfl, tail, rfl⟩ := delimiter_of_lexeme? hslash
    obtain ⟨length, hlexeme, h⟩ := lexed_cons_iff.mp h
    change lexeme? _ tail = _ at hlexeme
    refine ⟨tail.take length, tail.drop length, _, ?_, ?_, h⟩
    · rw [List.cons_append, List.take_append_drop]
      rfl
    · exact .normal (spells_of_lexeme? hindex hlexeme)
  | @hardened lexeme index hindex =>
    obtain ⟨_, hslash, h⟩ := lexed_cons_iff.mp h
    obtain ⟨rfl, tail, rfl⟩ := delimiter_of_lexeme? hslash
    obtain ⟨length, hlexeme, h⟩ := lexed_cons_iff.mp h
    obtain ⟨_, hmarker, h⟩ := lexed_cons_iff.mp h
    change lexeme? _ tail = _ at hlexeme
    obtain ⟨rfl, marker, rest, hrest, marks⟩ := marker_of_lexeme? hmarker
    change tail.drop length = _ at hrest
    change Lexed _ ((tail.drop length).drop 1) b at h
    rw [hrest] at h
    refine ⟨tail.take length ++ [marker], rest, _, ?_, ?_, h⟩
    · rw [List.cons_append, List.append_assoc, List.singleton_append, ← hrest,
        List.take_append_drop]
      rfl
    · exact .hardened (spells_of_lexeme? hindex hlexeme) marks

theorem Lexed.spells_of_stepsOf {a b : List Lexeme} {steps : List Step} (hsteps : StepsOf a steps) :
    ∀ {previous text}, Lexed previous text (a ++ b) →
      ∃ front rest previous', text = front ++ rest ∧ Step.SpellsAll front steps ∧
        Lexed previous' rest b := by
  induction hsteps with
  | nil =>
    intro previous text h
    exact ⟨[], text, previous, rfl, .nil, h⟩
  | cons head tail ih =>
    intro previous text h
    rw [List.append_assoc] at h
    obtain ⟨front, rest, _, rfl, hstep, h⟩ := h.spells_of_stepOf head
    obtain ⟨front', rest', previous', rfl, hsteps, h⟩ := ih h
    exact ⟨_, rest', previous', by simp, .cons hstep hsteps, h⟩

/-- The texts that are read as lexemes of steps are those of the same steps. -/
theorem exists_lexed_stepsOf_iff {steps : List Step} (noCapital : 'H' ∉ text) :
    (∃ lexemes, Lexed previous text lexemes ∧ StepsOf lexemes steps) ↔
      Step.SpellsAll text steps := by
  constructor
  · intro ⟨lexemes, h, hsteps⟩
    rw [← List.append_nil lexemes] at h
    obtain ⟨front, rest, _, rfl, spells, hrest⟩ := Lexed.spells_of_stepsOf hsteps h
    rw [lexed_nil_iff.mp hrest, List.append_nil]
    exact spells
  · intro spells
    obtain ⟨lexemes, hsteps, hreads⟩ := spells.reads noCapital
    exact ⟨lexemes, hreads.readsAs previous, hsteps⟩

end Lexer

/-! ### Origins -/

/-- A path that starts at a fingerprint is read as lexemes of an origin up to the bracket. -/
theorem Grammar.exists_originOf_of_parse {text : List Char} {path : Path}
    (h : Path.parse text = .ok path) (named : path.origin.fingerprint?.isSome = true)
    (noCapital : 'H' ∉ text) :
    ∃ lexemes, OriginOf (.delimiter .openBracket :: lexemes ++ [.delimiter .closeBracket]) path ∧
      Reads text lexemes := by
  obtain ⟨front, back, rfl, horigin, hsteps⟩ := Path.parse_eq_ok_iff.mp h
  obtain ⟨origin, steps, last, concrete⟩ := path
  cases origin with
  | unnamed => cases named
  | master => cases named
  | fingerprint fp =>
    have hhex := Origin.parse_eq_fingerprint_iff.mp horigin
    have hdigits : ∀ c ∈ front, isHexDigit c = true := Bytes.isSome_hexValue?_of_ofHex? hhex
    obtain ⟨heven, hspells⟩ := ofHex?_eq_some hhex
    have eight : front.length = 8 := by
      have hhalf := length_bytesOf front
      rw [hspells, fp.property] at hhalf
      omega
    simp only [List.mem_append, not_or] at noCapital
    obtain ⟨lexemes, hlexemes, hreads⟩ := hsteps.reads noCapital.2
    refine ⟨_, .mk eight hspells hlexemes (concrete rfl), ?_⟩
    exact (reads_hex_of_few (by omega) (by omega) hdigits).append hreads hsteps.boundary

/-- The lexemes of an origin are read off a path that starts at its fingerprint. -/
theorem Grammar.parse_of_originOf {previous : Option Lexeme} {text : List Char} {a b : List Lexeme}
    {path : Path} (h : OriginOf a path) (hlexed : Lexed previous text (a ++ b)) :
    ∃ front rest previous', text = '[' :: front ++ ']' :: rest ∧ Path.parse front = .ok path ∧
      path.origin.fingerprint?.isSome = true ∧ Lexed previous' rest b := by
  cases h with
  | @mk digits fp lexemes steps eight spells hsteps concrete =>
    obtain ⟨_, hopening, hlexed⟩ := lexed_cons_iff.mp hlexed
    obtain ⟨rfl, inside, rfl⟩ := delimiter_of_lexeme? hopening
    obtain ⟨length, hhex, hlexed⟩ := lexed_cons_iff.mp hlexed
    change lexeme? _ inside = _ at hhex
    change Lexed _ (inside.drop length) (lexemes ++ [.delimiter .closeBracket] ++ b) at hlexed
    rw [List.append_assoc] at hlexed
    obtain ⟨back, rest, _, hback, hspelled, hlexed⟩ := hlexed.spells_of_stepsOf hsteps
    obtain ⟨_, hclosing, hlexed⟩ := lexed_cons_iff.mp hlexed
    obtain ⟨rfl, behind, rfl⟩ := delimiter_of_lexeme? hclosing
    have hfingerprint : Bytes.ofHex? digits = some fp.val := by
      rw [ofHex?_of_even (by omega) (hex_of_lexeme? hhex).2, spells]
    refine ⟨digits ++ back, behind, _, ?_, ?_, rfl, hlexed⟩
    · have hinside := List.take_append_drop length inside
      rw [take_of_hex hhex, hback] at hinside
      rw [← hinside]
      simp [Delimiter.char]
    · exact Path.parse_eq_ok_iff.mpr
        ⟨digits, back, rfl, Origin.parse_eq_fingerprint_iff.mpr hfingerprint, hspelled⟩

/-! ### Delimiters -/

namespace Lexer

variable {previous : Option Lexeme} {text : List Char} {lexeme : Lexeme} {length : Nat}

/-- No rule but the one for delimiters takes a delimiter. -/
theorem eq_delimiter_of_mem {d : Delimiter} (h : lexeme? previous text = some (lexeme, length))
    (hd : d.char ∈ text.take length) : lexeme = .delimiter d := by
  rcases (taken_of_lexeme? h).2 with halnum | ⟨found, rfl, htake⟩ | ⟨rfl, c, htake, hc⟩
  · exact absurd (halnum _ hd) (by cases d <;> decide)
  · rw [htake, List.mem_singleton] at hd
    have hfound := Delimiter.ofChar?_char found
    rw [← hd, Delimiter.ofChar?_char] at hfound
    rw [Option.some.inj hfound]
  · rw [htake, List.mem_singleton] at hd
    rw [← hd] at hc
    exact absurd hc (by cases d <;> decide)

/-- Every delimiter in a text is among its lexemes. -/
theorem Lexed.mem_of_delimiter {d : Delimiter} {lexemes : List Lexeme}
    (h : Lexed previous text lexemes) (hd : d.char ∈ text) : .delimiter d ∈ lexemes := by
  induction h with
  | nil => cases hd
  | @cons previous text lexeme length lexemes head tail ih =>
    rw [← List.take_append_drop length text] at hd
    obtain hfront | hback := List.mem_append.mp hd
    · rw [eq_delimiter_of_mem head hfront]
      exact List.mem_cons_self
    · exact List.mem_cons_of_mem _ (ih hback)

end Lexer

end OutputDescriptor
