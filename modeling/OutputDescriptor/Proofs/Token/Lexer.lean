import Mathlib.Data.List.TakeWhile
import OutputDescriptor.Token.Lexer

/-!
Tokenizing as a relation between texts and lexemes.

`Lexed` forgets positions and says which lexemes a text is read as, one after the other, each by the
first rule that fits where the one before ended. The tokenizer succeeds exactly on the texts that are
related to something. What is known of a lexeme is known from the one rule that reads its kind.
-/

namespace OutputDescriptor

namespace Lexer

variable {previous : Option Lexeme} {text : List Char} {lexeme : Lexeme} {length : Nat}

/-- The rule that reads lexemes of a kind. -/
def ruleOf (previous : Option Lexeme) : Lexeme → Rule
  | .delimiter _ => delimiter
  | .keyword _ => keyword
  | .address _ => address
  | .wif _ => wif
  | .extendedKey _ => extendedKey
  | .hex _ => hex
  | .integer _ => integer
  | .hardenedMarker => hardenedMarker previous

theorem delimiter_eq_some (h : delimiter text = some (lexeme, length)) :
    length = 1 ∧ ∃ d, lexeme = .delimiter d ∧ text.head?.bind Delimiter.ofChar? = some d := by
  cases text with
  | nil => cases h
  | cons c text =>
    obtain ⟨d, hd, heq⟩ := Option.map_eq_some_iff.mp h
    cases heq
    exact ⟨rfl, d, rfl, hd⟩

theorem hardenedMarker_eq_some (h : hardenedMarker previous text = some (lexeme, length)) :
    length = 1 ∧ lexeme = .hardenedMarker ∧ (∃ c rest, text = c :: rest ∧ (c = 'h' ∨ c = '\'')) ∧
      ∃ index, previous = some index ∧ index.isIndex = true := by
  cases text with
  | nil => cases h
  | cons c rest =>
    simp only [hardenedMarker] at h
    split at h <;> cases h
    next fits =>
    simp only [Bool.and_eq_true, Bool.or_eq_true, beq_iff_eq, Option.any_eq_true] at fits
    exact ⟨rfl, rfl, ⟨c, rest, rfl, fits.1⟩, fits.2⟩

/-- Each rule reads lexemes of one kind, at least one character of them. -/
theorem ruleOf_of_mem_rules {rule : Rule} (hrule : rule ∈ rules previous)
    (h : rule text = some (lexeme, length)) : ruleOf previous lexeme = rule ∧ 0 < length := by
  simp only [rules, List.mem_cons, List.not_mem_nil, or_false] at hrule
  rcases hrule with rfl | rfl | rfl | rfl | rfl | rfl | rfl | rfl
  · obtain ⟨rfl, d, rfl, _⟩ := delimiter_eq_some h
    exact ⟨rfl, by decide⟩
  · obtain ⟨hread, _, hpos⟩ := onRun_eq_some h
    obtain ⟨_, _, rfl⟩ := Option.map_eq_some_iff.mp hread
    exact ⟨rfl, hpos⟩
  · obtain ⟨hread, _, hpos⟩ := onRun_eq_some h
    obtain ⟨_, _, rfl⟩ := Option.map_eq_some_iff.mp hread
    exact ⟨rfl, hpos⟩
  · obtain ⟨hread, _, hpos⟩ := onRun_eq_some h
    obtain ⟨_, _, rfl⟩ := Option.map_eq_some_iff.mp hread
    exact ⟨rfl, hpos⟩
  · obtain ⟨hread, _, hpos⟩ := onRun_eq_some h
    obtain ⟨_, _, rfl⟩ := Option.map_eq_some_iff.mp hread
    exact ⟨rfl, hpos⟩
  · obtain ⟨hread, _, hpos⟩ := onRun_eq_some h
    split at hread <;> cases hread
    exact ⟨rfl, hpos⟩
  · obtain ⟨hread, _, hpos⟩ := onRun_eq_some h
    dsimp only at hread
    split at hread <;> cases hread
    exact ⟨rfl, hpos⟩
  · obtain ⟨rfl, rfl, _⟩ := hardenedMarker_eq_some h
    exact ⟨rfl, by decide⟩

theorem ruleOf_of_lexeme? (h : lexeme? previous text = some (lexeme, length)) :
    ruleOf previous lexeme text = some (lexeme, length) ∧ 0 < length := by
  obtain ⟨rule, hrule, h⟩ := List.exists_of_findSome?_eq_some h
  obtain ⟨rfl, hpos⟩ := ruleOf_of_mem_rules hrule h
  exact ⟨h, hpos⟩

theorem onRun_map_ne {α : Type} {inClass : Char → Bool} {read? : List Char → Option α}
    {make : α → Lexeme} (h : ∀ found, make found ≠ lexeme) :
    onRun inClass (fun run => (read? run).map make) text ≠ some (lexeme, length) := by
  intro hfits
  obtain ⟨hread, _, _⟩ := onRun_eq_some hfits
  obtain ⟨found, _, heq⟩ := Option.map_eq_some_iff.mp hread
  exact h found heq

theorem take_of_onRun {inClass : Char → Bool} {read? : List Char → Option Lexeme}
    (h : onRun inClass read? text = some (lexeme, length)) :
    text.take length = text.takeWhile inClass ∧ text.takeWhile inClass ≠ [] := by
  obtain ⟨_, rfl, hpos⟩ := onRun_eq_some h
  exact ⟨(List.prefix_iff_eq_take.mp (List.takeWhile_prefix inClass)).symm,
    List.length_pos_iff.mp hpos⟩

/-- Rules that come before the one that reads the lexeme do not fit. -/
theorem eq_none_of_lexeme? {front back : List Rule} (split : rules previous = front ++ back)
    (h : lexeme? previous text = some (lexeme, length))
    (others : ∀ rule ∈ front, rule text ≠ some (lexeme, length)) :
    ∀ rule ∈ front, rule text = none := by
  rw [lexeme?, split, List.findSome?_append] at h
  rcases Option.or_eq_some_iff.mp h with h | ⟨h, _⟩
  · obtain ⟨rule, hrule, hfits⟩ := List.exists_of_findSome?_eq_some h
    exact absurd hfits (others rule hrule)
  · exact List.findSome?_eq_none_iff.mp h

theorem delimiter_of_lexeme? {d : Delimiter}
    (h : lexeme? previous text = some (.delimiter d, length)) :
    length = 1 ∧ ∃ rest, text = d.char :: rest := by
  obtain ⟨hrule, _⟩ := ruleOf_of_lexeme? h
  obtain ⟨hlength, _, heq, hhead⟩ := delimiter_eq_some hrule
  cases heq
  cases text with
  | nil => cases hhead
  | cons c rest =>
    have hchar : d.char = c := by simpa using List.find?_some hhead
    exact ⟨hlength, rest, by rw [hchar]⟩

theorem hardenedMarker_of_lexeme?
    (h : lexeme? previous text = some (.hardenedMarker, length)) :
    length = 1 ∧ (∃ c rest, text = c :: rest ∧ (c = 'h' ∨ c = '\'')) ∧
      ∃ index, previous = some index ∧ index.isIndex = true := by
  obtain ⟨hrule, _⟩ := ruleOf_of_lexeme? h
  obtain ⟨hlength, _, htext, hprevious⟩ := hardenedMarker_eq_some hrule
  exact ⟨hlength, htext, hprevious⟩

theorem hex_of_lexeme? {digits : List Char}
    (h : lexeme? previous text = some (.hex digits, length)) :
    2 ≤ digits.length ∧ ∀ c ∈ digits, isHexDigit c = true := by
  obtain ⟨h, _⟩ := ruleOf_of_lexeme? h
  change hex text = _ at h
  obtain ⟨hread, _, _⟩ := onRun_eq_some h
  split at hread <;> cases hread
  exact ⟨by assumption, fun c hc => List.mem_takeWhile_imp hc⟩

theorem address_of_lexeme? {found : Address}
    (h : lexeme? previous text = some (.address found, length)) :
    Address.parse? (text.takeWhile Char.isAlphanum) = some found := by
  obtain ⟨h, _⟩ := ruleOf_of_lexeme? h
  change address text = _ at h
  obtain ⟨hread, _, _⟩ := onRun_eq_some h
  obtain ⟨_, hparse, heq⟩ := Option.map_eq_some_iff.mp hread
  cases heq
  exact hparse

theorem extendedKey_of_lexeme? {found : ExtendedKey}
    (h : lexeme? previous text = some (.extendedKey found, length)) :
    ExtendedKey.parse? (text.takeWhile isBase58) = some found := by
  obtain ⟨h, _⟩ := ruleOf_of_lexeme? h
  change extendedKey text = _ at h
  obtain ⟨hread, _, _⟩ := onRun_eq_some h
  obtain ⟨_, hparse, heq⟩ := Option.map_eq_some_iff.mp hread
  cases heq
  exact hparse

/-! ### Whole texts -/

/-- The lexemes that a text is read as behind another one. -/
inductive Lexed : Option Lexeme → List Char → List Lexeme → Prop
  | nil {previous : Option Lexeme} : Lexed previous [] []
  | cons {previous : Option Lexeme} {text : List Char} {lexeme : Lexeme} {length : Nat}
    {lexemes : List Lexeme} (head : lexeme? previous text = some (lexeme, length))
    (tail : Lexed (some lexeme) (text.drop length) lexemes) :
    Lexed previous text (lexeme :: lexemes)

theorem lexed_cons_iff {lexemes : List Lexeme} :
    Lexed previous text (lexeme :: lexemes) ↔
      ∃ length, lexeme? previous text = some (lexeme, length) ∧
        Lexed (some lexeme) (text.drop length) lexemes := by
  constructor
  · rintro (_ | ⟨head, tail⟩)
    exact ⟨_, head, tail⟩
  · rintro ⟨_, head, tail⟩
    exact .cons head tail

theorem lexed_nil_iff : Lexed previous text [] ↔ text = [] := by
  constructor
  · intro h
    cases h
    rfl
  · rintro rfl
    exact .nil

/-- The first lexeme settles what a text is read as up to there. -/
theorem lexed_iff_of_lexeme? {lexemes : List Lexeme}
    (h : lexeme? previous text = some (lexeme, length)) :
    Lexed previous text lexemes ↔
      ∃ tail, lexemes = lexeme :: tail ∧ Lexed (some lexeme) (text.drop length) tail := by
  constructor
  · rintro (_ | ⟨head, tail⟩)
    · cases h
    · rw [h] at head
      cases head
      exact ⟨_, rfl, tail⟩
  · rintro ⟨tail, rfl, htail⟩
    exact .cons h htail

theorem Lexed.unique {lexemes lexemes' : List Lexeme} (h : Lexed previous text lexemes)
    (h' : Lexed previous text lexemes') : lexemes = lexemes' := by
  induction h generalizing lexemes' with
  | nil =>
    cases h' with
    | nil => rfl
    | cons head _ => cases head
  | cons head _ ih =>
    obtain ⟨tail, rfl, htail⟩ := (lexed_iff_of_lexeme? head).mp h'
    rw [ih htail]

theorem scan_skip (position : Nat) (previous : Option Lexeme) (skip : Nat) (text : List Char) :
    scan position previous skip text = scan position previous 0 (text.drop skip) := by
  induction skip generalizing text with
  | zero => simp
  | succ skip ih =>
    cases text with
    | nil => simp [scan]
    | cons c text =>
      rw [List.drop_succ_cons, ← ih]
      simp [scan]

theorem scan_of_lexeme? (position : Nat) (hne : text ≠ [])
    (h : lexeme? previous text = some (lexeme, length)) :
    scan position previous 0 text =
      (scan (position + length) (some lexeme) 0 (text.drop length)).bind fun tokens =>
        .ok (⟨lexeme, position, position + length⟩ :: tokens) := by
  cases text with
  | nil => exact absurd rfl hne
  | cons c text =>
    obtain ⟨_, hpos⟩ := ruleOf_of_lexeme? h
    obtain ⟨n, rfl⟩ := Nat.exists_eq_add_of_le' hpos
    rw [scan, h]
    dsimp only
    rw [Nat.add_sub_cancel, scan_skip, List.drop_succ_cons]
    rfl

theorem text_ne_nil_of_lexeme? (h : lexeme? previous text = some (lexeme, length)) : text ≠ [] := by
  rintro rfl
  have none : lexeme? previous [] = none := rfl
  rw [none] at h
  cases h

/-- A text that is read as lexemes is tokenized to them. -/
theorem Lexed.scan (position : Nat) {lexemes : List Lexeme} (h : Lexed previous text lexemes) :
    ∃ tokens, Lexer.scan position previous 0 text = .ok tokens ∧
      tokens.map Token.lexeme = lexemes := by
  induction h generalizing position with
  | nil => exact ⟨[], rfl, rfl⟩
  | @cons previous text lexeme length lexemes head tail ih =>
    obtain ⟨tokens, htokens, rfl⟩ := ih (position + length)
    refine ⟨⟨lexeme, position, position + length⟩ :: tokens, ?_, rfl⟩
    rw [scan_of_lexeme? position (text_ne_nil_of_lexeme? head) head, htokens]
    rfl

/-- The first token is read off the front of the text, and the others are those of the rest. -/
theorem scan_eq_ok {position : Nat} {tokens : List Token}
    (h : scan position previous 0 text = .ok tokens) :
    (text = [] ∧ tokens = []) ∨ ∃ lexeme length tail,
      lexeme? previous text = some (lexeme, length) ∧
      scan (position + length) (some lexeme) 0 (text.drop length) = .ok tail ∧
      tokens = ⟨lexeme, position, position + length⟩ :: tail := by
  cases text with
  | nil =>
    cases h
    exact .inl ⟨rfl, rfl⟩
  | cons c text =>
    cases hl : lexeme? previous (c :: text) with
    | none =>
      rw [scan, hl] at h
      cases h
    | some found =>
      obtain ⟨lexeme, length⟩ := found
      rw [scan_of_lexeme? position (by simp) hl] at h
      cases htail : scan (position + length) (some lexeme) 0 ((c :: text).drop length) with
      | error _ =>
        rw [htail] at h
        cases h
      | ok tail =>
        rw [htail] at h
        cases h
        exact .inr ⟨lexeme, length, tail, rfl, htail, rfl⟩

/-- The tokens of a text are lexemes that it is read as. -/
theorem lexed_of_scan {position : Nat} {tokens : List Token}
    (h : scan position previous 0 text = .ok tokens) :
    Lexed previous text (tokens.map Token.lexeme) := by
  induction tokens generalizing position previous text with
  | nil =>
    obtain ⟨rfl, _⟩ | ⟨_, _, _, _, _, hcons⟩ := scan_eq_ok h
    · exact .nil
    · cases hcons
  | cons token tokens ih =>
    obtain ⟨_, hcons⟩ | ⟨lexeme, length, tail, hl, htail, hcons⟩ := scan_eq_ok h
    · cases hcons
    · cases hcons
      exact .cons hl (ih htail)

/-- Each token begins where the one before it ends, and none is empty. -/
theorem ascending_of_scan {position : Nat} {tokens : List Token}
    (h : scan position previous 0 text = .ok tokens) :
    (∀ token ∈ tokens, position ≤ token.start) ∧
      tokens.Pairwise fun before after => before.start < after.start := by
  induction tokens generalizing position previous text with
  | nil => exact ⟨by simp, .nil⟩
  | cons token tokens ih =>
    obtain ⟨_, hcons⟩ | ⟨lexeme, length, tail, hl, htail, hcons⟩ := scan_eq_ok h
    · cases hcons
    · cases hcons
      obtain ⟨_, hpos⟩ := ruleOf_of_lexeme? hl
      obtain ⟨beyond, ascending⟩ := ih htail
      have further : ∀ other ∈ tokens, position < other.start := fun other hother =>
        Nat.lt_of_lt_of_le (Nat.lt_add_of_pos_right hpos) (beyond other hother)
      refine ⟨fun other hother => ?_, List.pairwise_cons.mpr ⟨further, ascending⟩⟩
      rcases List.mem_cons.mp hother with rfl | hother
      · exact Nat.le_refl _
      · exact Nat.le_of_lt (further other hother)

end Lexer

theorem tokenize_of_lexed {text : List Char} {lexemes : List Lexeme}
    (h : Lexer.Lexed none text lexemes) :
    ∃ tokens, tokenize text = .ok tokens ∧ tokens.map Token.lexeme = lexemes :=
  h.scan 0

theorem lexed_of_tokenize {text : List Char} {tokens : List Token}
    (h : tokenize text = .ok tokens) : Lexer.Lexed none text (tokens.map Token.lexeme) :=
  Lexer.lexed_of_scan h

/-- Of two tokens of a text the later one begins further on. -/
def Ascending (tokens : List Token) : Prop :=
  tokens.Pairwise fun before after => before.start < after.start

theorem ascending_of_tokenize {text : List Char} {tokens : List Token}
    (h : tokenize text = .ok tokens) : Ascending tokens :=
  (Lexer.ascending_of_scan h).2

/-- The lexemes that occur in texts. -/
def Lexeme.Occurs (lexeme : Lexeme) : Prop :=
  ∃ previous text length, Lexer.lexeme? previous text = some (lexeme, length)

theorem Lexer.Lexed.occurs {previous : Option Lexeme} {text : List Char} {lexemes : List Lexeme}
    (h : Lexed previous text lexemes) : ∀ lexeme ∈ lexemes, lexeme.Occurs := by
  induction h with
  | nil => simp
  | cons head tail ih =>
    intro lexeme hmem
    rcases List.mem_cons.mp hmem with rfl | hmem
    · exact ⟨_, _, _, head⟩
    · exact ih lexeme hmem

theorem Lexeme.occurs_of_tokenize {text : List Char} {tokens : List Token}
    (h : tokenize text = .ok tokens) : ∀ token ∈ tokens, token.lexeme.Occurs := by
  intro token htoken
  exact (lexed_of_tokenize h).occurs _ (List.mem_map_of_mem htoken)

end OutputDescriptor
