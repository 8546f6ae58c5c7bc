import OutputDescriptor.Proofs.Key.Text
import OutputDescriptor.Proofs.Token.Lexer

/-!
Texts put together from pieces are tokenized piece by piece.

Every rule but the one for delimiters takes letters and digits, or a single marker. So whatever
consists of letters and digits is read alone as it is read in front of anything else, and a text is
read as the lexemes of its pieces as long as no two such pieces meet. Only an index and the letter
that marks it do meet: there the digits end because that letter is no digit.
-/

namespace OutputDescriptor.Lexer

variable {previous : Option Lexeme} {text rest : List Char} {lexeme : Lexeme}

/-- No run of letters and digits goes on into this text. -/
def Boundary (rest : List Char) : Prop :=
  ∀ c ∈ rest.head?, c.isAlphanum = false

theorem boundary_nil : Boundary [] := by
  simp [Boundary]

theorem boundary_cons {c : Char} (h : c.isAlphanum = false) : Boundary (c :: rest) := by
  simpa [Boundary] using h

theorem Boundary.append {a b : List Char} (ha : Boundary a) (hb : Boundary b) :
    Boundary (a ++ b) := by
  cases a with
  | nil => exact hb
  | cons c a => exact ha

theorem boundary_char (d : Delimiter) : Boundary (d.char :: rest) := by
  refine boundary_cons ?_
  cases d <;> decide

/-! ### Classes of characters -/

theorem isAlphanum_of_isLower {c : Char} (h : c.isLower = true) : c.isAlphanum = true := by
  show ((c.isUpper || c.isLower) || c.isDigit) = true
  rw [h, Bool.or_true, Bool.true_or]

theorem isAlphanum_of_isUpper {c : Char} (h : c.isUpper = true) : c.isAlphanum = true := by
  show ((c.isUpper || c.isLower) || c.isDigit) = true
  rw [h, Bool.true_or, Bool.true_or]

theorem isAlphanum_of_isDigit {c : Char} (h : c.isDigit = true) : c.isAlphanum = true := by
  simp [Char.isAlphanum, h]

theorem isAlphanum_of_isHexDigit {c : Char} (h : isHexDigit c = true) : c.isAlphanum = true := by
  unfold isHexDigit Bytes.hexValue? at h
  split at h
  · exact isAlphanum_of_isDigit (by assumption)
  · split at h
    · next bounds =>
      have below : c.val ≤ 'z'.val := UInt32.le_trans bounds.2 (by decide)
      exact isAlphanum_of_isLower
        (Bool.and_eq_true_iff.mpr ⟨decide_eq_true bounds.1, decide_eq_true below⟩)
    · split at h
      · next bounds =>
        have below : c.val ≤ 'Z'.val := UInt32.le_trans bounds.2 (by decide)
        exact isAlphanum_of_isUpper (decide_eq_true ⟨bounds.1, below⟩)
      · simp at h

theorem isAlphanum_of_isBase58 {c : Char} (h : isBase58 c = true) : c.isAlphanum = true :=
  Base58.isAlphanum_of_digit? h

theorem isHexDigit_of_isDigit {c : Char} (h : c.isDigit = true) : isHexDigit c = true := by
  simp [isHexDigit, Bytes.hexValue?, h]

/-! ### Runs -/

theorem takeWhile_append_of_head {inClass : Char → Bool}
    (hrest : ∀ c ∈ rest.head?, inClass c = false) :
    (text ++ rest).takeWhile inClass = text.takeWhile inClass := by
  induction text with
  | nil =>
    cases rest with
    | nil => rfl
    | cons c rest => exact List.takeWhile_cons_of_neg (by simp [hrest c rfl])
  | cons c text ih =>
    cases h : inClass c with
    | false => simp [h]
    | true => simp [h, ih]

/-- A run that the next character does not belong to is the same with what follows and without. -/
theorem onRun_append {inClass : Char → Bool} {read? : List Char → Option Lexeme}
    (hrest : ∀ c ∈ rest.head?, inClass c = false) :
    onRun inClass read? (text ++ rest) = onRun inClass read? text := by
  unfold onRun
  rw [takeWhile_append_of_head hrest]

theorem Boundary.outside (hrest : Boundary rest) {inClass : Char → Bool}
    (hclass : ∀ {c : Char}, inClass c = true → c.isAlphanum = true) :
    ∀ c ∈ rest.head?, inClass c = false := by
  intro c hc
  cases h : inClass c with
  | false => rfl
  | true => exact absurd (hclass h) (by simp [hrest c hc])

theorem onRun_eq_none {inClass : Char → Bool} {read? : List Char → Option Lexeme}
    (h : read? (text.takeWhile inClass) = none) : onRun inClass read? text = none := by
  simp [onRun, h]

theorem onRun_eq_none_of_head {inClass : Char → Bool} {read? : List Char → Option Lexeme}
    (h : ∀ c ∈ text.head?, inClass c = false) : onRun inClass read? text = none := by
  cases text with
  | nil => rfl
  | cons c text =>
    have hc : inClass c = false := h c rfl
    simp [onRun, hc]

theorem onRun_whole {inClass : Char → Bool} {read? : List Char → Option Lexeme} (hne : text ≠ [])
    (h : ∀ c ∈ text, inClass c = true) (hread : read? text = some lexeme) :
    onRun inClass read? text = some (lexeme, text.length) := by
  have hrun : text.takeWhile inClass = text := List.takeWhile_eq_self_iff.mpr h
  simp [onRun, hrun, hread, hne]

theorem delimiter_eq_none_of_isAlphanum {c : Char} (h : c.isAlphanum = true) :
    delimiter (c :: text) = none := by
  have hnone : Delimiter.ofChar? c = none := by
    cases hd : Delimiter.ofChar? c with
    | none => rfl
    | some d =>
      have hchar : d.char = c := by simpa using List.find?_some hd
      rw [← hchar] at h
      cases d <;> exact absurd h (by decide)
  rw [delimiter, hnone]
  rfl

theorem taken_of_onRun {inClass : Char → Bool} {read? : List Char → Option Lexeme} {length : Nat}
    (h : onRun inClass read? text = some (lexeme, length))
    (hclass : ∀ {c : Char}, inClass c = true → c.isAlphanum = true) :
    length ≤ text.length ∧ ∀ c ∈ text.take length, c.isAlphanum = true := by
  obtain ⟨_, hlength, _⟩ := onRun_eq_some h
  refine ⟨hlength ▸ (List.takeWhile_prefix inClass).length_le, fun c hc => ?_⟩
  rw [(take_of_onRun h).1] at hc
  exact hclass (List.mem_takeWhile_imp hc)

/-- What a lexeme takes off the front of a text: letters and digits, or a single mark. -/
theorem taken_of_lexeme? {length : Nat} (h : lexeme? previous text = some (lexeme, length)) :
    length ≤ text.length ∧
      ((∀ c ∈ text.take length, c.isAlphanum = true) ∨
        (∃ d, lexeme = .delimiter d ∧ text.take length = [d.char]) ∨
        (lexeme = .hardenedMarker ∧ ∃ c, text.take length = [c] ∧ (c = 'h' ∨ c = '\''))) := by
  obtain ⟨hrule, _⟩ := ruleOf_of_lexeme? h
  cases lexeme with
  | delimiter d =>
    obtain ⟨rfl, rest, rfl⟩ := delimiter_of_lexeme? h
    exact ⟨by simp, .inr (.inl ⟨d, rfl, rfl⟩)⟩
  | hardenedMarker =>
    obtain ⟨rfl, ⟨c, rest, rfl, hc⟩, _⟩ := hardenedMarker_of_lexeme? h
    exact ⟨by simp, .inr (.inr ⟨rfl, c, rfl, hc⟩)⟩
  | keyword _ =>
    change keyword text = _ at hrule
    exact (taken_of_onRun hrule isAlphanum_of_isLower).imp_right .inl
  | address _ =>
    change address text = _ at hrule
    exact (taken_of_onRun hrule id).imp_right .inl
  | wif _ =>
    change wif text = _ at hrule
    exact (taken_of_onRun hrule isAlphanum_of_isBase58).imp_right .inl
  | extendedKey _ =>
    change extendedKey text = _ at hrule
    exact (taken_of_onRun hrule isAlphanum_of_isBase58).imp_right .inl
  | hex _ =>
    change hex text = _ at hrule
    exact (taken_of_onRun hrule isAlphanum_of_isHexDigit).imp_right .inl
  | integer _ =>
    change integer text = _ at hrule
    exact (taken_of_onRun hrule isAlphanum_of_isDigit).imp_right .inl

/-- The rules that do not look at the lexeme in front. -/
def freeRules : List Rule :=
  [delimiter, keyword, address, wif, extendedKey, hex, integer]

theorem lexeme?_eq_or (previous : Option Lexeme) (text : List Char) :
    lexeme? previous text =
      (freeRules.findSome? (· text)).or (hardenedMarker previous text) := by
  have split : rules previous = freeRules ++ [hardenedMarker previous] := rfl
  rw [lexeme?, split, List.findSome?_append]
  simp

theorem findSome?_congr {α β : Type} {f g : α → Option β} :
    ∀ {xs : List α}, (∀ x ∈ xs, f x = g x) → xs.findSome? f = xs.findSome? g
  | [], _ => rfl
  | x :: xs, h => by
    rw [List.findSome?_cons, List.findSome?_cons, h x (by simp),
      findSome?_congr fun x' hx' => h x' (by simp [hx'])]

/-- Letters and digits are read alone as they are read in front of anything else. -/
theorem lexeme?_append (hne : text ≠ []) (hrest : Boundary rest) :
    lexeme? previous (text ++ rest) = lexeme? previous text := by
  have hdelimiter : delimiter (text ++ rest) = delimiter text := by
    cases text with
    | nil => exact absurd rfl hne
    | cons c text => rfl
  have hmarker : hardenedMarker previous (text ++ rest) = hardenedMarker previous text := by
    cases text with
    | nil => exact absurd rfl hne
    | cons c text => rfl
  have same : ∀ rule ∈ rules previous, rule (text ++ rest) = rule text := by
    intro rule hrule
    simp only [rules, List.mem_cons, List.not_mem_nil, or_false] at hrule
    rcases hrule with rfl | rfl | rfl | rfl | rfl | rfl | rfl | rfl
    · exact hdelimiter
    · exact onRun_append (hrest.outside isAlphanum_of_isLower)
    · exact onRun_append (hrest.outside id)
    · exact onRun_append (hrest.outside isAlphanum_of_isBase58)
    · exact onRun_append (hrest.outside isAlphanum_of_isBase58)
    · exact onRun_append (hrest.outside isAlphanum_of_isHexDigit)
    · exact onRun_append (hrest.outside isAlphanum_of_isDigit)
    · exact hmarker
  exact findSome?_congr same

/-! ### Pieces -/

/-- A text that is read as lexemes whatever stands in front of it. -/
def ReadsAs (text : List Char) (lexemes : List Lexeme) : Prop :=
  ∀ previous, Lexed previous text lexemes

/-- A piece that is read as lexemes in front of any text that it does not run into. -/
def Reads (piece : List Char) (lexemes : List Lexeme) : Prop :=
  ∀ rest tail, Boundary rest → ReadsAs rest tail → ReadsAs (piece ++ rest) (lexemes ++ tail)

theorem Reads.readsAs {lexemes : List Lexeme} (h : Reads text lexemes) : ReadsAs text lexemes := by
  have whole := h [] [] boundary_nil fun _ => .nil
  simpa using whole

theorem reads_nil : Reads [] [] := fun _ _ _ h => h

theorem Reads.append {a b : List Char} {l m : List Lexeme} (ha : Reads a l) (hb : Reads b m)
    (hboundary : Boundary b) : Reads (a ++ b) (l ++ m) := by
  intro rest tail hrest h
  rw [List.append_assoc, List.append_assoc]
  exact ha _ _ (hboundary.append hrest) (hb rest tail hrest h)

theorem lexed_append_iff {piece : List Char} {lexemes : List Lexeme}
    (head : lexeme? previous (piece ++ rest) = some (lexeme, piece.length)) :
    Lexed previous (piece ++ rest) lexemes ↔
      ∃ tail, lexemes = lexeme :: tail ∧ Lexed (some lexeme) rest tail := by
  rw [lexed_iff_of_lexeme? head, List.drop_left' rfl]

theorem lexed_cons {piece : List Char} {lexemes : List Lexeme}
    (head : lexeme? previous (piece ++ rest) = some (lexeme, piece.length))
    (tail : Lexed (some lexeme) rest lexemes) :
    Lexed previous (piece ++ rest) (lexeme :: lexemes) :=
  (lexed_append_iff head).mpr ⟨lexemes, rfl, tail⟩

/-- A piece that is a lexeme by itself. -/
theorem reads_of_lexeme? (hne : text ≠ [])
    (h : ∀ previous, lexeme? previous text = some (lexeme, text.length)) : Reads text [lexeme] := by
  intro rest tail hrest htail previous
  exact lexed_cons (by rw [lexeme?_append hne hrest, h]) (htail _)

theorem lexeme?_delimiter (d : Delimiter) :
    lexeme? previous ([d.char] ++ rest) = some (.delimiter d, 1) := by
  have hfound : delimiter ([d.char] ++ rest) = some (.delimiter d, 1) := by
    rw [List.singleton_append, delimiter, Delimiter.ofChar?_char]
    rfl
  rw [lexeme?, rules, List.findSome?_cons, hfound]

theorem Reads.delimiter_cons {lexemes : List Lexeme} (d : Delimiter) (h : Reads text lexemes) :
    Reads (d.char :: text) (.delimiter d :: lexemes) := by
  intro rest tail hrest htail previous
  have whole : Lexed previous ([d.char] ++ (text ++ rest)) (.delimiter d :: (lexemes ++ tail)) :=
    lexed_cons (lexeme?_delimiter d) (h rest tail hrest htail _)
  exact whole

theorem isLower_of_mem_text {name : Keyword} {c : Char} (h : c ∈ name.text) : c.isLower = true := by
  have hall : name.text.all Char.isLower = true := by
    cases name <;> rfl
  exact List.all_eq_true.mp hall c h

theorem keyword_text_ne_nil (name : Keyword) : name.text ≠ [] := by
  cases name <;> decide

theorem lexeme?_keyword (name : Keyword) :
    lexeme? previous name.text = some (.keyword name, name.text.length) := by
  have hread : (Keyword.ofText? name.text).map Lexeme.keyword = some (.keyword name) := by
    rw [Keyword.ofText?_text]
    rfl
  have hfound : keyword name.text = some (.keyword name, name.text.length) :=
    onRun_whole (keyword_text_ne_nil name) (fun c => isLower_of_mem_text) hread
  have hdelimiter : delimiter name.text = none := by
    cases name <;> rfl
  simp only [lexeme?, rules, List.findSome?_cons, hdelimiter, hfound]

theorem reads_keyword (name : Keyword) : Reads name.text [.keyword name] :=
  reads_of_lexeme? (keyword_text_ne_nil name) fun _ => lexeme?_keyword name

end OutputDescriptor.Lexer
