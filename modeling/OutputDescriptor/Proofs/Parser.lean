import OutputDescriptor.Parser

/-!
What it means that a parser succeeds, combinator by combinator.

`Parses p tokens value rest` says that `p` finds `value` at the front of `tokens` and leaves `rest`.
Each combinator has one equivalence, so that a success of a parser comes apart into the successes of
its parts, and is put together from them, without a look at how failures travel.
-/

namespace OutputDescriptor

namespace Lexeme

variable {lexeme : Lexeme}

@[simp] theorem kind_eq_delimiter {d : Delimiter} :
    lexeme.kind = .delimiter d ↔ lexeme = .delimiter d := by
  cases lexeme <;> simp [kind]

@[simp] theorem kind_eq_keyword {k : Keyword} : lexeme.kind = .keyword k ↔ lexeme = .keyword k := by
  cases lexeme <;> simp [kind]

@[simp] theorem kind_eq_hardenedMarker :
    lexeme.kind = .hardenedMarker ↔ lexeme = .hardenedMarker := by
  cases lexeme <;> simp [kind]

theorem kind_eq_hex : lexeme.kind = .hex ↔ ∃ digits, lexeme = .hex digits := by
  cases lexeme <;> simp [kind]

theorem kind_eq_address : lexeme.kind = .address ↔ ∃ address, lexeme = .address address := by
  cases lexeme <;> simp [kind]

end Lexeme

/-- The tokens in front of `rest` carry the given lexemes. -/
def Consumes (tokens : List Token) (lexemes : List Lexeme) (rest : List Token) : Prop :=
  ∃ consumed, consumed.map Token.lexeme = lexemes ∧ tokens = consumed ++ rest

namespace Consumes

variable {tokens rest : List Token} {lexeme : Lexeme} {a b : List Lexeme}

@[simp] theorem nil_iff : Consumes tokens [] rest ↔ tokens = rest := by
  simp [Consumes]

@[simp] theorem cons_iff :
    Consumes tokens (lexeme :: a) rest ↔
      ∃ token tail, tokens = token :: tail ∧ token.lexeme = lexeme ∧ Consumes tail a rest := by
  constructor
  · rintro ⟨consumed, hmap, rfl⟩
    obtain ⟨token, tail, rfl, hlexeme, hmap⟩ := List.map_eq_cons_iff.mp hmap
    exact ⟨token, tail ++ rest, rfl, hlexeme, tail, hmap, rfl⟩
  · rintro ⟨token, _, rfl, hlexeme, tail, hmap, rfl⟩
    exact ⟨token :: tail, by simp [hlexeme, hmap], rfl⟩

@[simp] theorem append_iff :
    Consumes tokens (a ++ b) rest ↔ ∃ mid, Consumes tokens a mid ∧ Consumes mid b rest := by
  constructor
  · rintro ⟨consumed, hmap, rfl⟩
    obtain ⟨front, back, rfl, ha, hb⟩ := List.map_eq_append_iff.mp hmap
    exact ⟨back ++ rest, ⟨front, ha, List.append_assoc ..⟩, back, hb, rfl⟩
  · rintro ⟨_, ⟨front, ha, rfl⟩, back, hb, rfl⟩
    exact ⟨front ++ back, by simp [ha, hb], (List.append_assoc ..).symm⟩

theorem nil : Consumes tokens [] tokens :=
  nil_iff.mpr rfl

theorem cons {token : Token} (hlexeme : token.lexeme = lexeme) (h : Consumes tokens a rest) :
    Consumes (token :: tokens) (lexeme :: a) rest :=
  cons_iff.mpr ⟨token, tokens, rfl, hlexeme, h⟩

theorem append {mid : List Token} (ha : Consumes tokens a mid) (hb : Consumes mid b rest) :
    Consumes tokens (a ++ b) rest :=
  append_iff.mpr ⟨mid, ha, hb⟩

/-- Of a text that is consumed whole, the lexemes are all there are. -/
theorem iff_of_nil : Consumes tokens a [] ↔ tokens.map Token.lexeme = a := by
  simp [Consumes]

end Consumes

namespace Parser

variable {α β : Type} {p : Parser α} {tokens rest : List Token}

/-- The parser finds a value and leaves the rest of the tokens. -/
def Parses (p : Parser α) (tokens : List Token) (value : α) (rest : List Token) : Prop :=
  @Eq (Except ParseError α × List Token) (p tokens) (.ok value, rest)

theorem Parses.unique {a b : α} {rest' : List Token} (ha : Parses p tokens a rest)
    (hb : Parses p tokens b rest') : a = b ∧ rest = rest' := by
  have h := Eq.trans (Eq.symm ha) hb
  cases h
  exact ⟨rfl, rfl⟩

theorem bind_apply (p : Parser α) (f : α → Parser β) (tokens : List Token) :
    @Eq (Except ParseError β × List Token) ((p >>= f) tokens)
      (match p tokens with
      | (.ok a, mid) => f a mid
      | (.error e, mid) => (.error e, mid)) := by
  change (match p tokens with | (r, mid) => ExceptT.bindCont f r mid) = _
  cases p tokens with
  | mk r mid => cases r <;> rfl

@[simp] theorem parses_bind {f : α → Parser β} {b : β} :
    Parses (p >>= f) tokens b rest ↔
      ∃ a mid, Parses p tokens a mid ∧ Parses (f a) mid b rest := by
  unfold Parses
  rw [bind_apply]
  cases hp : p tokens with
  | mk r mid =>
    cases r with
    | ok a => simp [and_assoc]
    | error e => simp

@[simp] theorem parses_pure {a b : α} :
    Parses (pure a : Parser α) tokens b rest ↔ b = a ∧ rest = tokens := by
  change @Eq (Except ParseError α × List Token) (.ok a, tokens) (.ok b, rest) ↔ _
  simp [eq_comm]

@[simp] theorem parses_map {f : α → β} {b : β} :
    Parses (f <$> p) tokens b rest ↔ ∃ a, Parses p tokens a rest ∧ b = f a := by
  rw [← bind_pure_comp]
  simp only [parses_bind, parses_pure]
  constructor
  · rintro ⟨a, mid, hp, rfl, rfl⟩
    exact ⟨a, hp, rfl⟩
  · rintro ⟨a, hp, rfl⟩
    exact ⟨a, rest, hp, rfl, rfl⟩

@[simp] theorem parses_get {value : List Token} :
    Parses (get : Parser (List Token)) tokens value rest ↔ value = tokens ∧ rest = tokens := by
  change @Eq (Except ParseError (List Token) × List Token) (.ok tokens, tokens) (.ok value, rest) ↔ _
  simp [eq_comm]

@[simp] theorem parses_peek {value : Option Token} :
    Parses peek tokens value rest ↔ value = tokens.head? ∧ rest = tokens := by
  simp [peek, and_assoc, and_comm]

@[simp] theorem parses_peekIs {kind : TokenKind} {value : Bool} :
    Parses (peekIs kind) tokens value rest ↔
      value = tokens.head?.any (fun token => token.lexeme.kind == kind) ∧ rest = tokens := by
  simp [peekIs, and_assoc, and_comm]

@[simp] theorem not_parses_failAt {token : Token} {reason : ParseReason} {value : α} :
    ¬ Parses (failAt token reason : Parser α) tokens value rest := by
  intro h
  change @Eq (Except ParseError α × List Token) (.error _, tokens) (.ok value, rest) at h
  cases h

@[simp] theorem not_parses_throw {error : ParseError} {value : α} :
    ¬ Parses (throw error : Parser α) tokens value rest := by
  intro h
  change @Eq (Except ParseError α × List Token) (.error _, tokens) (.ok value, rest) at h
  cases h

@[simp] theorem not_parses_fail {reason : ParseReason} {value : α} :
    ¬ Parses (fail reason : Parser α) tokens value rest := by
  simp [fail]

@[simp] theorem parses_advance {value : Unit} :
    Parses advance tokens value rest ↔ ∃ token, tokens = token :: rest := by
  cases tokens with
  | nil => simp [advance]
  | cons token tail =>
    change @Eq (Except ParseError Unit × List Token) (.ok (), tail) (.ok value, rest) ↔ _
    simp

@[simp] theorem parses_next {what : Expected} {token : Token} :
    Parses (next what) tokens token rest ↔ tokens = token :: rest := by
  cases tokens with
  | nil => simp [next, and_assoc]
  | cons t ts => simp [next, and_assoc, and_comm, eq_comm]

@[simp] theorem parses_expect {kind : TokenKind} {token : Token} :
    Parses (expect kind) tokens token rest ↔ tokens = token :: rest ∧ token.lexeme.kind = kind := by
  cases tokens with
  | nil => simp [expect, and_assoc]
  | cons t ts =>
    by_cases h : t.lexeme.kind = kind
    · simp [expect, and_assoc, h]
      rintro rfl _
      exact h
    · simp [expect, and_assoc, h]
      rintro rfl _
      exact h

@[simp] theorem parses_accept {kind : TokenKind} {found : Bool} :
    Parses (accept kind) tokens found rest ↔
      (found = true ∧ ∃ token, tokens = token :: rest ∧ token.lexeme.kind = kind) ∨
      (found = false ∧ rest = tokens ∧ ∀ token ∈ tokens.head?, token.lexeme.kind ≠ kind) := by
  cases tokens with
  | nil => simp [accept, and_assoc]
  | cons t ts =>
    by_cases h : t.lexeme.kind = kind
    · simp [accept, and_assoc, and_comm, eq_comm, h]
    · have hne : (t.lexeme.kind == kind) = false := by simp [h]
      simp [accept, and_assoc, and_comm, h, hne]

/-- A check that fails lets only one case through. -/
theorem parses_check {c : Prop} [Decidable c] {token : Token} {reason : ParseReason} {value : α} :
    Parses (if c then failAt token reason >>= fun _ : PUnit => p else p) tokens value rest ↔
      ¬ c ∧ Parses p tokens value rest := by
  by_cases h : c
  · simp [h]
  · simp [h]

theorem parses_checkHere {c : Prop} [Decidable c] {reason : ParseReason} {value : α} :
    Parses (if c then fail reason >>= fun _ : PUnit => p else p) tokens value rest ↔
      ¬ c ∧ Parses p tokens value rest := by
  by_cases h : c
  · simp [h]
  · simp [h]

theorem parses_call {keyword : Keyword} {argument : Parser α} {value : α} :
    Parses (call keyword argument) tokens value rest ↔
      ∃ inside mid, Consumes tokens [.keyword keyword, .delimiter .openParen] inside ∧
        Parses argument inside value mid ∧ Consumes mid [.delimiter .closeParen] rest := by
  simp only [call, parses_bind, parses_expect, parses_pure, Lexeme.kind_eq_keyword,
    Lexeme.kind_eq_delimiter, Consumes.cons_iff, Consumes.nil_iff]
  constructor
  · rintro ⟨name, _, ⟨rfl, hname⟩, opening, inside, ⟨rfl, hopening⟩, _, mid, hargument, closing, _,
      ⟨rfl, hclosing⟩, rfl, rfl⟩
    exact ⟨inside, _, ⟨name, _, rfl, hname, opening, _, rfl, hopening, rfl⟩, hargument,
      closing, _, rfl, hclosing, rfl⟩
  · rintro ⟨inside, _, ⟨name, _, rfl, hname, opening, _, rfl, hopening, rfl⟩, hargument,
      closing, _, rfl, hclosing, rfl⟩
    exact ⟨name, _, ⟨rfl, hname⟩, opening, _, ⟨rfl, hopening⟩, _, _, hargument, closing, _,
      ⟨rfl, hclosing⟩, rfl, rfl⟩

/-- A keyed parser looks for its keyword at once. -/
theorem head_of_parses_call {keyword : Keyword} {argument : Parser α} {value : α}
    (h : Parses (call keyword argument) tokens value rest) :
    tokens.head?.map Token.lexeme = some (.keyword keyword) := by
  obtain ⟨_, _, hname, _, _⟩ := parses_call.mp h
  obtain ⟨name, _, rfl, hlexeme, _⟩ := Consumes.cons_iff.mp hname
  simp [hlexeme]

/-- A success of a choice is a success of one of its alternatives. -/
theorem exists_of_parses_firstOf {what : Expected} {value : α} :
    ∀ {ps : List (Parser α)} {furthest : Option ParseError},
      Parses (firstOf what furthest ps) tokens value rest →
        ∃ p ∈ ps, Parses p tokens value rest := by
  intro ps
  induction ps with
  | nil =>
    intro furthest h
    obtain ⟨here, mid, _, h⟩ := parses_bind.mp h
    cases furthest with
    | none => exact absurd h not_parses_fail
    | some error =>
      dsimp only at h
      split at h
      · exact absurd h not_parses_fail
      · exact absurd h not_parses_throw
  | cons p ps ih =>
    intro furthest h
    unfold Parses firstOf attempt at h
    cases hp : p tokens with
    | mk r mid =>
      simp only [hp] at h
      cases r with
      | ok found => exact ⟨p, by simp, hp.trans h⟩
      | error error =>
        obtain ⟨p', hp', h'⟩ := ih h
        exact ⟨p', List.mem_cons_of_mem _ hp', h'⟩

/-- If some alternative succeeds, and no other alternative succeeds with anything else, then so does
the choice. -/
theorem parses_firstOf {what : Expected} {value : α} :
    ∀ {ps : List (Parser α)} {furthest : Option ParseError},
      (∃ p ∈ ps, Parses p tokens value rest) →
      (∀ p ∈ ps, ∀ value' rest', Parses p tokens value' rest' → value' = value ∧ rest' = rest) →
        Parses (firstOf what furthest ps) tokens value rest := by
  intro ps
  induction ps with
  | nil =>
    rintro furthest ⟨p, hp, _⟩
    simp at hp
  | cons p ps ih =>
    rintro furthest ⟨p', hmem, hp'⟩ agree
    unfold Parses firstOf attempt
    cases hp : p tokens with
    | mk r mid =>
      cases r with
      | ok found =>
        obtain ⟨rfl, rfl⟩ := agree p (by simp) found mid hp
        rfl
      | error error =>
        have hne : p' ≠ p := by
          rintro rfl
          cases Eq.trans (Eq.symm hp) hp'
        have hrest : p' ∈ ps := (List.mem_cons.mp hmem).resolve_left hne
        exact ih ⟨p', hrest, hp'⟩ fun q hq => agree q (List.mem_cons_of_mem _ hq)

end Parser

end OutputDescriptor
