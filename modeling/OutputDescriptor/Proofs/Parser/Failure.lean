import OutputDescriptor.Proofs.Parser

/-!
Where parsers fail.

A parser that begins in a stretch of tokens leaves some of them, or fails at one of them or behind
the last, and never because it went on where no token was left; each combinator keeps to that. A
parser that is keyed by a keyword fails at once where another one stands, and otherwise behind the
keyword. So of several keyed alternatives only one can come past the first token, and the failure of
a choice is the failure of that one.
-/

namespace OutputDescriptor

def Lexeme.keyword? : Lexeme → Option Keyword
  | .keyword found => some found
  | _ => none

/-- A place at one of the tokens or behind the last one. -/
def Position.LiesIn (position : Position) (tokens : List Token) : Prop :=
  position = .endOfInput ∨ ∃ token ∈ tokens, position = .span token.start token.stop

namespace Parser

variable {α β : Type} {p q : Parser α} {tokens whole : List Token}

/-- The place of the next token. -/
def here (tokens : List Token) : Position :=
  match tokens.head? with
  | some token => .span token.start token.stop
  | none => .endOfInput

theorem here_liesIn (h : tokens <:+ whole) : (here tokens).LiesIn whole := by
  cases tokens with
  | nil => exact .inl rfl
  | cons token tail => exact .inr ⟨token, h.subset (by simp), rfl⟩

theorem fail_apply (reason : ParseReason) (tokens : List Token) :
    @Eq (Except ParseError α × List Token) (fail reason tokens)
      (.error ⟨reason, here tokens⟩, tokens) := by
  cases tokens with
  | nil => rfl
  | cons token tail => rfl

/-- The parser fails, at a place with the given property, and not because it went past the end. -/
def Fails (p : Parser α) (tokens : List Token) (place : Position → Prop) : Prop :=
  ∃ error rest, @Eq (Except ParseError α × List Token) (p tokens) (.error error, rest) ∧
    place error.position ∧ error.reason ≠ .overrun

/-- The parser succeeds, or fails at a place with the given property. -/
def FailsOnly (p : Parser α) (tokens : List Token) (place : Position → Prop) : Prop :=
  (∃ value rest, Parses p tokens value rest) ∨ Fails p tokens place

/-- Started in `whole`, the parser stays there, whether it succeeds or fails. -/
def Stays (whole : List Token) (p : Parser α) : Prop :=
  ∀ tokens, tokens <:+ whole →
    (∃ value rest, Parses p tokens value rest ∧ rest <:+ whole) ∨ Fails p tokens (·.LiesIn whole)

namespace Fails

variable {place : Position → Prop}

theorem bind (h : Fails p tokens place) (f : α → Parser β) : Fails (p >>= f) tokens place := by
  obtain ⟨error, rest, hp, faulty⟩ := h
  exact ⟨error, rest, by rw [bind_apply, hp], faulty⟩

theorem bind_of_parses {f : α → Parser β} {value : α} {mid : List Token}
    (hp : Parses p tokens value mid) (h : Fails (f value) mid place) :
    Fails (p >>= f) tokens place := by
  obtain ⟨error, rest, hf, faulty⟩ := h
  exact ⟨error, rest, by rw [bind_apply, hp]; exact hf, faulty⟩

theorem map (h : Fails p tokens place) (f : α → β) : Fails (f <$> p) tokens place := by
  rw [← bind_pure_comp]
  exact h.bind _

theorem fail {reason : ParseReason} (sound : reason ≠ .overrun) (h : place (here tokens)) :
    Fails (fail reason : Parser α) tokens place :=
  ⟨_, tokens, fail_apply reason tokens, h, sound⟩

theorem failAt {token : Token} {reason : ParseReason} (sound : reason ≠ .overrun)
    (h : place (.span token.start token.stop)) :
    Fails (failAt token reason : Parser α) tokens place :=
  ⟨_, tokens, rfl, h, sound⟩

theorem mono {place' : Position → Prop} (h : Fails p tokens place)
    (le : ∀ position, place position → place' position) : Fails p tokens place' := by
  obtain ⟨error, rest, hp, hplace, sound⟩ := h
  exact ⟨error, rest, hp, le _ hplace, sound⟩

end Fails

namespace FailsOnly

variable {place : Position → Prop}

theorem map (h : FailsOnly p tokens place) (f : α → β) : FailsOnly (f <$> p) tokens place := by
  rcases h with ⟨value, rest, hp⟩ | hfails
  · exact .inl ⟨f value, rest, parses_map.mpr ⟨value, hp, rfl⟩⟩
  · exact .inr (hfails.map f)

theorem bind_of_parses {f : α → Parser β} {value : α} {mid : List Token}
    (hp : Parses p tokens value mid) (h : FailsOnly (f value) mid place) :
    FailsOnly (p >>= f) tokens place := by
  rcases h with ⟨found, rest, hf⟩ | hfails
  · exact .inl ⟨found, rest, parses_bind.mpr ⟨value, mid, hp, hf⟩⟩
  · exact .inr (.bind_of_parses hp hfails)

theorem mono {place' : Position → Prop} (h : FailsOnly p tokens place)
    (le : ∀ position, place position → place' position) : FailsOnly p tokens place' :=
  h.imp_right fun hfails => hfails.mono le

end FailsOnly

/-! ### Staying among the tokens -/

/-- What stands in parentheses behind a keyword. -/
def parenthesized (p : Parser α) : Parser α := do
  let _ ← expect (.delimiter .openParen)
  let value ← p
  let _ ← expect (.delimiter .closeParen)
  return value

namespace Stays

theorem pure (value : α) : Stays whole (pure value : Parser α) := fun tokens h =>
  .inl ⟨value, tokens, parses_pure.mpr ⟨rfl, rfl⟩, h⟩

theorem fail {reason : ParseReason} (sound : reason ≠ .overrun) :
    Stays whole (fail reason : Parser α) := fun _ h =>
  .inr (.fail sound (here_liesIn h))

theorem failAt {token : Token} {reason : ParseReason} (h : token ∈ whole)
    (sound : reason ≠ .overrun) : Stays whole (failAt token reason : Parser α) := fun _ _ =>
  .inr (.failAt sound (.inr ⟨token, h, rfl⟩))

/-- What follows a parser has to stay for the values that the parser can find. -/
theorem bind {f : α → Parser β} (hp : Stays whole p)
    (hf : ∀ value tokens rest, tokens <:+ whole → Parses p tokens value rest →
      Stays whole (f value)) : Stays whole (p >>= f) := by
  intro tokens h
  rcases hp tokens h with ⟨value, mid, hparses, hmid⟩ | hfails
  · rcases hf value tokens mid h hparses mid hmid with ⟨found, rest, hfound, hrest⟩ | hfails
    · exact .inl ⟨found, rest, parses_bind.mpr ⟨value, mid, hparses, hfound⟩, hrest⟩
    · exact .inr (.bind_of_parses hparses hfails)
  · exact .inr (hfails.bind f)

theorem bind' {f : α → Parser β} (hp : Stays whole p) (hf : ∀ value, Stays whole (f value)) :
    Stays whole (p >>= f) :=
  hp.bind fun value _ _ _ _ => hf value

theorem map (hp : Stays whole p) (f : α → β) : Stays whole (f <$> p) := by
  rw [← bind_pure_comp]
  exact hp.bind' fun value => .pure (f value)

theorem get : Stays whole (get : Parser (List Token)) := fun tokens h =>
  .inl ⟨tokens, tokens, parses_get.mpr ⟨rfl, rfl⟩, h⟩

theorem peek : Stays whole peek := fun tokens h =>
  .inl ⟨_, tokens, parses_peek.mpr ⟨rfl, rfl⟩, h⟩

theorem peekIs (kind : TokenKind) : Stays whole (peekIs kind) :=
  peek.bind' fun _ => .pure _

/-- Only where a token was seen does a parser move past it. -/
theorem next (what : Expected) : Stays whole (next what) := by
  intro tokens h
  cases tokens with
  | nil => exact .inr (.bind_of_parses (parses_peek.mpr ⟨rfl, rfl⟩) (.fail nofun (.inl rfl)))
  | cons token tail =>
    exact .inl ⟨token, tail, parses_next.mpr rfl, (List.suffix_cons token tail).trans h⟩

theorem expect (kind : TokenKind) : Stays whole (expect kind) :=
  (peekIs kind).bind' fun found =>
    match found with
    | true => next _
    | false => .fail nofun

theorem accept (kind : TokenKind) : Stays whole (accept kind) := by
  intro tokens h
  by_cases ahead : ∃ token ∈ tokens.head?, token.lexeme.kind = kind
  · obtain ⟨token, hhead, hkind⟩ := ahead
    obtain ⟨tail, rfl⟩ := List.head?_eq_some_iff.mp hhead
    refine .inl ⟨true, tail, parses_accept.mpr (.inl ⟨rfl, token, rfl, hkind⟩), ?_⟩
    exact (List.suffix_cons token tail).trans h
  · simp only [not_exists, not_and] at ahead
    exact .inl ⟨false, tokens, parses_accept.mpr (.inr ⟨rfl, rfl, ahead⟩), h⟩

/-- A token that was consumed may be where a later failure is. -/
theorem next_bind {what : Expected} {f : Token → Parser β}
    (hf : ∀ token ∈ whole, Stays whole (f token)) : Stays whole (Parser.next what >>= f) :=
  (next what).bind fun token _ _ h hparses =>
    hf token (h.subset (by simp [parses_next.mp hparses]))

theorem expect_bind {kind : TokenKind} {f : Token → Parser β}
    (hf : ∀ token ∈ whole, Stays whole (f token)) : Stays whole (Parser.expect kind >>= f) :=
  (expect kind).bind fun token _ _ h hparses =>
    hf token (h.subset (by simp [(parses_expect.mp hparses).1]))

theorem parenthesized (hp : Stays whole p) : Stays whole (parenthesized p) :=
  (expect _).bind' fun _ => hp.bind' fun value => (expect _).bind' fun _ => .pure value

theorem call (keyword : Keyword) (hp : Stays whole p) : Stays whole (call keyword p) :=
  (expect _).bind' fun _ => hp.parenthesized

end Stays

/-! ### Keyed parsers -/

/-- The keyword in front, if there is one. -/
def keywordAhead (tokens : List Token) : Option Keyword :=
  tokens.head?.bind (·.lexeme.keyword?)

theorem lexeme_of_keywordAhead {keyword : Keyword} {name : Token} {tail : List Token}
    (h : keywordAhead (name :: tail) = some keyword) : name.lexeme = .keyword keyword := by
  change name.lexeme.keyword? = some keyword at h
  cases hname : name.lexeme with
  | keyword found =>
    rw [hname] at h
    exact congrArg _ (Option.some.inj h)
  | _ =>
    rw [hname] at h
    cases h

theorem parses_peekIs_keyword (tokens : List Token) (keyword : Keyword) :
    Parses (peekIs (.keyword keyword)) tokens (keywordAhead tokens == some keyword) tokens := by
  refine parses_peekIs.mpr ⟨?_, rfl⟩
  unfold keywordAhead
  cases tokens with
  | nil => rfl
  | cons token tail =>
    rw [List.head?_cons, Option.bind_some, Option.any_some, Bool.eq_iff_iff]
    cases token.lexeme <;> simp [Lexeme.keyword?, Lexeme.kind]

/-- Without its keyword in front, a keyed parser fails at once. -/
theorem call_fails_here {keyword : Keyword} (h : keywordAhead tokens ≠ some keyword) :
    Fails (call keyword p) tokens (· = here tokens) := by
  have hpeek := parses_peekIs_keyword tokens keyword
  rw [beq_eq_false_iff_ne.mpr h] at hpeek
  refine Fails.bind (.bind_of_parses hpeek ?_) _
  exact .fail nofun rfl

/-- With its keyword in front, a keyed parser does not fail before the next token. -/
theorem call_behind {keyword : Keyword} {name : Token} {tail : List Token}
    (h : keywordAhead (name :: tail) = some keyword) (hp : Stays tail p) :
    FailsOnly (call keyword p) (name :: tail) (·.LiesIn tail) := by
  have hexpect : Parses (expect (.keyword keyword)) (name :: tail) name tail :=
    parses_expect.mpr ⟨rfl, Lexeme.kind_eq_keyword.mpr (lexeme_of_keywordAhead h)⟩
  refine .bind_of_parses hexpect ?_
  rcases hp.parenthesized tail (List.suffix_refl tail) with ⟨value, rest, hvalue, _⟩ | hfails
  · exact .inl ⟨value, rest, hvalue⟩
  · exact .inr hfails

/-! ### Choices -/

variable {what : Expected} {furthest : Option ParseError} {ps : List (Parser α)}

theorem not_isBeyond_self (position : Position) : position.isBeyond position = false := by
  cases position <;> simp [Position.isBeyond]

theorem not_isBeyond_of_isBeyond {a b : Position} (h : a.isBeyond b = true) :
    b.isBeyond a = false := by
  cases a <;> cases b <;> simp_all [Position.isBeyond]
  omega

theorem attempt_of_fails {error : ParseError} {rest : List Token}
    (h : @Eq (Except ParseError α × List Token) (p tokens) (.error error, rest)) :
    @Eq (Except ParseError α × List Token) (attempt p tokens) (.error error, tokens) := by
  unfold attempt
  rw [h]

theorem attempt_of_parses {value : α} {rest : List Token} (h : Parses p tokens value rest) :
    Parses (attempt p) tokens value rest := by
  unfold Parses attempt
  rw [h]

theorem firstOf_cons_of_parses {value : α} {rest : List Token} (h : Parses p tokens value rest) :
    Parses (firstOf what furthest (p :: ps)) tokens value rest := by
  unfold Parses firstOf
  rw [attempt_of_parses h]

theorem firstOf_cons_of_fails {error : ParseError} {rest : List Token}
    (h : @Eq (Except ParseError α × List Token) (p tokens) (.error error, rest)) :
    firstOf what furthest (p :: ps) tokens =
      firstOf what (some (further furthest error)) ps tokens := by
  rw [firstOf]
  dsimp only
  rw [attempt_of_fails h]

/-- The failure to report is one of those there were. -/
theorem forall_mem_further (fault : ParseError → Prop) {error : ParseError}
    (hfurthest : ∀ earlier ∈ furthest, fault earlier) (herror : fault error) :
    ∀ earlier ∈ some (further furthest error), fault earlier := by
  intro earlier hearlier
  obtain rfl := Option.some.inj hearlier
  cases furthest with
  | none => exact herror
  | some earlier =>
    unfold further
    dsimp only
    split
    · exact herror
    · exact hfurthest _ rfl

/-- The failure that a choice without alternatives reports. -/
def report (what : Expected) (furthest : Option ParseError) (tokens : List Token) : ParseError :=
  match furthest with
  | some error => if error.position = here tokens then ⟨.expected what, here tokens⟩ else error
  | none => ⟨.expected what, here tokens⟩

theorem firstOf_nil :
    @Eq (Except ParseError α × List Token) (firstOf what furthest [] tokens)
      (.error (report what furthest tokens), tokens) := by
  have position_apply : Parses position tokens (here tokens) tokens := by
    cases tokens <;> rfl
  rw [firstOf, bind_apply, position_apply]
  cases furthest with
  | none => exact fail_apply _ tokens
  | some error =>
    unfold report
    dsimp only
    split
    · exact fail_apply _ tokens
    · rfl

/-- A choice stays where its alternatives stay. -/
theorem Stays.firstOf (hps : ∀ p ∈ ps, Stays whole p)
    (hfurthest : ∀ error ∈ furthest, error.position.LiesIn whole ∧ error.reason ≠ .overrun) :
    Stays whole (firstOf what furthest ps) := by
  intro tokens h
  induction ps generalizing furthest with
  | nil =>
    refine .inr ⟨_, tokens, firstOf_nil, ?_⟩
    cases furthest with
    | none => exact ⟨here_liesIn h, nofun⟩
    | some error =>
      unfold report
      dsimp only
      split
      · exact ⟨here_liesIn h, nofun⟩
      · exact hfurthest error rfl
  | cons p ps ih =>
    rcases hps p (by simp) tokens h with ⟨value, rest, hvalue, hrest⟩ | ⟨error, rest, hp, faulty⟩
    · exact .inl ⟨value, rest, firstOf_cons_of_parses hvalue, hrest⟩
    · have hrest := ih (fun q hq => hps q (by simp [hq])) (forall_mem_further _ hfurthest faulty)
      unfold Parses Fails at hrest ⊢
      rwa [firstOf_cons_of_fails hp]

/-- If no alternative comes past the first token, the place as a whole is at fault. -/
theorem firstOf_of_fails_here (hps : ∀ p ∈ ps, Fails p tokens (· = here tokens))
    (hfurthest : ∀ error ∈ furthest, error.position = here tokens) :
    @Eq (Except ParseError α × List Token) (firstOf what furthest ps tokens)
      (.error ⟨.expected what, here tokens⟩, tokens) := by
  induction ps generalizing furthest with
  | nil =>
    rw [firstOf_nil]
    cases furthest with
    | none => rfl
    | some error =>
      unfold report
      dsimp only
      rw [if_pos (hfurthest error rfl)]
  | cons p ps ih =>
    obtain ⟨error, rest, hp, hplace, _⟩ := hps p (by simp)
    rw [firstOf_cons_of_fails hp]
    exact ih (fun q hq => hps q (by simp [hq]))
      (forall_mem_further (·.position = here tokens) hfurthest hplace)

/-- A failure past the first token is not replaced by failures at it. -/
theorem firstOf_of_beyond {error : ParseError}
    (beyond : error.position.isBeyond (here tokens) = true)
    (hps : ∀ p ∈ ps, Fails p tokens (· = here tokens)) :
    @Eq (Except ParseError α × List Token) (firstOf what (some error) ps tokens)
      (.error error, tokens) := by
  induction ps with
  | nil =>
    have elsewhere : error.position ≠ here tokens := by
      intro same
      rw [same, not_isBeyond_self] at beyond
      cases beyond
    rw [firstOf_nil]
    unfold report
    dsimp only
    rw [if_neg elsewhere]
  | cons p ps ih =>
    obtain ⟨later, rest, hp, hplace, _⟩ := hps p (by simp)
    have kept : further (some error) later = error := by
      unfold further
      dsimp only
      rw [hplace, not_isBeyond_of_isBeyond beyond]
      exact if_neg Bool.false_ne_true
    rw [firstOf_cons_of_fails hp, kept]
    exact ih fun q hq => hps q (by simp [hq])

/-- A choice is decided by the only alternative that can come past the first token. -/
theorem firstOf_append_cons {before after : List (Parser α)}
    (hbefore : ∀ q ∈ before, Fails q tokens (· = here tokens))
    (hafter : ∀ q ∈ after, Fails q tokens (· = here tokens))
    (hp : FailsOnly p tokens (·.isBeyond (here tokens) = true))
    (hfurthest : ∀ error ∈ furthest, error.position = here tokens) :
    firstOf what furthest (before ++ p :: after) tokens = attempt p tokens := by
  induction before generalizing furthest with
  | nil =>
    rcases hp with ⟨value, rest, hvalue⟩ | ⟨error, rest, herror, beyond, _⟩
    · exact (firstOf_cons_of_parses hvalue).trans (attempt_of_parses hvalue).symm
    · have last : further furthest error = error := by
        cases furthest with
        | none => rfl
        | some earlier =>
          unfold further
          dsimp only
          rw [hfurthest earlier rfl, if_pos beyond]
      rw [List.nil_append, firstOf_cons_of_fails herror, last, firstOf_of_beyond beyond hafter,
        attempt_of_fails herror]
  | cons q before ih =>
    obtain ⟨error, rest, hq, hplace, _⟩ := hbefore q (by simp)
    rw [List.cons_append, firstOf_cons_of_fails hq]
    exact ih (fun q hq => hbefore q (by simp [hq]))
      (forall_mem_further (·.position = here tokens) hfurthest hplace)

/-! ### Parsers that differ only in what a failure leaves -/

/-- What a parser comes to; the tokens that a failure leaves do not count. -/
def outcome (p : Parser α) (tokens : List Token) : Except ParseError (α × List Token) :=
  match (p tokens : Except ParseError α × List Token) with
  | (.ok value, rest) => .ok (value, rest)
  | (.error error, _) => .error error

theorem outcome_eq_ok {value : α} {rest : List Token} :
    outcome p tokens = .ok (value, rest) ↔ Parses p tokens value rest := by
  unfold outcome Parses
  rcases (p tokens : Except ParseError α × List Token) with ⟨error | found, left⟩
  · simp
  · simp

theorem outcome_attempt (p : Parser α) (tokens : List Token) :
    outcome (attempt p) tokens = outcome p tokens := by
  unfold outcome attempt
  rcases (p tokens : Except ParseError α × List Token) with ⟨error | found, left⟩
  · rfl
  · rfl

theorem attempt_eq (p : Parser α) (tokens : List Token) :
    @Eq (Except ParseError α × List Token) (attempt p tokens)
      (match outcome p tokens with
      | .ok (value, rest) => (.ok value, rest)
      | .error error => (.error error, tokens)) := by
  unfold outcome attempt
  rcases (p tokens : Except ParseError α × List Token) with ⟨error | found, left⟩
  · rfl
  · rfl

theorem attempt_congr (h : outcome p tokens = outcome q tokens) :
    attempt p tokens = attempt q tokens := by
  rw [attempt_eq, attempt_eq, h]

theorem outcome_eq_of_attempt
    (h : @Eq (Except ParseError α × List Token) (p tokens) (attempt q tokens)) :
    outcome p tokens = outcome q tokens := by
  rw [← outcome_attempt q]
  unfold outcome
  rw [h]

theorem outcome_bind (p : Parser α) (f : α → Parser β) (tokens : List Token) :
    outcome (p >>= f) tokens =
      (outcome p tokens).bind fun found => outcome (f found.1) found.2 := by
  unfold outcome
  rw [bind_apply]
  rcases (p tokens : Except ParseError α × List Token) with ⟨error | found, left⟩
  · rfl
  · rfl

theorem outcome_bind_congr {f g : α → Parser β} (hp : outcome p tokens = outcome q tokens)
    (hf : ∀ value rest, Parses p tokens value rest →
      outcome (f value) rest = outcome (g value) rest) :
    outcome (p >>= f) tokens = outcome (q >>= g) tokens := by
  rw [outcome_bind, outcome_bind, ← hp]
  cases h : outcome p tokens with
  | error error => rfl
  | ok found => exact hf found.1 found.2 (outcome_eq_ok.mp h)

theorem outcome_map_congr (f : α → β) (hp : outcome p tokens = outcome q tokens) :
    outcome (f <$> p) tokens = outcome (f <$> q) tokens := by
  rw [← bind_pure_comp, ← bind_pure_comp]
  exact outcome_bind_congr hp fun _ _ _ => rfl

theorem outcome_call_congr (keyword : Keyword)
    (h : ∀ inside, inside <:+ tokens → outcome p inside = outcome q inside) :
    outcome (call keyword p) tokens = outcome (call keyword q) tokens := by
  refine outcome_bind_congr rfl fun name tail hname => ?_
  refine outcome_bind_congr rfl fun opening inside hopening => ?_
  refine outcome_bind_congr (h inside ?_) fun _ _ _ => rfl
  obtain ⟨rfl, _⟩ := parses_expect.mp hname
  obtain ⟨rfl, _⟩ := parses_expect.mp hopening
  exact (List.suffix_cons opening inside).trans (List.suffix_cons name _)

end Parser

end OutputDescriptor
