import OutputDescriptor.Key.Parser
import OutputDescriptor.Proofs.Bytes
import OutputDescriptor.Proofs.Grammar
import OutputDescriptor.Proofs.Parser
import OutputDescriptor.Proofs.Token.Lexer

/-!
The key parser accepts the grammar of key expressions.

Each production has two lemmas. What the parser finds is derivable from the lexemes that it took. And
what is derivable it finds, provided that the lexemes occur in texts and that nothing follows that
would prolong a path: a path ends where neither a slash nor a hardened marker stands.
-/

namespace OutputDescriptor

namespace Grammar

/-- No path can go on into these tokens. -/
def Stops (rest : List Token) : Prop :=
  ∀ token ∈ rest.head?, token.lexeme ≠ .delimiter .slash ∧ token.lexeme ≠ .hardenedMarker

theorem stops_of_consumes_delimiter {d : Delimiter} {lexemes : List Lexeme}
    {tokens rest : List Token} (hd : d ≠ .slash)
    (h : Consumes tokens (.delimiter d :: lexemes) rest) : Stops tokens := by
  obtain ⟨token, tail, rfl, hlexeme, _⟩ := Consumes.cons_iff.mp h
  intro token' h'
  cases h'
  rw [hlexeme]
  exact ⟨by simpa using hd, by simp⟩

/-! ### Digits -/

theorem ofHex?_eq_some {bytes : Bytes} :
    ∀ {digits : List Char}, Bytes.ofHex? digits = some bytes →
      digits.length % 2 = 0 ∧ bytesOf digits = bytes
  | [], h => by
    cases h
    exact ⟨rfl, rfl⟩
  | [_], h => by cases h
  | high :: low :: rest, h => by
    simp only [Bytes.ofHex?, Option.bind_eq_bind, Option.bind_eq_some_iff] at h
    obtain ⟨a, ha, b, hb, tail, htail, heq⟩ := h
    cases heq
    obtain ⟨heven, htail⟩ := ofHex?_eq_some htail
    refine ⟨?_, ?_⟩
    · simp only [List.length_cons]
      omega
    · rw [bytesOf, digitValue, digitValue, ha, hb, htail]
      rfl

theorem ofHex?_of_even :
    ∀ {digits : List Char}, digits.length % 2 = 0 → (∀ c ∈ digits, Lexer.isHexDigit c = true) →
      Bytes.ofHex? digits = some (bytesOf digits)
  | [], _, _ => rfl
  | [_], heven, _ => by simp at heven
  | high :: low :: rest, heven, hdigits => by
    obtain ⟨a, ha⟩ := Option.isSome_iff_exists.mp (hdigits high (by simp))
    obtain ⟨b, hb⟩ := Option.isSome_iff_exists.mp (hdigits low (by simp))
    have hrest : Bytes.ofHex? rest = some (bytesOf rest) := by
      apply ofHex?_of_even
      · simp only [List.length_cons] at heven
        omega
      · exact fun c hc => hdigits c (by simp [hc])
    simp [Bytes.ofHex?, bytesOf, digitValue, ha, hb, hrest]

theorem length_bytesOf : ∀ digits : List Char, (bytesOf digits).length = digits.length / 2
  | [] => rfl
  | [_] => by simp [bytesOf]
  | _ :: _ :: rest => by
    rw [bytesOf, List.length_cons, length_bytesOf rest, List.length_cons, List.length_cons]
    omega

theorem hex_of_occurs {digits : List Char} (h : (Lexeme.hex digits).Occurs) :
    2 ≤ digits.length ∧ ∀ c ∈ digits, Lexer.isHexDigit c = true := by
  obtain ⟨_, _, _, h⟩ := h
  exact Lexer.hex_of_lexeme? h

theorem occurs_of_call {keyword : Keyword} {lexemes : List Lexeme}
    (occurs : ∀ lexeme ∈ call keyword lexemes, lexeme.Occurs) :
    ∀ lexeme ∈ lexemes, lexeme.Occurs := by
  intro lexeme h
  exact occurs lexeme (by simp [call, h])

theorem numeral_of_integer? {lexeme : Lexeme} {n : Nat} (h : lexeme.integer? = some n) :
    Numeral lexeme n := by
  cases lexeme with
  | integer value =>
    cases h
    exact .integer n
  | hex digits =>
    simp only [Lexeme.integer?] at h
    split at h <;> cases h
    next numeral =>
    simp only [isNumeral, Bool.and_eq_true, List.all_eq_true] at numeral
    exact .digits numeral.1.2
  | _ => cases h

/-- A numeral that no place of the grammar refuses fits into the 64 bits it is read with. -/
theorem integer?_of_numeral {lexeme : Lexeme} {n : Nat} (h : Numeral lexeme n)
    (occurs : lexeme.Occurs) (lt : n < 0x80000000) : lexeme.integer? = some n := by
  cases h with
  | integer => rfl
  | @digits ds decimal =>
    obtain ⟨hlength, _⟩ := hex_of_occurs occurs
    have numeral : isNumeral ds = true := by
      have hne : ds ≠ [] := by
        rintro rfl
        simp at hlength
      simpa [isNumeral, hne] using decimal
    have small : Nat.ofDigitChars 10 ds 0 < 0x10000000000000000 := Nat.lt_trans lt (by decide)
    simp [Lexeme.integer?, numeral, small]

/-! ### Steps -/

/-- The index that a lexeme stands for. -/
def index? (lexeme : Lexeme) : Option StepIndex :=
  if lexeme = .delimiter .asterisk then some .wildcard
  else (lexeme.integer?.bind ChildIndex.ofNat?).map .concrete

theorem indexOf_of_index? {lexeme : Lexeme} {index : StepIndex} (h : index? lexeme = some index) :
    IndexOf lexeme index := by
  unfold index? at h
  split at h
  · next hasterisk =>
    cases h
    rw [hasterisk]
    exact .wildcard
  · obtain ⟨found, hfound, rfl⟩ := Option.map_eq_some_iff.mp h
    obtain ⟨n, hn, hfound⟩ := Option.bind_eq_some_iff.mp hfound
    obtain rfl := ChildIndex.ofNat?_eq_some hfound
    exact .concrete (numeral_of_integer? hn) found.val_lt

theorem index?_of_indexOf {lexeme : Lexeme} {index : StepIndex} (h : IndexOf lexeme index)
    (occurs : lexeme.Occurs) : index? lexeme = some index := by
  cases h with
  | wildcard => rfl
  | @concrete _ n numeral lt =>
    have hne : lexeme ≠ .delimiter .asterisk := by
      rintro rfl
      cases numeral
    have found : ChildIndex.ofNat? n = some ⟨n, lt⟩ := ChildIndex.ofNat?_val ⟨n, lt⟩
    simp [index?, hne, integer?_of_numeral numeral occurs lt, found]

end Grammar

namespace Parser

open Grammar

variable {tokens rest : List Token} {lexemes : List Lexeme}

theorem parses_ofPath {path : Except PathError Path} {value : Path} :
    Parses (ofPath path) tokens value rest ↔ path = .ok value ∧ rest = tokens := by
  cases path with
  | ok path => simp [ofPath, eq_comm]
  | error error => simp [ofPath]

theorem parses_step {step : Step} {token : Token} :
    Parses Parser.step tokens (step, token) rest ↔
      ∃ slash mid, tokens = slash :: token :: mid ∧ slash.lexeme = .delimiter .slash ∧
        index? token.lexeme = some step.index ∧
        Parses (accept .hardenedMarker) mid step.hardened rest := by
  unfold Parser.step
  simp only [parses_bind, parses_expect, parses_next, Lexeme.kind_eq_delimiter]
  constructor
  · rintro ⟨slash, _, ⟨rfl, hslash⟩, found, mid, rfl, h⟩
    split at h
    · next hasterisk =>
      simp only [parses_bind, parses_pure] at h
      obtain ⟨_, _, ⟨rfl, rfl⟩, hardened, _, haccept, heq, rfl⟩ := h
      cases heq
      exact ⟨slash, _, rfl, hslash, by simp [index?, hasterisk], haccept⟩
    · next hasterisk =>
      split at h
      · simp at h
      · next n hn =>
        split at h
        · simp at h
        · next index hindex =>
          simp only [parses_bind, parses_pure] at h
          obtain ⟨_, _, ⟨rfl, rfl⟩, hardened, _, haccept, heq, rfl⟩ := h
          cases heq
          exact ⟨slash, _, rfl, hslash, by simp [index?, hasterisk, hn, hindex], haccept⟩
  · rintro ⟨slash, mid, rfl, hslash, hindex, haccept⟩
    refine ⟨slash, _, ⟨rfl, hslash⟩, token, mid, rfl, ?_⟩
    obtain ⟨index, hardened⟩ := step
    unfold index? at hindex
    split at hindex
    · next hasterisk =>
      cases hindex
      simpa [hasterisk] using haccept
    · next hasterisk =>
      obtain ⟨found, hfound, rfl⟩ := Option.map_eq_some_iff.mp hindex
      obtain ⟨n, hn, hfound⟩ := Option.bind_eq_some_iff.mp hfound
      simp only [if_neg hasterisk, hn, hfound, parses_bind, parses_pure]
      exact ⟨_, _, ⟨rfl, rfl⟩, _, _, haccept, rfl, rfl⟩

theorem stepOf_of_parses {step : Step} {token : Token}
    (h : Parses Parser.step tokens (step, token) rest) :
    ∃ lexemes, StepOf lexemes step ∧ Consumes tokens lexemes rest := by
  obtain ⟨slash, mid, rfl, hslash, hindex, haccept⟩ := parses_step.mp h
  have hindex := indexOf_of_index? hindex
  obtain ⟨index, hardened⟩ := step
  rcases parses_accept.mp haccept with ⟨hmark, marker, rfl, hmarker⟩ | ⟨hmark, rfl, _⟩
  · cases hmark
    exact ⟨_, .hardened hindex, .cons hslash (.cons rfl (.cons (by simpa using hmarker) .nil))⟩
  · cases hmark
    exact ⟨_, .normal hindex, .cons hslash (.cons rfl .nil)⟩

theorem parses_of_stepOf {step : Step} (h : StepOf lexemes step)
    (occurs : ∀ lexeme ∈ lexemes, lexeme.Occurs) (hconsumes : Consumes tokens lexemes rest)
    (hstops : ∀ token ∈ rest.head?, token.lexeme ≠ .hardenedMarker) :
    ∃ token, Parses Parser.step tokens (step, token) rest := by
  cases h with
  | normal hindex =>
    obtain ⟨slash, _, rfl, hslash, hnext⟩ := Consumes.cons_iff.mp hconsumes
    obtain ⟨token, _, rfl, rfl, hnil⟩ := Consumes.cons_iff.mp hnext
    obtain rfl := Consumes.nil_iff.mp hnil
    have hindex := index?_of_indexOf hindex (occurs _ (by simp))
    refine ⟨token, parses_step.mpr ⟨slash, _, rfl, hslash, hindex, parses_accept.mpr (.inr ?_)⟩⟩
    exact ⟨rfl, rfl, fun token htoken => by simpa using hstops token htoken⟩
  | hardened hindex =>
    obtain ⟨slash, _, rfl, hslash, hnext⟩ := Consumes.cons_iff.mp hconsumes
    obtain ⟨token, _, rfl, rfl, hmark⟩ := Consumes.cons_iff.mp hnext
    obtain ⟨marker, _, rfl, hmarker, hnil⟩ := Consumes.cons_iff.mp hmark
    obtain rfl := Consumes.nil_iff.mp hnil
    have hindex := index?_of_indexOf hindex (occurs _ (by simp))
    refine ⟨token, parses_step.mpr ⟨slash, _, rfl, hslash, hindex, parses_accept.mpr (.inl ?_)⟩⟩
    exact ⟨rfl, marker, rfl, by simpa using hmarker⟩

/-! ### Paths -/

/-- Whether a path goes on with these tokens. -/
def slashAhead (tokens : List Token) : Bool :=
  tokens.head?.any fun token => token.lexeme.kind == .delimiter .slash

theorem slashAhead_of_stops (h : Stops tokens) : slashAhead tokens = false := by
  cases tokens with
  | nil => rfl
  | cons token tail =>
    obtain ⟨hslash, _⟩ := h token rfl
    simpa [slashAhead] using hslash

theorem slashAhead_of_stepOf {step : Step} (h : StepOf lexemes step)
    (hconsumes : Consumes tokens lexemes rest) : slashAhead tokens = true := by
  cases h <;>
  · obtain ⟨slash, tail, rfl, hslash, _⟩ := Consumes.cons_iff.mp hconsumes
    simp [slashAhead, hslash]

theorem head_of_stepsOf {steps : List Step} (h : StepsOf lexemes steps)
    (hconsumes : Consumes tokens lexemes rest) (hstops : Stops rest) :
    ∀ token ∈ tokens.head?, token.lexeme ≠ .hardenedMarker := by
  cases h with
  | nil =>
    obtain rfl := Consumes.nil_iff.mp hconsumes
    exact fun token htoken => (hstops token htoken).2
  | cons head tail =>
    obtain ⟨_, hhead, _⟩ := Consumes.append_iff.mp hconsumes
    have hahead := slashAhead_of_stepOf head hhead
    intro token htoken
    simp only [slashAhead, Option.mem_def.mp htoken, Option.any_some, beq_iff_eq,
      Lexeme.kind_eq_delimiter] at hahead
    simp [hahead]

theorem length_le_of_stepsOf {steps : List Step} (h : StepsOf lexemes steps) :
    steps.length ≤ lexemes.length := by
  induction h with
  | nil => exact Nat.le_refl _
  | cons head tail ih =>
    simp only [List.length_cons, List.length_append]
    cases head <;> simp <;> omega

theorem parses_originSteps_succ {count : Nat} {steps : List Step} :
    Parses (originSteps (count + 1)) tokens steps rest ↔
      (slashAhead tokens = false ∧ steps = [] ∧ rest = tokens) ∨
      (slashAhead tokens = true ∧ ∃ step token mid tail,
        Parses Parser.step tokens (step, token) mid ∧ step.isWildcard = false ∧
          Parses (originSteps count) mid tail rest ∧ steps = step :: tail) := by
  rw [originSteps, parses_bind]
  simp only [parses_peekIs]
  change (∃ found mid, (found = slashAhead tokens ∧ mid = tokens) ∧ _) ↔ _
  cases slashAhead tokens with
  | false => simp
  | true => simp [parses_check]

theorem parses_childSteps_succ {count : Nat} {afterWildcard : Bool} {steps : List Step} :
    Parses (childSteps afterWildcard (count + 1)) tokens steps rest ↔
      (slashAhead tokens = false ∧ steps = [] ∧ rest = tokens) ∨
      (slashAhead tokens = true ∧ ∃ step token mid tail,
        Parses Parser.step tokens (step, token) mid ∧ afterWildcard = false ∧
          Parses (childSteps step.isWildcard count) mid tail rest ∧ steps = step :: tail) := by
  rw [childSteps, parses_bind]
  simp only [parses_peekIs]
  change (∃ found mid, (found = slashAhead tokens ∧ mid = tokens) ∧ _) ↔ _
  cases slashAhead tokens with
  | false => simp
  | true => simp [parses_check]

theorem stepsOf_of_parses_originSteps {count : Nat} {steps : List Step}
    (h : Parses (originSteps count) tokens steps rest) :
    ∃ lexemes, StepsOf lexemes steps ∧ Consumes tokens lexemes rest ∧
      ∀ step ∈ steps, step.isWildcard = false := by
  induction count generalizing tokens steps with
  | zero =>
    obtain ⟨rfl, rfl⟩ := parses_pure.mp h
    exact ⟨[], .nil, .nil, by simp⟩
  | succ count ih =>
    rcases parses_originSteps_succ.mp h with
      ⟨_, rfl, rfl⟩ | ⟨_, step, token, mid, tail, hstep, hconcrete, htail, rfl⟩
    · exact ⟨[], .nil, .nil, by simp⟩
    · obtain ⟨a, ha, hconsumes⟩ := stepOf_of_parses hstep
      obtain ⟨b, hb, hconsumes', hconcrete'⟩ := ih htail
      exact ⟨a ++ b, .cons ha hb, hconsumes.append hconsumes', by simpa [hconcrete] using hconcrete'⟩

theorem parses_originSteps {steps : List Step} (h : StepsOf lexemes steps) :
    ∀ {count : Nat} {tokens : List Token}, steps.length ≤ count →
      (∀ step ∈ steps, step.isWildcard = false) → (∀ lexeme ∈ lexemes, lexeme.Occurs) →
        Consumes tokens lexemes rest → Stops rest → Parses (originSteps count) tokens steps rest := by
  induction h with
  | nil =>
    intro count tokens _ _ _ hconsumes hstops
    obtain rfl := Consumes.nil_iff.mp hconsumes
    cases count with
    | zero => exact parses_pure.mpr ⟨rfl, rfl⟩
    | succ count =>
      exact parses_originSteps_succ.mpr (.inl ⟨slashAhead_of_stops hstops, rfl, rfl⟩)
  | @cons a b step steps head tail ih =>
    intro count tokens hcount hconcrete occurs hconsumes hstops
    obtain ⟨count, rfl⟩ := Nat.exists_eq_add_of_le' (Nat.le_trans (Nat.succ_pos _) hcount)
    obtain ⟨mid, hhead, htail⟩ := Consumes.append_iff.mp hconsumes
    simp only [List.forall_mem_cons, List.forall_mem_append, List.length_cons] at *
    obtain ⟨token, hstep⟩ :=
      parses_of_stepOf head occurs.1 hhead (head_of_stepsOf tail htail hstops)
    have hsteps := ih (Nat.le_of_succ_le_succ hcount) hconcrete.2 occurs.2 htail hstops
    exact parses_originSteps_succ.mpr (.inr ⟨slashAhead_of_stepOf head hhead, step, token, mid,
      steps, hstep, hconcrete.1, hsteps, rfl⟩)

theorem stepsOf_of_parses_childSteps {count : Nat} {afterWildcard : Bool} {steps : List Step}
    (h : Parses (childSteps afterWildcard count) tokens steps rest) :
    ∃ lexemes, StepsOf lexemes steps ∧ Consumes tokens lexemes rest := by
  induction count generalizing tokens steps afterWildcard with
  | zero =>
    obtain ⟨rfl, rfl⟩ := parses_pure.mp h
    exact ⟨[], .nil, .nil⟩
  | succ count ih =>
    rcases parses_childSteps_succ.mp h with
      ⟨_, rfl, rfl⟩ | ⟨_, step, token, mid, tail, hstep, _, htail, rfl⟩
    · exact ⟨[], .nil, .nil⟩
    · obtain ⟨a, ha, hconsumes⟩ := stepOf_of_parses hstep
      obtain ⟨b, hb, hconsumes'⟩ := ih htail
      exact ⟨a ++ b, .cons ha hb, hconsumes.append hconsumes'⟩

theorem parses_childSteps {steps : List Step} (h : StepsOf lexemes steps) :
    ∀ {count : Nat} {tokens : List Token} {afterWildcard : Bool}, steps.length ≤ count →
      (afterWildcard = true → steps = []) → (∀ step ∈ steps.dropLast, step.isWildcard = false) →
        (∀ lexeme ∈ lexemes, lexeme.Occurs) → Consumes tokens lexemes rest → Stops rest →
          Parses (childSteps afterWildcard count) tokens steps rest := by
  induction h with
  | nil =>
    intro count tokens _ _ _ _ _ hconsumes hstops
    obtain rfl := Consumes.nil_iff.mp hconsumes
    cases count with
    | zero => exact parses_pure.mpr ⟨rfl, rfl⟩
    | succ count =>
      exact parses_childSteps_succ.mpr (.inl ⟨slashAhead_of_stops hstops, rfl, rfl⟩)
  | @cons a b step steps head tail ih =>
    intro count tokens afterWildcard hcount hafter hlast occurs hconsumes hstops
    obtain ⟨count, rfl⟩ := Nat.exists_eq_add_of_le' (Nat.le_trans (Nat.succ_pos _) hcount)
    obtain ⟨mid, hhead, htail⟩ := Consumes.append_iff.mp hconsumes
    simp only [List.forall_mem_append, List.length_cons] at *
    obtain ⟨token, hstep⟩ :=
      parses_of_stepOf head occurs.1 hhead (head_of_stepsOf tail htail hstops)
    have hnot : afterWildcard = false := by simpa using hafter
    -- A wildcard among several steps is the last of them.
    have hend : step.isWildcard = true → steps = [] := by
      intro hwildcard
      cases steps with
      | nil => rfl
      | cons next steps =>
        rw [hlast step (by simp)] at hwildcard
        cases hwildcard
    have hrest : ∀ later ∈ steps.dropLast, later.isWildcard = false := by
      intro later hlater
      cases steps with
      | nil => simp at hlater
      | cons next steps => exact hlast later (by simpa using .inr hlater)
    have hsteps := ih (Nat.le_of_succ_le_succ hcount) hend hrest occurs.2 htail hstops
    exact parses_childSteps_succ.mpr (.inr ⟨slashAhead_of_stepOf head hhead, step, token, mid,
      steps, hstep, hnot, hsteps, rfl⟩)

theorem length_le_of_consumes (h : Consumes tokens lexemes rest) :
    lexemes.length ≤ tokens.length := by
  obtain ⟨consumed, rfl, rfl⟩ := h
  simp

theorem originOf_of_parses {path : Path} (h : Parses origin tokens path rest) :
    ∃ lexemes, OriginOf lexemes path ∧ Consumes tokens lexemes rest := by
  unfold origin at h
  simp only [parses_bind, parses_expect, parses_next, Lexeme.kind_eq_delimiter] at h
  obtain ⟨opening, _, ⟨rfl, hopening⟩, token, mid, rfl, h⟩ := h
  cases hdata : token.lexeme.data? with
  | none => simp [hdata] at h
  | some bytes =>
    simp only [hdata] at h
    split at h
    · next hlength =>
      simp only [parses_bind, parses_get, parses_expect, parses_ofPath,
        Lexeme.kind_eq_delimiter] at h
      obtain ⟨_, _, ⟨rfl, rfl⟩, steps, _, hsteps, closing, _, ⟨rfl, hclosing⟩, hpath, rfl⟩ := h
      obtain ⟨lexemes, hlexemes, hconsumes, hconcrete⟩ := stepsOf_of_parses_originSteps hsteps
      cases hlexeme : token.lexeme with
      | hex digits =>
        simp only [Lexeme.data?, hlexeme] at hdata
        obtain ⟨heven, hspells⟩ := ofHex?_eq_some hdata
        have height : digits.length = 8 := by
          have hhalf := length_bytesOf digits
          rw [hspells, hlength] at hhalf
          omega
        obtain ⟨horigin, hpath⟩ := Path.ofSteps_eq_ok.mp hpath
        obtain ⟨_, _, _, _⟩ := path
        subst horigin hpath
        have spelled := @OriginOf.mk digits ⟨bytes, hlength⟩ _ _ height hspells hlexemes hconcrete
        have inside := hconsumes.append (.cons hclosing .nil)
        exact ⟨_, spelled, .cons hopening (.cons hlexeme inside)⟩
      | _ => simp [Lexeme.data?, hlexeme] at hdata
    · simp at h

theorem parses_origin {path : Path} (h : OriginOf lexemes path)
    (occurs : ∀ lexeme ∈ lexemes, lexeme.Occurs) (hconsumes : Consumes tokens lexemes rest) :
    Parses origin tokens path rest := by
  cases h with
  | @mk digits fp lexemes steps height hspells hsteps hconcrete =>
    obtain ⟨opening, _, rfl, hopening, hfront⟩ := Consumes.cons_iff.mp hconsumes
    obtain ⟨token, mid, rfl, hdigits, hback⟩ := Consumes.cons_iff.mp hfront
    obtain ⟨_, hinside, hclose⟩ := Consumes.append_iff.mp hback
    obtain ⟨closing, behind, rfl, hclosing, hnil⟩ := Consumes.cons_iff.mp hclose
    obtain rfl := Consumes.nil_iff.mp hnil
    have hdata : token.lexeme.data? = some fp.val := by
      obtain ⟨_, hhex⟩ := hex_of_occurs (occurs (.hex digits) (by simp))
      rw [hdigits, Lexeme.data?, ofHex?_of_even (by omega) hhex, hspells]
    have hcount : steps.length ≤ mid.length :=
      Nat.le_trans (length_le_of_stepsOf hsteps) (length_le_of_consumes hinside)
    have hstops : Stops (closing :: behind) :=
      stops_of_consumes_delimiter (by decide) (.cons hclosing .nil)
    have hsteps := parses_originSteps hsteps hcount hconcrete
      (fun lexeme h => occurs lexeme (by simp [h])) hinside hstops
    unfold origin
    simp only [parses_bind, parses_expect, parses_next, Lexeme.kind_eq_delimiter]
    refine ⟨opening, _, ⟨rfl, hopening⟩, token, mid, rfl, ?_⟩
    simp only [hdata, dif_pos fp.property, parses_bind, parses_get, parses_expect, parses_ofPath,
      Lexeme.kind_eq_delimiter]
    exact ⟨_, _, ⟨rfl, rfl⟩, steps, _, hsteps, closing, _, ⟨rfl, hclosing⟩,
      Path.ofSteps_eq_ok.mpr ⟨rfl, rfl⟩, rfl⟩

/-! ### Keys -/

theorem parses_publicKey {token : Token} {key : PublicKey} :
    Parses (publicKey token) tokens key rest ↔
      rest = tokens ∧ token.lexeme.data? = some key.toBytes ∧ key.isOnCurve = true := by
  unfold publicKey
  cases hdata : token.lexeme.data? with
  | none => simp
  | some bytes =>
    dsimp only
    constructor
    · intro h
      split at h
      · split at h
        · next found hfound =>
          obtain ⟨rfl, rfl⟩ := parses_pure.mp h
          obtain ⟨rfl, hcurve⟩ := PublicKey.ofBytes?_eq_some hfound
          exact ⟨rfl, rfl, hcurve⟩
        · exact absurd h not_parses_failAt
      · exact absurd h not_parses_failAt
    · rintro ⟨rfl, hbytes, hcurve⟩
      cases hbytes
      have hlength : key.toBytes.length = 33 ∨ key.toBytes.length = 65 := by
        rw [PublicKey.length_toBytes]
        cases key.isCompressed <;> simp
      simp [hlength, PublicKey.ofBytes?_toBytes hcurve]

theorem parses_children {path : Path} :
    Parses children tokens path rest ↔
      path.origin = .unnamed ∧ Parses (childSteps false tokens.length) tokens path.steps rest := by
  simp only [children, parses_bind, parses_get, parses_ofPath, Path.children, Path.ofSteps_eq_ok]
  constructor
  · rintro ⟨_, _, ⟨rfl, rfl⟩, steps, _, hsteps, ⟨horigin, rfl⟩, rfl⟩
    exact ⟨horigin, hsteps⟩
  · rintro ⟨horigin, hsteps⟩
    exact ⟨_, _, ⟨rfl, rfl⟩, _, _, hsteps, ⟨horigin, rfl⟩, rfl⟩

/-- The key behind its origin, whose first token has been consumed. -/
def material (token : Token) : Parser Key :=
  match token.lexeme with
  | .hex _ => Key.literal <$> publicKey token
  | .wif key => pure (.wif key)
  | .extendedKey key => Key.extended key <$> children
  | _ => failAt token (.expected .key)

theorem materialOf_of_parses {token : Token} {key : Key}
    (h : Parses (material token) tokens key rest) :
    ∃ lexemes, MaterialOf lexemes key ∧ Consumes (token :: tokens) lexemes rest := by
  unfold material at h
  split at h
  · next digits hdigits =>
    obtain ⟨key, hkey, rfl⟩ := parses_map.mp h
    obtain ⟨rfl, hdata, hcurve⟩ := parses_publicKey.mp hkey
    rw [hdigits] at hdata
    obtain ⟨heven, hspells⟩ := ofHex?_eq_some hdata
    exact ⟨_, .literal heven hspells hcurve, .cons hdigits .nil⟩
  · next wif hwif =>
    obtain ⟨rfl, rfl⟩ := parses_pure.mp h
    exact ⟨_, .wif wif, .cons hwif .nil⟩
  · next extended hextended =>
    obtain ⟨path, hpath, rfl⟩ := parses_map.mp h
    obtain ⟨horigin, hsteps⟩ := parses_children.mp hpath
    obtain ⟨_, steps, last, _⟩ := path
    subst horigin
    obtain ⟨lexemes, hlexemes, hconsumes⟩ := stepsOf_of_parses_childSteps hsteps
    exact ⟨_, .extended extended hlexemes last, .cons hextended hconsumes⟩
  · exact absurd h not_parses_failAt

theorem parses_material {key : Key} (h : MaterialOf lexemes key)
    (occurs : ∀ lexeme ∈ lexemes, lexeme.Occurs) (hconsumes : Consumes tokens lexemes rest)
    (hstops : Stops rest) : ∃ token tail, tokens = token :: tail ∧
      token.lexeme ≠ .delimiter .openBracket ∧ Parses (material token) tail key rest := by
  cases h with
  | @literal digits key heven hspells hcurve =>
    obtain ⟨token, _, rfl, hdigits, hnil⟩ := Consumes.cons_iff.mp hconsumes
    obtain rfl := Consumes.nil_iff.mp hnil
    obtain ⟨_, hhex⟩ := hex_of_occurs (occurs (.hex digits) (by simp))
    have hdata : token.lexeme.data? = some key.toBytes := by
      rw [hdigits, Lexeme.data?, ofHex?_of_even heven hhex, hspells]
    refine ⟨token, _, rfl, by simp [hdigits], ?_⟩
    simp only [material, hdigits, parses_map]
    exact ⟨key, parses_publicKey.mpr ⟨rfl, hdata, hcurve⟩, rfl⟩
  | wif key =>
    obtain ⟨token, _, rfl, hwif, hnil⟩ := Consumes.cons_iff.mp hconsumes
    obtain rfl := Consumes.nil_iff.mp hnil
    refine ⟨token, _, rfl, by simp [hwif], ?_⟩
    simp [material, hwif]
  | @extended key lexemes steps hsteps last =>
    obtain ⟨token, tail, rfl, hextended, hrest⟩ := Consumes.cons_iff.mp hconsumes
    refine ⟨token, tail, rfl, by simp [hextended], ?_⟩
    have hcount : steps.length ≤ tail.length :=
      Nat.le_trans (length_le_of_stepsOf hsteps) (length_le_of_consumes hrest)
    have hsteps : Parses (childSteps false tail.length) tail steps rest :=
      parses_childSteps hsteps hcount (by simp) last (fun lexeme h => occurs lexeme (by simp [h]))
        hrest hstops
    simp only [material, hextended, parses_map]
    exact ⟨_, parses_children.mpr ⟨rfl, hsteps⟩, rfl⟩

/-- The path in front of a key, if there is one. -/
def optionalOrigin : Parser (Option Path) := do
  if ← peekIs (.delimiter .openBracket) then some <$> origin else pure none

theorem key_eq : key = (do
    let origin ← optionalOrigin
    let token ← next .key
    let key ← material token
    return ⟨origin, key⟩) := by
  have hrest (origin : Option Path) (token : Token) :
      (do let key ← material token; return ⟨origin, key⟩ : Parser KeyExpression) =
        match token.lexeme with
        | .hex _ => do let key ← Key.literal <$> publicKey token; return ⟨origin, key⟩
        | .wif key => do let key ← pure (Key.wif key); return ⟨origin, key⟩
        | .extendedKey key => do let key ← Key.extended key <$> children; return ⟨origin, key⟩
        | _ => do let key ← failAt token (.expected .key); return ⟨origin, key⟩ := by
    unfold material
    cases token.lexeme <;> rfl
  unfold key optionalOrigin
  simp only [hrest, bind_assoc]
  congr 1
  funext found
  cases found <;> rfl

theorem parses_optionalOrigin {front : Option Path} :
    Parses optionalOrigin tokens front rest ↔
      (tokens.head?.map Token.lexeme ≠ some (.delimiter .openBracket) ∧ front = none ∧
        rest = tokens) ∨
      ∃ path, front = some path ∧ Parses origin tokens path rest := by
  unfold optionalOrigin
  cases tokens with
  | nil => simp [origin, parses_bind]
  | cons token tail =>
    by_cases h : token.lexeme = .delimiter .openBracket
    · simp [h, and_comm]
    · have hfails : ∀ path, ¬ Parses origin (token :: tail) path rest := by
        intro path hpath
        obtain ⟨_, horigin, hconsumes⟩ := originOf_of_parses hpath
        cases horigin
        obtain ⟨_, _, heq, hopening, _⟩ := Consumes.cons_iff.mp hconsumes
        cases heq
        exact h hopening
      simp [h, hfails]

theorem keyOf_of_parses {expr : KeyExpression} (h : Parses key tokens expr rest) :
    ∃ lexemes, KeyOf lexemes expr ∧ Consumes tokens lexemes rest := by
  rw [key_eq] at h
  simp only [parses_bind, parses_next, parses_pure] at h
  obtain ⟨front, _, hfront, token, mid, rfl, material, _, hmaterial, rfl, rfl⟩ := h
  obtain ⟨b, hb, hconsumes⟩ := materialOf_of_parses hmaterial
  rcases parses_optionalOrigin.mp hfront with ⟨_, rfl, rfl⟩ | ⟨path, rfl, hpath⟩
  · exact ⟨b, .bare hb, hconsumes⟩
  · obtain ⟨a, ha, hconsumes'⟩ := originOf_of_parses hpath
    exact ⟨a ++ b, .withOrigin ha hb, hconsumes'.append hconsumes⟩

theorem parses_key {expr : KeyExpression} (h : KeyOf lexemes expr)
    (occurs : ∀ lexeme ∈ lexemes, lexeme.Occurs) (hconsumes : Consumes tokens lexemes rest)
    (hstops : Stops rest) : Parses key tokens expr rest := by
  rw [key_eq]
  simp only [parses_bind, parses_next, parses_pure]
  cases h with
  | bare hkey =>
    obtain ⟨token, tail, rfl, hne, hparses⟩ := parses_material hkey occurs hconsumes hstops
    refine ⟨none, _, parses_optionalOrigin.mpr (.inl ⟨by simpa using hne, rfl, rfl⟩), token, tail,
      rfl, _, _, hparses, rfl, rfl⟩
  | withOrigin horigin hkey =>
    obtain ⟨mid, hfront, hback⟩ := Consumes.append_iff.mp hconsumes
    simp only [List.forall_mem_append] at occurs
    have hpath := parses_origin horigin occurs.1 hfront
    obtain ⟨token, tail, rfl, _, hparses⟩ := parses_material hkey occurs.2 hback hstops
    exact ⟨_, _, parses_optionalOrigin.mpr (.inr ⟨_, rfl, hpath⟩), token, tail, rfl, _, _, hparses,
      rfl, rfl⟩

end Parser

end OutputDescriptor
