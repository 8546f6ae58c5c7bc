import Mathlib.Data.List.Chain
import OutputDescriptor.Proofs.Grammar.Failure
import OutputDescriptor.Proofs.Traversal

/-!
A parser that is asked again and again.

Keys and trees may be asked for in any order, each from where the one before stopped. The place
between them only moves forward: past what was found, up to the fault of a key that was not, and not
at all where no tree was. The position that a failure reports may lie ahead of that place or behind
it, but never before the place where the failing call began.
-/

namespace OutputDescriptor.Parser

variable {α β : Type} {p : Parser α} {tokens rest whole : List Token}

/-! ### Parsers only move forward -/

/-- The tokens that a parser leaves, whether it succeeds or fails. -/
def left (p : Parser α) (tokens : List Token) : List Token :=
  @Prod.snd (Except ParseError α) (List Token) (p tokens)

theorem left_of_fails {error : ParseError}
    (h : @Eq (Except ParseError α × List Token) (p tokens) (.error error, rest)) :
    left p tokens = rest :=
  congrArg Prod.snd h

def Forward (p : Parser α) : Prop :=
  ∀ tokens, left p tokens <:+ tokens

namespace Forward

theorem pure (value : α) : Forward (pure value : Parser α) :=
  List.suffix_refl

theorem failAt (token : Token) (reason : ParseReason) : Forward (failAt token reason : Parser α) :=
  List.suffix_refl

theorem fail (reason : ParseReason) : Forward (fail reason : Parser α) := by
  intro tokens
  exact ⟨[], left_of_fails (fail_apply reason tokens)⟩

theorem bind {f : α → Parser β} (hp : Forward p) (hf : ∀ value, Forward (f value)) :
    Forward (p >>= f) := by
  intro tokens
  have hmid := hp tokens
  unfold left at hmid ⊢
  rw [bind_apply]
  cases h : p tokens with
  | mk result mid =>
    rw [h] at hmid
    cases result with
    | ok value => exact (hf value mid).trans hmid
    | error error => exact hmid

theorem map (hp : Forward p) (f : α → β) : Forward (f <$> p) := by
  rw [← bind_pure_comp]
  exact hp.bind fun value => .pure (f value)

theorem get : Forward (get : Parser (List Token)) :=
  List.suffix_refl

theorem peekIs (kind : TokenKind) : Forward (peekIs kind) :=
  get.bind fun _ => .pure _

theorem advance : Forward advance := by
  intro tokens
  cases tokens with
  | nil => exact List.suffix_refl []
  | cons token tail => exact List.suffix_cons token tail

theorem next (what : Expected) : Forward (next what) := by
  refine Forward.bind (p := peek) (get.bind fun _ => .pure _) fun head => ?_
  cases head with
  | some token => exact advance.bind fun _ => .pure token
  | none => exact .fail _

theorem expect (kind : TokenKind) : Forward (expect kind) :=
  (peekIs kind).bind fun found =>
    match found with
    | true => next _
    | false => .fail _

theorem accept (kind : TokenKind) : Forward (accept kind) :=
  (peekIs kind).bind fun found =>
    match found with
    | true => advance.bind fun _ => .pure true
    | false => .pure false

/-- A check that complains about a token that was consumed. -/
theorem check {c : Prop} [Decidable c] (token : Token) (reason : ParseReason) (hp : Forward p) :
    Forward (if c then Parser.failAt token reason >>= fun _ : PUnit => p else p) := by
  split
  · exact (failAt token _).bind fun _ => hp
  · exact hp

/-! ### Keys move forward -/

theorem step : Forward step := by
  refine (expect _).bind fun _ => (next _).bind fun token => ?_
  have found (index : StepIndex) : Forward do
      let hardened ← Parser.accept .hardenedMarker
      return ((⟨index, hardened⟩ : Step), token) :=
    (accept _).bind fun _ => .pure _
  split
  · exact (pure _).bind found
  · split
    · exact (failAt token _).bind found
    · split
      · exact (failAt token _).bind found
      · exact (pure _).bind found

theorem ofPath (path : Except PathError Path) : Forward (ofPath path) := by
  cases path with
  | ok path => exact .pure path
  | error error => exact .fail _

theorem originSteps (count : Nat) : Forward (originSteps count) := by
  induction count with
  | zero => exact .pure []
  | succ count ih =>
    refine (peekIs _).bind fun ahead => ?_
    cases ahead with
    | false => exact .pure []
    | true => exact step.bind fun _ => .check _ _ (ih.bind fun _ => .pure _)

theorem origin : Forward origin := by
  refine (expect _).bind fun _ => (next _).bind fun token => ?_
  split
  · exact .failAt token _
  · split
    · exact get.bind fun _ => (originSteps _).bind fun _ => (expect _).bind fun _ => .ofPath _
    · exact .failAt token _

theorem childSteps (afterWildcard : Bool) (count : Nat) :
    Forward (childSteps afterWildcard count) := by
  induction count generalizing afterWildcard with
  | zero => exact .pure []
  | succ count ih =>
    refine (peekIs _).bind fun ahead => ?_
    cases ahead with
    | false => exact .pure []
    | true => exact step.bind fun _ => .check _ _ ((ih _).bind fun _ => .pure _)

theorem children : Forward children :=
  get.bind fun _ => (childSteps _ _).bind fun _ => .ofPath _

theorem publicKey (token : Token) : Forward (publicKey token) := by
  unfold Parser.publicKey
  split
  · exact .failAt token _
  · split
    · split
      · exact .pure _
      · exact .failAt token _
    · exact .failAt token _

theorem material (token : Token) : Forward (material token) := by
  unfold Parser.material
  split
  · exact (publicKey token).map _
  · exact .pure _
  · exact children.map _
  · exact .failAt token _

theorem optionalOrigin : Forward optionalOrigin :=
  (peekIs _).bind fun found =>
    match found with
    | true => origin.map _
    | false => .pure _

theorem key : Forward key := by
  rw [key_eq]
  exact optionalOrigin.bind fun _ => (next _).bind fun _ => (material _).bind fun _ => .pure _

end Forward

/-! ### Trees that are not found -/

theorem left_firstOf_of_fails {what : Expected} {furthest : Option ParseError}
    {ps : List (Parser α)} {error : ParseError}
    (h : @Eq (Except ParseError α × List Token) (firstOf what furthest ps tokens)
      (.error error, rest)) : rest = tokens := by
  -- whatever an alternative consumed before it failed, the next one begins at the same tokens
  induction ps generalizing furthest with
  | nil =>
    rw [firstOf_nil] at h
    exact (congrArg Prod.snd h).symm
  | cons p ps ih =>
    cases hp : p tokens with
    | mk result mid =>
      cases result with
      | ok value =>
        have found : Parses (firstOf what furthest (p :: ps)) tokens value mid :=
          firstOf_cons_of_parses hp
        cases found.symm.trans h
      | error earlier =>
        rw [firstOf_cons_of_fails hp] at h
        exact ih h

/-- Where no tree is found, no token is consumed. -/
theorem left_descriptor_of_fails {error : ParseError}
    (h : @Eq (Except ParseError Descriptor × List Token) (descriptor tokens) (.error error, rest)) :
    rest = tokens := by
  rw [descriptor, bind_apply, parses_peekIs_keyword tokens .tr] at h
  dsimp only at h
  split at h
  · -- taproot is refused before anything is consumed
    rw [bind_apply, fail_apply] at h
    exact (congrArg Prod.snd h).symm
  · exact left_firstOf_of_fails h

theorem Stays.top : Stays whole (atPlace .top) := by
  refine firstOf ?_ (by simp)
  simp only [alternativesAt, List.forall_mem_cons]
  exact ⟨scriptArgument.call _, (key.call _).map _, (key.call _).map _, (key.call _).map _, multi,
    (insideWsh.call _).map _, (insideSh.call _).map _, addressArgument.call _, (key.call _).map _,
    by simp⟩

theorem Stays.descriptor : Stays whole descriptor := by
  refine (peekIs _).bind' fun taproot => ?_
  cases taproot with
  | true => exact (fail (by nofun)).bind' fun _ => top
  | false => exact top

/-! ### Sessions -/

/-- What is asked for. -/
inductive Request
  | key
  | descriptor
deriving DecidableEq

/-- What is found. -/
inductive Found
  | key (expr : KeyExpression)
  | descriptor (node : Descriptor)
deriving DecidableEq

def Request.parser : Request → Parser Found
  | key => Found.key <$> Parser.key
  | descriptor => Found.descriptor <$> Parser.descriptor

/-- One call, with the tokens ahead of it and those it left. -/
structure Call where
  request : Request
  ahead : List Token
  result : Except ParseError Found
  left : List Token

def Request.call (request : Request) (ahead : List Token) : Call :=
  match request.parser ahead with
  | (result, left) => ⟨request, ahead, result, left⟩

/-- Calls of one parser, each where the one before stopped. -/
def session (ahead : List Token) : List Request → List Call
  | [] => []
  | request :: requests =>
    let call := request.call ahead
    call :: session call.left requests

/-- How many of the tokens have been passed if the given ones are left. -/
def cursor (tokens left : List Token) : Nat :=
  tokens.length - left.length

namespace Call

/-- The cursor over the tokens when a call begins, and when it is over. -/
def before (tokens : List Token) (call : Call) : Nat :=
  cursor tokens call.ahead

def after (tokens : List Token) (call : Call) : Nat :=
  cursor tokens call.left

/-- What a call of a parser over the tokens keeps to. No parser moves past the last token: one that
tried would fail with `overrun`, and no failure is one. -/
structure Proper (tokens : List Token) (call : Call) : Prop where
  ahead : call.ahead = tokens.drop (call.before tokens)
  left : call.left = tokens.drop (call.after tokens)
  inBounds : call.after tokens ≤ tokens.length
  forward : call.before tokens ≤ call.after tokens
  advances : ∀ found, call.result = .ok found → call.before tokens < call.after tokens
  guarded : ∀ error, call.result = .error error → error.reason ≠ .overrun
  restores : ∀ error, call.result = .error error → call.request = .descriptor →
    call.after tokens = call.before tokens
  place : ∀ error, call.result = .error error → error.position = .endOfInput ∨
    ∃ i token, call.before tokens ≤ i ∧ tokens[i]? = some token ∧
      error.position = .span token.start token.stop

end Call

theorem eq_drop_cursor (h : rest <:+ tokens) : rest = tokens.drop (cursor tokens rest) :=
  List.suffix_iff_eq_drop.mp h

theorem cursor_le_of_suffix {later : List Token} (h : later <:+ rest) :
    cursor tokens rest ≤ cursor tokens later := by
  have := h.length_le
  unfold cursor
  omega

theorem cursor_lt_of_suffix {later : List Token} (h : rest <:+ tokens)
    (lt : later.length < rest.length) : cursor tokens rest < cursor tokens later := by
  have := h.length_le
  unfold cursor
  omega

/-- Places among the tokens ahead lie behind the cursor. -/
theorem exists_of_liesIn {position : Position} (h : rest <:+ tokens) (lies : position.LiesIn rest) :
    position = .endOfInput ∨ ∃ i token, cursor tokens rest ≤ i ∧ tokens[i]? = some token ∧
      position = .span token.start token.stop := by
  rcases lies with hend | ⟨token, hmem, hspan⟩
  · exact .inl hend
  · obtain ⟨i, hi⟩ := List.getElem?_of_mem hmem
    rw [eq_drop_cursor h, List.getElem?_drop] at hi
    exact .inr ⟨_, token, Nat.le_add_right _ _, hi, hspan⟩

/-! ### Single calls -/

theorem length_lt_of_consumes {lexemes : List Lexeme} (hne : lexemes ≠ [])
    (h : Consumes tokens lexemes rest) : rest.length < tokens.length := by
  obtain ⟨consumed, rfl, rfl⟩ := h
  have hpos : 0 < consumed.length := List.length_pos_iff.mpr (by simpa using hne)
  rw [List.length_append]
  omega

theorem ne_nil_of_keyOf {lexemes : List Lexeme} {expr : KeyExpression}
    (h : Grammar.KeyOf lexemes expr) : lexemes ≠ [] := by
  cases h with
  | bare h =>
    cases h
    all_goals exact List.cons_ne_nil _ _
  | withOrigin front h =>
    cases front
    exact List.cons_ne_nil _ _

/-- A parser behind a map fails as it does alone. -/
theorem fails_of_map {f : α → β} {error : ParseError}
    (h : @Eq (Except ParseError β × List Token) ((f <$> p) tokens) (.error error, rest)) :
    @Eq (Except ParseError α × List Token) (p tokens) (.error error, rest) := by
  rw [← bind_pure_comp, bind_apply] at h
  cases hp : p tokens with
  | mk result mid =>
    rw [hp] at h
    cases result with
    | ok value => cases h
    | error earlier =>
      cases h
      rfl

namespace Request

variable {request : Request} {ahead : List Token} {found : Found} {error : ParseError}

/-- What is found is written with tokens. -/
theorem consumes_of_parses (h : Parses request.parser ahead found rest) :
    ∃ lexemes, lexemes ≠ [] ∧ Consumes ahead lexemes rest := by
  cases request with
  | key =>
    obtain ⟨expr, hkey, _⟩ := parses_map.mp h
    obtain ⟨lexemes, spells, hconsumes⟩ := keyOf_of_parses hkey
    exact ⟨lexemes, ne_nil_of_keyOf spells, hconsumes⟩
  | descriptor =>
    obtain ⟨node, hnode, _⟩ := parses_map.mp h
    obtain ⟨lexemes, derives, hconsumes⟩ := derives_of_parses (parses_descriptor.mp hnode)
    exact ⟨lexemes, Grammar.ne_nil_of_derives derives, hconsumes⟩

theorem left_suffix_of_fails
    (h : @Eq (Except ParseError Found × List Token) (request.parser ahead) (.error error, rest)) :
    rest <:+ ahead := by
  cases request with
  | key =>
    rw [← left_of_fails h]
    exact Forward.key.map _ ahead
  | descriptor =>
    obtain rfl := left_descriptor_of_fails (fails_of_map h)
    exact List.suffix_refl rest

theorem faulty_of_fails
    (h : @Eq (Except ParseError Found × List Token) (request.parser ahead) (.error error, rest)) :
    error.position.LiesIn ahead ∧ error.reason ≠ .overrun := by
  have stays : Stays ahead request.parser := by
    cases request with
    | key => exact Stays.key.map _
    | descriptor => exact Stays.descriptor.map _
  rcases stays ahead (List.suffix_refl ahead) with ⟨_, _, hparses, _⟩ | ⟨_, _, hfails, faulty⟩
  · cases hparses.symm.trans h
  · cases hfails.symm.trans h
    exact faulty

theorem left_suffix : (request.call ahead).left <:+ ahead := by
  unfold call
  cases hrun : request.parser ahead with
  | mk result left =>
    cases result with
    | ok found =>
      obtain ⟨_, _, consumed, _, hahead⟩ := consumes_of_parses hrun
      exact ⟨consumed, hahead.symm⟩
    | error error => exact left_suffix_of_fails hrun

theorem run_of_result {result : Except ParseError Found} (h : (request.call ahead).result = result) :
    @Eq (Except ParseError Found × List Token) (request.parser ahead)
      (result, (request.call ahead).left) := by
  rw [← h]
  rfl

/-- Wherever it begins, a call keeps to the cursor. -/
theorem call_proper (h : ahead <:+ tokens) : (request.call ahead).Proper tokens where
  ahead := eq_drop_cursor h
  left := eq_drop_cursor (left_suffix.trans h)
  inBounds := Nat.sub_le _ _
  forward := cursor_le_of_suffix left_suffix
  advances found hfound := by
    obtain ⟨lexemes, hne, hconsumes⟩ := consumes_of_parses (run_of_result hfound)
    exact cursor_lt_of_suffix h (length_lt_of_consumes hne hconsumes)
  guarded error herror := (faulty_of_fails (run_of_result herror)).2
  restores error herror hrequest := by
    obtain rfl : request = descriptor := hrequest
    have unmoved := left_descriptor_of_fails (fails_of_map (run_of_result herror))
    exact congrArg (cursor tokens) unmoved
  place error herror := 
    exists_of_liesIn h (faulty_of_fails (run_of_result herror)).1

end Request

/-! ### Runs of calls -/

variable {requests : List Request} {ahead : List Token}

theorem forall_mem_session (h : ahead <:+ tokens) :
    ∀ call ∈ session ahead requests, call.Proper tokens ∧ call.ahead <:+ ahead := by
  induction requests generalizing ahead with
  | nil => simp [session]
  | cons request requests ih =>
    have onward : (request.call ahead).left <:+ ahead := Request.left_suffix
    intro call hcall
    rcases List.mem_cons.mp hcall with rfl | hcall
    · exact ⟨request.call_proper h, List.suffix_refl ahead⟩
    · obtain ⟨proper, hsuffix⟩ := ih (onward.trans h) call hcall
      exact ⟨proper, hsuffix.trans onward⟩

theorem ahead_of_head? : ∀ call ∈ (session ahead requests).head?, call.ahead = ahead := by
  cases requests with
  | nil => simp [session]
  | cons request requests =>
    intro call hcall
    cases hcall
    rfl

theorem isChain_session :
    (session ahead requests).IsChain fun call next => next.ahead = call.left := by
  induction requests generalizing ahead with
  | nil => exact .nil
  | cons request requests ih => exact List.isChain_cons.mpr ⟨ahead_of_head?, ih⟩

theorem pairwise_session (h : ahead <:+ tokens) :
    (session ahead requests).Pairwise fun earlier later =>
      earlier.after tokens ≤ later.before tokens := by
  induction requests generalizing ahead with
  | nil => exact .nil
  | cons request requests ih =>
    have onward := request.left_suffix.trans h
    refine .cons (fun later hlater => ?_) (ih onward)
    exact cursor_le_of_suffix (forall_mem_session onward later hlater).2

theorem requests_session : (session ahead requests).map Call.request = requests := by
  induction requests generalizing ahead with
  | nil => rfl
  | cons request requests ih => exact congrArg (request :: ·) ih

/-- The cursor over any run of calls. Every call begins where the one before stopped, and the cursor
stays in bounds and never moves back; where no token is left nothing tries to move it on. A call that
finds something moves it ahead, a tree that is not found leaves it where it was, and the place of a
failure lies at a token that was still ahead when the call began, or behind all of them. -/
theorem session_cursor (tokens : List Token) (requests : List Request) :
    (session tokens requests).map Call.request = requests ∧
    (∀ call ∈ (session tokens requests).head?, call.ahead = tokens) ∧
    (session tokens requests).IsChain (fun call next => next.ahead = call.left) ∧
    (session tokens requests).Pairwise (fun earlier later =>
      earlier.after tokens ≤ later.before tokens) ∧
    ∀ call ∈ session tokens requests, call.Proper tokens := by
  have whole := List.suffix_refl tokens
  refine ⟨requests_session, ahead_of_head?, isChain_session, pairwise_session whole, ?_⟩
  intro call hcall
  exact (forall_mem_session whole call hcall).1

/-- An origin that is not closed, in front of a script. -/
def sessionSample : List Char := "[d34db33f)raw(a0)".toList

/-- A key is given up behind its fingerprint, no tree begins there, and the next key takes a token
before it is refused. Only then the script is found. -/
theorem session_cursor_sample :
    ∃ tokens, tokenize sessionSample = .ok tokens ∧
      let calls := session tokens [.key, .descriptor, .key, .descriptor]
      (calls.map fun call => (call.before tokens, call.after tokens)) =
        [(0, 2), (2, 2), (2, 3), (3, 7)] ∧
      (calls.map fun call => call.result.toOption) =
        [none, none, none, some (.descriptor (.raw [0xa0]))] ∧
      ∀ call ∈ calls, call.Proper tokens := by
  have runs : ((tokenize sessionSample).toOption.map fun tokens =>
      let calls := session tokens [.key, .descriptor, .key, .descriptor]
      (calls.map fun call => (call.before tokens, call.after tokens),
        calls.map fun call => call.result.toOption)) =
      some ([(0, 2), (2, 2), (2, 3), (3, 7)],
        [none, none, none, some (.descriptor (.raw [0xa0]))]) := by decide +kernel
  obtain ⟨tokens, htokens, hcalls⟩ := exists_ok_of_toOption_map runs
  obtain ⟨places, results⟩ := Prod.ext_iff.mp hcalls
  obtain ⟨_, _, _, _, proper⟩ := session_cursor tokens [.key, .descriptor, .key, .descriptor]
  exact ⟨tokens, htokens, places, results, proper⟩

end OutputDescriptor.Parser
