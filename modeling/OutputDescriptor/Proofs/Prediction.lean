import Mathlib.Data.List.Nodup
import OutputDescriptor.Proofs.Grammar.Failure

/-!
Descriptors can be parsed without going back.

The keyword in front tells which production is meant. A parser that looks at nothing else, and runs
that one production, finds the same trees and reports the same failures as the parser that tries one
alternative after the other. For every production but that one fails at the keyword, and that one
fails further on, where the tokens of a text have other places; so its failure is the one that came
furthest, and no failure that came as far replaces it.
-/

namespace OutputDescriptor

/-- The keyword of the production that reads a keyword. -/
def Keyword.root : Keyword → Keyword
  | .sortedmulti => .multi
  | keyword => keyword

/-! ### The parser that does not go back -/

namespace Parser.Predictive

/-- Runs the production of the keyword in front. A keyword without one, any other token and the end
of the tokens are refused. -/
def choose (what : Expected) (production? : Keyword → Option (Parser Descriptor)) :
    Parser Descriptor := do
  match ((← peek).bind (·.lexeme.keyword?)).bind production? with
  | some production => production
  | none => fail (.expected what)

def multi (sorted : Bool) : Parser Descriptor :=
  call (Grammar.multisigKeyword sorted) (multisigArgument sorted)

def insideWsh? : Keyword → Option (Parser Descriptor)
  | .pk => some pk
  | .pkh => some pkh
  | .multi => some (multi false)
  | .sortedmulti => some (multi true)
  | _ => none

def insideWsh : Parser Descriptor := choose .insideWsh insideWsh?

def wsh : Parser Descriptor := .wsh <$> call .wsh insideWsh

def insideSh? : Keyword → Option (Parser Descriptor)
  | .pk => some pk
  | .pkh => some pkh
  | .wpkh => some wpkh
  | .wsh => some wsh
  | .multi => some (multi false)
  | .sortedmulti => some (multi true)
  | _ => none

def insideSh : Parser Descriptor := choose .insideSh insideSh?

def sh : Parser Descriptor := .sh <$> call .sh insideSh

def top? : Keyword → Option (Parser Descriptor)
  | .raw => some raw
  | .pk => some pk
  | .pkh => some pkh
  | .wpkh => some wpkh
  | .combo => some combo
  | .multi => some (multi false)
  | .sortedmulti => some (multi true)
  | .wsh => some wsh
  | .sh => some sh
  | .addr => some addr
  | .tr => none

/-- Refuses taproot descriptors for what they are, before anything is called for. -/
def taprootRefused (p : Parser Descriptor) : Parser Descriptor := do
  if ← peekIs (.keyword .tr) then fail .taproot
  p

def descriptor : Parser Descriptor := taprootRefused (choose .descriptor top?)

end Parser.Predictive

namespace Parser

open Grammar

variable {tokens : List Token} {keyword root : Keyword}

/-! ### Productions -/

/-- The keywords of the alternatives at a place. -/
def rootsAt : Place → List Keyword
  | .top => [.raw, .pk, .pkh, .wpkh, .multi, .wsh, .sh, .addr, .combo]
  | .insideSh => [.pk, .pkh, .wpkh, .wsh, .multi]
  | .insideWsh => [.pk, .pkh, .multi]

theorem alternativesAt_eq (place : Place) :
    (alternativesAt place).2 = (rootsAt place).map production := by
  cases place <;> rfl

theorem rootsAt_nodup (place : Place) : (rootsAt place).Nodup := by
  cases place <;> decide

theorem rootsAt_subset (place : Place) : ∀ root ∈ rootsAt place, root ∈ rootsAt .top := by
  cases place <;> decide

/-- Where another keyword stands, or none, a production fails at once. -/
theorem production_fails_here (hroot : root ∈ rootsAt .top)
    (h : ∀ keyword, keywordAhead tokens = some keyword → keyword.root ≠ root) :
    Fails (production root) tokens (· = here tokens) := by
  have absent {keyword : Keyword} (hkeyword : keyword.root = root) :
      keywordAhead tokens ≠ some keyword :=
    fun hahead => h keyword hahead hkeyword
  simp only [rootsAt, List.mem_cons, List.not_mem_nil, or_false] at hroot
  rcases hroot with rfl | rfl | rfl | rfl | rfl | rfl | rfl | rfl | rfl
  · exact call_fails_here (absent rfl)
  · exact (call_fails_here (absent rfl)).map _
  · exact (call_fails_here (absent rfl)).map _
  · exact (call_fails_here (absent rfl)).map _
  · refine .bind_of_parses (parses_peekIs_keyword tokens .sortedmulti) ?_
    cases keywordAhead tokens == some .sortedmulti with
    | false => exact call_fails_here (absent rfl)
    | true => exact call_fails_here (absent rfl)
  · exact (call_fails_here (absent rfl)).map _
  · exact (call_fails_here (absent rfl)).map _
  · exact call_fails_here (absent rfl)
  · exact (call_fails_here (absent rfl)).map _

/-- Where its keyword stands, a production does not fail before the next token. -/
theorem production_behind {name : Token} {tail : List Token}
    (h : keywordAhead (name :: tail) = some keyword) (hroot : keyword.root ∈ rootsAt .top) :
    FailsOnly (production keyword) (name :: tail) (·.LiesIn tail) := by
  have hsorted := parses_peekIs_keyword (name :: tail) .sortedmulti
  rw [h] at hsorted
  cases keyword with
  | raw => exact call_behind h .scriptArgument
  | pk => exact (call_behind h .key).map _
  | pkh => exact (call_behind h .key).map _
  | wpkh => exact (call_behind h .key).map _
  | combo => exact (call_behind h .key).map _
  | multi => exact .bind_of_parses hsorted (call_behind h (.multisigArgument false))
  | sortedmulti => exact .bind_of_parses hsorted (call_behind h (.multisigArgument true))
  | wsh => exact (call_behind h .insideWsh).map _
  | sh => exact (call_behind h .insideSh).map _
  | addr => exact call_behind h .addressArgument
  | tr => exact absurd hroot (by decide)

@[simp] theorem production_root (keyword : Keyword) :
    production keyword.root = production keyword := by
  cases keyword <;> rfl

/-! ### Choices -/

/-- What lies behind a token of a text lies beyond it. -/
theorem isBeyond_of_liesIn {position : Position} {name : Token} {tail : List Token}
    (ascending : Ascending (name :: tail)) (h : position.LiesIn tail) :
    position.isBeyond (here (name :: tail)) = true := by
  rcases h with rfl | ⟨token, htoken, rfl⟩
  · rfl
  · exact decide_eq_true ((List.pairwise_cons.mp ascending).1 token htoken)

/-- Where a keyword stands that is allowed at a place, its production decides. -/
theorem atPlace_of_allowed {place : Place} (ascending : Ascending tokens)
    (hahead : keywordAhead tokens = some keyword) (hroot : keyword.root ∈ rootsAt place) :
    atPlace place tokens = attempt (production keyword) tokens := by
  obtain ⟨before, after, hsplit⟩ := List.append_of_mem hroot
  have distinct := rootsAt_nodup place
  rw [hsplit, List.nodup_middle, List.nodup_cons, List.mem_append] at distinct
  have others : ∀ root ∈ before ++ after, Fails (production root) tokens (· = here tokens) := by
    intro root hmem
    have hplace : root ∈ rootsAt place := by
      rw [hsplit]
      rcases List.mem_append.mp hmem with hbefore | hafter
      · exact List.mem_append_left _ hbefore
      · exact List.mem_append_right _ (List.mem_cons_of_mem _ hafter)
    refine production_fails_here (rootsAt_subset place root hplace) fun found hfound => ?_
    obtain rfl := Option.some.inj (hahead.symm.trans hfound)
    rintro rfl
    exact distinct.1 (List.mem_append.mp hmem)
  have decides : FailsOnly (production keyword) tokens (·.isBeyond (here tokens) = true) := by
    cases tokens with
    | nil => cases hahead
    | cons name tail =>
      exact (production_behind hahead (rootsAt_subset place _ hroot)).mono fun _ =>
        isBeyond_of_liesIn ascending
  unfold atPlace alternatives
  rw [alternativesAt_eq, hsplit, List.map_append, List.map_cons, production_root]
  refine firstOf_append_cons ?_ ?_ decides (by simp)
  · exact List.forall_mem_map.mpr fun root h => others root (List.mem_append_left _ h)
  · exact List.forall_mem_map.mpr fun root h => others root (List.mem_append_right _ h)

/-- Where no such keyword stands, the place as a whole is at fault. -/
theorem atPlace_of_refused {place : Place}
    (h : ∀ keyword, keywordAhead tokens = some keyword → keyword.root ∉ rootsAt place) :
    @Eq (Except ParseError Descriptor × List Token) (atPlace place tokens)
      (.error ⟨.expected (alternativesAt place).1, here tokens⟩, tokens) := by
  unfold atPlace alternatives
  rw [alternativesAt_eq]
  refine firstOf_of_fails_here (List.forall_mem_map.mpr fun root hroot => ?_) (by simp)
  refine production_fails_here (rootsAt_subset place root hroot) fun keyword hahead => ?_
  rintro rfl
  exact h keyword hahead hroot

/-! ### Agreement -/

theorem choose_apply (what : Expected) (production? : Keyword → Option (Parser Descriptor)) :
    Predictive.choose what production? tokens =
      match (keywordAhead tokens).bind production? with
      | some production => production tokens
      | none => fail (.expected what) tokens := by
  unfold Predictive.choose
  rw [bind_apply, parses_peek.mpr ⟨rfl, rfl⟩]
  change (match (keywordAhead tokens).bind production? with | some p => p | none => _) tokens = _
  cases (keywordAhead tokens).bind production? <;> rfl

/-- A table of the productions at a place. The one of the keyword in front comes to the same as the
alternative. -/
structure Foresees (production? : Keyword → Option (Parser Descriptor)) (place : Place)
    (tokens : List Token) : Prop where
  covers : ∀ keyword, (production? keyword).isSome = true ↔ keyword.root ∈ rootsAt place
  agrees : ∀ keyword, keywordAhead tokens = some keyword → ∀ p, production? keyword = some p →
    outcome (production keyword) tokens = outcome p tokens

variable {place : Place} {production? : Keyword → Option (Parser Descriptor)}

theorem atPlace_eq_choose (ascending : Ascending tokens) (h : Foresees production? place tokens) :
    atPlace place tokens =
      attempt (Predictive.choose (alternativesAt place).1 production?) tokens := by
  cases hchoice : (keywordAhead tokens).bind production? with
  | some p =>
    obtain ⟨keyword, hahead, hp⟩ := Option.bind_eq_some_iff.mp hchoice
    have hroot := (h.covers keyword).mp (Option.isSome_of_eq_some hp)
    rw [atPlace_of_allowed ascending hahead hroot]
    refine attempt_congr ((h.agrees keyword hahead p hp).trans ?_)
    unfold outcome
    rw [choose_apply, hchoice]
  | none =>
    have refused (keyword : Keyword) (hahead : keywordAhead tokens = some keyword) :
        keyword.root ∉ rootsAt place := by
      intro hroot
      obtain ⟨p, hp⟩ := Option.isSome_iff_exists.mp ((h.covers keyword).mpr hroot)
      rw [hahead, Option.bind_some, hp] at hchoice
      cases hchoice
    rw [atPlace_of_refused refused]
    have herror : @Eq (Except ParseError Descriptor × List Token)
        (Predictive.choose (alternativesAt place).1 production? tokens)
        (.error ⟨.expected (alternativesAt place).1, here tokens⟩, tokens) := by
      rw [choose_apply, hchoice]
      exact fail_apply _ tokens
    exact (attempt_of_fails herror).symm

/-- Which of the two keywords is in front tells whether the keys will be sorted. -/
theorem outcome_multi {sorted : Bool} (h : keywordAhead tokens = some (multisigKeyword sorted)) :
    outcome multi tokens = outcome (Predictive.multi sorted) tokens := by
  have hsorted := parses_peekIs_keyword tokens .sortedmulti
  rw [h] at hsorted
  unfold outcome multi
  rw [bind_apply, hsorted]
  cases sorted <;> rfl

theorem foresees_insideWsh : Foresees Predictive.insideWsh? .insideWsh tokens where
  covers keyword := by
    cases keyword <;> decide
  agrees keyword hahead p hp := by
    -- the tables have the productions themselves, but for those that look ahead a second time
    cases keyword <;> cases hp
    case multi => exact @outcome_multi tokens false hahead
    case sortedmulti => exact @outcome_multi tokens true hahead
    all_goals rfl

theorem outcome_wsh (ascending : Ascending tokens) :
    outcome wsh tokens = outcome Predictive.wsh tokens := by
  refine outcome_map_congr _ (outcome_call_congr _ fun inside hinside => ?_)
  exact outcome_eq_of_attempt
    (atPlace_eq_choose (ascending.sublist hinside.sublist) foresees_insideWsh)

theorem foresees_insideSh (ascending : Ascending tokens) :
    Foresees Predictive.insideSh? .insideSh tokens where
  covers keyword := by
    cases keyword <;> decide
  agrees keyword hahead p hp := by
    cases keyword <;> cases hp
    case multi => exact @outcome_multi tokens false hahead
    case sortedmulti => exact @outcome_multi tokens true hahead
    case wsh => exact outcome_wsh ascending
    all_goals rfl

theorem outcome_sh (ascending : Ascending tokens) :
    outcome sh tokens = outcome Predictive.sh tokens := by
  refine outcome_map_congr _ (outcome_call_congr _ fun inside hinside => ?_)
  have ascending := ascending.sublist hinside.sublist
  exact outcome_eq_of_attempt (atPlace_eq_choose ascending (foresees_insideSh ascending))

theorem foresees_top (ascending : Ascending tokens) : Foresees Predictive.top? .top tokens where
  covers keyword := by
    cases keyword <;> decide
  agrees keyword hahead p hp := by
    cases keyword <;> cases hp
    case multi => exact @outcome_multi tokens false hahead
    case sortedmulti => exact @outcome_multi tokens true hahead
    case wsh => exact outcome_wsh ascending
    case sh => exact outcome_sh ascending
    all_goals rfl

theorem taprootRefused_apply (p : Parser Descriptor) :
    @Eq (Except ParseError Descriptor × List Token) (Predictive.taprootRefused p tokens)
      (if keywordAhead tokens == some .tr then (.error ⟨.taproot, here tokens⟩, tokens)
      else p tokens) := by
  unfold Predictive.taprootRefused
  rw [bind_apply, parses_peekIs_keyword tokens .tr]
  cases keywordAhead tokens == some .tr with
  | false => rfl
  | true =>
    dsimp only
    rw [if_pos rfl, if_pos rfl, bind_apply, fail_apply]

theorem descriptor_eq_attempt (ascending : Ascending tokens) :
    descriptor tokens = attempt Predictive.descriptor tokens := by
  have predicted := @taprootRefused_apply tokens (Predictive.choose .descriptor Predictive.top?)
  refine (taprootRefused_apply (atPlace .top)).trans ?_
  cases htaproot : keywordAhead tokens == some .tr with
  | true =>
    rw [htaproot, if_pos rfl] at predicted
    rw [if_pos rfl]
    exact (attempt_of_fails predicted).symm
  | false =>
    rw [htaproot, if_neg Bool.false_ne_true] at predicted
    rw [if_neg Bool.false_ne_true]
    refine (atPlace_eq_choose ascending (foresees_top ascending)).trans (attempt_congr ?_)
    unfold outcome Predictive.descriptor
    rw [predicted]
    rfl

/-- The choices of the language, made with a look at the token in front, at any place in the tokens
of a text. After a failure, wherever it was found, all tokens are there again. -/
theorem descriptor_eq_predictive {text : List Char} {all tokens : List Token}
    (htokens : tokenize text = .ok all) (slice : tokens <:+: all) (cursor : Nat) :
    descriptor (tokens.drop cursor) = attempt Predictive.descriptor (tokens.drop cursor) ∧
    atPlace .insideSh (tokens.drop cursor) = attempt Predictive.insideSh (tokens.drop cursor) ∧
    atPlace .insideWsh (tokens.drop cursor) =
      attempt Predictive.insideWsh (tokens.drop cursor) := by
  have ascending : Ascending (tokens.drop cursor) :=
    (ascending_of_tokenize htokens).sublist ((List.drop_sublist _ _).trans slice.sublist)
  exact ⟨descriptor_eq_attempt ascending,
    atPlace_eq_choose ascending (foresees_insideSh ascending),
    atPlace_eq_choose ascending foresees_insideWsh⟩

/-- A threshold three levels down that turns out too large once the key behind it has been read. -/
theorem descriptor_thresholdSample :
    let digits := "0279be667ef9dcbbac55a06295ce870b07029bfcdb2dce28d959f2815b16f81798"
    ∃ all, tokenize ("sh(wsh(multi(2," ++ digits ++ ")))").toList = .ok all ∧ all <:+: all ∧
      descriptor all = attempt Predictive.descriptor all ∧
      @Eq (Except ParseError Descriptor × List Token) (descriptor all)
        (.error ⟨.thresholdOutOfRange 2 1, .span 13 14⟩, all) := by
  intro digits
  let all : List Token :=
    [⟨.keyword .sh, 0, 2⟩, ⟨.delimiter .openParen, 2, 3⟩, ⟨.keyword .wsh, 3, 6⟩,
      ⟨.delimiter .openParen, 6, 7⟩, ⟨.keyword .multi, 7, 12⟩, ⟨.delimiter .openParen, 12, 13⟩,
      ⟨.integer 2, 13, 14⟩, ⟨.delimiter .comma, 14, 15⟩, ⟨.hex digits.toList, 15, 81⟩,
      ⟨.delimiter .closeParen, 81, 82⟩, ⟨.delimiter .closeParen, 82, 83⟩,
      ⟨.delimiter .closeParen, 83, 84⟩]
  have htokens : tokenize ("sh(wsh(multi(2," ++ digits ++ ")))").toList = .ok all := by
    decide +kernel
  have predicted := (descriptor_eq_predictive htokens (List.infix_refl all) 0).1
  have fails : @Eq (Except ParseError Descriptor × List Token) (attempt Predictive.descriptor all)
      (.error ⟨.thresholdOutOfRange 2 1, .span 13 14⟩, all) := by decide +kernel
  exact ⟨all, htokens, List.infix_refl all, predicted, predicted.trans fails⟩

end Parser

end OutputDescriptor
