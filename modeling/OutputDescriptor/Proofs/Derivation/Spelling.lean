import OutputDescriptor.Derivation.Path
import OutputDescriptor.Proofs.Bytes
import OutputDescriptor.Proofs.Traversal

/-!
The texts that derivation paths are read from.

A path is written as its origin and its steps, each behind a slash. Unlike the written form of a
value, which is one text, the spellings of a value are all the texts that it is read from: numerals
may have leading zeros, and three characters mark a hardened step.
-/

namespace OutputDescriptor

inductive StepIndex.Spells : List Char → StepIndex → Prop
  | wildcard : Spells ['*'] .wildcard
  | concrete {digits : List Char} (numeral : isNumeral digits = true)
    (lt : Nat.ofDigitChars 10 digits 0 < 0x80000000) : Spells digits (.concrete ⟨_, lt⟩)

inductive Step.Spells : List Char → Step → Prop
  | normal {text : List Char} {index : StepIndex} (h : index.Spells text) : Spells text ⟨index, false⟩
  | hardened {text : List Char} {index : StepIndex} (h : index.Spells text) {marker : Char}
    (marks : Step.isMarker marker = true) : Spells (text ++ [marker]) ⟨index, true⟩

/-- Steps with a slash in front of each. -/
inductive Step.SpellsAll : List Char → List Step → Prop
  | nil : SpellsAll [] []
  | cons {text rest : List Char} {step : Step} {steps : List Step} (head : Spells text step)
    (tail : SpellsAll rest steps) : SpellsAll ('/' :: text ++ rest) (step :: steps)

/-! ### Indices -/

theorem ChildIndex.parse_eq_ok_iff {text : List Char} {index : ChildIndex} :
    parse text = .ok index ↔
      isNumeral text = true ∧ Nat.ofDigitChars 10 text 0 = index.val := by
  constructor
  · intro h
    simp only [parse] at h
    by_cases fits : (isNumeral text && decide (Nat.ofDigitChars 10 text 0 < 0x100000000)) = true
    · rw [if_pos fits] at h
      unfold ofNat at h
      split at h <;> cases h
      next hfound => exact ⟨(Bool.and_eq_true_iff.mp fits).1, (ofNat?_eq_some hfound).symm⟩
    · rw [if_neg fits] at h
      cases h
  · intro h
    obtain ⟨numeral, hvalue⟩ := h
    have small : decide (index.val < 0x100000000) = true :=
      decide_eq_true (Nat.lt_trans index.val_lt (by decide))
    simp only [parse, numeral, hvalue, small, ofNat, ofNat?_val, Bool.and_self, if_true]

namespace StepIndex

variable {text : List Char} {index : StepIndex}

theorem spells_concrete_iff {index : ChildIndex} :
    Spells text (.concrete index) ↔
      isNumeral text = true ∧ Nat.ofDigitChars 10 text 0 = index.val := by
  constructor
  · intro h
    cases h with
    | concrete numeral lt => exact ⟨numeral, rfl⟩
  · intro ⟨numeral, hvalue⟩
    obtain ⟨value, lt⟩ := index
    subst hvalue
    exact .concrete numeral lt

theorem isDigit_of_isNumeral (h : isNumeral text = true) {c : Char} (hc : c ∈ text) :
    c.isDigit = true :=
  List.all_eq_true.mp (Bool.and_eq_true_iff.mp h).2 c hc

theorem Spells.chars (h : Spells text index) {c : Char} (hc : c ∈ text) :
    c = '*' ∨ c.isDigit = true := by
  cases h with
  | wildcard => exact .inl (List.mem_singleton.mp hc)
  | concrete numeral lt => exact .inr (isDigit_of_isNumeral numeral hc)

theorem Spells.not_isMarker (h : Spells text index) {c : Char} (hc : c ∈ text) :
    Step.isMarker c = false := by
  obtain rfl | digit := h.chars hc
  · decide
  · exact Step.isMarker_eq_false_of_isDigit digit

end StepIndex

/-! ### Steps -/

namespace Step

variable {text : List Char} {step : Step}

theorem splitMarker_append {marker : Char} (marks : isMarker marker = true) :
    splitMarker (text ++ [marker]) = (text, true) := by
  simp [splitMarker, marks]

theorem splitMarker_of_spells {index : StepIndex} (h : index.Spells text) :
    splitMarker text = (text, false) := by
  have unmarked : text.getLast?.any isMarker = false := by
    cases hlast : text.getLast? with
    | none => rfl
    | some c => exact h.not_isMarker (List.mem_of_getLast? hlast)
  simp [splitMarker, unmarked]

/-- Behind the marker, if there is one, stands the index. -/
theorem splitMarker_eq {unmarked : List Char} {hardened : Bool}
    (h : splitMarker text = (unmarked, hardened)) :
    (hardened = false ∧ text = unmarked) ∨
      (hardened = true ∧ ∃ marker, isMarker marker = true ∧ text = unmarked ++ [marker]) := by
  unfold splitMarker at h
  by_cases marked : text.getLast?.any isMarker = true
  · rw [if_pos marked] at h
    cases h
    obtain ⟨marker, hlast, marks⟩ := (Option.any_eq_true _ _).mp marked
    obtain ⟨front, rfl⟩ := List.getLast?_eq_some_iff.mp hlast
    exact .inr ⟨rfl, marker, marks, by simp⟩
  · rw [if_neg marked] at h
    cases h
    exact .inl ⟨rfl, rfl⟩

theorem parse_eq_ok_of_splitMarker {unmarked : List Char} {hardened : Bool}
    (h : splitMarker text = (unmarked, hardened)) :
    parse text = .ok step ↔ step.index.Spells unmarked ∧ step.hardened = hardened := by
  obtain ⟨index, hardened'⟩ := step
  simp only [parse, h]
  by_cases wild : unmarked = ['*']
  · rw [if_pos wild]
    subst wild
    constructor
    · intro heq
      cases heq
      exact ⟨.wildcard, rfl⟩
    · intro spelled
      obtain ⟨spells, hhardened⟩ := spelled
      cases spells with
      | wildcard =>
        cases hhardened
        rfl
      | concrete numeral _ => cases numeral
  · rw [if_neg wild]
    constructor
    · intro heq
      cases hindex : ChildIndex.parse unmarked with
      | error error => simp [hindex] at heq
      | ok found =>
        simp only [hindex] at heq
        cases heq
        exact ⟨StepIndex.spells_concrete_iff.mpr (ChildIndex.parse_eq_ok_iff.mp hindex), rfl⟩
    · intro spelled
      obtain ⟨spells, hhardened⟩ := spelled
      cases hhardened
      cases index with
      | wildcard =>
        cases spells
        exact absurd rfl wild
      | concrete index =>
        have hindex := ChildIndex.parse_eq_ok_iff.mpr (StepIndex.spells_concrete_iff.mp spells)
        rw [hindex]

theorem parse_eq_ok_iff : parse text = .ok step ↔ Spells text step := by
  constructor
  · intro h
    cases hsplit : splitMarker text with
    | mk unmarked hardened =>
      obtain ⟨spells, hhardened⟩ := (parse_eq_ok_of_splitMarker hsplit).mp h
      obtain ⟨index, _⟩ := step
      cases hhardened
      obtain ⟨rfl, rfl⟩ | ⟨rfl, marker, marks, rfl⟩ := splitMarker_eq hsplit
      · exact .normal spells
      · exact .hardened spells marks
  · intro h
    cases h with
    | normal spells => exact (parse_eq_ok_of_splitMarker (splitMarker_of_spells spells)).mpr ⟨spells, rfl⟩
    | hardened spells marks =>
      exact (parse_eq_ok_of_splitMarker (splitMarker_append marks)).mpr ⟨spells, rfl⟩

theorem Spells.chars (h : Spells text step) {c : Char} (hc : c ∈ text) :
    c = '*' ∨ c.isDigit = true ∨ isMarker c = true := by
  cases h with
  | normal spells => exact (spells.chars hc).imp_right .inl
  | hardened spells marks =>
    obtain hc | hc := List.mem_append.mp hc
    · exact (spells.chars hc).imp_right .inl
    · rw [List.mem_singleton.mp hc]
      exact .inr (.inr marks)

theorem Spells.no_slash (h : Spells text step) : '/' ∉ text := by
  intro hmem
  obtain hchar | hchar | hchar := h.chars hmem <;> cases hchar

/-! ### Several steps -/

theorem spellsAll_of_mapM {pieces : List (List Char)} :
    ∀ {steps : List Step}, pieces.mapM parse = .ok steps →
      SpellsAll (pieces.flatMap fun piece => '/' :: piece) steps := by
  induction pieces with
  | nil =>
    intro steps h
    cases h
    exact .nil
  | cons piece pieces ih =>
    intro steps h
    obtain ⟨step, rest, hstep, hrest, rfl⟩ := mapM_cons_eq_ok.mp h
    exact .cons (parse_eq_ok_iff.mp hstep) (ih hrest)

theorem SpellsAll.pieces {steps : List Step} (h : SpellsAll text steps) :
    ∃ pieces : List (List Char), text = pieces.flatMap (fun piece => '/' :: piece) ∧
      (∀ piece ∈ pieces, '/' ∉ piece) ∧ pieces.mapM parse = .ok steps := by
  induction h with
  | nil => exact ⟨[], rfl, by simp, rfl⟩
  | @cons piece rest step steps head tail ih =>
    obtain ⟨pieces, rfl, noSlash, hparse⟩ := ih
    refine ⟨piece :: pieces, rfl, List.forall_mem_cons.mpr ⟨head.no_slash, noSlash⟩, ?_⟩
    exact mapM_cons_eq_ok.mpr ⟨step, steps, parse_eq_ok_iff.mpr head, hparse, rfl⟩

/-- A step is spelled by its written form, among others. -/
theorem spellsAll_render (marker : HardenedMarker) (steps : List Step) :
    SpellsAll (steps.flatMap fun step => '/' :: step.render marker) steps := by
  induction steps with
  | nil => exact .nil
  | cons step steps ih => exact .cons (parse_eq_ok_iff.mp (parse_render marker step)) ih

/-- The capital marker is read, but never written. -/
theorem no_capital_render (marker : HardenedMarker) (steps : List Step) :
    'H' ∉ steps.flatMap fun step => '/' :: step.render marker := by
  intro hmem
  obtain ⟨step, _, hmem⟩ := List.mem_flatMap.mp hmem
  obtain hslash | hmem := List.mem_cons.mp hmem
  · cases hslash
  · obtain hindex | hmarker := List.mem_append.mp hmem
    · cases isMarker_of_mem_render hindex
    · split at hmarker
      · cases marker <;> cases List.mem_singleton.mp hmarker
      · cases hmarker

theorem SpellsAll.chars {steps : List Step} (h : SpellsAll text steps) {c : Char} (hc : c ∈ text) :
    c = '/' ∨ c = '*' ∨ c.isDigit = true ∨ isMarker c = true := by
  induction h with
  | nil => cases hc
  | cons head tail ih =>
    simp only [List.cons_append, List.mem_cons, List.mem_append] at hc
    obtain hc | hc | hc := hc
    · exact .inl hc
    · exact .inr (head.chars hc)
    · exact ih hc

end Step

/-! ### Origins -/

theorem Origin.parse_eq_fingerprint_iff {text : List Char} {fp : Fingerprint} :
    parse text = .ok (.fingerprint fp) ↔ Bytes.ofHex? text = some fp.val := by
  have htext : Bytes.ofHex? text = some fp.val → text ≠ [] ∧ text ≠ ['m'] := by
    intro h
    constructor
    · rintro rfl
      have hlength := fp.property
      rw [← Option.some.inj h] at hlength
      cases hlength
    · rintro rfl
      cases h
  constructor
  · intro h
    unfold parse at h
    split at h
    · cases h
    · cases h
    · cases hbytes : Bytes.ofHex? text with
      | none => simp [hbytes] at h
      | some bytes =>
        simp only [hbytes] at h
        split at h <;> cases h
        rfl
  · intro h
    obtain ⟨hne, hmaster⟩ := htext h
    unfold parse
    split
    · exact absurd rfl hne
    · exact absurd rfl hmaster
    · simp [h, fp.property]

theorem Origin.parse_eq_unnamed_iff {text : List Char} : parse text = .ok unnamed ↔ text = [] := by
  constructor
  · intro h
    unfold parse at h
    split at h
    · rfl
    · cases h
    · cases hbytes : Bytes.ofHex? text with
      | none => simp [hbytes] at h
      | some bytes =>
        simp only [hbytes] at h
        split at h <;> cases h
  · rintro rfl
    rfl

theorem Origin.chars {text : List Char} {origin : Origin} (h : parse text = .ok origin) {c : Char}
    (hc : c ∈ text) : c = 'm' ∨ (Bytes.hexValue? c).isSome = true := by
  unfold parse at h
  split at h
  · cases hc
  · exact .inl (List.mem_singleton.mp hc)
  · cases hbytes : Bytes.ofHex? text with
    | none => simp [hbytes] at h
    | some bytes => exact .inr (Bytes.isSome_hexValue?_of_ofHex? hbytes c hc)

/-! ### Paths -/

namespace Path

theorem intercalate_slash (front : List Char) (pieces : List (List Char)) :
    ['/'].intercalate (front :: pieces) = front ++ pieces.flatMap fun piece => '/' :: piece := by
  induction pieces generalizing front with
  | nil => simp
  | cons piece pieces ih => simp [List.intercalate_cons_cons, ih]

/-- A path is read from the spellings of its origin followed by spellings of its steps. -/
theorem parse_eq_ok_iff {text : List Char} {path : Path} :
    parse text = .ok path ↔ ∃ front back, text = front ++ back ∧
      Origin.parse front = .ok path.origin ∧ Step.SpellsAll back path.steps := by
  constructor
  · intro h
    unfold parse at h
    cases hsplit : text.splitOn '/' with
    | nil => exact absurd hsplit (List.splitOn_ne_nil '/' text)
    | cons front pieces =>
      rw [hsplit] at h
      cases horigin : Origin.parse front with
      | error error => simp [horigin, bind, Except.bind] at h
      | ok origin =>
        cases hsteps : pieces.mapM Step.parse with
        | error error => simp [horigin, hsteps, bind, Except.bind] at h
        | ok steps =>
          simp only [horigin, hsteps] at h
          obtain ⟨rfl, rfl⟩ := ofSteps_eq_ok.mp h
          refine ⟨front, _, ?_, horigin, Step.spellsAll_of_mapM hsteps⟩
          rw [← intercalate_slash, ← hsplit, List.intercalate_splitOn]
  · intro ⟨front, back, htext, horigin, hsteps⟩
    obtain ⟨pieces, rfl, noSlash, hparse⟩ := hsteps.pieces
    have hsplit : text.splitOn '/' = front :: pieces := by
      rw [htext, ← intercalate_slash]
      refine List.splitOn_intercalate '/' ?_ (by simp)
      refine List.forall_mem_cons.mpr ⟨fun hmem => ?_, noSlash⟩
      obtain hchar | hchar := Origin.chars horigin hmem <;> cases hchar
    unfold parse
    rw [hsplit]
    simp only [horigin, hparse]
    exact ofSteps_eq_ok.mpr ⟨rfl, rfl⟩

/-- A path reads back with either marker. -/
theorem parse_render (marker : HardenedMarker) (path : Path) :
    parse (path.render marker) = .ok path :=
  parse_eq_ok_iff.mpr ⟨_, _, rfl, Origin.parse_render path.origin,
    Step.spellsAll_render marker path.steps⟩

theorem no_capital_render (marker : HardenedMarker) (path : Path) : 'H' ∉ path.render marker := by
  intro hmem
  obtain horigin | hsteps := List.mem_append.mp hmem
  · obtain hchar | hchar := Origin.chars (Origin.parse_render path.origin) horigin <;> cases hchar
  · exact Step.no_capital_render marker path.steps hsteps

theorem chars {text : List Char} {path : Path} (h : parse text = .ok path) {c : Char}
    (hc : c ∈ text) :
    (c = 'm' ∨ (Bytes.hexValue? c).isSome = true) ∨
      c = '/' ∨ c = '*' ∨ c.isDigit = true ∨ Step.isMarker c = true := by
  obtain ⟨front, back, rfl, horigin, hsteps⟩ := parse_eq_ok_iff.mp h
  obtain hc | hc := List.mem_append.mp hc
  · exact .inl (Origin.chars horigin hc)
  · exact .inr (hsteps.chars hc)

end Path

end OutputDescriptor
