import Mathlib.Data.List.Chain
import OutputDescriptor.Proofs.Grammar

/-!
Which lexemes stand next to each other.

Wherever two lexemes of a tree meet, one of them is a delimiter, with one exception: a hardened marker
stands at once behind the index that it belongs to. That holds inside of every production. It holds
between them as well, for whatever follows a production begins with a delimiter, or the production
ends in one.
-/

namespace OutputDescriptor.Grammar

/-- What may stand behind a lexeme. -/
inductive Follows : Lexeme → Lexeme → Prop
  | behindDelimiter (d : Delimiter) (next : Lexeme) : Follows (.delimiter d) next
  | beforeDelimiter (lexeme : Lexeme) (d : Delimiter) : Follows lexeme (.delimiter d)
  | marked {lexeme : Lexeme} {index : StepIndex} (h : IndexOf lexeme index) :
    Follows lexeme .hardenedMarker

theorem Follows.marker {next : Lexeme} (h : Follows .hardenedMarker next) :
    ∃ d, next = .delimiter d := by
  cases h with
  | beforeDelimiter _ d => exact ⟨d, rfl⟩
  | marked h =>
    cases h with
    | concrete numeral _ => cases numeral

/-- Lexemes of which each may stand behind the one before. -/
def Spaced (lexemes : List Lexeme) : Prop :=
  lexemes.IsChain Follows

/-- Lexemes that may stand behind any others, since they begin with a delimiter. -/
structure Detached (lexemes : List Lexeme) : Prop where
  spaced : Spaced lexemes
  head : ∀ lexeme ∈ lexemes.head?, ∃ d, lexeme = .delimiter d

variable {a b lexemes : List Lexeme} {d : Delimiter}

theorem Spaced.single (lexeme : Lexeme) : Spaced [lexeme] :=
  List.isChain_singleton lexeme

theorem Spaced.append (ha : Spaced a) (hb : Detached b) : Spaced (a ++ b) := by
  refine List.isChain_append.mpr ⟨ha, hb.spaced, fun lexeme _ next hnext => ?_⟩
  obtain ⟨d, rfl⟩ := hb.head next hnext
  exact .beforeDelimiter lexeme d

namespace Detached

theorem nil : Detached [] where
  spaced := .nil
  head := by simp

theorem delimiter_cons (d : Delimiter) (h : Spaced lexemes) : Detached (.delimiter d :: lexemes) where
  spaced := List.isChain_cons.mpr ⟨fun next _ => .behindDelimiter d next, h⟩
  head := by simp

theorem append (ha : Detached a) (hb : Detached b) : Detached (a ++ b) where
  spaced := ha.spaced.append hb
  head := by
    cases a with
    | nil => exact hb.head
    | cons lexeme a => exact ha.head

end Detached

/-! ### Productions -/

theorem StepOf.detached {step : Step} (h : StepOf lexemes step) : Detached lexemes := by
  cases h with
  | normal h => exact .delimiter_cons .slash (.single _)
  | @hardened index _ h =>
    have marker : Spaced [index, .hardenedMarker] := List.isChain_pair.mpr (.marked h)
    exact .delimiter_cons .slash marker

theorem StepsOf.detached {steps : List Step} (h : StepsOf lexemes steps) : Detached lexemes := by
  induction h with
  | nil => exact .nil
  | cons head _ ih => exact head.detached.append ih

/-- An origin ends in a bracket, so anything may follow. -/
theorem OriginOf.spaced_append {path : Path} (h : OriginOf a path) (hb : Spaced b) :
    Spaced (a ++ b) := by
  cases h with
  | @mk digits _ lexemes _ _ _ hsteps _ =>
    have inside : Spaced ([.hex digits] ++ (lexemes ++ .delimiter .closeBracket :: b)) :=
      Spaced.append (.single _) (hsteps.detached.append (.delimiter_cons .closeBracket hb))
    simpa using (Detached.delimiter_cons .openBracket inside).spaced

theorem MaterialOf.spaced {key : Key} (h : MaterialOf lexemes key) : Spaced lexemes := by
  cases h with
  | literal _ _ _ => exact .single _
  | wif _ => exact .single _
  | extended key hsteps _ => exact Spaced.append (.single (.extendedKey key)) hsteps.detached

theorem KeyOf.spaced {expr : KeyExpression} (h : KeyOf lexemes expr) : Spaced lexemes := by
  cases h with
  | bare h => exact h.spaced
  | withOrigin front h => exact front.spaced_append h.spaced

theorem KeysOf.detached {keys : List KeyExpression} (h : KeysOf lexemes keys) :
    Detached lexemes := by
  induction h with
  | nil => exact .nil
  | cons head _ ih => exact (Detached.delimiter_cons .comma head.spaced).append ih

theorem Spaced.call (keyword : Keyword) (h : Spaced lexemes) :
    Spaced (Grammar.call keyword lexemes) := by
  have closing : Detached [.delimiter .closeParen] := .delimiter_cons .closeParen .nil
  have whole : Spaced ([.keyword keyword] ++
      .delimiter .openParen :: (lexemes ++ [.delimiter .closeParen])) :=
    Spaced.append (.single _) (.delimiter_cons .openParen (h.append closing))
  exact whole

theorem Derives.spaced {place : Place} {node : Descriptor} (h : Derives place lexemes node) :
    Spaced lexemes := by
  induction h with
  | raw _ => exact .call .raw (.single _)
  | pk h => exact .call .pk h.spaced
  | pkh h => exact .call .pkh h.spaced
  | wpkh _ h => exact .call .wpkh h.spaced
  | combo h => exact .call .combo h.spaced
  | @multi _ lexeme _ _ _ sorted _ h _ _ _ =>
    exact .call (multisigKeyword sorted) (Spaced.append (.single lexeme) h.detached)
  | wsh _ _ ih => exact .call .wsh ih
  | sh _ ih => exact .call .sh ih
  | addr _ => exact .call .addr (.single _)

end OutputDescriptor.Grammar
