import OutputDescriptor.Descriptor

/-!
The language of descriptors as a grammar over lexemes.

Each relation says which lexemes stand for which value: numerals, steps, key origins, keys, and trees
at the three places where they may stand. Hex digits are bytes or a numeral, depending on the place.
The rules on wildcards, on thresholds and on what may stand inside what are part of the grammar.
-/

namespace OutputDescriptor.Grammar

/-- The value of a hex digit. -/
def digitValue (c : Char) : Nat :=
  (Bytes.hexValue? c).getD 0

/-- The bytes that pairs of hex digits spell. -/
def bytesOf : List Char → Bytes
  | high :: low :: rest => UInt8.ofNat (16 * digitValue high + digitValue low) :: bytesOf rest
  | _ => []

inductive Numeral : Lexeme → Nat → Prop
  | integer (n : Nat) : Numeral (.integer n) n
  | digits {ds : List Char} (decimal : ∀ c ∈ ds, c.isDigit = true) :
    Numeral (.hex ds) (Nat.ofDigitChars 10 ds 0)

/-- The index of a step; a concrete one lies below `0x80000000`. -/
inductive IndexOf : Lexeme → StepIndex → Prop
  | wildcard : IndexOf (.delimiter .asterisk) .wildcard
  | concrete {lexeme : Lexeme} {n : Nat} (numeral : Numeral lexeme n) (lt : n < 0x80000000) :
    IndexOf lexeme (.concrete ⟨n, lt⟩)

inductive StepOf : List Lexeme → Step → Prop
  | normal {lexeme : Lexeme} {index : StepIndex} (h : IndexOf lexeme index) :
    StepOf [.delimiter .slash, lexeme] ⟨index, false⟩
  | hardened {lexeme : Lexeme} {index : StepIndex} (h : IndexOf lexeme index) :
    StepOf [.delimiter .slash, lexeme, .hardenedMarker] ⟨index, true⟩

inductive StepsOf : List Lexeme → List Step → Prop
  | nil : StepsOf [] []
  | cons {a b : List Lexeme} {step : Step} {steps : List Step} (head : StepOf a step)
    (tail : StepsOf b steps) : StepsOf (a ++ b) (step :: steps)

/-- A fingerprint of eight digits and the steps from the key it names, all of them concrete. -/
inductive OriginOf : List Lexeme → Path → Prop
  | mk {digits : List Char} {fp : Fingerprint} {lexemes : List Lexeme} {steps : List Step}
    (eight : digits.length = 8) (spells : bytesOf digits = fp.val) (h : StepsOf lexemes steps)
    (concrete : ∀ step ∈ steps, step.isWildcard = false) :
    OriginOf (.delimiter .openBracket :: .hex digits :: lexemes ++ [.delimiter .closeBracket])
      ⟨.fingerprint fp, steps, fun step h => concrete step (List.dropLast_subset _ h),
        fun _ => concrete⟩

/-- The key itself: hex digits of a point of the curve in one of its two written forms, a secret key,
or an extended key with steps of which only the last may be a wildcard. -/
inductive MaterialOf : List Lexeme → Key → Prop
  | literal {digits : List Char} {key : PublicKey} (even : digits.length % 2 = 0)
    (spells : bytesOf digits = key.toBytes) (valid : key.isOnCurve = true) :
    MaterialOf [.hex digits] (.literal key)
  | wif (key : WifKey) : MaterialOf [.wif key] (.wif key)
  | extended (key : ExtendedKey) {lexemes : List Lexeme} {steps : List Step}
    (h : StepsOf lexemes steps) (last : ∀ step ∈ steps.dropLast, step.isWildcard = false) :
    MaterialOf (.extendedKey key :: lexemes) (.extended key ⟨.unnamed, steps, last, nofun⟩)

inductive KeyOf : List Lexeme → KeyExpression → Prop
  | bare {lexemes : List Lexeme} {key : Key} (h : MaterialOf lexemes key) :
    KeyOf lexemes ⟨none, key⟩
  | withOrigin {a b : List Lexeme} {origin : Path} {key : Key} (front : OriginOf a origin)
    (h : MaterialOf b key) : KeyOf (a ++ b) ⟨some origin, key⟩

/-- Keys with a comma in front of each. -/
inductive KeysOf : List Lexeme → List KeyExpression → Prop
  | nil : KeysOf [] []
  | cons {a b : List Lexeme} {key : KeyExpression} {keys : List KeyExpression} (head : KeyOf a key)
    (tail : KeysOf b keys) : KeysOf (.delimiter .comma :: a ++ b) (key :: keys)

/-- Where a tree stands. -/
inductive Place
  | top
  | insideSh
  | insideWsh
deriving DecidableEq

/-- A keyword with its argument in parentheses. -/
def call (keyword : Keyword) (argument : List Lexeme) : List Lexeme :=
  [.keyword keyword, .delimiter .openParen] ++ argument ++ [.delimiter .closeParen]

/-- The keyword of a script of several keys. -/
def multisigKeyword (sorted : Bool) : Keyword :=
  if sorted then .sortedmulti else .multi

inductive Derives : Place → List Lexeme → Descriptor → Prop
  | raw {digits : List Char} (even : digits.length % 2 = 0) :
    Derives .top (call .raw [.hex digits]) (.raw (bytesOf digits))
  | pk {place : Place} {lexemes : List Lexeme} {key : KeyExpression} (h : KeyOf lexemes key) :
    Derives place (call .pk lexemes) (.pk key)
  | pkh {place : Place} {lexemes : List Lexeme} {key : KeyExpression} (h : KeyOf lexemes key) :
    Derives place (call .pkh lexemes) (.pkh key)
  | wpkh {place : Place} {lexemes : List Lexeme} {key : KeyExpression} (outside : place ≠ .insideWsh)
    (h : KeyOf lexemes key) : Derives place (call .wpkh lexemes) (.wpkh key)
  | combo {lexemes : List Lexeme} {key : KeyExpression} (h : KeyOf lexemes key) :
    Derives .top (call .combo lexemes) (.combo key)
  | multi {place : Place} {lexeme : Lexeme} {lexemes : List Lexeme} {threshold : Nat}
    {keys : List KeyExpression} (sorted : Bool) (numeral : Numeral lexeme threshold)
    (h : KeysOf lexemes keys) (pos : 1 ≤ threshold) (le : threshold ≤ keys.length)
    (few : keys.length ≤ 20) :
    Derives place (call (multisigKeyword sorted) (lexeme :: lexemes)) (.multi threshold keys sorted)
  | wsh {place : Place} {lexemes : List Lexeme} {inner : Descriptor} (outside : place ≠ .insideWsh)
    (h : Derives .insideWsh lexemes inner) : Derives place (call .wsh lexemes) (.wsh inner)
  | sh {lexemes : List Lexeme} {inner : Descriptor} (h : Derives .insideSh lexemes inner) :
    Derives .top (call .sh lexemes) (.sh inner)
  | addr (address : Address) : Derives .top (call .addr [.address address]) (.addr address)

end OutputDescriptor.Grammar
