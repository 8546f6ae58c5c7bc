import OutputDescriptor.Descriptor.Parser
import OutputDescriptor.Proofs.Grammar.Key

/-!
The descriptor parser accepts exactly the grammar of descriptors.

A tree begins with the keyword of its root, so at most one alternative of a choice can succeed, and
it does not matter in which order they are tried. Whatever is derivable ends in a parenthesis; hence
at most one stretch of tokens from a given place on is derivable.
-/

namespace OutputDescriptor

namespace Parser

open Grammar

variable {α : Type} {tokens rest : List Token} {lexemes : List Lexeme}

/-! ### Arguments in parentheses -/

theorem call_of_parses {keyword : Keyword} {argument : Parser α} {value : α}
    {Spells : List Lexeme → Prop}
    (sound : ∀ tokens rest : List Token, Parses argument tokens value rest →
      ∃ lexemes, Spells lexemes ∧ Consumes tokens lexemes rest)
    (h : Parses (Parser.call keyword argument) tokens value rest) :
    ∃ lexemes, Spells lexemes ∧ Consumes tokens (Grammar.call keyword lexemes) rest := by
  obtain ⟨inside, mid, hfront, hargument, hback⟩ := parses_call.mp h
  obtain ⟨lexemes, hspells, hconsumes⟩ := sound _ _ hargument
  exact ⟨lexemes, hspells, (hfront.append hconsumes).append hback⟩

theorem parses_call_of_consumes {keyword : Keyword} {argument : Parser α} {value : α}
    (complete : ∀ {inside mid : List Token}, Consumes inside lexemes mid →
      mid.head?.map Token.lexeme = some (.delimiter .closeParen) → Parses argument inside value mid)
    (hconsumes : Consumes tokens (Grammar.call keyword lexemes) rest) :
    Parses (Parser.call keyword argument) tokens value rest := by
  obtain ⟨mid, hfront, hback⟩ := Consumes.append_iff.mp hconsumes
  obtain ⟨inside, hname, hinside⟩ := Consumes.append_iff.mp hfront
  have hclosing : mid.head?.map Token.lexeme = some (.delimiter .closeParen) := by
    obtain ⟨closing, _, rfl, hlexeme, _⟩ := Consumes.cons_iff.mp hback
    simp [hlexeme]
  exact parses_call.mpr ⟨inside, mid, hname, complete hinside hclosing, hback⟩

theorem stops_of_head {d : Delimiter} (hd : d ≠ .slash)
    (h : tokens.head?.map Token.lexeme = some (.delimiter d)) : Stops tokens := by
  intro token htoken
  rw [Option.mem_def.mp htoken, Option.map_some, Option.some.injEq] at h
  rw [h]
  exact ⟨by simpa using hd, by simp⟩

/-! ### Scripts and addresses -/

def scriptArgument : Parser Descriptor := do
  let token ← expect .hex
  match token.lexeme.data? with
  | some bytes => return .raw bytes
  | none => failAt token .oddHex

theorem scriptArgument_of_parses {node : Descriptor} (h : Parses scriptArgument tokens node rest) :
    ∃ lexemes, Derives .top (Grammar.call .raw lexemes) node ∧ Consumes tokens lexemes rest := by
  simp only [scriptArgument, parses_bind, parses_expect, Lexeme.kind_eq_hex] at h
  obtain ⟨token, _, ⟨rfl, digits, hdigits⟩, h⟩ := h
  rw [hdigits] at h
  cases hdata : (Lexeme.hex digits).data? with
  | none => simp [hdata] at h
  | some bytes =>
    simp only [hdata, parses_pure] at h
    obtain ⟨rfl, rfl⟩ := h
    obtain ⟨heven, rfl⟩ := ofHex?_eq_some hdata
    exact ⟨_, .raw heven, .cons hdigits .nil⟩

theorem derives_of_parses_raw {node : Descriptor} (h : Parses raw tokens node rest) :
    ∃ lexemes, Derives .top lexemes node ∧ Consumes tokens lexemes rest := by
  obtain ⟨_, hderives, hconsumes⟩ := call_of_parses (fun _ _ => scriptArgument_of_parses) h
  exact ⟨_, hderives, hconsumes⟩

theorem parses_raw {digits : List Char} (heven : digits.length % 2 = 0)
    (occurs : ∀ lexeme ∈ Grammar.call .raw [.hex digits], lexeme.Occurs)
    (hconsumes : Consumes tokens (Grammar.call .raw [.hex digits]) rest) :
    Parses raw tokens (.raw (bytesOf digits)) rest := by
  refine parses_call_of_consumes (fun hinside _ => ?_) hconsumes
  obtain ⟨token, _, rfl, hdigits, hnil⟩ := Consumes.cons_iff.mp hinside
  obtain rfl := Consumes.nil_iff.mp hnil
  obtain ⟨_, hhex⟩ := hex_of_occurs (occurs_of_call occurs (.hex digits) (by simp))
  simp only [parses_bind, parses_expect, Lexeme.kind_eq_hex]
  refine ⟨token, _, ⟨rfl, digits, hdigits⟩, ?_⟩
  simp [hdigits, Lexeme.data?, ofHex?_of_even heven hhex]

def addressArgument : Parser Descriptor := do
  let token ← expect .address
  match token.lexeme with
  | .address address => return .addr address
  | _ => failAt token (.expected (.token .address))

theorem addressArgument_of_parses {node : Descriptor} (h : Parses addressArgument tokens node rest) :
    ∃ lexemes, Derives .top (Grammar.call .addr lexemes) node ∧ Consumes tokens lexemes rest := by
  simp only [addressArgument, parses_bind, parses_expect, Lexeme.kind_eq_address] at h
  obtain ⟨token, _, ⟨rfl, address, haddress⟩, h⟩ := h
  simp only [haddress, parses_pure] at h
  obtain ⟨rfl, rfl⟩ := h
  exact ⟨_, .addr address, .cons haddress .nil⟩

theorem derives_of_parses_addr {node : Descriptor} (h : Parses addr tokens node rest) :
    ∃ lexemes, Derives .top lexemes node ∧ Consumes tokens lexemes rest := by
  obtain ⟨_, hderives, hconsumes⟩ := call_of_parses (fun _ _ => addressArgument_of_parses) h
  exact ⟨_, hderives, hconsumes⟩

theorem parses_addr {address : Address}
    (hconsumes : Consumes tokens (Grammar.call .addr [.address address]) rest) :
    Parses addr tokens (.addr address) rest := by
  refine parses_call_of_consumes (fun hinside _ => ?_) hconsumes
  obtain ⟨token, _, rfl, haddress, hnil⟩ := Consumes.cons_iff.mp hinside
  obtain rfl := Consumes.nil_iff.mp hnil
  simp only [parses_bind, parses_expect, Lexeme.kind_eq_address]
  refine ⟨token, _, ⟨rfl, address, haddress⟩, ?_⟩
  simp [haddress]

/-! ### Several keys -/

theorem parses_multisigKeys_succ {count : Nat} {keys : List KeyExpression} :
    Parses (multisigKeys (count + 1)) tokens keys rest ↔
      ((∀ token ∈ tokens.head?, token.lexeme ≠ .delimiter .comma) ∧ keys = [] ∧ rest = tokens) ∨
      ∃ comma tail expr mid others, tokens = comma :: tail ∧ comma.lexeme = .delimiter .comma ∧
        Parses key tail expr mid ∧ Parses (multisigKeys count) mid others rest ∧
          keys = expr :: others := by
  rw [multisigKeys]
  simp only [parses_bind, parses_accept]
  constructor
  · rintro ⟨found, mid, ⟨rfl, comma, rfl, hcomma⟩ | ⟨rfl, rfl, hhead⟩, h⟩
    · simp only [if_true, parses_bind, parses_pure] at h
      obtain ⟨expr, _, hkey, others, _, hothers, rfl, rfl⟩ := h
      exact .inr ⟨comma, _, expr, _, others, rfl, by simpa using hcomma, hkey, hothers, rfl⟩
    · simp only [Bool.false_eq_true, if_false, parses_pure] at h
      obtain ⟨rfl, rfl⟩ := h
      exact .inl ⟨by simpa using hhead, rfl, rfl⟩
  · rintro (⟨hhead, rfl, rfl⟩ | ⟨comma, tail, expr, mid, others, rfl, hcomma, hkey, hothers, rfl⟩)
    · refine ⟨false, _, .inr ⟨rfl, rfl, by simpa using hhead⟩, ?_⟩
      simp
    · refine ⟨true, _, .inl ⟨rfl, comma, rfl, by simpa using hcomma⟩, ?_⟩
      simp only [if_true, parses_bind, parses_pure]
      exact ⟨expr, mid, hkey, others, _, hothers, rfl, rfl⟩

theorem keysOf_of_parses {count : Nat} {keys : List KeyExpression}
    (h : Parses (multisigKeys count) tokens keys rest) :
    ∃ lexemes, KeysOf lexemes keys ∧ Consumes tokens lexemes rest := by
  induction count generalizing tokens keys with
  | zero =>
    obtain ⟨rfl, rfl⟩ := parses_pure.mp h
    exact ⟨[], .nil, .nil⟩
  | succ count ih =>
    rcases parses_multisigKeys_succ.mp h with
      ⟨_, rfl, rfl⟩ | ⟨comma, tail, expr, mid, others, rfl, hcomma, hkey, hothers, rfl⟩
    · exact ⟨[], .nil, .nil⟩
    · obtain ⟨a, ha, hconsumes⟩ := keyOf_of_parses hkey
      obtain ⟨b, hb, hconsumes'⟩ := ih hothers
      exact ⟨_, .cons ha hb, .cons hcomma (hconsumes.append hconsumes')⟩

/-- A list of keys begins with a comma, so that the key before it ends there. -/
theorem stops_of_keysOf {keys : List KeyExpression} (h : KeysOf lexemes keys)
    (hconsumes : Consumes tokens lexemes rest)
    (hclosing : rest.head?.map Token.lexeme = some (.delimiter .closeParen)) : Stops tokens := by
  cases h with
  | nil =>
    obtain rfl := Consumes.nil_iff.mp hconsumes
    exact stops_of_head (by decide) hclosing
  | cons => exact stops_of_consumes_delimiter (by decide) hconsumes

theorem length_le_of_keysOf {keys : List KeyExpression} (h : KeysOf lexemes keys) :
    keys.length ≤ lexemes.length := by
  induction h with
  | nil => exact Nat.le_refl _
  | cons _ _ ih =>
    simp only [List.length_cons, List.length_append, List.cons_append]
    omega

theorem parses_multisigKeys {keys : List KeyExpression} (h : KeysOf lexemes keys) :
    ∀ {count : Nat} {tokens : List Token}, keys.length ≤ count →
      (∀ lexeme ∈ lexemes, lexeme.Occurs) → Consumes tokens lexemes rest →
        rest.head?.map Token.lexeme = some (.delimiter .closeParen) →
          Parses (multisigKeys count) tokens keys rest := by
  induction h with
  | nil =>
    intro count tokens _ _ hconsumes hclosing
    obtain rfl := Consumes.nil_iff.mp hconsumes
    cases count with
    | zero => exact parses_pure.mpr ⟨rfl, rfl⟩
    | succ count =>
      refine parses_multisigKeys_succ.mpr (.inl ⟨?_, rfl, rfl⟩)
      intro token htoken hcomma
      simp [Option.mem_def.mp htoken, hcomma] at hclosing
  | @cons a b expr keys head tail ih =>
    intro count tokens hcount occurs hconsumes hclosing
    obtain ⟨count, rfl⟩ := Nat.exists_eq_add_of_le' (Nat.le_trans (Nat.succ_pos _) hcount)
    obtain ⟨comma, _, rfl, hcomma, hinside⟩ := Consumes.cons_iff.mp hconsumes
    obtain ⟨mid, hkey, hkeys⟩ := Consumes.append_iff.mp hinside
    have hkey := parses_key head (fun lexeme h => occurs lexeme (by simp [h])) hkey
      (stops_of_keysOf tail hkeys hclosing)
    have hkeys := ih (Nat.le_of_succ_le_succ hcount) (fun lexeme h => occurs lexeme (by simp [h]))
      hkeys hclosing
    exact parses_multisigKeys_succ.mpr
      (.inr ⟨comma, _, expr, mid, keys, rfl, hcomma, hkey, hkeys, rfl⟩)

def multisigArgument (sorted : Bool) : Parser Descriptor := do
  let token ← next .threshold
  match token.lexeme.integer? with
  | none => failAt token (.expected .threshold)
  | some threshold =>
    let keys ← multisigKeys (← get).length
    if keys.isEmpty then fail (.expected .nextKey)
    if maxMultisigKeys < keys.length then failAt token (.tooManyKeys keys.length)
    if threshold = 0 ∨ keys.length < threshold then
      failAt token (.thresholdOutOfRange threshold keys.length)
    return .multi threshold keys sorted

theorem parses_multisigArgument {sorted : Bool} {node : Descriptor} :
    Parses (multisigArgument sorted) tokens node rest ↔
      ∃ token mid threshold keys, tokens = token :: mid ∧
        token.lexeme.integer? = some threshold ∧ Parses (multisigKeys mid.length) mid keys rest ∧
          1 ≤ threshold ∧ threshold ≤ keys.length ∧ keys.length ≤ maxMultisigKeys ∧
            node = .multi threshold keys sorted := by
  simp only [multisigArgument, parses_bind, parses_next]
  constructor
  · rintro ⟨token, mid, rfl, h⟩
    cases hthreshold : token.lexeme.integer? with
    | none => simp [hthreshold] at h
    | some threshold =>
      simp only [hthreshold, parses_bind, parses_get, parses_checkHere, parses_check,
        parses_pure] at h
      obtain ⟨_, _, ⟨rfl, rfl⟩, keys, _, hkeys, _, hfew, hrange, rfl, rfl⟩ := h
      exact ⟨token, _, threshold, keys, rfl, hthreshold, hkeys, by omega, by omega, by omega, rfl⟩
  · rintro ⟨token, mid, threshold, keys, rfl, hthreshold, hkeys, pos, le, few, rfl⟩
    refine ⟨token, mid, rfl, ?_⟩
    simp only [hthreshold, parses_bind, parses_get, parses_checkHere, parses_check, parses_pure]
    refine ⟨_, _, ⟨rfl, rfl⟩, keys, _, hkeys, ?_, by omega, by omega, rfl, rfl⟩
    rw [List.isEmpty_iff, ← List.length_eq_zero_iff]
    omega

theorem parses_multi {node : Descriptor} :
    Parses multi tokens node rest ↔
      ∃ sorted, Parses (Parser.call (multisigKeyword sorted) (multisigArgument sorted)) tokens node
        rest := by
  rw [multi, parses_bind]
  simp only [parses_peekIs]
  constructor
  · rintro ⟨sorted, _, ⟨_, rfl⟩, h⟩
    exact ⟨sorted, h⟩
  · rintro ⟨sorted, h⟩
    refine ⟨sorted, tokens, ⟨?_, rfl⟩, h⟩
    obtain ⟨token, htoken, hlexeme⟩ := Option.map_eq_some_iff.mp (head_of_parses_call h)
    rw [htoken, Option.any_some, hlexeme]
    cases sorted <;> rfl

theorem multisigArgument_of_parses {place : Place} {sorted : Bool} {node : Descriptor}
    (h : Parses (multisigArgument sorted) tokens node rest) :
    ∃ lexemes, Derives place (Grammar.call (multisigKeyword sorted) lexemes) node ∧
      Consumes tokens lexemes rest := by
  obtain ⟨token, mid, threshold, keys, rfl, hthreshold, hkeys, pos, le, few, rfl⟩ :=
    parses_multisigArgument.mp h
  obtain ⟨lexemes, hspells, hconsumes⟩ := keysOf_of_parses hkeys
  have numeral := numeral_of_integer? hthreshold
  exact ⟨token.lexeme :: lexemes, .multi sorted numeral hspells pos le few, .cons rfl hconsumes⟩

theorem derives_of_parses_multi {place : Place} {node : Descriptor}
    (h : Parses multi tokens node rest) :
    ∃ lexemes, Derives place lexemes node ∧ Consumes tokens lexemes rest := by
  obtain ⟨sorted, h⟩ := parses_multi.mp h
  obtain ⟨_, hderives, hconsumes⟩ := call_of_parses (fun _ _ => multisigArgument_of_parses) h
  exact ⟨_, hderives, hconsumes⟩

theorem parses_multi_of_keysOf {lexeme : Lexeme} {threshold : Nat} {keys : List KeyExpression}
    {sorted : Bool} (numeral : Numeral lexeme threshold) (h : KeysOf lexemes keys)
    (pos : 1 ≤ threshold) (le : threshold ≤ keys.length) (few : keys.length ≤ 20)
    (occurs : ∀ l ∈ Grammar.call (multisigKeyword sorted) (lexeme :: lexemes), l.Occurs)
    (hconsumes : Consumes tokens (Grammar.call (multisigKeyword sorted) (lexeme :: lexemes)) rest) :
    Parses multi tokens (.multi threshold keys sorted) rest := by
  have occurs := occurs_of_call occurs
  refine parses_multi.mpr ⟨sorted, parses_call_of_consumes (fun hinside hclosing => ?_) hconsumes⟩
  obtain ⟨token, mid, rfl, rfl, hkeys⟩ := Consumes.cons_iff.mp hinside
  have hthreshold := integer?_of_numeral numeral (occurs _ (by simp)) (by omega)
  have hcount : keys.length ≤ mid.length :=
    Nat.le_trans (length_le_of_keysOf h) (length_le_of_consumes hkeys)
  have hkeys := parses_multisigKeys h hcount (fun l hl => occurs l (by simp [hl])) hkeys hclosing
  exact parses_multisigArgument.mpr
    ⟨token, mid, threshold, keys, rfl, hthreshold, hkeys, pos, le, few, rfl⟩

/-! ### Choices -/

/-- The parser of the trees whose root has a keyword. -/
def production : Keyword → Parser Descriptor
  | .raw => raw
  | .pk => pk
  | .pkh => pkh
  | .wpkh => wpkh
  | .combo => combo
  | .multi => multi
  | .sortedmulti => multi
  | .wsh => wsh
  | .sh => sh
  | .addr => addr
  | .tr => fail .taproot

/-- The alternatives at a place, with what it calls for. -/
def alternativesAt : Place → Expected × List (Parser Descriptor)
  | .top => (.descriptor, [raw, pk, pkh, wpkh, multi, wsh, sh, addr, combo])
  | .insideSh => (.insideSh, [pk, pkh, wpkh, wsh, multi])
  | .insideWsh => (.insideWsh, [pk, pkh, multi])

def atPlace (place : Place) : Parser Descriptor :=
  alternatives (alternativesAt place).1 (alternativesAt place).2

theorem head_of_parses_map {α : Type} {f : α → Descriptor} {keyword : Keyword} {argument : Parser α}
    {node : Descriptor} (h : Parses (f <$> Parser.call keyword argument) tokens node rest) :
    tokens.head?.map Token.lexeme = some (.keyword keyword) := by
  obtain ⟨_, h, _⟩ := parses_map.mp h
  exact head_of_parses_call h

/-- An alternative that succeeds is the production of the keyword in front. -/
theorem eq_production_of_parses {p : Parser Descriptor} {node : Descriptor}
    (hp : p ∈ (alternativesAt .top).2) (h : Parses p tokens node rest) :
    ∃ keyword, tokens.head?.map Token.lexeme = some (.keyword keyword) ∧ p = production keyword := by
  simp only [alternativesAt, List.mem_cons, List.not_mem_nil, or_false] at hp
  rcases hp with rfl | rfl | rfl | rfl | rfl | rfl | rfl | rfl | rfl
  · exact ⟨.raw, head_of_parses_call h, rfl⟩
  · exact ⟨.pk, head_of_parses_map h, rfl⟩
  · exact ⟨.pkh, head_of_parses_map h, rfl⟩
  · exact ⟨.wpkh, head_of_parses_map h, rfl⟩
  · obtain ⟨sorted, h⟩ := parses_multi.mp h
    refine ⟨multisigKeyword sorted, head_of_parses_call h, ?_⟩
    cases sorted <;> rfl
  · exact ⟨.wsh, head_of_parses_map h, rfl⟩
  · exact ⟨.sh, head_of_parses_map h, rfl⟩
  · exact ⟨.addr, head_of_parses_call h, rfl⟩
  · exact ⟨.combo, head_of_parses_map h, rfl⟩

theorem alternativesAt_subset (place : Place) :
    ∀ p ∈ (alternativesAt place).2, p ∈ (alternativesAt .top).2 := by
  cases place <;> simp [alternativesAt]

/-- A choice succeeds as soon as one of its alternatives does. -/
theorem parses_atPlace {place : Place} {node : Descriptor} :
    Parses (atPlace place) tokens node rest ↔
      ∃ p ∈ (alternativesAt place).2, Parses p tokens node rest := by
  constructor
  · exact exists_of_parses_firstOf
  · rintro ⟨p, hp, h⟩
    refine parses_firstOf ⟨p, hp, h⟩ fun q hq node' rest' h' => ?_
    obtain ⟨keyword, hhead, rfl⟩ := eq_production_of_parses (alternativesAt_subset place p hp) h
    obtain ⟨keyword', hhead', rfl⟩ := eq_production_of_parses (alternativesAt_subset place q hq) h'
    have hkeyword : keyword' = keyword := by
      rw [hhead] at hhead'
      cases hhead'
      rfl
    subst hkeyword
    exact h'.unique h

/-- All trees with a single key are read alike. -/
theorem derives_of_parses_keyCall {place : Place} {keyword : Keyword}
    {f : KeyExpression → Descriptor} {node : Descriptor}
    (derives : ∀ {lexemes : List Lexeme} {expr : KeyExpression}, KeyOf lexemes expr →
      Derives place (Grammar.call keyword lexemes) (f expr))
    (h : Parses (f <$> Parser.call keyword key) tokens node rest) :
    ∃ lexemes, Derives place lexemes node ∧ Consumes tokens lexemes rest := by
  obtain ⟨expr, hcall, rfl⟩ := parses_map.mp h
  obtain ⟨_, hkey, hconsumes⟩ := call_of_parses (fun _ _ => keyOf_of_parses) hcall
  exact ⟨_, derives hkey, hconsumes⟩

theorem parses_keyCall {keyword : Keyword} {f : KeyExpression → Descriptor} {expr : KeyExpression}
    (h : KeyOf lexemes expr) (occurs : ∀ lexeme ∈ Grammar.call keyword lexemes, lexeme.Occurs)
    (hconsumes : Consumes tokens (Grammar.call keyword lexemes) rest) :
    Parses (f <$> Parser.call keyword key) tokens (f expr) rest := by
  refine parses_map.mpr ⟨expr, parses_call_of_consumes (fun hinside hclosing => ?_) hconsumes, rfl⟩
  exact parses_key h (occurs_of_call occurs) hinside (stops_of_head (by decide) hclosing)

theorem derives_of_parses_insideWsh {node : Descriptor}
    (h : Parses (atPlace .insideWsh) tokens node rest) :
    ∃ lexemes, Derives .insideWsh lexemes node ∧ Consumes tokens lexemes rest := by
  obtain ⟨p, hp, h⟩ := parses_atPlace.mp h
  simp only [alternativesAt, List.mem_cons, List.not_mem_nil, or_false] at hp
  rcases hp with rfl | rfl | rfl
  · exact derives_of_parses_keyCall .pk h
  · exact derives_of_parses_keyCall .pkh h
  · exact derives_of_parses_multi h

theorem derives_of_parses_wsh {place : Place} {node : Descriptor} (outside : place ≠ .insideWsh)
    (h : Parses wsh tokens node rest) :
    ∃ lexemes, Derives place lexemes node ∧ Consumes tokens lexemes rest := by
  obtain ⟨inner, hcall, rfl⟩ := parses_map.mp h
  obtain ⟨_, hinner, hconsumes⟩ := call_of_parses (fun _ _ => derives_of_parses_insideWsh) hcall
  exact ⟨_, .wsh outside hinner, hconsumes⟩

theorem derives_of_parses_insideSh {node : Descriptor}
    (h : Parses (atPlace .insideSh) tokens node rest) :
    ∃ lexemes, Derives .insideSh lexemes node ∧ Consumes tokens lexemes rest := by
  obtain ⟨p, hp, h⟩ := parses_atPlace.mp h
  simp only [alternativesAt, List.mem_cons, List.not_mem_nil, or_false] at hp
  rcases hp with rfl | rfl | rfl | rfl | rfl
  · exact derives_of_parses_keyCall .pk h
  · exact derives_of_parses_keyCall .pkh h
  · exact derives_of_parses_keyCall (.wpkh (by decide)) h
  · exact derives_of_parses_wsh (by decide) h
  · exact derives_of_parses_multi h

theorem derives_of_parses_sh {node : Descriptor} (h : Parses sh tokens node rest) :
    ∃ lexemes, Derives .top lexemes node ∧ Consumes tokens lexemes rest := by
  obtain ⟨inner, hcall, rfl⟩ := parses_map.mp h
  obtain ⟨_, hinner, hconsumes⟩ := call_of_parses (fun _ _ => derives_of_parses_insideSh) hcall
  exact ⟨_, .sh hinner, hconsumes⟩

/-- What is found at any place is derivable there. -/
theorem derives_of_parses {place : Place} {node : Descriptor}
    (h : Parses (atPlace place) tokens node rest) :
    ∃ lexemes, Derives place lexemes node ∧ Consumes tokens lexemes rest := by
  cases place with
  | insideSh => exact derives_of_parses_insideSh h
  | insideWsh => exact derives_of_parses_insideWsh h
  | top =>
    obtain ⟨p, hp, h⟩ := parses_atPlace.mp h
    simp only [alternativesAt, List.mem_cons, List.not_mem_nil, or_false] at hp
    rcases hp with rfl | rfl | rfl | rfl | rfl | rfl | rfl | rfl | rfl
    · exact derives_of_parses_raw h
    · exact derives_of_parses_keyCall .pk h
    · exact derives_of_parses_keyCall .pkh h
    · exact derives_of_parses_keyCall (.wpkh (by decide)) h
    · exact derives_of_parses_multi h
    · exact derives_of_parses_wsh (by decide) h
    · exact derives_of_parses_sh h
    · exact derives_of_parses_addr h
    · exact derives_of_parses_keyCall .combo h

/-- What is derivable at any place is found there. -/
theorem parses_of_derives {place : Place} {node : Descriptor} (h : Derives place lexemes node) :
    ∀ {tokens rest : List Token}, (∀ lexeme ∈ lexemes, lexeme.Occurs) →
      Consumes tokens lexemes rest → Parses (atPlace place) tokens node rest := by
  induction h with
  | raw heven =>
    intro tokens rest occurs hconsumes
    exact parses_atPlace.mpr ⟨raw, by simp [alternativesAt], parses_raw heven occurs hconsumes⟩
  | @pk place _ _ hkey =>
    intro tokens rest occurs hconsumes
    refine parses_atPlace.mpr ⟨pk, ?_, parses_keyCall hkey occurs hconsumes⟩
    cases place <;> simp [alternativesAt]
  | @pkh place _ _ hkey =>
    intro tokens rest occurs hconsumes
    refine parses_atPlace.mpr ⟨pkh, ?_, parses_keyCall hkey occurs hconsumes⟩
    cases place <;> simp [alternativesAt]
  | @wpkh place _ _ outside hkey =>
    intro tokens rest occurs hconsumes
    refine parses_atPlace.mpr ⟨wpkh, ?_, parses_keyCall hkey occurs hconsumes⟩
    cases place <;> simp [alternativesAt] at outside ⊢
  | combo hkey =>
    intro tokens rest occurs hconsumes
    refine parses_atPlace.mpr ⟨combo, ?_, parses_keyCall hkey occurs hconsumes⟩
    simp [alternativesAt]
  | @multi place _ _ _ _ sorted numeral hkeys pos le few =>
    intro tokens rest occurs hconsumes
    refine parses_atPlace.mpr
      ⟨multi, ?_, parses_multi_of_keysOf numeral hkeys pos le few occurs hconsumes⟩
    cases place <;> simp [alternativesAt]
  | @wsh place _ _ outside _ ih =>
    intro tokens rest occurs hconsumes
    have h := parses_call_of_consumes (fun hinside _ => ih (occurs_of_call occurs) hinside) hconsumes
    refine parses_atPlace.mpr ⟨wsh, ?_, parses_map.mpr ⟨_, h, rfl⟩⟩
    cases place <;> simp [alternativesAt] at outside ⊢
  | sh _ ih =>
    intro tokens rest occurs hconsumes
    have h := parses_call_of_consumes (fun hinside _ => ih (occurs_of_call occurs) hinside) hconsumes
    refine parses_atPlace.mpr ⟨sh, ?_, parses_map.mpr ⟨_, h, rfl⟩⟩
    simp [alternativesAt]
  | addr address =>
    intro tokens rest _ hconsumes
    exact parses_atPlace.mpr ⟨addr, by simp [alternativesAt], parses_addr hconsumes⟩

/-- The check for taproot in front only changes the message. -/
theorem parses_descriptor {node : Descriptor} :
    Parses descriptor tokens node rest ↔ Parses (atPlace .top) tokens node rest := by
  rw [descriptor, parses_bind]
  simp only [parses_peekIs]
  constructor
  · rintro ⟨taproot, _, ⟨_, rfl⟩, h⟩
    exact (parses_checkHere.mp h).2
  · intro h
    refine ⟨_, tokens, ⟨rfl, rfl⟩, parses_checkHere.mpr ⟨?_, h⟩⟩
    obtain ⟨p, hp, hparses⟩ := parses_atPlace.mp h
    obtain ⟨keyword, hhead, rfl⟩ := eq_production_of_parses hp hparses
    obtain ⟨token, htoken, hlexeme⟩ := Option.map_eq_some_iff.mp hhead
    intro taproot
    rw [htoken, Option.any_some, hlexeme, beq_iff_eq] at taproot
    cases taproot
    exact absurd hparses not_parses_fail

end Parser

namespace Grammar

/-- The lexemes from one place of a list of tokens up to another. -/
def between (tokens : List Token) (c c' : Nat) : List Lexeme :=
  ((tokens.drop c).take (c' - c)).map Token.lexeme

theorem consumes_iff_between {tokens : List Token} {c c' : Nat} {lexemes : List Lexeme}
    (hne : lexemes ≠ []) (hc' : c' ≤ tokens.length) :
    Consumes (tokens.drop c) lexemes (tokens.drop c') ↔ between tokens c c' = lexemes := by
  constructor
  · rintro ⟨consumed, rfl, h⟩
    have hlength := congrArg List.length h
    simp only [List.length_drop, List.length_append] at hlength
    have hpos : consumed.length ≠ 0 := by
      simpa using hne
    have hcount : c' - c = consumed.length := by omega
    rw [between, hcount, h, List.take_left' rfl]
  · rintro rfl
    have hlt : c < c' := by
      by_cases hlt : c < c'
      · exact hlt
      · have hzero : c' - c = 0 := by omega
        rw [between, hzero] at hne
        exact absurd rfl hne
    refine ⟨(tokens.drop c).take (c' - c), rfl, ?_⟩
    have hdrop : tokens.drop c' = (tokens.drop c).drop (c' - c) := by
      rw [List.drop_drop]
      congr 1
      omega
    rw [hdrop, List.take_append_drop]

theorem ne_nil_of_derives {place : Place} {lexemes : List Lexeme} {node : Descriptor}
    (h : Derives place lexemes node) : lexemes ≠ [] := by
  cases h <;> simp [call]

/-- On tokens that occur in texts, the parser succeeds on what is derivable and on nothing else. -/
theorem parses_iff_derives {tokens rest : List Token} {node : Descriptor}
    (occurs : ∀ token ∈ tokens, token.lexeme.Occurs) :
    Parser.Parses Parser.descriptor tokens node rest ↔
      ∃ lexemes, Derives .top lexemes node ∧ Consumes tokens lexemes rest := by
  rw [Parser.parses_descriptor]
  constructor
  · exact Parser.derives_of_parses
  · rintro ⟨lexemes, hderives, hconsumes⟩
    refine Parser.parses_of_derives hderives ?_ hconsumes
    obtain ⟨consumed, rfl, rfl⟩ := hconsumes
    intro lexeme hmem
    obtain ⟨token, htoken, rfl⟩ := List.mem_map.mp hmem
    exact occurs token (List.mem_append_left _ htoken)

theorem parses_wholeDescriptor {tokens rest : List Token} {node : Descriptor} :
    Parser.Parses Parser.wholeDescriptor tokens node rest ↔
      rest = [] ∧ Parser.Parses Parser.descriptor tokens node [] := by
  simp only [Parser.wholeDescriptor, Parser.parses_bind, Parser.parses_peek]
  constructor
  · rintro ⟨found, _, hfound, _, mid, ⟨rfl, rfl⟩, h⟩
    cases mid with
    | nil =>
      obtain ⟨rfl, rfl⟩ := Parser.parses_pure.mp h
      exact ⟨rfl, hfound⟩
    | cons token mid => exact absurd h Parser.not_parses_failAt
  · rintro ⟨rfl, h⟩
    exact ⟨node, [], h, _, _, ⟨rfl, rfl⟩, Parser.parses_pure.mpr ⟨rfl, rfl⟩⟩

theorem ofTokens_eq_ok {tokens : List Token} {node : Descriptor} :
    Descriptor.ofTokens tokens = .ok node ↔ Parser.Parses Parser.descriptor tokens node [] := by
  constructor
  · intro h
    have hwhole : Parser.Parses Parser.wholeDescriptor tokens node
        (Parser.wholeDescriptor tokens).2 := Prod.ext h rfl
    exact (parses_wholeDescriptor.mp hwhole).2
  · intro h
    exact congrArg Prod.fst (parses_wholeDescriptor.mpr ⟨rfl, h⟩)

/-- The parser accepts exactly the grammar. From any place of a stretch of a tokenized text it finds
a tree up to another place if and only if the lexemes in between are derivable, at most one stretch
from each place is derivable, and the stretch is a descriptor if it is derivable as a whole. -/
theorem descriptor_eq_ok_iff_derives {text : List Char} {all tokens : List Token}
    (htext : tokenize text = .ok all) (hslice : tokens <:+: all) :
    (∀ c c' node, c' ≤ tokens.length →
      (Parser.descriptor.run (tokens.drop c) = (.ok node, tokens.drop c') ↔
        Derives .top (between tokens c c') node)) ∧
    (∀ c node rest, Parser.descriptor.run (tokens.drop c) = (.ok node, rest) →
      ∃ c', c < c' ∧ c' ≤ tokens.length ∧ rest = tokens.drop c') ∧
    (∀ c c₁ c₂ node₁ node₂, c₁ ≤ tokens.length → c₂ ≤ tokens.length →
      Derives .top (between tokens c c₁) node₁ → Derives .top (between tokens c c₂) node₂ →
        c₁ = c₂ ∧ node₁ = node₂) ∧
    (∀ node, Descriptor.ofTokens tokens = .ok node ↔
      Derives .top (tokens.map Token.lexeme) node) := by
  have occurs : ∀ token ∈ tokens, token.lexeme.Occurs := fun token htoken =>
    Lexeme.occurs_of_tokenize htext token (hslice.subset htoken)
  have occursFrom (c : Nat) : ∀ token ∈ tokens.drop c, token.lexeme.Occurs := fun token htoken =>
    occurs token (List.mem_of_mem_drop htoken)
  have accepts {c c' : Nat} {node : Descriptor} (hc' : c' ≤ tokens.length) :
      Parser.Parses Parser.descriptor (tokens.drop c) node (tokens.drop c') ↔
        Derives .top (between tokens c c') node := by
    rw [parses_iff_derives (occursFrom c)]
    constructor
    · rintro ⟨lexemes, hderives, hconsumes⟩
      rwa [(consumes_iff_between (ne_nil_of_derives hderives) hc').mp hconsumes]
    · intro hderives
      exact ⟨_, hderives, (consumes_iff_between (ne_nil_of_derives hderives) hc').mpr rfl⟩
  refine ⟨fun c c' node hc' => accepts hc', ?_, ?_, ?_⟩
  · intro c node rest h
    obtain ⟨lexemes, hderives, consumed, rfl, hdrop⟩ := (parses_iff_derives (occursFrom c)).mp h
    have hpos : consumed.length ≠ 0 := by
      simpa using ne_nil_of_derives hderives
    have hlength := congrArg List.length hdrop
    simp only [List.length_drop, List.length_append] at hlength
    refine ⟨c + consumed.length, by omega, by omega, ?_⟩
    rw [← List.drop_drop, hdrop, List.drop_left' rfl]
  · intro c c₁ c₂ node₁ node₂ hc₁ hc₂ h₁ h₂
    obtain ⟨rfl, hrest⟩ := ((accepts hc₁).mpr h₁).unique ((accepts hc₂).mpr h₂)
    have hlength := congrArg List.length hrest
    simp only [List.length_drop] at hlength
    exact ⟨by omega, rfl⟩
  · intro node
    rw [ofTokens_eq_ok, parses_iff_derives occurs]
    constructor
    · rintro ⟨lexemes, hderives, hconsumes⟩
      rwa [Consumes.iff_of_nil.mp hconsumes]
    · intro hderives
      exact ⟨_, hderives, Consumes.iff_of_nil.mpr rfl⟩

/-- A key behind its origin, whose digits are read as bytes and as indices by turns. -/
def originSample : List Char :=
  "pkh([d34db33f/44h/0]0279be667ef9dcbbac55a06295ce870b07029bfcdb2dce28d959f2815b16f81798)".toList

theorem derives_originSample :
    ∃ all node, tokenize originSample = .ok all ∧ all <:+: all ∧
      Descriptor.ofTokens all = .ok node ∧ Derives .top (all.map Token.lexeme) node := by
  have reads : ((tokenize originSample).toOption.bind fun all =>
      (Descriptor.ofTokens all).toOption).isSome = true := by decide +kernel
  cases htext : tokenize originSample with
  | error => simp [htext, Except.toOption] at reads
  | ok all =>
    cases hnode : Descriptor.ofTokens all with
    | error => simp [htext, hnode, Except.toOption] at reads
    | ok node =>
      have hslice : all <:+: all := List.infix_refl all
      obtain ⟨_, _, _, whole⟩ := descriptor_eq_ok_iff_derives htext hslice
      exact ⟨all, node, rfl, hslice, hnode, (whole node).mp hnode⟩

end Grammar

end OutputDescriptor
