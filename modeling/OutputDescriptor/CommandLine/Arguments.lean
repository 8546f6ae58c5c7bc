import OutputDescriptor.Descriptor.Output

/-!
Arguments of the command line.

Options that hold for every command may stand anywhere, those of a command only behind its name, and
none behind a lone `--`. An option's value follows it in the next argument or behind a sign `=`; a
short option may have its value attached. Options that take a value are given at most once, except
for private keys.
-/

namespace OutputDescriptor.CommandLine

inductive Command
  | check (descriptor : List Char)
  | script (descriptor : List Char) (index : Option Nat) (combo : Option ComboSelector)
  | derive (descriptor : List Char) (first count : Nat)
deriving DecidableEq

structure Arguments where
  network : Network
  keys : List Xprv
  command : Command
deriving DecidableEq

inductive OptionName
  | network
  | xpriv
  | verbose
  | index
  | combo
  | first
  | count
deriving DecidableEq

namespace OptionName

def all : List OptionName := [network, xpriv, verbose, index, combo, first, count]

def long : OptionName → List Char
  | network => "network".toList
  | xpriv => "xpriv".toList
  | verbose => "verbose".toList
  | index => "index".toList
  | combo => "combo".toList
  | first => "from".toList
  | count => "count".toList

def short? : OptionName → Option Char
  | network => some 'n'
  | xpriv => some 'x'
  | verbose => some 'v'
  | index => some 'i'
  | combo => none
  | first => some 'f'
  | count => some 'c'

/-- Whether the option belongs to every command. -/
def isGlobal : OptionName → Bool
  | network => true
  | xpriv => true
  | verbose => true
  | _ => false

def ofLong? (text : List Char) : Option OptionName :=
  all.find? fun name => name.long == text

def ofShort? (c : Char) : Option OptionName :=
  all.find? fun name => name.short? == some c

end OptionName

/-- An argument taken apart. -/
inductive Item
  | positional (text : List Char)
  | option (name : OptionName) (value : List Char)
deriving DecidableEq

namespace Item

/-- The value of an option in the same argument, behind a sign `=` or directly. -/
def attached? : List Char → Option (List Char)
  | [] => none
  | '=' :: value => some value
  | value => some value

/-- The letters of an argument of short options: items, and an option that waits for its value. -/
def ofShorts? : List Char → Option (List Item × Option OptionName)
  | [] => some ([], none)
  | c :: rest => do
    let name ← OptionName.ofShort? c
    if name = .verbose then do
      let (items, waiting) ← ofShorts? rest
      some (option .verbose [] :: items, waiting)
    else
      match attached? rest with
      | some value => some ([option name value], none)
      | none => some ([], some name)

/-- An argument of a long option, without the signs in front. -/
def ofLong? (text : List Char) : Option (List Item × Option OptionName) := do
  let name ← OptionName.ofLong? (text.takeWhile (· != '='))
  match name, text.dropWhile (· != '=') with
  | .verbose, [] => some ([option .verbose []], none)
  | .verbose, _ => none
  | name, [] => some ([], some name)
  | name, _ :: value => some ([option name value], none)

/-- Takes the arguments apart; `waiting` is an option whose value comes next. -/
def ofArguments? (waiting : Option OptionName) : List (List Char) → Option (List Item)
  | [] => if waiting.isNone then some [] else none
  | argument :: rest =>
    match waiting, argument with
    | some _, '-' :: _ => none
    | some name, value => (ofArguments? none rest).map (option name value :: ·)
    | none, ['-', '-'] => some (rest.map positional)
    | none, '-' :: '-' :: text => do
      let (items, waiting) ← ofLong? text
      (ofArguments? waiting rest).map (items ++ ·)
    | none, '-' :: c :: text => do
      let (items, waiting) ← ofShorts? (c :: text)
      (ofArguments? waiting rest).map (items ++ ·)
    | none, text => (ofArguments? none rest).map (positional text :: ·)

end Item

/-- A 32 bit number, with a sign and leading zeros if one likes. -/
def number? (text : List Char) : Option Nat :=
  let (negative, digits) := match text with
    | '+' :: digits => (false, digits)
    | '-' :: digits => (true, digits)
    | digits => (false, digits)
  let value := Nat.ofDigitChars 10 digits 0
  if isNumeral digits && decide (value < 0x100000000) && (!negative || value == 0) then some value
  else none

def values (items : List Item) (name : OptionName) : List (List Char) :=
  items.filterMap fun
    | .option name' value => if name' = name then some value else none
    | .positional _ => none

/-- The value of an option that is given at most once, if it can be read. -/
def value? {α : Type} (items : List Item) (name : OptionName) (read? : List Char → Option α) :
    Option (Option α) :=
  match values items name with
  | [] => some none
  | [text] => (read? text).map some
  | _ => none

/-- The command with the given name, its own options and no foreign ones. -/
def Command.ofItems? (name descriptor : List Char) (items : List Item) : Option Command := do
  let admits (own : List OptionName) : Bool := items.all fun
    | .option name _ => name.isGlobal || own.contains name
    | .positional _ => true
  if name = "check".toList && admits [] then
    some (.check descriptor)
  else if name = "script".toList && admits [.index, .combo] then
    some (.script descriptor (← value? items .index number?)
      (← value? items .combo ComboSelector.ofText?))
  else if name = "derive".toList && admits [.first, .count] then
    some (.derive descriptor ((← value? items .first number?).getD 0)
      ((← value? items .count number?).getD 10))
  else none

def Item.isPositional : Item → Bool
  | positional _ => true
  | option _ _ => false

/-- What the arguments ask for; there is none if they are not understood. -/
def Arguments.parse? (arguments : List String) : Option Arguments := do
  let items ← Item.ofArguments? none (arguments.map String.toList)
  let inFront := items.takeWhile fun item => !item.isPositional
  let isForAll : Item → Bool
    | .option name _ => name.isGlobal
    | .positional _ => true
  match items.filter Item.isPositional with
  | [.positional name, .positional descriptor] =>
    let network ← value? items .network fun text => Network.ofName? (String.ofList text)
    let keys ← (values items .xpriv).mapM Xprv.parse?
    let command ← Command.ofItems? name descriptor items
    if inFront.all isForAll then some ⟨network.getD .bitcoin, keys, command⟩ else none
  | _ => none

end OutputDescriptor.CommandLine
