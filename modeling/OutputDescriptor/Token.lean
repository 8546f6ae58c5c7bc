import OutputDescriptor.Address
import OutputDescriptor.Key.Extended

/-!
Tokens of descriptor texts.

A lexeme carries what it spells: an address or a key comes decoded, while hex digits are kept as they
stand, since only the parser knows whether they are meant as bytes or as a number.
-/

namespace OutputDescriptor

inductive Delimiter
  | openParen
  | closeParen
  | openBracket
  | closeBracket
  | openBrace
  | closeBrace
  | comma
  | slash
  | asterisk
deriving DecidableEq

namespace Delimiter

def char : Delimiter → Char
  | openParen => '('
  | closeParen => ')'
  | openBracket => '['
  | closeBracket => ']'
  | openBrace => Char.ofNat 0x7b
  | closeBrace => Char.ofNat 0x7d
  | comma => ','
  | slash => '/'
  | asterisk => '*'

def all : List Delimiter :=
  [openParen, closeParen, openBracket, closeBracket, openBrace, closeBrace, comma, slash, asterisk]

def ofChar? (c : Char) : Option Delimiter :=
  all.find? fun delimiter => delimiter.char == c

/-- How messages show a delimiter: braces are doubled. -/
def name : Delimiter → String
  | openBrace => "\x7b\x7b"
  | closeBrace => "\x7d\x7d"
  | delimiter => delimiter.char.toString

theorem ofChar?_char (delimiter : Delimiter) : ofChar? delimiter.char = some delimiter := by
  cases delimiter <;> decide

end Delimiter

inductive Keyword
  | sh
  | wsh
  | pk
  | pkh
  | wpkh
  | combo
  | multi
  | sortedmulti
  | tr
  | addr
  | raw
deriving DecidableEq

namespace Keyword

def text : Keyword → List Char
  | sh => ['s', 'h']
  | wsh => ['w', 's', 'h']
  | pk => ['p', 'k']
  | pkh => ['p', 'k', 'h']
  | wpkh => ['w', 'p', 'k', 'h']
  | combo => ['c', 'o', 'm', 'b', 'o']
  | multi => ['m', 'u', 'l', 't', 'i']
  | sortedmulti => ['s', 'o', 'r', 't', 'e', 'd', 'm', 'u', 'l', 't', 'i']
  | tr => ['t', 'r']
  | addr => ['a', 'd', 'd', 'r']
  | raw => ['r', 'a', 'w']

def all : List Keyword :=
  [sh, wsh, pk, pkh, wpkh, combo, multi, sortedmulti, tr, addr, raw]

def ofText? (text : List Char) : Option Keyword :=
  all.find? fun keyword => keyword.text == text

theorem ofText?_text (keyword : Keyword) : ofText? keyword.text = some keyword := by
  cases keyword <;> decide

end Keyword

inductive TokenKind
  | delimiter (delimiter : Delimiter)
  | keyword (keyword : Keyword)
  | address
  | wif
  | extendedKey
  | hex
  | integer
  | hardenedMarker
deriving DecidableEq

def TokenKind.name : TokenKind → String
  | delimiter d => s!"`{d.name}`"
  | keyword k => s!"`{String.ofList k.text}`"
  | address => "address"
  | wif => "WIF private key"
  | extendedKey => "extended key"
  | hex => "hex data"
  | integer => "integer"
  | hardenedMarker => "hardened marker"

inductive Lexeme
  | delimiter (delimiter : Delimiter)
  | keyword (keyword : Keyword)
  | address (address : Address)
  | wif (key : WifKey)
  | extendedKey (key : ExtendedKey)
  | hex (digits : List Char)
  | integer (value : Nat)
  | hardenedMarker
deriving DecidableEq

namespace Lexeme

def kind : Lexeme → TokenKind
  | delimiter d => .delimiter d
  | keyword k => .keyword k
  | address _ => .address
  | wif _ => .wif
  | extendedKey _ => .extendedKey
  | hex _ => .hex
  | integer _ => .integer
  | hardenedMarker => .hardenedMarker

/-- Whether a derivation index may be meant, so that a hardened marker may follow. -/
def isIndex : Lexeme → Bool
  | integer _ => true
  | hex _ => true
  | delimiter .asterisk => true
  | _ => false

/-- The bytes meant by hex digits, which have to come in pairs. -/
def data? : Lexeme → Option Bytes
  | hex digits => Bytes.ofHex? digits
  | _ => none

/-- The 64 bit number meant by decimal digits. -/
def integer? : Lexeme → Option Nat
  | integer value => some value
  | hex digits =>
    let value := Nat.ofDigitChars 10 digits 0
    if isNumeral digits && decide (value < 0x10000000000000000) then some value else none
  | _ => none

end Lexeme

/-- A lexeme with the bytes of the text that it was read from: the first, and the first behind it. -/
structure Token where
  lexeme : Lexeme
  start : Nat
  stop : Nat
deriving DecidableEq

end OutputDescriptor
