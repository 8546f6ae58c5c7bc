import OutputDescriptor.Bytes

/-!
Opcodes: their names, and how many bytes of a script belong to each.

An opcode up to `0x4b` pushes that many bytes. The next three push a run whose length stands in the
one, two or four bytes behind them. No other opcode carries data.
-/

namespace OutputDescriptor.Opcode

/-- The names from `0x61` on. -/
def operatorNames : List String := [
  "OP_NOP", "OP_VER", "OP_IF", "OP_NOTIF", "OP_VERIF", "OP_VERNOTIF", "OP_ELSE", "OP_ENDIF",
  "OP_VERIFY", "OP_RETURN", "OP_TOALTSTACK", "OP_FROMALTSTACK", "OP_2DROP", "OP_2DUP", "OP_3DUP",
  "OP_2OVER", "OP_2ROT", "OP_2SWAP", "OP_IFDUP", "OP_DEPTH", "OP_DROP", "OP_DUP", "OP_NIP",
  "OP_OVER", "OP_PICK", "OP_ROLL", "OP_ROT", "OP_SWAP", "OP_TUCK", "OP_CAT", "OP_SUBSTR",
  "OP_LEFT", "OP_RIGHT", "OP_SIZE", "OP_INVERT", "OP_AND", "OP_OR", "OP_XOR", "OP_EQUAL",
  "OP_EQUALVERIFY", "OP_RESERVED1", "OP_RESERVED2", "OP_1ADD", "OP_1SUB", "OP_2MUL", "OP_2DIV",
  "OP_NEGATE", "OP_ABS", "OP_NOT", "OP_0NOTEQUAL", "OP_ADD", "OP_SUB", "OP_MUL", "OP_DIV",
  "OP_MOD", "OP_LSHIFT", "OP_RSHIFT", "OP_BOOLAND", "OP_BOOLOR", "OP_NUMEQUAL",
  "OP_NUMEQUALVERIFY", "OP_NUMNOTEQUAL", "OP_LESSTHAN", "OP_GREATERTHAN", "OP_LESSTHANOREQUAL",
  "OP_GREATERTHANOREQUAL", "OP_MIN", "OP_MAX", "OP_WITHIN", "OP_RIPEMD160", "OP_SHA1",
  "OP_SHA256", "OP_HASH160", "OP_HASH256", "OP_CODESEPARATOR", "OP_CHECKSIG", "OP_CHECKSIGVERIFY",
  "OP_CHECKMULTISIG", "OP_CHECKMULTISIGVERIFY", "OP_NOP1", "OP_CLTV", "OP_CSV", "OP_NOP4",
  "OP_NOP5", "OP_NOP6", "OP_NOP7", "OP_NOP8", "OP_NOP9", "OP_NOP10", "OP_CHECKSIGADD"]

def name (opcode : UInt8) : String :=
  let n := opcode.toNat
  if n = 0 then "OP_0"
  else if n ≤ 0x4b then s!"OP_PUSHBYTES_{n}"
  else if n = 0x4c then "OP_PUSHDATA1"
  else if n = 0x4d then "OP_PUSHDATA2"
  else if n = 0x4e then "OP_PUSHDATA4"
  else if n = 0x4f then "OP_PUSHNUM_NEG1"
  else if n = 0x50 then "OP_RESERVED"
  else if n ≤ 0x60 then s!"OP_PUSHNUM_{n - 0x50}"
  else if n = 0xff then "OP_INVALIDOPCODE"
  else operatorNames.getD (n - 0x61) s!"OP_RETURN_{n}"

/-- The size of the length field behind an opcode. -/
def lengthField (opcode : UInt8) : Nat :=
  if opcode = 0x4c then 1 else if opcode = 0x4d then 2 else if opcode = 0x4e then 4 else 0

/-- How many bytes an opcode pushes, given its length field. -/
def pushLength (opcode : UInt8) (field : Bytes) : Nat :=
  if opcode ≤ 0x4b then opcode.toNat else Bytes.toNat field.reverse

end OutputDescriptor.Opcode
