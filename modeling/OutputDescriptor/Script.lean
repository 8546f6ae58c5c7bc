import OutputDescriptor.Script.Opcode

/-!
Output scripts: how data and numbers are pushed, the standard forms, and the readable listing.
-/

namespace OutputDescriptor

abbrev Script := Bytes

namespace Script

/-- Pushes data with the shortest opcode that has room for its length. -/
def push (data : Bytes) : Script :=
  let n := data.length
  if n < 0x4c then UInt8.ofNat n :: data
  else if n < 0x100 then 0x4c :: Bytes.littleEndian 1 n ++ data
  else if n < 0x10000 then 0x4d :: Bytes.littleEndian 2 n ++ data
  else 0x4e :: Bytes.littleEndian 4 n ++ data

/-- A magnitude as bytes, least significant first, of which the top bit is free for the sign. -/
def magnitude (fuel n : Nat) : Bytes :=
  match fuel with
  | 0 => []
  | fuel + 1 => if n < 0x80 then [UInt8.ofNat n] else UInt8.ofNat n :: magnitude fuel (n / 256)

/-- The bytes of a number other than zero; the top bit of the last one is its sign. -/
def numberBytes (n : Int) : Bytes :=
  let bytes := magnitude (n.natAbs + 1) n.natAbs
  if n < 0 then bytes.dropLast ++ (bytes.getLast?.map (· ||| 0x80)).toList else bytes

/-- Pushes a number: small ones have an opcode of their own. -/
def pushInt (n : Int) : Script :=
  if n = 0 then [0x00]
  else if n = -1 ∨ (1 ≤ n ∧ n ≤ 16) then [UInt8.ofNat (n + 0x50).toNat]
  else push (numberBytes n)

def payToPublicKey (key : Bytes) : Script :=
  push key ++ [0xac]

def payToPublicKeyHash (hash : Bytes) : Script :=
  [0x76, 0xa9] ++ push hash ++ [0x88, 0xac]

def payToScriptHash (hash : Bytes) : Script :=
  0xa9 :: push hash ++ [0x87]

def payToWitness (version : Nat) (program : Bytes) : Script :=
  pushInt version ++ push program

def multisig (threshold : Int) (keys : List Bytes) : Script :=
  pushInt threshold ++ keys.flatMap push ++ pushInt keys.length ++ [0xae]

/-- One entry of a listing. The last two end it, as the script stops in the middle of an opcode. -/
inductive Instruction
  | plain (opcode : UInt8)
  | push (opcode : UInt8) (data : Bytes)
  | cutData (opcode : UInt8)
  | cutLength

/-- Splits a script into instructions; `skip` bytes belong to the one read before. -/
def instructionsFrom : (skip : Nat) → Script → List Instruction
  | _, [] => []
  | skip + 1, _ :: rest => instructionsFrom skip rest
  | 0, opcode :: rest =>
    let width := Opcode.lengthField opcode
    if rest.length < width then [.cutLength]
    else
      let length := Opcode.pushLength opcode (rest.take width)
      if rest.length < width + length then [.cutData opcode]
      else if length = 0 then .plain opcode :: instructionsFrom width rest
      else
        .push opcode ((rest.drop width).take length) :: instructionsFrom (width + length) rest

def instructions (script : Script) : List Instruction :=
  instructionsFrom 0 script

def Instruction.text : Instruction → String
  | plain opcode => Opcode.name opcode
  | push opcode data => s!"{Opcode.name opcode} {String.ofList (Bytes.toHex data)}"
  | cutData opcode => s!"{Opcode.name opcode} <push past end>"
  | cutLength => "<unexpected end>"

/-- Instructions are listed with a space between them, but none before a cut off length. -/
def listing : List Instruction → String
  | [] => ""
  | [i] => i.text
  | i :: .cutLength :: _ => i.text ++ Instruction.cutLength.text
  | i :: rest => i.text ++ " " ++ listing rest

def asm (script : Script) : String :=
  listing script.instructions

end Script

end OutputDescriptor
