import OutputDescriptor.Base58
import OutputDescriptor.Bech32
import OutputDescriptor.Network
import OutputDescriptor.Script

/-!
Addresses: the texts that stand for the standard output scripts of a network.

A hash of a key or of a script is written in guarded base 58, a witness program in bech32. The text
tells the network, except that one test network writes its addresses like another: such a text is
always read as the older one's.
-/

namespace OutputDescriptor

structure WitnessProgram where
  version : Fin 17
  program : Bytes
  length_le : 2 ≤ program.length ∧ program.length ≤ 40
  length_zero : version = 0 → program.length = 20 ∨ program.length = 32
deriving DecidableEq

def WitnessProgram.ofBytes? (version : Nat) (program : Bytes) : Option WitnessProgram :=
  if hv : version < 17 then
    if h : (2 ≤ program.length ∧ program.length ≤ 40) ∧
        ((⟨version, hv⟩ : Fin 17) = 0 → program.length = 20 ∨ program.length = 32) then
      some ⟨⟨version, hv⟩, program, h.1, h.2⟩
    else none
  else none

/-- What an address pays to. -/
inductive Payload
  | publicKeyHash (hash : ByteBlock 20)
  | scriptHash (hash : ByteBlock 20)
  | witness (program : WitnessProgram)
deriving DecidableEq

namespace Payload

def script : Payload → Script
  | publicKeyHash hash => Script.payToPublicKeyHash hash.val
  | scriptHash hash => Script.payToScriptHash hash.val
  | witness program => Script.payToWitness program.version program.program

/-- The version of a witness program, as its opcode tells it. -/
def witnessVersion? (opcode : UInt8) : Option Nat :=
  if opcode = 0 then some 0
  else if 0x51 ≤ opcode ∧ opcode ≤ 0x60 then some (opcode.toNat - 0x50)
  else none

/-- The hash in a script that consists of `head`, a hash and `tail`. -/
def hashBetween? (head tail : Script) (script : Script) : Option (ByteBlock 20) :=
  let hash := (script.drop head.length).take 20
  if h : hash.length = 20 then
    if script = head ++ hash ++ tail then some ⟨hash, h⟩ else none
  else none

def witnessOf? : Script → Option WitnessProgram
  | opcode :: length :: program =>
    if length.toNat = program.length then do
      WitnessProgram.ofBytes? (← witnessVersion? opcode) program
    else none
  | _ => none

/-- Recognises the standard forms of output scripts that have an address. -/
def ofScript? (script : Script) : Option Payload :=
  ((hashBetween? [0x76, 0xa9, 0x14] [0x88, 0xac] script).map publicKeyHash).or <|
    ((hashBetween? [0xa9, 0x14] [0x87] script).map scriptHash).or <|
      (witnessOf? script).map witness

end Payload

structure Address where
  network : Network
  payload : Payload
deriving DecidableEq

namespace Address

/-- The human-readable part of a network's bech32 addresses. -/
def readablePart : Network → List Char
  | .bitcoin => ['b', 'c']
  | .testnet => ['t', 'b']
  | .signet => ['t', 'b']
  | .regtest => ['b', 'c', 'r', 't']

/-- The network of a human-readable part, which may be written in capitals. -/
def networkOfReadable? (readable : List Char) : Option Network :=
  [Network.bitcoin, .testnet, .regtest].find? fun network =>
    readable == readablePart network || readable == (readablePart network).map Char.toUpper

def keyHashVersion : Network → UInt8
  | .bitcoin => 0
  | _ => 111

def scriptHashVersion : Network → UInt8
  | .bitcoin => 5
  | _ => 196

def variantOf (version : Nat) : Bech32.Variant :=
  if version = 0 then .bech32 else .bech32m

def text (address : Address) : List Char :=
  match address.payload with
  | .publicKeyHash hash => Base58.encodeGuarded (keyHashVersion address.network :: hash.val)
  | .scriptHash hash => Base58.encodeGuarded (scriptHashVersion address.network :: hash.val)
  | .witness ⟨version, program, _, _⟩ =>
    Bech32.encode (variantOf version) (readablePart address.network)
      (BitVec.ofNat 5 version :: Bech32.symbolsOfBytes program)

def parseWitness? (network : Network) (readable data : List Char) : Option Address := do
  let (variant, symbols) ← Bech32.decode? readable data
  match symbols with
  | [] => none
  | version :: symbols =>
    let program ← WitnessProgram.ofBytes? version.toNat (← Bech32.bytesOfSymbols? symbols)
    if variant = variantOf version.toNat then some ⟨network, .witness program⟩ else none

def parseHash? (text : List Char) : Option Address :=
  if 50 < text.length then none
  else do
    match ← Base58.decodeGuarded? text with
    | [] => none
    | version :: hash =>
      if h : hash.length = 20 then
        if version = 0 then some ⟨.bitcoin, .publicKeyHash ⟨hash, h⟩⟩
        else if version = 5 then some ⟨.bitcoin, .scriptHash ⟨hash, h⟩⟩
        else if version = 111 then some ⟨.testnet, .publicKeyHash ⟨hash, h⟩⟩
        else if version = 196 then some ⟨.testnet, .scriptHash ⟨hash, h⟩⟩
        else none
      else none

/-- Reads an address. What stands before the last separator decides which of the two codes to use. -/
def parse? (text : List Char) : Option Address :=
  match Bech32.split? text with
  | none => parseHash? text
  | some (readable, data) =>
    match networkOfReadable? readable with
    | some network => parseWitness? network readable data
    | none => parseHash? text

def script (address : Address) : Script :=
  address.payload.script

/-- The address of a script in a network, if the script has one of the standard forms. -/
def ofScript? (network : Network) (script : Script) : Option Address :=
  (Payload.ofScript? script).map (⟨network, ·⟩)

end Address

end OutputDescriptor
