/-!
Checksums over five bit symbols.

A code has a register of `size` symbols and five generators, one for each bit that a shift pushes
out of the register. Feeding a symbol shifts it in and adds the generators of the bits pushed out.
The checksum of a text is the symbols that lead the register to a fixed residue when they are fed
after the text.
-/

namespace OutputDescriptor

abbrev Symbol := BitVec 5

namespace Symbol

/-- The characters that write the 32 symbols, in order. -/
def alphabet : List Char :=
  "qpzry9x8gf2tvdw0s3jn54khce6mua7l".toList

def char (symbol : Symbol) : Char :=
  alphabet.getD symbol.toNat 'q'

def ofChar? (c : Char) : Option Symbol :=
  (alphabet.idxOf? c).map (BitVec.ofNat 5)

theorem ofChar?_char : ∀ symbol : Symbol, ofChar? symbol.char = some symbol := by
  decide

end Symbol

structure BchCode (size : Nat) where
  generators : List (BitVec (5 * size))

namespace BchCode

variable {size : Nat}

def feed (code : BchCode size) (register : BitVec (5 * size)) (symbol : Symbol) :
    BitVec (5 * size) :=
  let pushedOut := register >>> (5 * size - 5)
  code.generators.zipIdx.foldl
    (fun r (generator, bit) => if pushedOut.getLsbD bit then r ^^^ generator else r)
    ((register <<< 5) ^^^ symbol.setWidth (5 * size))

/-- The register after all symbols, starting from one. -/
def remainder (code : BchCode size) (symbols : List Symbol) : BitVec (5 * size) :=
  symbols.foldl code.feed 1

/-- The register's symbols, the oldest first. -/
def symbolsOf (register : BitVec (5 * size)) : List Symbol :=
  (List.range size).map fun i => (register >>> (5 * (size - 1 - i))).setWidth 5

/-- The symbols that lead the register to `residue` when they follow `symbols`. -/
def checksum (code : BchCode size) (residue : BitVec (5 * size)) (symbols : List Symbol) :
    List Symbol :=
  symbolsOf (code.remainder (symbols ++ List.replicate size 0) ^^^ residue)

@[simp] theorem length_symbolsOf (register : BitVec (5 * size)) :
    (symbolsOf register).length = size := by
  simp [symbolsOf]

end BchCode

end OutputDescriptor
