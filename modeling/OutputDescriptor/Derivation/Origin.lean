import OutputDescriptor.Bytes
import OutputDescriptor.Derivation.Index

/-!
Where a derivation path starts: at a key that is not named, at the master key, or at the key with a
given fingerprint.
-/

namespace OutputDescriptor

/-- The first four bytes of a public key's hash. -/
abbrev Fingerprint := ByteBlock 4

inductive Origin
  | unnamed
  | master
  | fingerprint (fp : Fingerprint)
deriving DecidableEq

namespace Origin

def fingerprint? : Origin → Option Fingerprint
  | fingerprint fp => some fp
  | _ => none

def isNamed (origin : Origin) : Bool :=
  origin != unnamed

def render : Origin → List Char
  | unnamed => []
  | master => ['m']
  | fingerprint fp => Bytes.toHex fp.val

def parse (text : List Char) : Except PathError Origin :=
  match text with
  | [] => .ok unnamed
  | ['m'] => .ok master
  | _ =>
    match Bytes.ofHex? text with
    | some bytes =>
      if h : bytes.length = 4 then .ok (fingerprint ⟨bytes, h⟩) else .error (.invalidOrigin text)
    | none => .error (.invalidOrigin text)

theorem parse_render (origin : Origin) : parse origin.render = .ok origin := by
  cases origin with
  | unnamed => rfl
  | master => rfl
  | fingerprint fp =>
    obtain ⟨bytes, h⟩ := fp
    have long : (Bytes.toHex bytes).length = 8 := by simp [h]
    rw [render, parse.eq_def]
    split
    · next e => simp [e] at long
    · next e => simp [e] at long
    · simp [Bytes.ofHex?_toHex, h]

end Origin

end OutputDescriptor
