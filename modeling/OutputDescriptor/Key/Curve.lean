/-!
Arithmetic of the curve `y² = x³ + 7` that keys live on.

Points are added in Jacobian coordinates, where `(x, y, z)` stands for `(x / z², y / z³)` and `z = 0`
for the neutral element, so that a whole multiplication needs a single division at its end. Numbers
are kept reduced modulo the field's prime.
-/

namespace OutputDescriptor.Curve

def fieldPrime : Nat :=
  0xfffffffffffffffffffffffffffffffffffffffffffffffffffffffefffffc2f

/-- The number of points, which is prime too. -/
def groupOrder : Nat :=
  0xfffffffffffffffffffffffffffffffebaaedce6af48a03bbfd25e8cd0364141

/-- The power of `base` to the low `bits` bits of an exponent. -/
def power (base : Nat) : (bits : Nat) → (exponent : Nat) → Nat
  | 0, _ => 1
  | bits + 1, exponent =>
    let half := power base bits (exponent / 2)
    let square := half * half % fieldPrime
    if exponent % 2 = 1 then square * base % fieldPrime else square

/-- The inverse of a number other than zero, as its power to `fieldPrime - 2`. -/
def inverse (a : Nat) : Nat :=
  power a 256 (fieldPrime - 2)

/-- A square root, if there is one: the field's prime leaves 3 modulo 4. -/
def squareRoot? (a : Nat) : Option Nat :=
  let root := power a 256 ((fieldPrime + 1) / 4)
  if root * root % fieldPrime = a % fieldPrime then some root else none

def sub (a b : Nat) : Nat :=
  (a + (fieldPrime - b)) % fieldPrime

/-- The right side of the curve's equation. -/
def cubic (x : Nat) : Nat :=
  (x * x % fieldPrime * x + 7) % fieldPrime

structure Jacobian where
  x : Nat
  y : Nat
  z : Nat

namespace Jacobian

def zero : Jacobian := ⟨1, 1, 0⟩

def ofAffine (x y : Nat) : Jacobian := ⟨x, y, 1⟩

def double (p : Jacobian) : Jacobian :=
  let a := p.x * p.x % fieldPrime
  let b := p.y * p.y % fieldPrime
  let c := b * b % fieldPrime
  let d := 4 * (p.x * b) % fieldPrime
  let e := 3 * a % fieldPrime
  let x := sub (e * e % fieldPrime) (2 * d % fieldPrime)
  let y := sub (e * sub d x % fieldPrime) (8 * c % fieldPrime)
  ⟨x, y, 2 * (p.y * p.z) % fieldPrime⟩

def add (p q : Jacobian) : Jacobian :=
  if p.z = 0 then q
  else if q.z = 0 then p
  else
    let pz := p.z * p.z % fieldPrime
    let qz := q.z * q.z % fieldPrime
    let u := p.x * qz % fieldPrime
    let s := p.y * (qz * q.z % fieldPrime) % fieldPrime
    let h := sub (q.x * pz % fieldPrime) u
    let r := sub (q.y * (pz * p.z % fieldPrime) % fieldPrime) s
    if h = 0 then
      if r = 0 then p.double else zero
    else
      let hh := h * h % fieldPrime
      let hhh := hh * h % fieldPrime
      let v := u * hh % fieldPrime
      let x := sub (sub (r * r % fieldPrime) hhh) (2 * v % fieldPrime)
      let y := sub (r * sub v x % fieldPrime) (s * hhh % fieldPrime)
      ⟨x, y, p.z * q.z % fieldPrime * h % fieldPrime⟩

/-- The multiple of a point by the low `bits` bits of a scalar. -/
def multiply (p : Jacobian) : (bits : Nat) → (scalar : Nat) → Jacobian
  | 0, _ => zero
  | bits + 1, scalar =>
    let twice := (multiply p bits (scalar / 2)).double
    if scalar % 2 = 1 then twice.add p else twice

def affineX (p : Jacobian) : Nat :=
  let i := inverse p.z
  p.x * (i * i % fieldPrime) % fieldPrime

def affineY (p : Jacobian) : Nat :=
  let i := inverse p.z
  p.y * (i * i % fieldPrime * i % fieldPrime) % fieldPrime

end Jacobian

def generator : Jacobian :=
  .ofAffine 0x79be667ef9dcbbac55a06295ce870b07029bfcdb2dce28d959f2815b16f81798
    0x483ada7726a3c4655da4fbfc0e1108a8fd17b448a68554199c47d08ffb10d4b8

theorem fieldPrime_pos : 0 < fieldPrime := by decide

theorem Jacobian.affineX_lt (p : Jacobian) : p.affineX < fieldPrime := Nat.mod_lt _ fieldPrime_pos

end OutputDescriptor.Curve
