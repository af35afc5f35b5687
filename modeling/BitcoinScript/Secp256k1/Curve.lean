import BitcoinScript.Bytes

/-!
The curve secp256k1: `y² = x³ + 7` over the prime field of order `p = 2²⁵⁶ - 2³² - 977`, with the
generator `G` of prime order `n`. Points are kept in Jacobian coordinates `(X, Y, Z)`, standing
for `(X / Z², Y / Z³)`, with `Z = 0` for the point at infinity, so that adding and doubling need
no inversion; one inversion brings a result back to affine coordinates.
-/

set_option autoImplicit false

namespace BitcoinScript

namespace Secp256k1

/-- The field prime. -/
def p : Nat := 0xfffffffffffffffffffffffffffffffffffffffffffffffffffffffefffffc2f

/-- The order of the generator. -/
def n : Nat := 0xfffffffffffffffffffffffffffffffebaaedce6af48a03bbfd25e8cd0364141

/-- The generator's x-coordinate. -/
def gx : Nat := 0x79be667ef9dcbbac55a06295ce870b07029bfcdb2dce28d959f2815b16f81798

/-- The generator's y-coordinate. -/
def gy : Nat := 0x483ada7726a3c4655da4fbfc0e1108a8fd17b448a68554199c47d08ffb10d4b8

/-- `b ^ e mod m` by squaring. -/
def powMod (b e m : Nat) : Nat :=
  if e = 0 then 1 % m
  else
    let half := powMod (b * b % m) (e / 2) m
    if e % 2 = 1 then half * b % m else half
termination_by e
decreasing_by omega

/-- The inverse modulo a prime `m`, by Fermat's little theorem (zero for zero). -/
def inverse (a m : Nat) : Nat := powMod a (m - 2) m

/-- Subtraction in the field. -/
def fsub (a b : Nat) : Nat := (a + p - b % p) % p

/-- Multiplication in the field. -/
def fmul (a b : Nat) : Nat := a * b % p

/-- Whether an affine point lies on the curve. -/
def onCurve (x y : Nat) : Bool :=
  x < p && y < p && fmul y y == (fmul (fmul x x) x + 7) % p

/-- A point in Jacobian coordinates; `z = 0` is the point at infinity. -/
structure Jacobian where
  x : Nat
  y : Nat
  z : Nat

namespace Jacobian

/-- The point at infinity. -/
def infinity : Jacobian := ⟨1, 1, 0⟩

/-- An affine point. -/
def ofAffine (x y : Nat) : Jacobian := ⟨x, y, 1⟩

/-- Doubling, for the curve's `a = 0`. -/
def double (q : Jacobian) : Jacobian :=
  if q.z = 0 ∨ q.y = 0 then infinity
  else
    let a := fmul q.x q.x
    let b := fmul q.y q.y
    let c := fmul b b
    let d := fmul 2 (fsub (fsub (fmul (q.x + b) (q.x + b)) a) c)
    let e := fmul 3 a
    let f := fmul e e
    let x3 := fsub f (fmul 2 d)
    let y3 := fsub (fmul e (fsub d x3)) (fmul 8 c)
    ⟨x3, y3, fmul 2 (fmul q.y q.z)⟩

/-- Addition of two points. -/
def add (q r : Jacobian) : Jacobian :=
  if q.z = 0 then r
  else if r.z = 0 then q
  else
    let z1z1 := fmul q.z q.z
    let z2z2 := fmul r.z r.z
    let u1 := fmul q.x z2z2
    let u2 := fmul r.x z1z1
    let s1 := fmul (fmul q.y r.z) z2z2
    let s2 := fmul (fmul r.y q.z) z1z1
    if u1 = u2 then
      if s1 = s2 then double q else infinity
    else
      let h := fsub u2 u1
      let i := fmul (fmul 2 h) (fmul 2 h)
      let j := fmul h i
      let rr := fmul 2 (fsub s2 s1)
      let v := fmul u1 i
      let x3 := fsub (fsub (fmul rr rr) j) (fmul 2 v)
      let y3 := fsub (fmul rr (fsub v x3)) (fmul 2 (fmul s1 j))
      let z3 := fmul (fsub (fsub (fmul (q.z + r.z) (q.z + r.z)) z1z1) z2z2) h
      ⟨x3, y3, z3⟩

/-- The bits of a number, most significant first. -/
def bits (k : Nat) : List Bool :=
  (List.range (Nat.log2 k + 1)).reverse.map k.testBit

/-- `k · q` by doubling and adding, most significant bit first. -/
def smul (k : Nat) (q : Jacobian) : Jacobian :=
  (bits k).foldl (fun acc bit => if bit then add (double acc) q else double acc) infinity

/-- The affine x-coordinate, or `none` at infinity. -/
def affineX? (q : Jacobian) : Option Nat :=
  if q.z = 0 then none
  else
    let zi := inverse q.z p
    some (fmul q.x (fmul zi zi))

end Jacobian

/-- The generator. -/
def generator : Jacobian := Jacobian.ofAffine gx gy

end Secp256k1

end BitcoinScript
