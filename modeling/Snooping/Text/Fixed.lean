/-!
# Fixed decimals

Numbers written with two places after the point. The digits are those of the exact binary value,
rounded to the nearest hundredth, with ties going to the even one.

* `roundDiv`: a quotient rounded to a whole number.
* `Binary`, `Binary.ofFloat`: the exact value of a float that is not negative.
* **`hundredths`**, **`fixed2`**: the rounded value, and its text.
-/

namespace Snooping.Text

/-- The whole number nearest to a quotient, the even one of two. -/
def roundDiv (num den : Nat) : Nat :=
  let q := num / den
  let r := num % den
  if 2 * r < den then q
  else if den < 2 * r then q + 1
  else if q % 2 = 0 then q else q + 1

/-- The value `m * 2 ^ (e - 1075)`. -/
structure Binary where
  m : Nat
  e : Nat
  deriving DecidableEq

/-- The exact value of a finite float, without its sign. -/
def Binary.ofFloat (x : Float) : Binary :=
  let bits := x.toBits.toNat
  let fraction := bits % (1 <<< 52)
  let exponent := (bits >>> 52) % (1 <<< 11)
  if exponent = 0 then ⟨fraction, 1⟩ else ⟨(1 <<< 52) + fraction, exponent⟩

/-- **The hundredths of a value**, rounded. -/
def hundredths (b : Binary) : Nat :=
  if 1075 ≤ b.e then (100 * b.m) <<< (b.e - 1075) else roundDiv (100 * b.m) (1 <<< (1075 - b.e))

/-- **A value with two places.** -/
def fixed2 (x : Float) : String :=
  let h := hundredths (.ofFloat x)
  let part := toString (h % 100)
  toString (h / 100) ++ "." ++ (if part.length = 1 then "0" ++ part else part)

theorem roundDiv_mul (q : Nat) {den : Nat} (h : 0 < den) : roundDiv (q * den) den = q := by
  simp [roundDiv, h]

end Snooping.Text
