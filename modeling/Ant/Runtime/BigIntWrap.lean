import Mathlib.Data.Nat.Digits.Lemmas

/-! `BigInt.asIntN` and `BigInt.asUintN` of `bigint.c`. A number is a sign and limbs, which stand for
its magnitude; no number has more than `UINT32_MAX` limbs. -/
namespace Ant.Runtime.BigIntWrap

@[ext] structure BigInt where
  negative : Bool
  magnitude : Nat
  signed : negative = true → magnitude ≠ 0

def BigInt.toInt (number : BigInt) : Int := if number.negative then -number.magnitude else number.magnitude

def signedAs (negative : Bool) (magnitude : Nat) : BigInt := ⟨negative && magnitude != 0,magnitude,by simp⟩

@[simp] theorem signedAs_negative (negative : Bool) (magnitude : Nat) :
    (signedAs negative magnitude).negative = (negative && magnitude != 0) := rfl

section
variable {bits : Nat} (held : bits / 32 + 1 ≤ uint32Max)
include held

end

end Ant.Runtime.BigIntWrap
