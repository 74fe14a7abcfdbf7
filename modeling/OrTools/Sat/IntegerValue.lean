import Mathlib.Algebra.Order.Ring.Int
set_option autoImplicit false

/-!
# `IntegerValue` arithmetic

`IntegerValue` is a strong `int64`.  Its `+`, `-` and `*` are the machine
operations, which wrap around modulo `2^64` once a result leaves
`[-2^63, 2^63)`.  The model keeps every value as an `Int` and applies `wrap`
after each operation the code does in `IntegerValue`.

Wrapping commutes with the ring operations.  So a computation wrapped at every
step is the exact computation wrapped once, and it is the exact value whenever
that value fits in an `int64`.
-/

namespace OrTools.Sat

/-- The values of an `int64`. -/
def InInt64 (x : Int) : Prop := -9223372036854775808 ≤ x ∧ x < 9223372036854775808

instance (x : Int) : Decidable (InInt64 x) := inferInstanceAs (Decidable (_ ∧ _))

/-- Two's-complement wrap-around onto `int64`. -/
def wrap (x : Int) : Int := (x + 9223372036854775808) % 18446744073709551616 - 9223372036854775808

/-- `IntegerValue` addition. -/
def int64Add (a b : Int) : Int := wrap (a + b)

/-- `IntegerValue` subtraction. -/
def int64Sub (a b : Int) : Int := wrap (a - b)

/-- `IntegerValue` multiplication. -/
def int64Mul (a b : Int) : Int := wrap (a * b)

theorem wrap_of_inInt64 {x : Int} (h : InInt64 x) : wrap x = x := by
  unfold InInt64 at h
  unfold wrap
  omega

/-- `wrap` only depends on the residue modulo `2^64`. -/
theorem wrap_sub_mul (x k : Int) : wrap (x - k * 18446744073709551616) = wrap x := by
  unfold wrap
  omega

theorem wrap_eq_sub_mul (x : Int) :
    wrap x = x - (x + 9223372036854775808) / 18446744073709551616 * 18446744073709551616 := by
  unfold wrap
  omega

@[simp] theorem wrap_add_wrap_left (a b : Int) : wrap (wrap a + b) = wrap (a + b) := by
  unfold wrap
  omega

@[simp] theorem wrap_add_wrap_right (a b : Int) : wrap (a + wrap b) = wrap (a + b) := by
  unfold wrap
  omega

@[simp] theorem wrap_mul_wrap_right (a b : Int) : wrap (a * wrap b) = wrap (a * b) := by
  rw [wrap_eq_sub_mul b, Int.mul_sub, ← Int.mul_assoc, wrap_sub_mul]

@[simp] theorem wrap_mul_wrap_left (a b : Int) : wrap (wrap a * b) = wrap (a * b) := by
  rw [Int.mul_comm, wrap_mul_wrap_right, Int.mul_comm]

@[simp] theorem wrap_zero : wrap 0 = 0 := rfl

/-- The wrapped difference is the exact one when the exact one fits. -/
theorem int64Sub_of_inInt64 {a b : Int} (h : InInt64 (a - b)) : int64Sub a b = a - b :=
  wrap_of_inInt64 h

/-- `2^32 * 2^32` wraps to zero. -/
example : int64Mul 4294967296 4294967296 = 0 := by decide

end OrTools.Sat
