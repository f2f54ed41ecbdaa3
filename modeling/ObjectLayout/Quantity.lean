import ObjectLayout.Fault

/-! Sizes, offsets and alignments. A quantity is a natural number of bytes or of bits that fits 64
bits; every operation that could leave that range is checked. The small laws below are what the
layout rules rely on: rounding up lands on the least multiple, and a checked result is the plain
arithmetic one. -/
namespace ObjectLayout

abbrev Bytes := Nat
abbrev Bits := Nat

namespace Quantity

/-- The first number that no longer fits. -/
def limit : Nat := Nat.pow 2 64

def bitsPerByte : Nat := 8

def fit (n : Nat) : Checked Nat :=
  if n < limit then .ok n else .error .overflow

def add (a b : Nat) : Checked Nat := fit (a + b)

def sub (a b : Nat) : Checked Nat :=
  if b ≤ a then .ok (a - b) else .error .underflow

def mul (a b : Nat) : Checked Nat := fit (a * b)

/-- The least multiple of `b` that is at least `a`. -/
def roundUp (a b : Nat) : Nat := (a + b - 1) / b * b

def alignTo (a b : Nat) : Checked Nat :=
  if b = 0 then .error (.breach .alignToZero) else fit (roundUp a b)

def isAlignedTo (a b : Nat) : Bool := b != 0 && a % b == 0

def isPowerOfTwo (n : Nat) : Bool := n != 0 && n == Nat.pow 2 n.log2

/-- The least power of two that is at least `n`. -/
def nextPowerOfTwo (n : Nat) : Checked Nat :=
  if n ≤ 1 then .ok 1 else fit (Nat.pow 2 ((n - 1).log2 + 1))

def sum (ns : List Nat) : Checked Nat := ns.foldlM add 0

end Quantity

namespace Bytes

def toBits (n : Bytes) : Checked Bits := Quantity.mul n Quantity.bitsPerByte

end Bytes

namespace Bits

def isWholeBytes (n : Bits) : Bool := n % Quantity.bitsPerByte == 0

def toBytesFloor (n : Bits) : Bytes := n / Quantity.bitsPerByte

def toBytesCeil (n : Bits) : Bytes := (n + (Quantity.bitsPerByte - 1)) / Quantity.bitsPerByte

end Bits

namespace Quantity

theorem add_eq_ok_iff {a b c : Nat} : add a b = .ok c ↔ c = a + b ∧ a + b < limit := by
  unfold add fit
  split <;> simp_all [eq_comm]

theorem sub_eq_ok_iff {a b c : Nat} : sub a b = .ok c ↔ b ≤ a ∧ c = a - b := by
  unfold sub
  by_cases enough : b ≤ a
  · simp [enough, eq_comm]
  · simp [enough]

theorem mul_eq_ok_iff {a b c : Nat} : mul a b = .ok c ↔ c = a * b ∧ a * b < limit := by
  unfold mul fit
  split <;> simp_all [eq_comm]

theorem dvd_roundUp (a b : Nat) : b ∣ roundUp a b := Nat.dvd_mul_left _ _

theorem le_roundUp {a b : Nat} (positive : 0 < b) : a ≤ roundUp a b := by
  have whole := Nat.div_add_mod (a + b - 1) b
  have small := Nat.mod_lt (a + b - 1) positive
  have same := Nat.mul_comm b ((a + b - 1) / b)
  unfold roundUp
  omega

theorem roundUp_le {a b m : Nat} (positive : 0 < b) (enough : a ≤ m) (multiple : b ∣ m) :
    roundUp a b ≤ m := by
  obtain ⟨k, rfl⟩ := multiple
  have fewer : (a + b - 1) / b ≤ k :=
    Nat.lt_succ_iff.mp ((Nat.div_lt_iff_lt_mul positive).mpr (by
      have := Nat.mul_comm b k
      rw [Nat.succ_mul]
      omega))
  calc (a + b - 1) / b * b ≤ k * b := Nat.mul_le_mul_right b fewer
    _ = b * k := Nat.mul_comm k b

theorem roundUp_zero {b : Nat} (positive : 0 < b) : roundUp 0 b = 0 :=
  Nat.le_zero.mp (roundUp_le positive Nat.le.refl (Nat.dvd_zero b))

theorem alignTo_eq_ok_iff {a b c : Nat} :
    alignTo a b = .ok c ↔ b ≠ 0 ∧ c = roundUp a b ∧ roundUp a b < limit := by
  unfold alignTo fit
  split
  · simp_all
  · split <;> simp_all [eq_comm]

end Quantity

end ObjectLayout
