-- The `usize` arithmetic of a 64-bit target, in a build without overflow
-- checks: a sum or a product past the largest value wraps.
import Mathlib.Algebra.Group.Nat.Defs
import Mathlib.Data.Nat.Init

namespace melinoe

def usizeMax : Nat := 2 ^ 64 - 1

theorem one_le_usizeMax : 1 ≤ usizeMax := by decide

/-- The most bytes, so the most cells of a nonzero size, that one slice holds. -/
def isizeMax : Nat := 2 ^ 63 - 1

abbrev Usize := { n : Nat // n ≤ usizeMax }

/-- `core::num::NonZeroUsize`. -/
structure NonZeroUsize where
  get : Nat
  pos : 0 < get
  fits : get ≤ usizeMax
deriving DecidableEq

def wadd (a b : Nat) : Nat := (a + b) % 2 ^ 64

def wmul (a b : Nat) : Nat := a * b % 2 ^ 64

def wsub (a b : Nat) : Nat := (a + 2 ^ 64 - b) % 2 ^ 64

/-- `None` for an overflow, as a build with overflow checks panics there. -/
def checked_add (a b : Nat) : Option Nat := if a + b ≤ usizeMax then some (a + b) else none

def checked_sub (a b : Nat) : Option Nat := if b ≤ a then some (a - b) else none

def checked_div (a b : Nat) : Option Nat := if b = 0 then none else some (a / b)

/-- `usize::div_ceil`. -/
def div_ceil (a b : Nat) : Nat := if a % b > 0 then a / b + 1 else a / b

theorem wadd_eq {a b : Nat} (h : a + b ≤ usizeMax) : wadd a b = a + b := by
  unfold usizeMax at h
  exact Nat.mod_eq_of_lt (by omega)

/-- A sum of two `usize`s that is not one wraps once. -/
theorem wadd_wraps {a b : Nat} (ha : a ≤ usizeMax) (hb : b ≤ usizeMax) (h : usizeMax < a + b) :
    wadd a b = a + b - 2 ^ 64 := by
  unfold usizeMax at *
  unfold wadd
  omega

theorem wmul_eq {a b : Nat} (h : a * b ≤ usizeMax) : wmul a b = a * b := by
  unfold usizeMax at h
  exact Nat.mod_eq_of_lt (by omega)

theorem wsub_eq {a b : Nat} (h : b ≤ a) (ha : a ≤ usizeMax) : wsub a b = a - b := by
  unfold usizeMax at ha
  unfold wsub
  omega

theorem isizeMax_le : isizeMax ≤ usizeMax := by decide

/-! ## The ends of chunks -/

/-- The length, rounded up to a multiple of the chunk size, is a `usize`. -/
def RoundsUp (len chunk : Nat) : Prop := chunk ∣ len ∨ len / chunk * chunk + chunk ≤ usizeMax

instance (len chunk : Nat) : Decidable (RoundsUp len chunk) := inferInstanceAs (Decidable (_ ∨ _))

variable {index chunk len : Nat}

/-- Then the end of every chunk that starts inside the length is a `usize`. -/
theorem RoundsUp.fits (h : RoundsUp len chunk) (hl : len ≤ usizeMax) (hi : index * chunk < len) :
    index * chunk + chunk ≤ usizeMax := by
  rcases h with ⟨q, rfl⟩ | h
  · have hlt : index < q := Nat.lt_of_mul_lt_mul_left (by rwa [Nat.mul_comm chunk index])
    have hle : (index + 1) * chunk ≤ q * chunk := Nat.mul_le_mul_right chunk hlt
    rw [Nat.add_one_mul, Nat.mul_comm q] at hle
    omega
  · rcases Nat.eq_zero_or_pos chunk with rfl | hpos
    · exact Nat.zero_le _
    · have hle : index ≤ len / chunk := (Nat.le_div_iff_mul_le hpos).mpr (Nat.le_of_lt hi)
      have := Nat.mul_le_mul_right chunk hle
      omega

/-- No slice of cells is so long that this fails. -/
theorem roundsUp_of_le (hl : len ≤ isizeMax) (hc : chunk ≤ usizeMax) : RoundsUp len chunk := by
  refine .inr ?_
  have hle := Nat.div_mul_le_self len chunk
  rcases Nat.eq_zero_or_pos (len / chunk) with h0 | hpos
  · rw [h0]
    omega
  · have : chunk ≤ len / chunk * chunk := Nat.le_mul_of_pos_left chunk hpos
    unfold isizeMax at hl
    unfold usizeMax
    omega

/-- The end of a chunk that starts inside a slice of cells fits a `usize`. -/
theorem chunk_end_fits (hi : index * chunk < len) (hl : len ≤ isizeMax) (hc : chunk ≤ usizeMax) :
    index * chunk + chunk ≤ usizeMax :=
  (roundsUp_of_le hl hc).fits (Nat.le_trans hl isizeMax_le) hi

end melinoe
