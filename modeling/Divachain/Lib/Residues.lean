/-
  Divachain.Lib.Residues — how often a position comes up when one goes round.

  Consecutive numbers are taken modulo `n`.  Whatever number one begins with, each
  residue comes up once in `n` numbers; in `k` of them it comes up `k / n` times,
  or once more.
-/
import Mathlib.Data.Nat.Init
import Mathlib.Data.List.Range
import Mathlib.Algebra.Order.Ring.Nat

namespace DataKit

variable {n i : Nat}

/-- The numbers below `m` that have the residue `i`. -/
def residuesBelow (n i m : Nat) : Nat := (m + (n - 1 - i)) / n

/-- Between two multiples there is one. -/
theorem dvd_iff_eq {x : Nat} (hpos : 0 < x) (hlt : x < 2 * n) : n ∣ x ↔ x = n := by
  constructor
  · rintro ⟨c, rfl⟩
    rcases c with _ | _ | c
    · exact absurd hpos (lt_irrefl 0)
    · exact Nat.mul_one n
    · have hle : n * 2 ≤ n * (c + 1 + 1) := Nat.mul_le_mul_left n (Nat.le_add_left 2 c)
      omega
  · rintro rfl
    exact Nat.dvd_refl x

theorem residuesBelow_succ (hi : i < n) (m : Nat) :
    residuesBelow n i (m + 1) = residuesBelow n i m + if m % n = i then 1 else 0 := by
  have hlt : m % n < n := Nat.mod_lt m (by omega)
  have hiff : n ∣ m + (n - 1 - i) + 1 ↔ m % n = i := by
    have hparts := Nat.div_add_mod m n
    have hsum : m + (n - 1 - i) + 1 = n * (m / n) + (m % n + (n - i)) := by omega
    rw [hsum, Nat.dvd_add_right (Nat.dvd_mul_right n _), dvd_iff_eq (by omega) (by omega)]
    omega
  unfold residuesBelow
  rw [Nat.add_right_comm, Nat.succ_div]
  simp only [hiff]

/-- **The count** is a difference. -/
theorem countP_residue (hi : i < n) (a k : Nat) :
    (List.range' a k).countP (fun h => decide (h % n = i)) + residuesBelow n i a
      = residuesBelow n i (a + k) := by
  induction k with
  | zero => simp
  | succ k ih =>
    rw [List.range'_concat, List.countP_append, List.countP_singleton, Nat.one_mul, ← Nat.add_assoc,
      residuesBelow_succ hi, ← ih]
    simp only [decide_eq_true_eq]
    omega

/-- **As often as one goes round, or once more.** -/
theorem countP_residue_bounds (hi : i < n) (a k : Nat) :
    k / n ≤ (List.range' a k).countP (fun h => decide (h % n = i))
      ∧ (List.range' a k).countP (fun h => decide (h % n = i)) ≤ (k + (n - 1)) / n := by
  have hcount := countP_residue hi a k
  unfold residuesBelow at hcount
  set x := a + (n - 1 - i) with hx
  have hsum : a + k + (n - 1 - i) = x + k := by omega
  have hpos : 0 < n := by omega
  have hsplit : (x + k) / n = x / n + (x % n + k) / n := by
    have hparts : x + k = n * (x / n) + (x % n + k) := by
      rw [← Nat.add_assoc, Nat.div_add_mod]
    rw [hparts, Nat.mul_add_div hpos]
  have hmod : x % n < n := Nat.mod_lt x hpos
  have hlow : k / n ≤ (x % n + k) / n := Nat.div_le_div_right (by omega)
  have hhigh : (x % n + k) / n ≤ (k + (n - 1)) / n := Nat.div_le_div_right (by omega)
  rw [hsum, hsplit] at hcount
  exact ⟨by omega, by omega⟩

end DataKit
