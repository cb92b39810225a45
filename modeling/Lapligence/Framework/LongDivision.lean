import Mathlib.Tactic.Ring
import Mathlib.Tactic.Linarith

/-!
# Digits and the estimates of long division

A number is stored in the digits of an array, least significant first; `windowNat b d lo n` is the number
in the `n` digits from position `lo` on.  Loops that work through an array digit by digit are verified by
what they do to such windows.

The second part is the arithmetic of long division (Knuth's algorithm D): the quotient of the leading
digits, corrected by one more digit, is the quotient digit or one more than it
(`lt_mul_of_leading_lt`, `sub_one_mul_le_of_leading`).
-/

namespace Lapligence.LongDivision

open Function

/-- The number in the `n` digits of `d` from position `lo` on. -/
def windowNat (b : ℕ) (d : ℕ → ℕ) (lo : ℕ) : ℕ → ℕ
  | 0 => 0
  | n + 1 => windowNat b d lo n + d (lo + n) * b ^ n

variable {b : ℕ} {d e : ℕ → ℕ} {lo n : ℕ}

@[simp] lemma windowNat_zero : windowNat b d lo 0 = 0 := rfl

lemma windowNat_succ : windowNat b d lo (n + 1) = windowNat b d lo n + d (lo + n) * b ^ n := rfl

lemma windowNat_congr {lo' : ℕ} (h : ∀ i < n, d (lo + i) = e (lo' + i)) :
    windowNat b d lo n = windowNat b e lo' n := by
  induction n with
  | zero => rfl
  | succ n ih =>
    rw [windowNat_succ, windowNat_succ, ih fun i hi => h i (Nat.lt_succ_of_lt hi),
      h n (Nat.lt_succ_self n)]

/-- A window is cut in two. -/
lemma windowNat_add (m n : ℕ) :
    windowNat b d lo (m + n) = windowNat b d lo m + b ^ m * windowNat b d (lo + m) n := by
  induction n with
  | zero => simp
  | succ n ih =>
    rw [← add_assoc, windowNat_succ, windowNat_succ, ih, pow_add, add_assoc lo m n]
    ring

lemma windowNat_lt (h : ∀ i < n, d (lo + i) < b) : windowNat b d lo n < b ^ n := by
  induction n with
  | zero => simp
  | succ n ih =>
    have hlow := ih fun i hi => h i (Nat.lt_succ_of_lt hi)
    have htop : (d (lo + n) + 1) * b ^ n ≤ b * b ^ n := Nat.mul_le_mul_right _ (h n (Nat.lt_succ_self n))
    rw [windowNat_succ, Nat.pow_succ']
    calc windowNat b d lo n + d (lo + n) * b ^ n
        < b ^ n + d (lo + n) * b ^ n := Nat.add_lt_add_right hlow _
      _ = (d (lo + n) + 1) * b ^ n := by ring
      _ ≤ b * b ^ n := htop

/-- Digits of a window that are all zero add nothing. -/
lemma windowNat_eq_zero (h : ∀ i < n, d (lo + i) = 0) : windowNat b d lo n = 0 := by
  induction n with
  | zero => rfl
  | succ n ih =>
    rw [windowNat_succ, ih fun i hi => h i (Nat.lt_succ_of_lt hi), h n (Nat.lt_succ_self n), Nat.zero_mul]

/-- A digit that is written outside of a window does not change it. -/
lemma windowNat_update_of_outside {k x : ℕ} (h : k < lo ∨ lo + n ≤ k) :
    windowNat b (update d k x) lo n = windowNat b d lo n :=
  windowNat_congr fun i hi => update_of_ne (by omega) _ _

/-- The digit above a window is written. -/
lemma windowNat_update_top {x : ℕ} :
    windowNat b (update d (lo + n) x) lo (n + 1) = windowNat b d lo n + x * b ^ n := by
  rw [windowNat_succ, windowNat_update_of_outside (.inr (le_refl _)), update_self]

/-- The lowest digit apart. -/
lemma windowNat_succ_left : windowNat b d lo (n + 1) = d lo + b * windowNat b d (lo + 1) n := by
  rw [add_comm n 1, windowNat_add]
  simp [windowNat_succ]

/-! ## Shifts

`s` is the factor of a shift by less than one digit; the code adds to each shifted digit what its
neighbour shifts out. -/

/-- The digits multiplied by `s`: what one digit shifts out goes into the next one. -/
def scaled (b s : ℕ) (d : ℕ → ℕ) (i : ℕ) : ℕ :=
  d i * s % b + if i = 0 then 0 else d (i - 1) * s / b

lemma windowNat_scaled (s n : ℕ) :
    windowNat b (scaled b s d) 0 (n + 1) + b ^ (n + 1) * (d n * s / b) =
      s * windowNat b d 0 (n + 1) := by
  have hdigit : ∀ i, d i * s % b + b * (d i * s / b) = d i * s := fun i => Nat.mod_add_div _ _
  induction n with
  | zero =>
    have := hdigit 0
    simp only [windowNat_succ, windowNat_zero, scaled]
    simp
    linarith
  | succ n ih =>
    rw [windowNat_succ, windowNat_succ (d := d), mul_add, ← ih]
    have hsucc : scaled b s d (0 + (n + 1)) = d (n + 1) * s % b + d n * s / b := by
      rw [zero_add]
      rfl
    rw [hsucc, zero_add, pow_succ b (n + 1)]
    calc _ = windowNat b (scaled b s d) 0 (n + 1) + b ^ (n + 1) * (d n * s / b) +
          (d (n + 1) * s % b + b * (d (n + 1) * s / b)) * b ^ (n + 1) := by ring
      _ = _ := by
        rw [hdigit]
        ring

/-- The digits divided by `s`: what one digit shifts out comes from the one above it. -/
def unscaled (b s : ℕ) (d : ℕ → ℕ) (i : ℕ) : ℕ :=
  d i / s + d (i + 1) * (b / s) % b

lemma mul_div_mod {s : ℕ} (hs : s ∣ b) (x : ℕ) : x * (b / s) % b = x % s * (b / s) := by
  obtain ⟨t, rfl⟩ := hs
  rcases eq_zero_or_pos s with rfl | hpos
  · simp
  · rw [Nat.mul_div_cancel_left _ hpos]
    exact Nat.mul_mod_mul_right t x s

lemma windowNat_unscaled {s : ℕ} (hs : s ∣ b) (n : ℕ) :
    s * windowNat b (unscaled b s d) 0 n + d 0 % s = windowNat b d 0 n + d n % s * b ^ n := by
  induction n with
  | zero => simp
  | succ n ih =>
    have hcancel : s * (b / s) = b := Nat.mul_div_cancel' hs
    have hdigit : d n % s + s * (d n / s) = d n := Nat.mod_add_div _ _
    rw [windowNat_succ, windowNat_succ (d := d), mul_add, zero_add, unscaled, mul_div_mod hs]
    calc _ = s * windowNat b (unscaled b s d) 0 n + d 0 % s +
          (s * (d n / s) + s * (b / s) * (d (n + 1) % s)) * b ^ n := by ring
      _ = windowNat b d 0 n + (d n % s + s * (d n / s)) * b ^ n + d (n + 1) % s * (b * b ^ n) := by
        rw [ih, hcancel]
        ring
      _ = _ := by rw [hdigit, Nat.pow_succ']

/-! ## Quotient estimates -/

section Estimate

variable {u v u' v' p q : ℕ}

/-- An estimate that is too large for the leading digits is too large. -/
lemma lt_mul_of_leading_lt (hu : u < (u' + 1) * p) (hv : v' * p ≤ v) (h : u' < q * v') : u < q * v :=
  calc u < (u' + 1) * p := hu
    _ ≤ q * v' * p := Nat.mul_le_mul_right p h
    _ = q * (v' * p) := mul_assoc ..
    _ ≤ q * v := Nat.mul_le_mul_left q hv

/-- An estimate that fits the leading digits is at most one too large. -/
lemma sub_one_mul_le_of_leading (hu : u' * p ≤ u) (hv : v ≤ (v' + 1) * p) (hq : q ≤ v' + 1)
    (h : q * v' ≤ u') : (q - 1) * v ≤ u := by
  have hle : (q - 1) * (v' + 1) ≤ q * v' := by
    rcases q with _ | q
    · simp
    · rw [Nat.add_sub_cancel]
      linarith
  calc (q - 1) * v ≤ (q - 1) * ((v' + 1) * p) := Nat.mul_le_mul_left _ hv
    _ = (q - 1) * (v' + 1) * p := (mul_assoc ..).symm
    _ ≤ u' * p := Nat.mul_le_mul_right p (hle.trans h)
    _ ≤ u := hu

end Estimate

end Lapligence.LongDivision
