import Mathlib.Data.Nat.ModEq
import Mathlib.Data.Nat.Digits.Defs
import Mathlib.Tactic.Ring

/-! Sums with the carry added back. Where `m` is the largest word, `wrap m s` is the word for the
sum `s`: zero for an empty sum, else from 1 to `m`. For digits of a base whose square is `m + 1`
it does not matter whether they are summed in pairs or read as one number. -/
namespace Swip.Library.OnesComplement

def wrap (m s : Nat) : Nat := if s = 0 then 0 else (s - 1) % m + 1

variable {m : Nat}

@[simp] theorem wrap_zero : wrap m 0 = 0 := rfl

theorem wrap_eq_zero (s : Nat) : wrap m s = 0 ↔ s = 0 := by
  unfold wrap
  split <;> simp_all

theorem wrap_le (positive : 0 < m) (s : Nat) : wrap m s ≤ m := by
  unfold wrap
  split
  · exact Nat.zero_le _
  · exact Nat.mod_lt _ positive

theorem wrap_modEq (s : Nat) : wrap m s ≡ s [MOD m] := by
  unfold wrap
  split
  · rename_i none
    rw [none]
  · have back : s - 1 + 1 = s := by omega
    calc (s - 1) % m + 1 ≡ s - 1 + 1 [MOD m] := (Nat.mod_modEq _ _).add_right 1
      _ = s := back

theorem eq_wrap {r s : Nat} (bound : r ≤ m) (same : r ≡ s [MOD m]) (empty : r = 0 ↔ s = 0) : r = wrap m s := by
  by_cases none : s = 0
  · rw [none,wrap_zero,empty]
    exact none
  · have some : r ≠ 0 := fun zero => none (empty.mp zero)
    have less : r - 1 < m := by omega
    have shifted : r - 1 ≡ s - 1 [MOD m] := by
      apply Nat.ModEq.add_right_cancel' 1
      rwa [Nat.sub_add_cancel (Nat.pos_of_ne_zero some),Nat.sub_add_cancel (Nat.pos_of_ne_zero none)]
    unfold Nat.ModEq at shifted
    rw [Nat.mod_eq_of_lt less] at shifted
    rw [wrap,if_neg none,← shifted]
    omega

theorem wrap_congr (positive : 0 < m) {s t : Nat} (same : s ≡ t [MOD m]) (empty : s = 0 ↔ t = 0) : wrap m s = wrap m t :=
  eq_wrap (wrap_le positive s) ((wrap_modEq s).trans same) ((wrap_eq_zero s).trans empty)

theorem wrap_of_le {s : Nat} (bound : s ≤ m) : wrap m s = s := (eq_wrap bound (Nat.ModEq.refl s) Iff.rfl).symm

theorem wrap_wrap_add (positive : 0 < m) (s t : Nat) : wrap m (wrap m s + t) = wrap m (s + t) := by
  apply wrap_congr positive ((wrap_modEq s).add_right t)
  simp [wrap_eq_zero]

theorem wrap_add_wrap (positive : 0 < m) (s t : Nat) : wrap m (s + wrap m t) = wrap m (s + t) := by
  rw [Nat.add_comm,wrap_wrap_add positive,Nat.add_comm]

theorem wrap_mul_wrap (positive : 0 < m) (k s : Nat) : wrap m (k * wrap m s) = wrap m (k * s) := by
  apply wrap_congr positive ((wrap_modEq s).mul_left k)
  simp [wrap_eq_zero]

/-- The complement makes every sum full. -/
theorem wrap_complement (positive : 0 < m) (s : Nat) : wrap m (s + (m - wrap m s)) = m := by
  have bound := wrap_le positive s
  apply Eq.symm
  apply eq_wrap (Nat.le_refl m)
  · have sum : wrap m s + (m - wrap m s) = m := by omega
    calc m = wrap m s + (m - wrap m s) := sum.symm
      _ ≡ s + (m - wrap m s) [MOD m] := (wrap_modEq s).add_right _
  · have := wrap_eq_zero (m := m) s
    omega

theorem wrap_full_iff (positive : 0 < m) (s : Nat) : wrap m s = m ↔ s ≠ 0 ∧ m ∣ s := by
  constructor
  · intro full
    have same := wrap_modEq (m := m) s
    rw [full] at same
    refine ⟨?_,(Nat.modEq_zero_iff_dvd.mp (same.symm.trans (by simp [Nat.ModEq])))⟩
    rintro rfl
    rw [wrap_zero] at full
    omega
  · rintro ⟨some,divides⟩
    apply Eq.symm
    apply eq_wrap (Nat.le_refl m)
    · exact (Nat.modEq_zero_iff_dvd.mpr (dvd_refl m)).trans (Nat.modEq_zero_iff_dvd.mpr divides).symm
    · omega

/-! ### Digits -/

section Digits
variable {base : Nat}

def pairSum (base : Nat) : List Nat → Nat
  | [] => 0
  | [a] => a
  | a :: b :: rest => a + base * b + pairSum base rest

theorem pairSum_modEq (square : base * base = m + 1) (digits : List Nat) :
    pairSum base digits ≡ Nat.ofDigits base digits [MOD m] := by
  match digits with
  | [] => exact Nat.ModEq.refl _
  | [a] =>
    simp only [pairSum,Nat.ofDigits_singleton]
    exact Nat.ModEq.refl _
  | a :: b :: rest =>
    have later := pairSum_modEq square rest
    have one : base * base ≡ 1 [MOD m] := by
      rw [square]
      simp [Nat.ModEq]
    simp only [pairSum,Nat.ofDigits_cons]
    calc a + base * b + pairSum base rest
        ≡ a + base * b + 1 * Nat.ofDigits base rest [MOD m] := by
          rw [Nat.one_mul]
          exact later.add_left _
      _ ≡ a + base * b + base * base * Nat.ofDigits base rest [MOD m] := (one.symm.mul_right _).add_left _
      _ = a + base * (b + base * Nat.ofDigits base rest) := by ring

theorem pairSum_eq_zero (positive : 0 < base) (digits : List Nat) :
    pairSum base digits = 0 ↔ Nat.ofDigits base digits = 0 := by
  match digits with
  | [] => simp [pairSum,Nat.ofDigits]
  | [a] => simp [pairSum]
  | a :: b :: rest =>
    have later := pairSum_eq_zero positive rest
    have some : base ≠ 0 := by omega
    simp only [pairSum,Nat.ofDigits_cons,Nat.add_eq_zero_iff,Nat.mul_eq_zero,some,false_or]
    tauto

theorem wrap_pairSum (square : base * base = m + 1) (positive : 0 < m) (digits : List Nat) :
    wrap m (pairSum base digits) = wrap m (Nat.ofDigits base digits) := by
  have some : 0 < base := by
    rcases Nat.eq_zero_or_pos base with zero | some
    · rw [zero] at square
      omega
    · exact some
  exact wrap_congr positive (pairSum_modEq square digits) (pairSum_eq_zero some digits)

theorem wrap_add_square (square : base * base = m + 1) (positive : 0 < m) (t s : Nat) :
    wrap m (t + base * (base * s)) = wrap m (t + s) := by
  have split : base * (base * s) = s + m * s := by
    rw [← Nat.mul_assoc,square]
    ring
  rw [split]
  apply wrap_congr positive
  · simp [Nat.ModEq,← Nat.add_assoc]
  · simp only [Nat.add_eq_zero_iff,Nat.mul_eq_zero]
    tauto

/-- Behind an even number of digits the next ones stand as they are, behind an odd number in the
other half of their pairs. -/
theorem ofDigits_append_modEq (square : base * base = m + 1) (front back : List Nat) :
    Nat.ofDigits base (front ++ back) ≡
      Nat.ofDigits base front + base^(front.length % 2) * Nat.ofDigits base back [MOD m] := by
  have one : base^2 ≡ 1 [MOD m] := by
    rw [pow_two,square]
    simp [Nat.ModEq]
  have power : base^front.length ≡ base^(front.length % 2) [MOD m] := by
    calc base^front.length = base^(front.length % 2) * (base^2)^(front.length / 2) := by
          rw [← pow_mul,← pow_add,Nat.mod_add_div]
      _ ≡ base^(front.length % 2) * 1^(front.length / 2) [MOD m] := (one.pow _).mul_left _
      _ = base^(front.length % 2) := by rw [one_pow,mul_one]
  rw [Nat.ofDigits_append]
  exact (power.mul_right _).add_left _

theorem wrap_append (square : base * base = m + 1) (positive : 0 < m) (s : Nat) (front back : List Nat) :
    wrap m (s + Nat.ofDigits base (front ++ back)) =
      wrap m (s + Nat.ofDigits base front + base^(front.length % 2) * Nat.ofDigits base back) := by
  have some : base ≠ 0 := by
    rintro rfl
    omega
  apply wrap_congr positive
  · rw [Nat.add_assoc]
    exact (ofDigits_append_modEq square front back).add_left s
  · rw [Nat.ofDigits_append]
    simp only [Nat.add_eq_zero_iff,Nat.mul_eq_zero,pow_eq_zero_iff',some,false_and,false_or]
    tauto

end Digits

end Swip.Library.OnesComplement
