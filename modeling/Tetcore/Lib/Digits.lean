import Mathlib.Data.Nat.Digits.Defs

/-!
# Positional numerals

A number written in base `b` as a list of digits, least significant first, is `Nat.ofDigits b`.
Limb arithmetic reads and writes such a numeral one digit at a time; the lemmas here say what a read,
a write and a read of a window of digits do to the number, so that the loops of an algorithm over
limbs are proved by arithmetic on the numbers the limbs denote.

The last section holds the facts of schoolbook division behind the estimate of a quotient digit
from the leading digits of the dividend and the divisor: the estimate never undershoots, the test
of the second divisor digit only rejects estimates that overshoot, and an estimate that passes the
test overshoots by one at most.
-/

namespace Digits

variable {b : ℕ}

theorem getD_eq_div_mod (hb : 0 < b) :
    ∀ {L : List ℕ}, (∀ x ∈ L, x < b) → ∀ j, L.getD j 0 = Nat.ofDigits b L / b ^ j % b
  | [], _, j => by simp [Nat.ofDigits]
  | x :: L, hL, 0 => by
    have hx : x < b := hL x List.mem_cons_self
    rw [List.getD_cons_zero, Nat.ofDigits_cons, pow_zero, Nat.div_one, Nat.add_mul_mod_self_left,
      Nat.mod_eq_of_lt hx]
  | x :: L, hL, j + 1 => by
    have hx : x < b := hL x List.mem_cons_self
    rw [List.getD_cons_succ, getD_eq_div_mod hb (fun y hy => hL y (List.mem_cons_of_mem x hy)) j,
      Nat.ofDigits_cons, pow_succ', ← Nat.div_div_eq_div_mul, Nat.add_mul_div_left _ _ hb,
      Nat.div_eq_of_lt hx, zero_add]

theorem ofDigits_set : ∀ {L : List ℕ} {j : ℕ}, j < L.length → ∀ x,
    Nat.ofDigits b (L.set j x) + L.getD j 0 * b ^ j = Nat.ofDigits b L + x * b ^ j
  | y :: L, 0, _, x => by
    simp only [List.set_cons_zero, Nat.ofDigits_cons, List.getD_cons_zero, pow_zero, Nat.mul_one]
    omega
  | y :: L, j + 1, h, x => by
    have ih := ofDigits_set (L := L) (j := j) (by simpa using h) x
    simp only [List.set_cons_succ, Nat.ofDigits_cons, List.getD_cons_succ, pow_succ']
    calc y + b * Nat.ofDigits b (L.set j x) + L.getD j 0 * (b * b ^ j)
        = y + b * (Nat.ofDigits b (L.set j x) + L.getD j 0 * b ^ j) := by ring
      _ = y + b * (Nat.ofDigits b L + x * b ^ j) := by rw [ih]
      _ = y + b * Nat.ofDigits b L + x * (b * b ^ j) := by ring

theorem ofDigits_set_div_pow (hb : 0 < b) {x : ℕ} (hx : x < b) :
    ∀ {L : List ℕ}, (∀ y ∈ L, y < b) → ∀ {p q : ℕ}, p < q →
      Nat.ofDigits b (L.set p x) / b ^ q = Nat.ofDigits b L / b ^ q
  | [], _, _, _, _ => rfl
  | y :: L, hL, 0, q + 1, _ => by
    have hy : y < b := hL y List.mem_cons_self
    simp only [List.set_cons_zero, Nat.ofDigits_cons, pow_succ', ← Nat.div_div_eq_div_mul,
      Nat.add_mul_div_left _ _ hb, Nat.div_eq_of_lt hx, Nat.div_eq_of_lt hy]
  | y :: L, hL, p + 1, q + 1, hpq => by
    have hy : y < b := hL y List.mem_cons_self
    simp only [List.set_cons_succ, Nat.ofDigits_cons, pow_succ', ← Nat.div_div_eq_div_mul,
      Nat.add_mul_div_left _ _ hb, Nat.div_eq_of_lt hy, zero_add]
    exact ofDigits_set_div_pow hb hx (fun z hz => hL z (List.mem_cons_of_mem y hz)) (by omega)

theorem ofDigits_map_range (X j : ℕ) :
    ∀ k, Nat.ofDigits b ((List.range k).map fun i => X / b ^ (j + i) % b) = X / b ^ j % b ^ k
  | 0 => by rw [pow_zero, Nat.mod_one]; rfl
  | k + 1 => by
    rw [List.range_succ, List.map_append, Nat.ofDigits_append, ofDigits_map_range X j k,
      List.length_map, List.length_range, List.map_singleton, Nat.ofDigits_singleton,
      Nat.mod_pow_succ, Nat.div_div_eq_div_mul, ← pow_add]

theorem ofDigits_set_of_lt (hb : 0 < b) {L : List ℕ} (hL : ∀ x ∈ L, x < b) {j : ℕ}
    (hj : j < L.length) (h : Nat.ofDigits b L < b ^ j) (x : ℕ) :
    Nat.ofDigits b (L.set j x) = Nat.ofDigits b L + x * b ^ j := by
  have hset := ofDigits_set (b := b) hj x
  rw [getD_eq_div_mod hb hL, Nat.div_eq_of_lt h, Nat.zero_mod, zero_mul, add_zero] at hset
  exact hset

theorem reverse_set_sub {α : Type} (L : List α) {j : ℕ} (h : j < L.length) (v : α) :
    (L.set (L.length - 1 - j) v).reverse = L.reverse.set j v := by
  apply List.ext_getElem (by simp)
  intro i h1 h2
  simp only [List.getElem_reverse, List.getElem_set, List.length_set]
  simp only [List.length_set, List.length_reverse] at h1 h2
  by_cases hij : j = i
  · rw [if_pos (by omega), if_pos hij]
  · rw [if_neg (by omega), if_neg hij]

theorem mod_pow_succ_eq_zero {x k : ℕ} (hb : 0 < b) (h : x % b ^ (k + 1) = 0) :
    x % b ^ k = 0 ∧ x / b ^ k % b = 0 := by
  rw [Nat.mod_pow_succ] at h
  obtain ⟨h1, h2⟩ := Nat.add_eq_zero_iff.mp h
  exact ⟨h1, (Nat.mul_eq_zero.mp h2).resolve_left (Nat.pos_iff_ne_zero.mp (Nat.pow_pos hb))⟩

theorem mul_add_lt_mul {a c x : ℕ} (h : a < c) (hx : x < b) : a * b + x < c * b :=
  calc a * b + x < a * b + b := Nat.add_lt_add_left hx _
    _ = (a + 1) * b := by rw [Nat.add_mul, one_mul]
    _ ≤ c * b := Nat.mul_le_mul_right _ h

theorem div_two_pow_mod (Y s t : ℕ) :
    Y / 2 ^ s % 2 ^ (s + t) =
      Y % 2 ^ (s + t) / 2 ^ s + Y / 2 ^ (s + t) % 2 ^ (s + t) % 2 ^ s * 2 ^ t := by
  have hc : 0 < 2 ^ s := Nat.two_pow_pos s
  have hB : 2 ^ (s + t) = 2 ^ s * 2 ^ t := pow_add 2 s t
  -- `Y = lo + 2 ^ s * (2 ^ t * hi)`, and `hi` splits again at `2 ^ s`
  have hY : Y / 2 ^ s = Y % 2 ^ (s + t) / 2 ^ s + 2 ^ t * (Y / 2 ^ (s + t)) := by
    have hsplit : Y = Y % 2 ^ (s + t) + 2 ^ s * (2 ^ t * (Y / 2 ^ (s + t))) := by
      rw [← Nat.mul_assoc, ← hB]
      exact (Nat.mod_add_div _ _).symm
    conv_lhs => rw [hsplit]
    exact Nat.add_mul_div_left _ _ hc
  have hY1 : 2 ^ t * (Y / 2 ^ (s + t)) =
      Y / 2 ^ (s + t) % 2 ^ s * 2 ^ t + 2 ^ (s + t) * (Y / 2 ^ (s + t) / 2 ^ s) := by
    conv_lhs => rw [← Nat.mod_add_div (Y / 2 ^ (s + t)) (2 ^ s)]
    rw [hB]
    ring
  have hlo : Y % 2 ^ (s + t) / 2 ^ s < 2 ^ t := by
    rw [Nat.div_lt_iff_lt_mul hc, Nat.mul_comm, ← hB]
    exact Nat.mod_lt _ (Nat.two_pow_pos _)
  have hlt : Y / 2 ^ (s + t) % 2 ^ s * 2 ^ t + Y % 2 ^ (s + t) / 2 ^ s < 2 ^ (s + t) :=
    lt_of_lt_of_eq (mul_add_lt_mul (Nat.mod_lt _ hc) hlo) hB.symm
  rw [Nat.mod_mod_of_dvd _ (Dvd.intro _ hB.symm), hY, hY1, ← Nat.add_assoc,
    Nat.add_mul_mod_self_left, Nat.add_comm (Y % 2 ^ (s + t) / 2 ^ s)]
  exact Nat.mod_eq_of_lt hlt

/-! ## The quotient digit of schoolbook division

`T` is the part of the dividend that the next quotient digit divides, `V` the divisor, and `P` the
weight of the digit below the two leading digits of `V`; so `V / (b * P)` is the leading digit of
`V`, `V / P % b` the second one, `T / (b * P)` the two leading digits of `T` and `T / P % b` its
third. -/

section Estimate

variable {P T V : ℕ}

theorem div_le_div_lead (hv : 0 < V / P) : T / V ≤ T / P / (V / P) := by
  have hP : 0 < P := Nat.pos_of_ne_zero (by rintro rfl; simp at hv)
  rw [Nat.div_div_eq_div_mul]
  apply Nat.div_le_div_left _ (Nat.mul_pos hP hv)
  rw [Nat.mul_comm]
  exact Nat.div_mul_le_self V P

theorem div_eq_lead_mul_add (n d : ℕ) : n / d = b * (n / (b * d)) + n / d % b := by
  rw [Nat.mul_comm b d, ← Nat.div_div_eq_div_mul, Nat.div_add_mod]

theorem lead_lt_of_lt_mul (hbP : 0 < b * P) (hT : T < V * b) :
    T / (b * P) < (V / (b * P) + 1) * b := by
  rw [Nat.div_lt_iff_lt_mul hbP]
  have hV : V < (V / (b * P) + 1) * (b * P) := by
    rw [Nat.add_mul, one_mul]
    exact Nat.lt_div_mul_add hbP
  calc T < V * b := hT
    _ ≤ (V / (b * P) + 1) * (b * P) * b := Nat.mul_le_mul_right b hV.le
    _ = (V / (b * P) + 1) * b * (b * P) := by ring

theorem lead_lt_of_test {qhat rhat : ℕ} (hq : qhat * (V / (b * P)) + rhat = T / (b * P))
    (htest : b * rhat + T / P % b < qhat * (V / P % b)) : T / P < qhat * (V / P) := by
  rw [div_eq_lead_mul_add (b := b) T P, div_eq_lead_mul_add (b := b) V P, ← hq]
  calc b * (qhat * (V / (b * P)) + rhat) + T / P % b
      = qhat * (V / (b * P)) * b + (b * rhat + T / P % b) := by ring
    _ < qhat * (V / (b * P)) * b + qhat * (V / P % b) := by omega
    _ = qhat * (b * (V / (b * P)) + V / P % b) := by ring

theorem div_lt_of_test (hP : 0 < P) {qhat rhat : ℕ} (hq : qhat * (V / (b * P)) + rhat = T / (b * P))
    (htest : b * rhat + T / P % b < qhat * (V / P % b)) : T / V < qhat := by
  have hlead := lead_lt_of_test hq htest
  have hV : T < qhat * V :=
    calc T < (T / P + 1) * P := by
          rw [Nat.add_mul, one_mul]
          exact Nat.lt_div_mul_add hP
      _ ≤ qhat * (V / P) * P := Nat.mul_le_mul_right P hlead
      _ = qhat * (V / P * P) := by ring
      _ ≤ qhat * V := Nat.mul_le_mul_left qhat (Nat.div_mul_le_self V P)
  exact (Nat.div_lt_iff_lt_mul (Nat.pos_of_ne_zero (by rintro rfl; simp at hV))).mpr hV

theorem le_div_add_one_of_not_test (hP : 0 < P) {qhat rhat : ℕ} (hqb : qhat ≤ b)
    (hv : 0 < V / (b * P)) (hq : qhat * (V / (b * P)) + rhat = T / (b * P))
    (htest : qhat * (V / P % b) ≤ b * rhat + T / P % b) : qhat ≤ T / V + 1 := by
  have hlead : qhat * (V / P) ≤ T / P := by
    rw [div_eq_lead_mul_add (b := b) T P, div_eq_lead_mul_add (b := b) V P, ← hq]
    calc qhat * (b * (V / (b * P)) + V / P % b)
        = qhat * (V / (b * P)) * b + qhat * (V / P % b) := by ring
      _ ≤ qhat * (V / (b * P)) * b + (b * rhat + T / P % b) := by omega
      _ = b * (qhat * (V / (b * P)) + rhat) + T / P % b := by ring
  have hbP : b * P ≤ V :=
    calc b * P ≤ V / (b * P) * (b * P) := Nat.le_mul_of_pos_left _ hv
      _ ≤ V := Nat.div_mul_le_self V (b * P)
  -- `qhat * V` splits at `P`: the leading part is at most `T`, the rest below `V`
  have hV : qhat * V < T + V := by
    have hsplit : qhat * V = qhat * (V / P) * P + qhat * (V % P) := by
      conv_lhs => rw [← Nat.div_add_mod' V P]
      ring
    have hhigh : qhat * (V / P) * P ≤ T :=
      (Nat.mul_le_mul_right P hlead).trans (Nat.div_mul_le_self T P)
    have hlow : qhat * (V % P) < V := by
      rcases Nat.eq_zero_or_pos qhat with h0 | hpos
      · rw [h0, zero_mul]
        exact lt_of_lt_of_le (Nat.mul_pos (Nat.pos_of_ne_zero (by rintro rfl; simp at hv)) hP) hbP
      · calc qhat * (V % P) < qhat * P := Nat.mul_lt_mul_of_pos_left (Nat.mod_lt V hP) hpos
          _ ≤ b * P := Nat.mul_le_mul_right P hqb
          _ ≤ V := hbP
    omega
  by_contra hgt
  have hmul : (T / V + 2) * V ≤ qhat * V := Nat.mul_le_mul_right V (by omega)
  have hT : T < T / V * V + V := Nat.lt_div_mul_add (Nat.pos_of_ne_zero (by rintro rfl; simp at hbP; omega))
  rw [Nat.add_mul] at hmul
  omega

theorem long_division_step {Q S R qq m p : ℕ} (hR : R + V * qq = T) (hS : T * p + m = S) :
    (Q + qq * p) * V + (R * p + m) = Q * V + S := by
  subst hR hS
  ring

end Estimate

end Digits
