import Mathlib
import Tetcore.Democracy.Vote

/-!
# Vote thresholds

`fabric/democracy/src/vote_threshold.rs`. `compare_rationals(n1, d1, n2, d2)` decides
`n1 / d1 < n2 / d2` without a product: it compares the integer parts, and when they agree it
compares the reciprocals of the fractional parts, swapping the two sides, as a continued fraction
does. The only operations are `/`, `%` and comparisons, so no value exceeds the inputs and nothing
overflows whatever the unsigned type; the only failure is a division by zero, a panic, here `none`.

The loop of the source has no bound. Two rounds replace the denominators `d1, d2` by
`d1 % (n1 % d1)` and `d2 % (n2 % d2)`, each less than half of the one before, so
`2 * log₂ (min d1 d2) + 1` rounds are always enough (`compareRationalsLoop_eq`): the model runs
that many, and with more it returns the same.
-/

namespace Tetcore.Democracy

/-- The loop of `compare_rationals` with at most `fuel` rounds; `none` where the source divides by
zero, or when the rounds run out. -/
def compareRationalsLoop : ℕ → ℕ → ℕ → ℕ → ℕ → Option Bool
  | 0, _, _, _, _ => none
  | fuel + 1, n1, d1, n2, d2 =>
    if d1 = 0 ∨ d2 = 0 then none
    else
      let q1 := n1 / d1
      let q2 := n2 / d2
      if q1 < q2 then some true
      else if q2 < q1 then some false
      else
        let r1 := n1 % d1
        let r2 := n2 % d2
        if r2 = 0 then some false
        else if r1 = 0 then some true
        else compareRationalsLoop fuel d2 r2 d1 r1

/-- The rounds the loop is given: two rounds at least halve the smaller denominator. -/
def compareRationalsRounds (d1 d2 : ℕ) : ℕ := 2 * Nat.log 2 (min d1 d2) + 1

/-- `compare_rationals`: whether `n1 / d1 < n2 / d2`. -/
def compareRationals (n1 d1 n2 d2 : ℕ) : Option Bool :=
  compareRationalsLoop (compareRationalsRounds d1 d2) n1 d1 n2 d2

/-- `VoteThreshold`. -/
inductive VoteThreshold
  | superMajorityApprove
  | superMajorityAgainst
  | simpleMajority
  deriving DecidableEq, Repr

/-- `Approved::approved` of `VoteThreshold`; `integer_sqrt` is the floor of the square root. -/
def VoteThreshold.approved (t : VoteThreshold) (tally : Tally) (electorate : ℕ) : Option Bool :=
  let sqrtVoters := Nat.sqrt tally.turnout
  let sqrtElectorate := Nat.sqrt electorate
  if sqrtVoters = 0 then some false
  else
    match t with
    | .superMajorityApprove => compareRationals tally.nays sqrtVoters tally.ayes sqrtElectorate
    | .superMajorityAgainst => compareRationals tally.nays sqrtElectorate tally.ayes sqrtVoters
    | .simpleMajority => some (decide (tally.nays < tally.ayes))

/-! ## One round -/

theorem compareRationalsLoop_denominators_pos {fuel n1 d1 n2 d2 : ℕ} {b : Bool}
    (h : compareRationalsLoop fuel n1 d1 n2 d2 = some b) : 0 < d1 ∧ 0 < d2 := by
  cases fuel with
  | zero => simp [compareRationalsLoop] at h
  | succ fuel =>
    by_contra hpos
    have hzero : d1 = 0 ∨ d2 = 0 := by omega
    simp [compareRationalsLoop, hzero] at h

theorem compareRationalsLoop_succ {fuel n1 d1 n2 d2 : ℕ} (hd1 : 0 < d1) (hd2 : 0 < d2) :
    compareRationalsLoop (fuel + 1) n1 d1 n2 d2 =
      if n1 / d1 < n2 / d2 then some true
      else if n2 / d2 < n1 / d1 then some false
      else if n2 % d2 = 0 then some false
      else if n1 % d1 = 0 then some true
      else compareRationalsLoop fuel d2 (n2 % d2) d1 (n1 % d1) := by
  simp [compareRationalsLoop, hd1.ne', hd2.ne']

theorem compareRationalsLoop_succ_cases (fuel n1 n2 : ℕ) {d1 d2 : ℕ} (hd1 : 0 < d1)
    (hd2 : 0 < d2) :
    (∃ b, compareRationalsLoop (fuel + 1) n1 d1 n2 d2 = some b) ∨
      (n1 / d1 = n2 / d2 ∧ 0 < n1 % d1 ∧ 0 < n2 % d2 ∧
        compareRationalsLoop (fuel + 1) n1 d1 n2 d2 =
          compareRationalsLoop fuel d2 (n2 % d2) d1 (n1 % d1)) := by
  rw [compareRationalsLoop_succ hd1 hd2]
  split_ifs with hlt hgt hr2 hr1
  · exact .inl ⟨true, rfl⟩
  · exact .inl ⟨false, rfl⟩
  · exact .inl ⟨false, rfl⟩
  · exact .inl ⟨true, rfl⟩
  · exact .inr ⟨by omega, Nat.pos_of_ne_zero hr1, Nat.pos_of_ne_zero hr2, rfl⟩

theorem mul_lt_mul_of_div_lt {n1 d1 n2 d2 : ℕ} (hd1 : 0 < d1) (hd2 : 0 < d2)
    (h : n1 / d1 < n2 / d2) : n1 * d2 < n2 * d1 :=
  calc n1 * d2 < d1 * (n1 / d1 + 1) * d2 :=
        Nat.mul_lt_mul_of_pos_right (Nat.lt_mul_div_succ n1 hd1) hd2
    _ ≤ d1 * (n2 / d2) * d2 := Nat.mul_le_mul_right _ (Nat.mul_le_mul_left _ h)
    _ = d1 * (d2 * (n2 / d2)) := by ring
    _ ≤ d1 * n2 := Nat.mul_le_mul_left _ (Nat.mul_div_le n2 d2)
    _ = n2 * d1 := Nat.mul_comm _ _

theorem mul_lt_mul_iff_mod_of_div_eq {n1 d1 n2 d2 : ℕ} (hq : n1 / d1 = n2 / d2) :
    n1 * d2 < n2 * d1 ↔ n1 % d1 * d2 < n2 % d2 * d1 := by
  have h1 : n1 * d2 = d1 * d2 * (n1 / d1) + n1 % d1 * d2 := by
    conv_lhs => rw [← Nat.div_add_mod n1 d1]
    ring
  have h2 : n2 * d1 = d1 * d2 * (n1 / d1) + n2 % d2 * d1 := by
    conv_lhs => rw [← Nat.div_add_mod n2 d2]
    rw [hq]
    ring
  rw [h1, h2]
  exact Nat.add_lt_add_iff_left

theorem compareRationalsLoop_sound {fuel n1 d1 n2 d2 : ℕ} {b : Bool}
    (h : compareRationalsLoop fuel n1 d1 n2 d2 = some b) : b = decide (n1 * d2 < n2 * d1) := by
  induction fuel generalizing n1 d1 n2 d2 with
  | zero => simp [compareRationalsLoop] at h
  | succ fuel ih =>
    obtain ⟨hd1, hd2⟩ := compareRationalsLoop_denominators_pos h
    rw [compareRationalsLoop_succ hd1 hd2] at h
    split_ifs at h with hlt hgt hr2 hr1
    · cases h
      simp [mul_lt_mul_of_div_lt hd1 hd2 hlt]
    · cases h
      simp [(mul_lt_mul_of_div_lt hd2 hd1 hgt).le]
    · have hq : n1 / d1 = n2 / d2 := by omega
      cases h
      simp [mul_lt_mul_iff_mod_of_div_eq hq, hr2]
    · have hq : n1 / d1 = n2 / d2 := by omega
      cases h
      simp [mul_lt_mul_iff_mod_of_div_eq hq, hr1, Nat.pos_of_ne_zero hr2, hd1]
    · have hq : n1 / d1 = n2 / d2 := by omega
      rw [ih h]
      simp only [mul_lt_mul_iff_mod_of_div_eq hq, Nat.mul_comm d2,
        Nat.mul_comm d1]

/-! ## Enough rounds -/

theorem two_mul_mod_lt {d r : ℕ} (hr : 0 < r) (hrd : r < d) : 2 * (d % r) < d := by
  have hlt : d % r < r := Nat.mod_lt d hr
  have hle : d % r ≤ d - r := by
    rw [Nat.mod_eq_sub_mod hrd.le]
    exact Nat.mod_le _ _
  omega

theorem log_add_one_le_of_two_mul_lt {m m' : ℕ} (hm' : 0 < m') (h : 2 * m' < m) :
    Nat.log 2 m' + 1 ≤ Nat.log 2 m := by
  apply Nat.le_log_of_pow_le one_lt_two
  calc 2 ^ (Nat.log 2 m' + 1) = 2 * 2 ^ Nat.log 2 m' := by ring
    _ ≤ 2 * m' := Nat.mul_le_mul_left 2 (Nat.pow_log_le_self 2 hm'.ne')
    _ ≤ m := h.le

theorem three_le_compareRationalsRounds {d1 d2 : ℕ} (h1 : 2 ≤ d1) (h2 : 2 ≤ d2) :
    3 ≤ compareRationalsRounds d1 d2 := by
  have hlog : 1 ≤ Nat.log 2 (min d1 d2) := Nat.le_log_of_pow_le one_lt_two (by simp [h1, h2])
  unfold compareRationalsRounds
  omega

theorem compareRationalsRounds_mod_add_two {d1 d2 r1 r2 : ℕ} (hr1 : 0 < r1) (hrd1 : r1 < d1)
    (hr2 : 0 < r2) (hrd2 : r2 < d2) (hm1 : 0 < d1 % r1) (hm2 : 0 < d2 % r2) :
    compareRationalsRounds (d1 % r1) (d2 % r2) + 2 ≤ compareRationalsRounds d1 d2 := by
  have hmin : 2 * min (d1 % r1) (d2 % r2) < min d1 d2 := by
    have := two_mul_mod_lt hr1 hrd1
    have := two_mul_mod_lt hr2 hrd2
    omega
  have hlog := log_add_one_le_of_two_mul_lt (lt_min hm1 hm2) hmin
  unfold compareRationalsRounds
  omega

/-- Given the rounds it is given, or more, the loop answers. Two rounds that go on replace the
denominators by `d1 % r1` and `d2 % r2`, where fewer rounds are enough; the induction is on the
rounds, two at a time. -/
theorem compareRationalsLoop_isSome {fuel n1 d1 n2 d2 : ℕ} (hd1 : 0 < d1) (hd2 : 0 < d2)
    (hfuel : compareRationalsRounds d1 d2 ≤ fuel) :
    (compareRationalsLoop fuel n1 d1 n2 d2).isSome := by
  induction fuel using Nat.strong_induction_on generalizing n1 d1 n2 d2 with
  | _ fuel ih =>
  obtain _ | fuel := fuel
  · simp [compareRationalsRounds] at hfuel
  obtain ⟨b, hb⟩ | ⟨-, hr1, hr2, hstep⟩ := compareRationalsLoop_succ_cases fuel n1 n2 hd1 hd2
  · simp [hb]
  have hrd1 : n1 % d1 < d1 := Nat.mod_lt n1 hd1
  have hrd2 : n2 % d2 < d2 := Nat.mod_lt n2 hd2
  -- both remainders are positive, so both denominators are at least two and a second round is left
  obtain _ | fuel := fuel
  · have := three_le_compareRationalsRounds (show 2 ≤ d1 by omega) (show 2 ≤ d2 by omega)
    omega
  rw [hstep]
  obtain ⟨b, hb⟩ | ⟨-, hm2, hm1, hstep'⟩ := compareRationalsLoop_succ_cases fuel d2 d1 hr2 hr1
  · simp [hb]
  rw [hstep']
  have hrounds := compareRationalsRounds_mod_add_two hr1 hrd1 hr2 hrd2 hm1 hm2
  exact ih fuel (by omega) hm1 hm2 (by omega)

theorem compareRationalsLoop_eq {fuel n1 d1 n2 d2 : ℕ} (hd1 : 0 < d1) (hd2 : 0 < d2)
    (hfuel : compareRationalsRounds d1 d2 ≤ fuel) :
    compareRationalsLoop fuel n1 d1 n2 d2 = some (decide (n1 * d2 < n2 * d1)) := by
  obtain ⟨b, hb⟩ := Option.isSome_iff_exists.mp (compareRationalsLoop_isSome hd1 hd2 hfuel)
  rw [hb, compareRationalsLoop_sound hb]

theorem compareRationals_eq {n1 d1 n2 d2 : ℕ} (hd1 : 0 < d1) (hd2 : 0 < d2) :
    compareRationals n1 d1 n2 d2 = some (decide (n1 * d2 < n2 * d1)) :=
  compareRationalsLoop_eq hd1 hd2 le_rfl

example : compareRationals 7 3 9 4 = some false := by decide

/-! ## Thresholds -/

/-- What each threshold asks of a tally: the comparison of `approved`, made with products. -/
def VoteThreshold.Passes (t : VoteThreshold) (tally : Tally) (electorate : ℕ) : Prop :=
  match t with
  | .superMajorityApprove => tally.nays * Nat.sqrt electorate < tally.ayes * Nat.sqrt tally.turnout
  | .superMajorityAgainst => tally.nays * Nat.sqrt tally.turnout < tally.ayes * Nat.sqrt electorate
  | .simpleMajority => tally.nays < tally.ayes

instance VoteThreshold.decidablePasses (t : VoteThreshold) (tally : Tally) (electorate : ℕ) :
    Decidable (t.Passes tally electorate) :=
  match t with
  | .superMajorityApprove => Nat.decLt _ _
  | .superMajorityAgainst => Nat.decLt _ _
  | .simpleMajority => Nat.decLt _ _

theorem VoteThreshold.approved_eq {t : VoteThreshold} {tally : Tally} {electorate : ℕ}
    (hturnout : 1 ≤ tally.turnout) (helectorate : tally.turnout ≤ electorate) :
    t.approved tally electorate = some (decide (t.Passes tally electorate)) := by
  have hv : 0 < Nat.sqrt tally.turnout := Nat.sqrt_pos.mpr hturnout
  have he : 0 < Nat.sqrt electorate := lt_of_lt_of_le hv (Nat.sqrt_le_sqrt helectorate)
  simp only [VoteThreshold.approved, hv.ne', if_false]
  cases t with
  | superMajorityApprove => exact compareRationals_eq hv he
  | superMajorityAgainst => exact compareRationals_eq he hv
  | simpleMajority => rfl

theorem mul_lt_mul_of_le_of_le {a a' b b' x y : ℕ} (ha : a' ≤ a) (hb : b ≤ b')
    (h : a * x < b * y) : a' * x < b' * y :=
  calc a' * x ≤ a * x := Nat.mul_le_mul_right x ha
    _ < b * y := h
    _ ≤ b' * y := Nat.mul_le_mul_right y hb

theorem VoteThreshold.Passes.mono {t : VoteThreshold} {tally tally' : Tally} {electorate : ℕ}
    (hturnout : tally'.turnout = tally.turnout) (hayes : tally.ayes ≤ tally'.ayes)
    (hnays : tally'.nays ≤ tally.nays) (h : t.Passes tally electorate) :
    t.Passes tally' electorate := by
  cases t with
  | superMajorityApprove =>
    simp only [VoteThreshold.Passes, hturnout] at h ⊢
    exact mul_lt_mul_of_le_of_le hnays hayes h
  | superMajorityAgainst =>
    simp only [VoteThreshold.Passes, hturnout] at h ⊢
    exact mul_lt_mul_of_le_of_le hnays hayes h
  | simpleMajority =>
    simp only [VoteThreshold.Passes] at h ⊢
    omega

/-- `compare_rationals` answers whether `n1 / d1 < n2 / d2` within `2 * log₂ (min d1 d2) + 1`
rounds, and so do the thresholds their comparisons of square roots; every threshold passes with
more ayes and fewer nays. -/
theorem compareRationals_approved :
    (∀ (fuel n1 d1 n2 d2 : ℕ), 0 < d1 → 0 < d2 → compareRationalsRounds d1 d2 ≤ fuel →
      compareRationalsLoop fuel n1 d1 n2 d2 = some (decide (n1 * d2 < n2 * d1))) ∧
    (∀ n1 d1 n2 d2 : ℕ, 0 < d1 → 0 < d2 →
      compareRationals n1 d1 n2 d2 = some (decide (n1 * d2 < n2 * d1))) ∧
    (∀ (tally : Tally) (electorate : ℕ), 1 ≤ tally.turnout → tally.turnout ≤ electorate →
      VoteThreshold.superMajorityApprove.approved tally electorate =
          some (decide (tally.nays * Nat.sqrt electorate < tally.ayes * Nat.sqrt tally.turnout)) ∧
        VoteThreshold.superMajorityAgainst.approved tally electorate =
          some (decide (tally.nays * Nat.sqrt tally.turnout < tally.ayes * Nat.sqrt electorate))) ∧
    (∀ (t : VoteThreshold) (tally tally' : Tally) (electorate : ℕ),
      1 ≤ tally.turnout → tally.turnout ≤ electorate → tally'.turnout = tally.turnout →
      tally.ayes ≤ tally'.ayes → tally'.nays ≤ tally.nays →
      t.approved tally electorate = some true → t.approved tally' electorate = some true) := by
  refine ⟨fun fuel n1 d1 n2 d2 hd1 hd2 hfuel => compareRationalsLoop_eq hd1 hd2 hfuel,
    fun n1 d1 n2 d2 hd1 hd2 => compareRationals_eq hd1 hd2,
    fun tally electorate hturnout helectorate =>
      ⟨VoteThreshold.approved_eq hturnout helectorate,
        VoteThreshold.approved_eq hturnout helectorate⟩, ?_⟩
  intro t tally tally' electorate hturnout helectorate hsame hayes hnays h
  have hturnout' : 1 ≤ tally'.turnout := hsame ▸ hturnout
  have helectorate' : tally'.turnout ≤ electorate := hsame ▸ helectorate
  rw [VoteThreshold.approved_eq hturnout helectorate, Option.some_inj, decide_eq_true_iff] at h
  rw [VoteThreshold.approved_eq hturnout' helectorate', Option.some_inj, decide_eq_true_iff]
  exact h.mono hsame hayes hnays

/-- The test of the source: with an electorate of 210, a supermajority of approvals fails with
60 ayes and 50 nays out of 110 and passes with 100 ayes and 50 nays out of 150. -/
theorem compareRationals_approved_shouldWork :
    VoteThreshold.superMajorityApprove.approved ⟨60, 50, 110⟩ 210 = some false ∧
      VoteThreshold.superMajorityApprove.approved ⟨100, 50, 150⟩ 210 = some true := by
  have h210 : Nat.sqrt 210 = 14 := Nat.sqrt_add_eq 14 (a := 14) (by norm_num)
  have h110 : Nat.sqrt 110 = 10 := Nat.sqrt_add_eq 10 (a := 10) (by norm_num)
  have h150 : Nat.sqrt 150 = 12 := Nat.sqrt_add_eq 12 (a := 6) (by norm_num)
  constructor
  · rw [(compareRationals_approved.2.2.1 ⟨60, 50, 110⟩ 210 (by decide) (by decide)).1]
    simp [h210, h110]
  · rw [(compareRationals_approved.2.2.1 ⟨100, 50, 150⟩ 210 (by decide) (by decide)).1]
    simp [h210, h150]

end Tetcore.Democracy
