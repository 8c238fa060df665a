import Mathlib
import Tetcore.Elections.Evaluate

/-!
# Comparing election scores

`primitives/npos-elections/src/lib.rs` (`is_score_better`) and `primitives/arithmetic/src/lib.rs`
(`ThresholdOrd::tcmp`). A score is better than another when its minimal support is higher by more
than `epsilon` of the other's; or within that and not below, and its sum higher by more than
`epsilon`; or within both and not below in either, and its sum of squares lower by more than
`epsilon`. The components are `u128`: the bounds of `tcmp` saturate at `2 ^ 128 - 1` and at `0`,
and `epsilon.mul_ceil(that)` never exceeds `that`.

Whatever the thresholds, a component that `tcmp` finds greater is greater and one it finds less is
less, and the match asks for `this >= that` wherever it reads a component as equal: so no score is
better than itself and no two scores are better than each other. With `epsilon` zero every
threshold is zero and the comparison is the lexicographic order (`isScoreBetter_zero_iff`).
-/

namespace Tetcore.Elections

open Arithmetic

/-- `ThresholdOrd::tcmp` of `u128`: `a` against `other`, equal when within `threshold` of it. -/
def tcmp (a other threshold : ℕ) : Ordering :=
  if threshold = 0 then compare a other
  else
    let upperBound := Saturating.add 128 other threshold
    let lowerBound := other - threshold
    if upperBound ≤ lowerBound then compare a other
    else
      match compare a lowerBound, compare a upperBound with
      | .gt, .gt => .gt
      | .lt, .lt => .lt
      | _, _ => .eq

/-- The pair `is_score_better` reads for one component: `this >= that`, and `this` against `that`
with the threshold `epsilon.mul_ceil(that)`. -/
def scoreComponent (P : PerThing) (epsilon this that : ℕ) : Bool × Ordering :=
  (decide (that ≤ this), tcmp this that (P.mulCeil epsilon that))

/-- `is_score_better(this, that, epsilon)`, `epsilon` given by its parts. -/
def isScoreBetter (P : PerThing) (this that : ElectionScore) (epsilon : ℕ) : Bool :=
  match scoreComponent P epsilon this.minSupport that.minSupport,
      scoreComponent P epsilon this.sum that.sum,
      scoreComponent P epsilon this.sumSquared that.sumSquared with
  -- epsilon better in the minimal support
  | (_, .gt), _, _ => true
  -- within epsilon and not below in the minimal support, epsilon better in the sum
  | (true, .eq), (_, .gt), _ => true
  -- within epsilon and not below in both, epsilon lower in the sum of squares
  | (true, .eq), (true, .eq), (_, .lt) => true
  | _, _, _ => false

/-- The lexicographic order of scores: a higher minimal support, then a higher sum, then a lower
sum of squares. -/
def ScoreLex (a b : ElectionScore) : Prop :=
  b.minSupport < a.minSupport ∨
    (a.minSupport = b.minSupport ∧
      (b.sum < a.sum ∨ (a.sum = b.sum ∧ a.sumSquared < b.sumSquared)))

theorem ScoreLex.trans {a b c : ElectionScore} (hab : ScoreLex a b) (hbc : ScoreLex b c) :
    ScoreLex a c := by
  unfold ScoreLex at *
  omega

/-- The three components are `u128` values. -/
def ElectionScore.Fits (s : ElectionScore) : Prop :=
  s.minSupport ≤ u128Max ∧ s.sum ≤ u128Max ∧ s.sumSquared ≤ u128Max

/-! ## `tcmp` -/

theorem tcmp_zero (a other : ℕ) : tcmp a other 0 = compare a other := by
  simp [tcmp]

theorem lt_of_tcmp_eq_gt {a other threshold : ℕ} (hother : other ≤ u128Max)
    (h : tcmp a other threshold = .gt) : other < a := by
  simp only [tcmp] at h
  split_ifs at h
  · exact Nat.compare_eq_gt.mp h
  · exact Nat.compare_eq_gt.mp h
  · split at h
    · next hupper =>
      have hle : other ≤ Saturating.add 128 other threshold :=
        le_min (Nat.le_add_right other threshold) hother
      exact lt_of_le_of_lt hle (Nat.compare_eq_gt.mp hupper)
    · cases h
    · cases h

theorem lt_of_tcmp_eq_lt {a other threshold : ℕ} (h : tcmp a other threshold = .lt) :
    a < other := by
  simp only [tcmp] at h
  split_ifs at h
  · exact Nat.compare_eq_lt.mp h
  · exact Nat.compare_eq_lt.mp h
  · split at h
    · cases h
    · next hlower _ =>
      exact lt_of_lt_of_le (Nat.compare_eq_lt.mp hlower) (Nat.sub_le other threshold)
    · cases h

theorem scoreComponent_zero (P : PerThing) (this that : ℕ) :
    scoreComponent P 0 this that = (decide (that ≤ this), compare this that) := by
  rw [scoreComponent, PerThing.mulCeil_zero, tcmp_zero]

/-! ## `is_score_better` -/

theorem isScoreBetter_eq_true_iff (P : PerThing) (this that : ElectionScore) (epsilon : ℕ) :
    isScoreBetter P this that epsilon = true ↔
      (scoreComponent P epsilon this.minSupport that.minSupport).2 = .gt ∨
      (scoreComponent P epsilon this.minSupport that.minSupport = (true, .eq) ∧
        (scoreComponent P epsilon this.sum that.sum).2 = .gt) ∨
      (scoreComponent P epsilon this.minSupport that.minSupport = (true, .eq) ∧
        scoreComponent P epsilon this.sum that.sum = (true, .eq) ∧
        (scoreComponent P epsilon this.sumSquared that.sumSquared).2 = .lt) := by
  unfold isScoreBetter
  generalize scoreComponent P epsilon this.minSupport that.minSupport = c0
  generalize scoreComponent P epsilon this.sum that.sum = c1
  generalize scoreComponent P epsilon this.sumSquared that.sumSquared = c2
  -- the match is a table over the finitely many values of the three pairs
  revert c0 c1 c2
  decide

theorem isScoreBetter_dominates {P : PerThing} {this that : ElectionScore} {epsilon : ℕ}
    (hthat : that.Fits) (h : isScoreBetter P this that epsilon = true) :
    that.minSupport < this.minSupport ∨
      (that.minSupport ≤ this.minSupport ∧ that.sum < this.sum) ∨
      (that.minSupport ≤ this.minSupport ∧ that.sum ≤ this.sum ∧
        this.sumSquared < that.sumSquared) := by
  -- a pair `(true, _)` says the component is not below
  have hge {x y : ℕ} {o : Ordering} (hc : scoreComponent P epsilon x y = (true, o)) : y ≤ x := by
    simpa [scoreComponent] using congrArg Prod.fst hc
  rcases (isScoreBetter_eq_true_iff P this that epsilon).mp h with h0 | ⟨h0, h1⟩ | ⟨h0, h1, h2⟩
  · exact Or.inl (lt_of_tcmp_eq_gt hthat.1 h0)
  · exact Or.inr (Or.inl ⟨hge h0, lt_of_tcmp_eq_gt hthat.2.1 h1⟩)
  · exact Or.inr (Or.inr ⟨hge h0, hge h1, lt_of_tcmp_eq_lt h2⟩)

theorem isScoreBetter_zero_iff (P : PerThing) (this that : ElectionScore) :
    isScoreBetter P this that 0 = true ↔ ScoreLex this that := by
  rw [isScoreBetter_eq_true_iff]
  simp only [scoreComponent_zero, Prod.mk.injEq, decide_eq_true_eq, Nat.compare_eq_gt,
    Nat.compare_eq_lt, Nat.compare_eq_eq, ScoreLex]
  omega

/-- For every `epsilon`, `is_score_better` is irreflexive and asymmetric on `u128` scores; with
`epsilon` zero it is the lexicographic order of scores, hence transitive. -/
theorem isScoreBetter_strict_order (P : PerThing) :
    (∀ (a : ElectionScore) (epsilon : ℕ), a.Fits → isScoreBetter P a a epsilon = false) ∧
    (∀ (a b : ElectionScore) (epsilon : ℕ), a.Fits → b.Fits →
      ¬(isScoreBetter P a b epsilon = true ∧ isScoreBetter P b a epsilon = true)) ∧
    (∀ a b : ElectionScore, isScoreBetter P a b 0 = true ↔ ScoreLex a b) ∧
    (∀ a b c : ElectionScore, isScoreBetter P a b 0 = true → isScoreBetter P b c 0 = true →
      isScoreBetter P a c 0 = true) := by
  refine ⟨fun a epsilon ha => ?_, fun a b epsilon ha hb => ?_, isScoreBetter_zero_iff P, ?_⟩
  · -- a score better than itself would dominate itself
    by_contra hne
    have := isScoreBetter_dominates ha (Bool.not_eq_false _ ▸ hne)
    omega
  · rintro ⟨hab, hba⟩
    have := isScoreBetter_dominates hb hab
    have := isScoreBetter_dominates ha hba
    omega
  · intro a b c hab hbc
    rw [isScoreBetter_zero_iff] at hab hbc ⊢
    exact hab.trans hbc

/-- Two `u128` scores within ten percent of each other in the minimal support: neither is better
than itself, and they are not better than each other. -/
theorem isScoreBetter_strict_order_close :
    isScoreBetter PerThing.percent ⟨100, 5, 9⟩ ⟨100, 5, 9⟩ 10 = false ∧
    ¬(isScoreBetter PerThing.percent ⟨100, 5, 9⟩ ⟨109, 0, 1⟩ 10 = true ∧
      isScoreBetter PerThing.percent ⟨109, 0, 1⟩ ⟨100, 5, 9⟩ 10 = true) :=
  have ha : (⟨100, 5, 9⟩ : ElectionScore).Fits := by norm_num [ElectionScore.Fits, u128Max]
  have hb : (⟨109, 0, 1⟩ : ElectionScore).Fits := by norm_num [ElectionScore.Fits, u128Max]
  ⟨(isScoreBetter_strict_order PerThing.percent).1 _ 10 ha,
    (isScoreBetter_strict_order PerThing.percent).2.1 _ _ 10 ha hb⟩

end Tetcore.Elections
