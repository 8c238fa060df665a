import Mathlib
import Tetcore.Lib.Outcome

/-!
# Normalizing numbers to a target sum

`primitives/arithmetic/src/lib.rs`, `normalize`. The input is paired with its indices and sorted by
value; the difference to the target is spread as `per_round` over `count` rounds and then as single
units (`leftover`), adding from the smallest value up or taking from the largest value down, and the
pairs are sorted back by index. `maxT` is the largest value of the numeric type `T`.

When the sum is too large, a value can fall short of `per_round`; it is cut at zero and the
shortfall joins `leftover`, whose loop then steps over zeros. That loop is given fuel, and running
out of it stands for the source's loop that does not end.

On a non-empty input whose sum and length fit, with a target that fits, `normalize` returns a list
of the same length that sums to the target, each value moved towards it in place: the bump branch
stays within the target, so no `expect` fires, and the leftover loop of the decrease branch finds
a value that is not zero within `count` passes, so the fuel suffices. The empty input is returned
as it is.
-/

namespace Tetcore.Arithmetic

/-- The sum of `normalize`, checked: `none` once a partial sum passes `maxT`. -/
def checkedSum (maxT : ℕ) (input : List ℕ) : Option ℕ :=
  input.foldlM (fun sum t => if sum + t ≤ maxT then some (sum + t) else none) 0

/-- The value at a position of `output_with_idx`. -/
def valueAt (out : List (ℕ × ℕ)) (i : ℕ) : ℕ := (out.getD i (0, 0)).2

/-- `output_with_idx[i].1 = v`. -/
def setValue (out : List (ℕ × ℕ)) (i v : ℕ) : List (ℕ × ℕ) := out.modify i fun x => (x.1, v)

/-- One round of the bump branch: add `amount` at `minIndex` (the `expect` of `checked_add` panics
past `maxT`) and go to the next index once the value reaches `threshold`. -/
def bumpAt (maxT threshold amount : ℕ) (out : List (ℕ × ℕ)) (minIndex : ℕ) :
    Outcome String (List (ℕ × ℕ) × ℕ) :=
  let v := valueAt out minIndex + amount
  if v ≤ maxT then
    .ok (setValue out minIndex v, if threshold ≤ v then (minIndex + 1) % out.length else minIndex)
  else .panic

/-- `n` rounds of `bumpAt`: the `for` loop over `per_round`, and the `while` loop over `leftover`
with an amount of one. -/
def bumpRounds (maxT threshold amount : ℕ) :
    ℕ → List (ℕ × ℕ) → ℕ → Outcome String (List (ℕ × ℕ) × ℕ)
  | 0, out, minIndex => .ok (out, minIndex)
  | n + 1, out, minIndex =>
    (bumpAt maxT threshold amount out minIndex).bind fun (out, minIndex) =>
      bumpRounds maxT threshold amount n out minIndex

/-- `max_index.checked_sub(1).unwrap_or(count - 1)`. -/
def prevIndex (count i : ℕ) : ℕ := if i = 0 then count - 1 else i - 1

/-- One round of the decrease branch: take `perRound` at `maxIndex`, or all of the value with the
shortfall added to `leftover`, and go down once the value is at most `threshold`. -/
def decreaseAt (threshold perRound : ℕ) (out : List (ℕ × ℕ)) (maxIndex leftover : ℕ) :
    List (ℕ × ℕ) × ℕ × ℕ :=
  let v := valueAt out maxIndex
  let (v, leftover) := if perRound ≤ v then (v - perRound, leftover)
    else (0, leftover + (perRound - v))
  (setValue out maxIndex v, if v ≤ threshold then prevIndex out.length maxIndex else maxIndex,
    leftover)

def decreaseRounds (threshold perRound : ℕ) :
    ℕ → List (ℕ × ℕ) → ℕ → ℕ → List (ℕ × ℕ) × ℕ × ℕ
  | 0, out, maxIndex, leftover => (out, maxIndex, leftover)
  | n + 1, out, maxIndex, leftover =>
    let (out, maxIndex, leftover) := decreaseAt threshold perRound out maxIndex leftover
    decreaseRounds threshold perRound n out maxIndex leftover

/-- The `while` loop over `leftover` of the decrease branch: take one from a non-zero value, or
step down over a zero. `none` when the fuel runs out. -/
def decreaseLeftover (threshold : ℕ) :
    ℕ → List (ℕ × ℕ) → ℕ → ℕ → Option (List (ℕ × ℕ))
  | _, out, _, 0 => some out
  | 0, _, _, _ + 1 => none
  | fuel + 1, out, maxIndex, leftover + 1 =>
    let v := valueAt out maxIndex
    if 1 ≤ v then
      decreaseLeftover threshold fuel (setValue out maxIndex (v - 1))
        (if v - 1 ≤ threshold then prevIndex out.length maxIndex else maxIndex) leftover
    else decreaseLeftover threshold fuel out (prevIndex out.length maxIndex) (leftover + 1)

/-- `sort_by_key`, a stable sort. -/
def sortByKey {α : Type} (key : α → ℕ) (l : List α) : List α :=
  l.insertionSort fun a b => key a ≤ key b

/-- `normalize`. The fuel of the last loop, `leftover * count + count`, is more than it needs: each
pass over a zero is followed within `count` passes by one that takes a unit. -/
def normalize (input : List ℕ) (targetedSum maxT : ℕ) : Outcome String (List ℕ) :=
  match checkedSum maxT input with
  | none => .err "sum of input cannot fit in `T`"
  | some sum =>
    let count := input.length
    if maxT < count then .err "length of `inputs` cannot fit in `T`"
    else if count = 0 then .ok []
    else
      let diff := max targetedSum sum - min targetedSum sum
      if diff = 0 then .ok input
      else
        let perRound := diff / count
        let leftover := diff % count
        let out := sortByKey Prod.snd (input.zipIdx.map Prod.swap)
        let result : Outcome String (List (ℕ × ℕ)) :=
          if sum < targetedSum then
            let threshold := targetedSum / count
            (if perRound = 0 then .ok (out, 0)
              else bumpRounds maxT threshold perRound count out 0).bind fun (out, minIndex) =>
            (bumpRounds maxT threshold 1 leftover out minIndex).bind fun (out, _) => .ok out
          else
            let threshold := valueAt out 0
            let (out, maxIndex, leftover) := if perRound = 0 then (out, count - 1, leftover)
              else decreaseRounds threshold perRound count out (count - 1) leftover
            match decreaseLeftover threshold (leftover * count + count) out maxIndex leftover with
            | some out => .ok out
            | none => .panic
        result.bind fun out => .ok ((sortByKey Prod.fst out).map Prod.snd)

/-! ## The output as values at indices -/

/-- The sum of the values of `output_with_idx`. -/
def valueSum (out : List (ℕ × ℕ)) : ℕ := (out.map Prod.snd).sum

@[simp] theorem length_setValue (out : List (ℕ × ℕ)) (i v : ℕ) :
    (setValue out i v).length = out.length :=
  List.length_modify _ _ _

theorem valueAt_cons_zero (x : ℕ × ℕ) (out : List (ℕ × ℕ)) : valueAt (x :: out) 0 = x.2 := rfl

theorem valueAt_cons_succ (x : ℕ × ℕ) (out : List (ℕ × ℕ)) (i : ℕ) :
    valueAt (x :: out) (i + 1) = valueAt out i := rfl

theorem valueAt_le_valueSum : ∀ (out : List (ℕ × ℕ)) (i : ℕ), valueAt out i ≤ valueSum out
  | [], _ => Nat.zero_le _
  | x :: out, 0 => by simp [valueAt_cons_zero, valueSum]
  | x :: out, i + 1 => by
    have ih := valueAt_le_valueSum out i
    simp only [valueAt_cons_succ, valueSum, List.map_cons, List.sum_cons] at ih ⊢
    omega

theorem valueSum_setValue :
    ∀ (out : List (ℕ × ℕ)) (i v : ℕ), i < out.length →
      valueSum (setValue out i v) + valueAt out i = valueSum out + v
  | [], _, _, h => absurd h (Nat.not_lt_zero _)
  | x :: out, 0, v, _ => by
    simp only [setValue, List.modify_zero_cons, valueAt_cons_zero, valueSum, List.map_cons,
      List.sum_cons]
    omega
  | x :: out, i + 1, v, h => by
    have ih := valueSum_setValue out i v (Nat.lt_of_succ_lt_succ h)
    simp only [setValue, valueSum, List.modify_succ_cons, valueAt_cons_succ, List.map_cons,
      List.sum_cons] at ih ⊢
    omega

theorem valueAt_setValue_self :
    ∀ (out : List (ℕ × ℕ)) (i v : ℕ), i < out.length → valueAt (setValue out i v) i = v
  | [], _, _, h => absurd h (Nat.not_lt_zero _)
  | _ :: _, 0, _, _ => rfl
  | _ :: out, i + 1, v, h => valueAt_setValue_self out i v (Nat.lt_of_succ_lt_succ h)

/-! ## Adjusted outputs

A run of the loops changes values only, each in one direction: up in the bump branch and down in
the decrease branch. -/

/-- `out'` holds the indices of `out` in the same order, each value related by `r` to the old one. -/
def Adjusted (r : ℕ → ℕ → Prop) (out' out : List (ℕ × ℕ)) : Prop :=
  List.Forall₂ (fun a b => a.1 = b.1 ∧ r a.2 b.2) out' out

section Adjusted

variable {r : ℕ → ℕ → Prop}

theorem Adjusted.refl [Std.Refl r] (out : List (ℕ × ℕ)) : Adjusted r out out :=
  List.forall₂_same.mpr fun x _ => ⟨rfl, Std.Refl.refl x.2⟩

theorem Adjusted.trans [IsTrans ℕ r] {out'' out' out : List (ℕ × ℕ)} (h₂ : Adjusted r out'' out')
    (h₁ : Adjusted r out' out) : Adjusted r out'' out := by
  induction h₂ generalizing out with
  | nil => cases h₁; exact List.Forall₂.nil
  | cons hab _ ih =>
    cases h₁ with
    | cons hbc h₁ =>
      exact List.Forall₂.cons ⟨hab.1.trans hbc.1, IsTrans.trans _ _ _ hab.2 hbc.2⟩ (ih h₁)

theorem Adjusted.length_eq {out' out : List (ℕ × ℕ)} (h : Adjusted r out' out) :
    out'.length = out.length :=
  List.Forall₂.length_eq h

theorem Adjusted.map_fst {out' out : List (ℕ × ℕ)} (h : Adjusted r out' out) :
    out'.map Prod.fst = out.map Prod.fst := by
  induction h with
  | nil => rfl
  | cons hab _ ih => rw [List.map_cons, List.map_cons, hab.1, ih]

theorem Adjusted.exists_of_mem {out' out : List (ℕ × ℕ)} (h : Adjusted r out' out)
    {a : ℕ × ℕ} (ha : a ∈ out') : ∃ b ∈ out, a.1 = b.1 ∧ r a.2 b.2 := by
  induction h with
  | nil => cases ha
  | cons hab _ ih =>
    rcases List.mem_cons.mp ha with rfl | ha
    · exact ⟨_, List.mem_cons_self, hab⟩
    · obtain ⟨b, hb, hrel⟩ := ih ha
      exact ⟨b, List.mem_cons_of_mem _ hb, hrel⟩

theorem adjusted_setValue [Std.Refl r] :
    ∀ (out : List (ℕ × ℕ)) (i v : ℕ), r v (valueAt out i) → Adjusted r (setValue out i v) out
  | [], _, _, _ => by rw [setValue, List.modify_nil]; exact List.Forall₂.nil
  | x :: out, 0, v, h => List.Forall₂.cons ⟨rfl, h⟩ (Adjusted.refl out)
  | x :: out, i + 1, v, h =>
    List.Forall₂.cons ⟨rfl, Std.Refl.refl x.2⟩ (adjusted_setValue out i v h)

end Adjusted

/-! ## The bump branch -/

section Bump

variable {maxT threshold amount : ℕ}

theorem bumpAt_ok {out : List (ℕ × ℕ)} {minIndex : ℕ} (hi : minIndex < out.length)
    (hsum : valueSum out + amount ≤ maxT) :
    ∃ i', bumpAt maxT threshold amount out minIndex =
        .ok (setValue out minIndex (valueAt out minIndex + amount), i') ∧ i' < out.length := by
  have hv : valueAt out minIndex + amount ≤ maxT :=
    (Nat.add_le_add_right (valueAt_le_valueSum out minIndex) amount).trans hsum
  refine ⟨_, if_pos hv, ?_⟩
  split
  · exact Nat.mod_lt _ (Nat.zero_lt_of_lt hi)
  · exact hi

theorem bumpRounds_ok :
    ∀ (n : ℕ) (out : List (ℕ × ℕ)) (minIndex : ℕ), minIndex < out.length →
      valueSum out + n * amount ≤ maxT →
      ∃ out' i', bumpRounds maxT threshold amount n out minIndex = .ok (out', i') ∧
        i' < out.length ∧ valueSum out' = valueSum out + n * amount ∧ Adjusted (· ≥ ·) out' out
  | 0, out, minIndex, hi, _ => ⟨out, minIndex, rfl, hi, by simp, Adjusted.refl out⟩
  | n + 1, out, minIndex, hi, hsum => by
    obtain ⟨i', hstep, hi'⟩ := @bumpAt_ok maxT threshold amount _ _ hi
      (show valueSum out + amount ≤ maxT by rw [Nat.succ_mul] at hsum; omega)
    set out₁ := setValue out minIndex (valueAt out minIndex + amount)
    have hsum₁ : valueSum out₁ + valueAt out minIndex = valueSum out + (valueAt out minIndex + amount) :=
      valueSum_setValue out minIndex _ hi
    have hlen₁ : out₁.length = out.length := length_setValue _ _ _
    obtain ⟨out', i'', hrun, hi'', hsum', hadj⟩ := bumpRounds_ok n out₁ i' (hlen₁ ▸ hi')
      (by rw [Nat.succ_mul] at hsum; omega)
    refine ⟨out', i'', ?_, hlen₁ ▸ hi'', by rw [hsum', Nat.succ_mul]; omega, ?_⟩
    · rw [bumpRounds, hstep]
      exact hrun
    · exact hadj.trans (adjusted_setValue out minIndex _ (Nat.le_add_right _ _))

end Bump

/-! ## The decrease branch -/

theorem prevIndex_lt {count i : ℕ} (hi : i < count) : prevIndex count i < count := by
  unfold prevIndex
  split <;> omega

section Decrease

variable {threshold perRound : ℕ}

theorem decreaseAt_spec {out : List (ℕ × ℕ)} {maxIndex leftover : ℕ} (hi : maxIndex < out.length) :
    ∃ v lo i', decreaseAt threshold perRound out maxIndex leftover = (setValue out maxIndex v, i', lo) ∧
      v ≤ valueAt out maxIndex ∧ v + perRound + leftover = valueAt out maxIndex + lo ∧
      i' < out.length := by
  unfold decreaseAt
  by_cases hv : perRound ≤ valueAt out maxIndex
  · refine ⟨valueAt out maxIndex - perRound, leftover, _, by dsimp only; rw [if_pos hv], Nat.sub_le _ _,
      by omega, ?_⟩
    split
    · exact prevIndex_lt hi
    · exact hi
  · refine ⟨0, leftover + (perRound - valueAt out maxIndex), _, by dsimp only; rw [if_neg hv], Nat.zero_le _,
      by omega, ?_⟩
    split
    · exact prevIndex_lt hi
    · exact hi

theorem decreaseRounds_spec :
    ∀ (n : ℕ) (out : List (ℕ × ℕ)) (maxIndex leftover : ℕ), maxIndex < out.length →
      ∃ out' i' lo, decreaseRounds threshold perRound n out maxIndex leftover = (out', i', lo) ∧
        i' < out.length ∧ valueSum out' + n * perRound + leftover = valueSum out + lo ∧
        Adjusted (· ≤ ·) out' out
  | 0, out, maxIndex, leftover, hi => ⟨out, maxIndex, leftover, rfl, hi, by simp, Adjusted.refl out⟩
  | n + 1, out, maxIndex, leftover, hi => by
    obtain ⟨v, lo₁, i₁, hstep, hle, hv, hi₁⟩ :=
      @decreaseAt_spec threshold perRound _ _ leftover hi
    have hsum₁ : valueSum (setValue out maxIndex v) + valueAt out maxIndex = valueSum out + v :=
      valueSum_setValue out maxIndex v hi
    have hlen₁ : (setValue out maxIndex v).length = out.length := length_setValue _ _ _
    obtain ⟨out', i', lo, hrun, hi', hsum', hadj⟩ :=
      decreaseRounds_spec n (setValue out maxIndex v) i₁ lo₁ (hlen₁ ▸ hi₁)
    refine ⟨out', i', lo, ?_, hlen₁ ▸ hi', by rw [Nat.succ_mul]; omega,
      hadj.trans (adjusted_setValue out maxIndex v hle)⟩
    rw [decreaseRounds, hstep]
    exact hrun

/-! The `while` loop over `leftover` steps down over zeros, wrapping around. A value that is not
zero lies at most `count - 1` steps down, so each unit costs at most `count` passes, and a leftover
within the sum needs at most `leftover * count` of them. -/

/-- The number of steps down, wrapping from `0` to `count - 1`, from `i` to `p`. -/
def stepsDown (count i p : ℕ) : ℕ := if p ≤ i then i - p else i + count - p

theorem stepsDown_lt {count i p : ℕ} (hi : i < count) (hp : p < count) : stepsDown count i p < count := by
  unfold stepsDown
  split <;> omega

theorem eq_of_stepsDown_eq_zero {count i p : ℕ} (hp : p < count) (h : stepsDown count i p = 0) :
    i = p := by
  unfold stepsDown at h
  split at h <;> omega

theorem stepsDown_prevIndex {count i p : ℕ} (hi : i < count) (hp : p < count) (hne : i ≠ p) :
    stepsDown count (prevIndex count i) p + 1 = stepsDown count i p := by
  unfold stepsDown prevIndex
  split_ifs <;> omega

theorem exists_pos_valueAt :
    ∀ {out : List (ℕ × ℕ)}, 0 < valueSum out → ∃ p < out.length, 0 < valueAt out p
  | [], h => absurd h (Nat.lt_irrefl 0)
  | x :: out, h => by
    by_cases hx : 0 < x.2
    · exact ⟨0, Nat.succ_pos _, hx⟩
    · have hrest : 0 < valueSum out := by
        simp only [valueSum, List.map_cons, List.sum_cons] at h ⊢
        omega
      obtain ⟨p, hp, hvp⟩ := exists_pos_valueAt hrest
      exact ⟨p + 1, Nat.succ_lt_succ hp, hvp⟩

theorem decreaseLeftover_ok :
    ∀ (leftover : ℕ) (out : List (ℕ × ℕ)) (maxIndex fuel : ℕ), maxIndex < out.length →
      leftover ≤ valueSum out → leftover * out.length ≤ fuel →
      ∃ out', decreaseLeftover threshold fuel out maxIndex leftover = some out' ∧
        valueSum out' + leftover = valueSum out ∧ Adjusted (· ≤ ·) out' out
  | 0, out, _, fuel, _, _, _ => ⟨out, by rw [decreaseLeftover.eq_1], rfl, Adjusted.refl out⟩
  | lo + 1, out, maxIndex, fuel, hi, hsum, hfuel => by
    -- one pass at a value that is not zero takes a unit; the rest is the loop for `lo`
    have take : ∀ i f, i < out.length → 1 ≤ valueAt out i → lo * out.length ≤ f →
        ∃ out', decreaseLeftover threshold (f + 1) out i (lo + 1) = some out' ∧
          valueSum out' + (lo + 1) = valueSum out ∧ Adjusted (· ≤ ·) out' out := by
      intro i f hi hv hf
      have hsum₁ : valueSum (setValue out i (valueAt out i - 1)) + valueAt out i =
          valueSum out + (valueAt out i - 1) := valueSum_setValue out i _ hi
      have hlen₁ : (setValue out i (valueAt out i - 1)).length = out.length :=
        length_setValue _ _ _
      have hi₁ : (if valueAt out i - 1 ≤ threshold then prevIndex out.length i else i) <
          (setValue out i (valueAt out i - 1)).length := by
        rw [hlen₁]
        split
        · exact prevIndex_lt hi
        · exact hi
      obtain ⟨out', hrun, hsum', hadj⟩ := decreaseLeftover_ok lo _ _ f hi₁ (by omega) (hlen₁ ▸ hf)
      refine ⟨out', ?_, by omega, hadj.trans (adjusted_setValue out i _ (Nat.sub_le _ _))⟩
      rw [decreaseLeftover.eq_3, if_pos hv]
      exact hrun
    obtain ⟨p, hp, hvp⟩ := exists_pos_valueAt (show 0 < valueSum out by omega)
    -- passes over zeros walk down towards `p`, where the value is not zero
    have walk : ∀ d i f, i < out.length → stepsDown out.length i p = d →
        d + 1 + lo * out.length ≤ f →
        ∃ out', decreaseLeftover threshold f out i (lo + 1) = some out' ∧
          valueSum out' + (lo + 1) = valueSum out ∧ Adjusted (· ≤ ·) out' out := by
      intro d
      induction d with
      | zero =>
        intro i f hi hd hf
        rw [eq_of_stepsDown_eq_zero hp hd]
        obtain ⟨f, rfl⟩ : ∃ f', f = f' + 1 := ⟨f - 1, by omega⟩
        exact take p f hp hvp (by omega)
      | succ d ih =>
        intro i f hi hd hf
        obtain ⟨f, rfl⟩ : ∃ f', f = f' + 1 := ⟨f - 1, by omega⟩
        by_cases hv : 1 ≤ valueAt out i
        · exact take i f hi hv (by omega)
        · have hne : i ≠ p := by
            rintro rfl
            omega
          have hd' := stepsDown_prevIndex hi hp hne
          rw [decreaseLeftover.eq_3, if_neg hv]
          exact ih (prevIndex out.length i) f (prevIndex_lt hi) (by omega) (by omega)
    have hsteps := stepsDown_lt hi hp
    exact walk _ maxIndex fuel hi rfl (by rw [Nat.succ_mul] at hfuel; omega)

end Decrease

/-! ## Sorting by value and back by index -/

theorem sortByKey_perm {α : Type} (key : α → ℕ) (l : List α) : (sortByKey key l).Perm l :=
  List.perm_insertionSort _ l

theorem pairwise_sortByKey {α : Type} (key : α → ℕ) (l : List α) :
    ((sortByKey key l).map key).Pairwise (· ≤ ·) := by
  have : Std.Total (fun a b : α => key a ≤ key b) := ⟨fun a b => le_total _ _⟩
  have : IsTrans α (fun a b => key a ≤ key b) := ⟨fun _ _ _ => le_trans⟩
  exact List.pairwise_map.mpr (List.pairwise_insertionSort _ l)

theorem valueSum_sortByValue (input : List ℕ) :
    valueSum (sortByKey Prod.snd (input.zipIdx.map Prod.swap)) = input.sum := by
  unfold valueSum
  rw [((sortByKey_perm _ _).map Prod.snd).sum_eq, List.map_map]
  simp [Function.comp_def, List.zipIdx_map_fst]

theorem length_sortByValue (input : List ℕ) :
    (sortByKey Prod.snd (input.zipIdx.map Prod.swap)).length = input.length := by
  simp [sortByKey]

theorem sortBack_forall₂ {r : ℕ → ℕ → Prop} {input : List ℕ} {out : List (ℕ × ℕ)}
    (h : Adjusted r out (sortByKey Prod.snd (input.zipIdx.map Prod.swap))) :
    List.Forall₂ (fun x y => r y x) input ((sortByKey Prod.fst out).map Prod.snd) := by
  set S := sortByKey Prod.fst out
  have hperm : S.Perm out := sortByKey_perm _ _
  -- the indices are those of the input, so sorted they are `0, 1, ...`
  have hidx : S.map Prod.fst = List.range input.length := by
    refine List.Perm.eq_of_pairwise (fun a b _ _ hab hba => Nat.le_antisymm hab hba)
      (pairwise_sortByKey _ _) List.pairwise_le_range ?_
    have hrange : (input.zipIdx.map Prod.swap).map Prod.fst = List.range input.length := by
      simp [Function.comp_def, List.zipIdx_map_snd, List.range_eq_range']
    have hout := hperm.map Prod.fst
    rw [h.map_fst] at hout
    exact hrange ▸ hout.trans ((sortByKey_perm _ _).map Prod.fst)
  have hlen : S.length = input.length := by simpa using congrArg List.length hidx
  rw [List.forall₂_iff_get]
  refine ⟨by simp [hlen], fun i h₁ h₂ => ?_⟩
  have hi : i < S.length := by simpa using h₂
  have hSi : S[i].1 = i := by
    have := congrArg (fun l => l[i]?) hidx
    simpa [hi, hlen ▸ hi] using this
  -- `S[i]` comes from a pair of the input, which is at index `i`
  obtain ⟨b, hb, hfst, hrel⟩ := h.exists_of_mem (hperm.subset (List.getElem_mem hi))
  obtain ⟨⟨x, j⟩, hmem, rfl⟩ := List.mem_map.mp ((sortByKey_perm _ _).subset hb)
  rw [List.mem_zipIdx_iff_getElem?] at hmem
  have hj : j = i := by simpa [hSi] using hfst.symm
  subst hj
  have hx : input[j] = x := by simpa [h₁] using hmem
  simpa [hx] using hrel

theorem sum_sortBack (out : List (ℕ × ℕ)) :
    ((sortByKey Prod.fst out).map Prod.snd).sum = valueSum out :=
  ((sortByKey_perm _ out).map Prod.snd).sum_eq

/-! ## `normalize` -/

theorem foldlM_checkedAdd (maxT : ℕ) : ∀ (input : List ℕ) (acc : ℕ), acc ≤ maxT →
    input.foldlM (fun sum t => if sum + t ≤ maxT then some (sum + t) else none) acc =
      if acc + input.sum ≤ maxT then some (acc + input.sum) else none
  | [], acc, hacc => by simp [hacc]
  | x :: xs, acc, hacc => by
    rw [List.foldlM_cons, List.sum_cons]
    by_cases hx : acc + x ≤ maxT
    · rw [if_pos hx]
      rw [Option.bind_eq_bind, Option.bind_some, foldlM_checkedAdd maxT xs (acc + x) hx, Nat.add_assoc]
    · rw [if_neg hx, if_neg (by omega)]
      rfl

theorem checkedSum_eq (maxT : ℕ) (input : List ℕ) :
    checkedSum maxT input = if input.sum ≤ maxT then some input.sum else none := by
  rw [checkedSum, foldlM_checkedAdd maxT input 0 (Nat.zero_le _), Nat.zero_add]

theorem normalize_ok {input : List ℕ} {targetedSum maxT : ℕ} (ht : targetedSum ≤ maxT)
    (hsum : input.sum ≤ maxT) (hlen : input.length ≤ maxT) (hne : input ≠ []) :
    ∃ w, normalize input targetedSum maxT = .ok w ∧ w.sum = targetedSum ∧
      (input.sum ≤ targetedSum → List.Forall₂ (· ≤ ·) input w) ∧
      (targetedSum ≤ input.sum → List.Forall₂ (· ≥ ·) input w) := by
  have hcount : 0 < input.length := List.length_pos_iff.mpr hne
  unfold normalize
  rw [checkedSum_eq, if_pos hsum]
  dsimp only
  rw [if_neg (Nat.not_lt.mpr hlen), if_neg (Nat.pos_iff_ne_zero.mp hcount)]
  split
  case isTrue hdiff =>
    have heq : input.sum = targetedSum := by omega
    exact ⟨input, rfl, heq, fun _ => List.forall₂_same.mpr fun x _ => le_refl x,
      fun _ => List.forall₂_same.mpr fun x _ => le_refl x⟩
  case isFalse hdiff =>
    set out₀ := sortByKey Prod.snd (List.map Prod.swap input.zipIdx)
    set diff := max targetedSum input.sum - min targetedSum input.sum
    have hlen₀ : out₀.length = input.length := length_sortByValue input
    have hsum₀ : valueSum out₀ = input.sum := valueSum_sortByValue input
    have hsplit : input.length * (diff / input.length) + diff % input.length = diff :=
      Nat.div_add_mod _ _
    split
    case isTrue hlt =>
      -- the bump branch: `count` rounds of `per_round`, then `leftover` single units
      have hdiff' : diff = targetedSum - input.sum := by omega
      obtain ⟨out₁, i₁, hrounds, hi₁, hsum₁, hadj₁⟩ : ∃ out₁ i₁,
          (if diff / input.length = 0 then Outcome.ok (out₀, 0)
            else bumpRounds maxT (targetedSum / input.length) (diff / input.length) input.length
              out₀ 0) = (.ok (out₁, i₁) : Outcome String _) ∧
          i₁ < out₀.length ∧ valueSum out₁ = valueSum out₀ + input.length * (diff / input.length) ∧
          Adjusted (· ≥ ·) out₁ out₀ := by
        split
        case isTrue h0 =>
          exact ⟨out₀, 0, rfl, hlen₀ ▸ hcount, by rw [h0, Nat.mul_zero, Nat.add_zero],
            Adjusted.refl out₀⟩
        case isFalse => exact bumpRounds_ok _ out₀ 0 (hlen₀ ▸ hcount) (by omega)
      obtain ⟨out₂, i₂, hleft, -, hsum₂, hadj₂⟩ :=
        @bumpRounds_ok maxT (targetedSum / input.length) 1
          (diff % input.length) out₁ i₁ (hadj₁.length_eq ▸ hi₁) (by omega)
      rw [hrounds, Outcome.ok_bind]
      dsimp only
      rw [hleft, Outcome.ok_bind, Outcome.ok_bind]
      dsimp only
      refine ⟨_, rfl, by rw [sum_sortBack]; omega, fun _ => sortBack_forall₂ (hadj₂.trans hadj₁),
        fun h => absurd h (Nat.not_le.mpr hlt)⟩
    case isFalse hge =>
      -- the decrease branch: `count` rounds of `per_round`, the shortfalls joining `leftover`
      have hdiff' : diff = input.sum - targetedSum := by omega
      obtain ⟨out₁, i₁, lo₁, hrounds, hi₁, hsum₁, hadj₁⟩ : ∃ out₁ i₁ lo₁,
          (if diff / input.length = 0 then (out₀, input.length - 1, diff % input.length)
            else decreaseRounds (valueAt out₀ 0) (diff / input.length) input.length out₀
              (input.length - 1) (diff % input.length)) = (out₁, i₁, lo₁) ∧
          i₁ < out₀.length ∧
          valueSum out₁ + input.length * (diff / input.length) + diff % input.length =
            valueSum out₀ + lo₁ ∧
          Adjusted (· ≤ ·) out₁ out₀ := by
        split
        case isTrue h0 =>
          exact ⟨out₀, input.length - 1, diff % input.length, rfl, by omega,
            by rw [h0, Nat.mul_zero, Nat.add_zero], Adjusted.refl out₀⟩
        case isFalse => exact decreaseRounds_spec _ out₀ _ _ (by omega)
      have hlen₁ : out₁.length = input.length := hadj₁.length_eq.trans hlen₀
      obtain ⟨out₂, hleft, hsum₂, hadj₂⟩ :=
        @decreaseLeftover_ok (valueAt out₀ 0) lo₁ out₁ i₁
          (lo₁ * input.length + input.length) (hadj₁.length_eq ▸ hi₁) (by omega)
          (by rw [hlen₁]; omega)
      rw [hrounds]
      dsimp only
      rw [hleft, Outcome.ok_bind]
      refine ⟨_, rfl, by rw [sum_sortBack]; omega, fun h => ?_, fun _ => sortBack_forall₂ (hadj₂.trans hadj₁)⟩
      exact absurd (Nat.le_antisymm h (Nat.not_lt.mp hge)) (by omega)

example : normalize [8, 9, 7, 10] 40 (2 ^ 32 - 1) = .ok [10, 10, 10, 10] := by decide
example : normalize [7, 7, 7, 10] 40 (2 ^ 32 - 1) = .ok [11, 11, 8, 10] := by decide
example : normalize [1, 100, 100] 10 (2 ^ 8 - 1) = .ok [1, 9, 0] := by decide
example : normalize [1, 8, 9] 1 (2 ^ 8 - 1) = .ok [0, 1, 0] := by decide

theorem normalize_nil (targetedSum maxT : ℕ) : normalize [] targetedSum maxT = .ok [] := by
  rw [normalize, checkedSum_eq, List.sum_nil, if_pos (Nat.zero_le _)]
  rfl

theorem normalize_of_sum_gt {input : List ℕ} {targetedSum maxT : ℕ} (h : maxT < input.sum) :
    normalize input targetedSum maxT = .err "sum of input cannot fit in `T`" := by
  rw [normalize, checkedSum_eq, if_neg (Nat.not_le.mpr h)]

example : normalize [200, 56] 10 (2 ^ 8 - 1) = .err "sum of input cannot fit in `T`" := by decide

theorem normalize_of_length_gt {input : List ℕ} {targetedSum maxT : ℕ} (hsum : input.sum ≤ maxT)
    (h : maxT < input.length) :
    normalize input targetedSum maxT = .err "length of `inputs` cannot fit in `T`" := by
  rw [normalize, checkedSum_eq, if_pos hsum]
  exact if_pos h

theorem normalize_eq_err_iff {input : List ℕ} {targetedSum maxT : ℕ} (ht : targetedSum ≤ maxT) :
    (∃ e, normalize input targetedSum maxT = .err e) ↔ maxT < input.sum ∨ maxT < input.length := by
  constructor
  · rintro ⟨e, he⟩
    by_contra hfit
    rw [not_or, Nat.not_lt, Nat.not_lt] at hfit
    by_cases hnil : input = []
    · rw [hnil, normalize_nil] at he
      cases he
    · obtain ⟨w, hw, -⟩ := normalize_ok ht hfit.1 hfit.2 hnil
      rw [hw] at he
      cases he
  · rintro (h | h)
    · exact ⟨_, normalize_of_sum_gt h⟩
    · by_cases hsum : input.sum ≤ maxT
      · exact ⟨_, normalize_of_length_gt hsum h⟩
      · exact ⟨_, normalize_of_sum_gt (Nat.not_le.mp hsum)⟩

end Tetcore.Arithmetic
