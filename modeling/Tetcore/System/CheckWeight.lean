import Mathlib
import Tetcore.Support.Weights
import Tetcore.Lib.Run

/-!
# Block weight and length accounting

`fabric/system/src/extensions/check_weight.rs` and `limits.rs`. Before an extrinsic is
dispatched, `CheckWeight` checks that its length fits the block's limit for its class, that its
weight plus the class's base weight fits the class's `max_total` and, past `max_block`, its
`reserved` pool, and that its weight fits `max_extrinsic`; only when all three pass does it write
the new `BlockWeight` and `AllExtrinsicsLen`. After dispatch, `post_dispatch` gives back the
weight the call did not use.

A class with neither `max_total` nor `reserved` adds by saturating, the others by a checked add;
the extrinsic's weight plus its base weight saturates before either. So the block is charged, for
each extrinsic that passed its checks, its base and actual weight only while nothing saturates
(`blockWeight_run`), and a mandatory extrinsic whose dispatch failed keeps its declared weight:
`post_dispatch` refuses it before any refund.

The dispatch itself is taken not to touch `BlockWeight` or `AllExtrinsicsLen`. Priorities and
`validate`, which write nothing, are left out; `BlockWeights::validate` keeps only whether it
accepts, not its messages.
-/

namespace Tetcore.System

open Support StepMachine

/-- `u32::max_value()`: lengths are `u32`. -/
def lengthMax : ℕ := 2 ^ 32 - 1

/-- `WeightsPerClass`. -/
structure WeightsPerClass where
  baseExtrinsic : ℕ
  maxExtrinsic : Option ℕ
  maxTotal : Option ℕ
  reserved : Option ℕ
  deriving DecidableEq, Repr

/-- `BlockWeights`. -/
structure BlockWeights where
  baseBlock : ℕ
  maxBlock : ℕ
  perClass : PerDispatchClass WeightsPerClass
  deriving DecidableEq, Repr

/-- `BlockLength`. -/
structure BlockLength where
  max : PerDispatchClass ℕ
  deriving DecidableEq, Repr

/-- `BlockWeights::get(class)`. -/
def BlockWeights.get (w : BlockWeights) (c : DispatchClass) : WeightsPerClass := w.perClass.get c

/-- `BlockWeights::validate`: whether every check passes for every class. A sum of weights
wraps in `u64`. -/
def BlockWeights.validate (self : BlockWeights) : Bool :=
  DispatchClass.all.all fun dispatchClass =>
    let weights := self.get dispatchClass
    let maxForClass := weights.maxTotal.getD weightMax
    let baseForClass := weights.baseExtrinsic
    let reserved := weights.reserved.getD weightMax
    decide ((maxForClass > self.baseBlock ∧ maxForClass > baseForClass) ∨ maxForClass = 0) &&
      decide (weights.maxExtrinsic.getD 0 ≤ maxForClass - baseForClass) &&
      decide (weights.maxExtrinsic.getD weightMax > 0) &&
      decide (reserved > baseForClass ∨ reserved = 0) &&
      decide (self.maxBlock ≥ weights.maxTotal.getD 0) &&
      decide (self.maxBlock > (baseForClass + self.baseBlock) % 2 ^ 64)

/-- The guard `Some(max) if value > max` of an optional limit. -/
def exceeds (limit : Option ℕ) (value : ℕ) : Bool :=
  match limit with
  | some max => decide (max < value)
  | none => false

/-- The `InvalidTransaction`s of `CheckWeight`. -/
inductive InvalidTransaction
  | exhaustsResources
  | mandatoryDispatch
  | badMandatory
  deriving DecidableEq, Repr

/-- The storage `CheckWeight` reads and writes: `BlockWeight` and `AllExtrinsicsLen`. -/
structure State where
  blockWeight : PerDispatchClass ℕ
  allExtrinsicsLen : ℕ
  deriving DecidableEq, Repr

/-- `calculate_consumed_weight(maximum_weight, all_weight, info)`. -/
def calculateConsumedWeight (maximumWeight : BlockWeights) (allWeight : PerDispatchClass ℕ)
    (info : DispatchInfo) : Except InvalidTransaction (PerDispatchClass ℕ) :=
  let extrinsicWeight :=
    min (info.weight + (maximumWeight.get info.dispatchClass).baseExtrinsic) weightMax
  let limitPerClass := maximumWeight.get info.dispatchClass
  -- add the weight. If class is unlimited, use saturating add instead of checked one.
  let added := if limitPerClass.maxTotal.isNone && limitPerClass.reserved.isNone then
      some (allWeight.add extrinsicWeight info.dispatchClass)
    else allWeight.checkedAdd extrinsicWeight info.dispatchClass
  match added with
  | none => .error .exhaustsResources
  | some allWeight =>
    let perClass := allWeight.get info.dispatchClass
    -- Check if we don't exceed per-class allowance
    if exceeds limitPerClass.maxTotal perClass then .error .exhaustsResources
    -- past `max_block`, fall back to the `reserved` pool if there is any
    else if decide (allWeight.total > maximumWeight.maxBlock) &&
        exceeds limitPerClass.reserved perClass then .error .exhaustsResources
    else .ok allWeight

section CheckWeight

variable (weights : BlockWeights) (length : BlockLength)

/-- `check_extrinsic_weight(info)`. -/
def checkExtrinsicWeight (info : DispatchInfo) : Except InvalidTransaction Unit :=
  if exceeds (weights.get info.dispatchClass).maxExtrinsic info.weight then .error .exhaustsResources
  else .ok ()

/-- `check_block_weight(info)`. -/
def checkBlockWeight (s : State) (info : DispatchInfo) : Except InvalidTransaction (PerDispatchClass ℕ) :=
  calculateConsumedWeight weights s.blockWeight info

/-- `check_block_length(info, len)`: `len as u32` keeps the low 32 bits. -/
def checkBlockLength (s : State) (info : DispatchInfo) (len : ℕ) : Except InvalidTransaction ℕ :=
  let currentLen := s.allExtrinsicsLen
  let addedLen := len % 2 ^ 32
  let nextLen := min (currentLen + addedLen) lengthMax
  if nextLen > length.max.get info.dispatchClass then .error .exhaustsResources else .ok nextLen

/-- `do_pre_dispatch(info, len)`: the three checks, then both writes. -/
def doPreDispatch (s : State) (info : DispatchInfo) (len : ℕ) : Except InvalidTransaction Unit × State :=
  match checkBlockLength length s info len with
  | .error e => (.error e, s)
  | .ok nextLen =>
    match checkBlockWeight weights s info with
    | .error e => (.error e, s)
    | .ok nextWeight =>
      match checkExtrinsicWeight weights info with
      | .error e => (.error e, s)
      | .ok () => (.ok (), ⟨nextWeight, nextLen⟩)

/-- `pre_dispatch`: a mandatory extrinsic cannot be signed. -/
def preDispatch (s : State) (info : DispatchInfo) (len : ℕ) : Except InvalidTransaction Unit × State :=
  if info.dispatchClass = .mandatory then (.error .mandatoryDispatch, s)
  else doPreDispatch weights length s info len

/-- `pre_dispatch_unsigned`. -/
def preDispatchUnsigned (s : State) (info : DispatchInfo) (len : ℕ) :
    Except InvalidTransaction Unit × State :=
  doPreDispatch weights length s info len

/-- `post_dispatch(_, info, post_info, _, result)`, with whether the dispatch succeeded. -/
def postDispatch (s : State) (info : DispatchInfo) (post : PostDispatchInfo) (result : Bool) :
    Except InvalidTransaction Unit × State :=
  if info.dispatchClass = .mandatory ∧ result = false then (.error .badMandatory, s)
  else
    let unspent := post.calcUnspent info
    if unspent > 0 then (.ok (), { s with blockWeight := s.blockWeight.sub unspent info.dispatchClass })
    else (.ok (), s)

/-- One extrinsic of a block: signed (checked by `pre_dispatch`) or not, its info and length,
and what its dispatch reports. -/
structure Extrinsic where
  signed : Bool
  info : DispatchInfo
  len : ℕ
  post : PostDispatchInfo
  dispatchOk : Bool
  deriving DecidableEq, Repr

/-- The check an extrinsic goes through before dispatch. -/
def Extrinsic.preDispatch (e : Extrinsic) (s : State) : Except InvalidTransaction Unit × State :=
  if e.signed then System.preDispatch weights length s e.info e.len
  else preDispatchUnsigned weights length s e.info e.len

/-- Applying one extrinsic: its check, and on success the dispatch and `post_dispatch`. -/
def applyExtrinsic (s : State) (e : Extrinsic) : State :=
  match e.preDispatch weights length s with
  | (.error _, s₁) => s₁
  | (.ok (), s₁) => (postDispatch s₁ e.info e.post e.dispatchOk).2

/-- Whether an extrinsic passes its checks from `s`. -/
def Extrinsic.Accepted (e : Extrinsic) (s : State) : Prop :=
  (e.preDispatch weights length s).1 = .ok ()

instance (e : Extrinsic) (s : State) : Decidable (e.Accepted weights length s) :=
  inferInstanceAs (Decidable (_ = _))

/-- The class of the last extrinsic of a run that passed its checks. -/
def lastAcceptedClass : State → List Extrinsic → Option DispatchClass
  | _, [] => none
  | s, e :: rest =>
    (lastAcceptedClass (applyExtrinsic weights length s e) rest).or
      (if e.Accepted weights length s then some e.info.dispatchClass else none)

/-- What the block is charged for an extrinsic that passed its checks: its base weight and its
actual weight, or its declared weight when `post_dispatch` refuses a failed mandatory dispatch. -/
def charge (e : Extrinsic) : ℕ :=
  (weights.get e.info.dispatchClass).baseExtrinsic +
    if e.info.dispatchClass = .mandatory ∧ e.dispatchOk = false then e.info.weight
    else e.post.calcActualWeight e.info

/-- The weight a run from `s` charges to class `c`: the charge of each extrinsic of class `c` that
passed its checks. -/
def charged (c : DispatchClass) : State → List Extrinsic → ℕ
  | _, [] => 0
  | s, e :: rest =>
    (if e.Accepted weights length s ∧ e.info.dispatchClass = c then charge weights e else 0) +
      charged c (applyExtrinsic weights length s e) rest

end CheckWeight

/-! ## One extrinsic -/

theorem exceeds_eq_false_iff {limit : Option ℕ} {value : ℕ} :
    exceeds limit value = false ↔ ∀ max, limit = some max → value ≤ max := by
  cases limit <;> simp [exceeds]

theorem limitChecks_ok {limitPerClass : WeightsPerClass} {maxBlock : ℕ} {c : DispatchClass}
    {w w' : PerDispatchClass ℕ}
    (h : (if exceeds limitPerClass.maxTotal (w.get c) = true then
        (.error .exhaustsResources : Except InvalidTransaction (PerDispatchClass ℕ))
      else if (decide (w.total > maxBlock) && exceeds limitPerClass.reserved (w.get c)) = true then
        .error .exhaustsResources
      else .ok w) = .ok w') :
    w' = w ∧ exceeds limitPerClass.maxTotal (w.get c) = false ∧
      (w.total ≤ maxBlock ∨ exceeds limitPerClass.reserved (w.get c) = false) := by
  by_cases hmaxTotal : exceeds limitPerClass.maxTotal (w.get c) = true
  · rw [if_pos hmaxTotal] at h
    cases h
  rw [if_neg hmaxTotal] at h
  by_cases hreserved : (decide (w.total > maxBlock) && exceeds limitPerClass.reserved (w.get c)) = true
  · rw [if_pos hreserved] at h
    cases h
  rw [if_neg hreserved] at h
  cases h
  refine ⟨rfl, Bool.eq_false_iff.mpr hmaxTotal, ?_⟩
  simp only [Bool.and_eq_true, decide_eq_true_eq, not_and_or] at hreserved
  rcases hreserved with hblock | hpool
  · exact .inl (not_lt.mp hblock)
  · exact .inr (Bool.eq_false_iff.mpr hpool)

/-- What `calculate_consumed_weight` writes: the class's weight grows by the extrinsic's weight
plus its base, saturating, and the checked add of a limited class did not overflow; the limits
hold of the result. -/
theorem calculateConsumedWeight_ok {maximumWeight : BlockWeights} {allWeight : PerDispatchClass ℕ}
    {info : DispatchInfo} {nextWeight : PerDispatchClass ℕ}
    (h : calculateConsumedWeight maximumWeight allWeight info = .ok nextWeight) :
    nextWeight = allWeight.set info.dispatchClass (min (allWeight.get info.dispatchClass +
        min (info.weight + (maximumWeight.get info.dispatchClass).baseExtrinsic) weightMax) weightMax) ∧
      ((maximumWeight.get info.dispatchClass).maxTotal.isSome ∨
          (maximumWeight.get info.dispatchClass).reserved.isSome →
        allWeight.get info.dispatchClass +
          min (info.weight + (maximumWeight.get info.dispatchClass).baseExtrinsic) weightMax ≤
            weightMax) ∧
      exceeds (maximumWeight.get info.dispatchClass).maxTotal (nextWeight.get info.dispatchClass) =
        false ∧
      (nextWeight.total ≤ maximumWeight.maxBlock ∨
        exceeds (maximumWeight.get info.dispatchClass).reserved (nextWeight.get info.dispatchClass) =
          false) := by
  rw [calculateConsumedWeight] at h
  dsimp only at h
  generalize min (info.weight + (maximumWeight.get info.dispatchClass).baseExtrinsic) weightMax =
    extrinsicWeight at h ⊢
  by_cases hunlimited : ((maximumWeight.get info.dispatchClass).maxTotal.isNone &&
      (maximumWeight.get info.dispatchClass).reserved.isNone) = true
  · -- a saturating add: the class has no limit to check
    rw [if_pos hunlimited] at h
    obtain ⟨rfl, hmaxTotal, hreserved⟩ := limitChecks_ok h
    refine ⟨rfl, fun hlimited => ?_, hmaxTotal, hreserved⟩
    simp only [Bool.and_eq_true, Option.isNone_iff_eq_none] at hunlimited
    simp [hunlimited.1, hunlimited.2] at hlimited
  · -- a checked add that did not overflow
    rw [if_neg hunlimited, PerDispatchClass.checkedAdd] at h
    by_cases hfit : allWeight.get info.dispatchClass + extrinsicWeight ≤ weightMax
    · rw [if_pos hfit] at h
      obtain ⟨rfl, hmaxTotal, hreserved⟩ := limitChecks_ok h
      exact ⟨by rw [min_eq_left hfit], fun _ => hfit, hmaxTotal, hreserved⟩
    · rw [if_neg hfit] at h
      cases h

section CheckWeight

variable {weights : BlockWeights} {length : BlockLength}

theorem checkBlockLength_ok {s : State} {info : DispatchInfo} {len nextLen : ℕ}
    (h : checkBlockLength length s info len = .ok nextLen) :
    nextLen = min (s.allExtrinsicsLen + len % 2 ^ 32) lengthMax ∧
      nextLen ≤ length.max.get info.dispatchClass := by
  unfold checkBlockLength at h
  dsimp only at h
  split at h
  · cases h
  · cases h
    exact ⟨rfl, not_lt.mp ‹_›⟩

theorem checkExtrinsicWeight_ok {info : DispatchInfo} {u : Unit}
    (h : checkExtrinsicWeight weights info = .ok u) :
    exceeds (weights.get info.dispatchClass).maxExtrinsic info.weight = false := by
  unfold checkExtrinsicWeight at h
  split at h
  · cases h
  · exact Bool.eq_false_iff.mpr ‹_›

theorem doPreDispatch_cases (s : State) (info : DispatchInfo) (len : ℕ) :
    (∃ nextLen nextWeight, checkBlockLength length s info len = .ok nextLen ∧
      checkBlockWeight weights s info = .ok nextWeight ∧
      checkExtrinsicWeight weights info = .ok () ∧
      doPreDispatch weights length s info len = (.ok (), ⟨nextWeight, nextLen⟩)) ∨
    ∃ e, doPreDispatch weights length s info len = (.error e, s) := by
  unfold doPreDispatch
  cases hlen : checkBlockLength length s info len with
  | error e => exact .inr ⟨e, rfl⟩
  | ok nextLen =>
    cases hweight : checkBlockWeight weights s info with
    | error e => exact .inr ⟨e, rfl⟩
    | ok nextWeight =>
      cases hextrinsic : checkExtrinsicWeight weights info with
      | error e => exact .inr ⟨e, rfl⟩
      | ok u => exact .inl ⟨nextLen, nextWeight, rfl, rfl, rfl, rfl⟩

theorem Extrinsic.preDispatch_cases (e : Extrinsic) (s : State) :
    (∃ nextLen nextWeight, (e.signed = true → e.info.dispatchClass ≠ .mandatory) ∧
      checkBlockLength length s e.info e.len = .ok nextLen ∧
      checkBlockWeight weights s e.info = .ok nextWeight ∧
      checkExtrinsicWeight weights e.info = .ok () ∧
      e.preDispatch weights length s = (.ok (), ⟨nextWeight, nextLen⟩)) ∨
    ∃ err, e.preDispatch weights length s = (.error err, s) := by
  unfold Extrinsic.preDispatch
  by_cases hsigned : e.signed = true
  · rw [if_pos hsigned, System.preDispatch]
    by_cases hmandatory : e.info.dispatchClass = .mandatory
    · exact .inr ⟨_, if_pos hmandatory⟩
    rw [if_neg hmandatory]
    rcases @doPreDispatch_cases weights length s e.info e.len with
      ⟨nextLen, nextWeight, hlen, hweight, hextrinsic, hok⟩ | herror
    · exact .inl ⟨nextLen, nextWeight, fun _ => hmandatory, hlen, hweight, hextrinsic, hok⟩
    · exact .inr herror
  · rw [if_neg hsigned, preDispatchUnsigned]
    rcases @doPreDispatch_cases weights length s e.info e.len with
      ⟨nextLen, nextWeight, hlen, hweight, hextrinsic, hok⟩ | herror
    · exact .inl ⟨nextLen, nextWeight, fun h => absurd h hsigned, hlen, hweight, hextrinsic, hok⟩
    · exact .inr herror

theorem Extrinsic.preDispatch_of_not_accepted {e : Extrinsic} {s : State}
    (h : ¬e.Accepted weights length s) : (e.preDispatch weights length s).2 = s := by
  rcases @Extrinsic.preDispatch_cases weights length e s with
    ⟨_, _, _, _, _, _, hok⟩ | ⟨_, herror⟩
  · exact absurd (by rw [Extrinsic.Accepted, hok]) h
  · rw [herror]

theorem applyExtrinsic_of_not_accepted {e : Extrinsic} {s : State}
    (h : ¬e.Accepted weights length s) : applyExtrinsic weights length s e = s := by
  rcases @Extrinsic.preDispatch_cases weights length e s with
    ⟨_, _, _, _, _, _, hok⟩ | ⟨_, herror⟩
  · exact absurd (by rw [Extrinsic.Accepted, hok]) h
  · rw [applyExtrinsic, herror]

theorem applyExtrinsic_of_accepted {e : Extrinsic} {s : State} (h : e.Accepted weights length s) :
    ∃ nextLen nextWeight, checkBlockLength length s e.info e.len = .ok nextLen ∧
      calculateConsumedWeight weights s.blockWeight e.info = .ok nextWeight ∧
      applyExtrinsic weights length s e = (postDispatch ⟨nextWeight, nextLen⟩ e.info e.post e.dispatchOk).2 := by
  rcases @Extrinsic.preDispatch_cases weights length e s with
    ⟨nextLen, nextWeight, -, hlen, hweight, -, hok⟩ | ⟨_, herror⟩
  · exact ⟨nextLen, nextWeight, hlen, hweight, by rw [applyExtrinsic, hok]⟩
  · rw [Extrinsic.Accepted, herror] at h
    cases h

/-- After a check that passes: a signed extrinsic is not mandatory, the limits of its class hold
of the new weight, its weight is within `max_extrinsic`, and the new length within its class's
limit. -/
theorem Extrinsic.preDispatch_ok {e : Extrinsic} {s s' : State}
    (h : e.preDispatch weights length s = (.ok (), s')) :
    (e.signed = true → e.info.dispatchClass ≠ .mandatory) ∧
      exceeds (weights.get e.info.dispatchClass).maxTotal
        (s'.blockWeight.get e.info.dispatchClass) = false ∧
      exceeds (weights.get e.info.dispatchClass).maxExtrinsic e.info.weight = false ∧
      (s'.blockWeight.total ≤ weights.maxBlock ∨
        exceeds (weights.get e.info.dispatchClass).reserved
          (s'.blockWeight.get e.info.dispatchClass) = false) ∧
      s'.allExtrinsicsLen ≤ length.max.get e.info.dispatchClass := by
  rcases @Extrinsic.preDispatch_cases weights length e s with
    ⟨nextLen, nextWeight, hsigned, hlen, hweight, hextrinsic, hok⟩ | ⟨_, herror⟩
  · rw [hok] at h
    cases h
    obtain ⟨-, -, hmaxTotal, hreserved⟩ := calculateConsumedWeight_ok hweight
    exact ⟨hsigned, hmaxTotal, checkExtrinsicWeight_ok hextrinsic, hreserved,
      (checkBlockLength_ok hlen).2⟩
  · rw [herror] at h
    cases h

end CheckWeight

theorem postDispatch_snd (s : State) (info : DispatchInfo) (post : PostDispatchInfo) (result : Bool) :
    (postDispatch s info post result).2 =
      if info.dispatchClass = .mandatory ∧ result = false then s
      else { s with blockWeight := s.blockWeight.sub (post.calcUnspent info) info.dispatchClass } := by
  unfold postDispatch
  dsimp only
  split_ifs with hbad hunspent
  · rfl
  · rfl
  · -- nothing unspent: the subtraction the source skips would change nothing
    have hzero : post.calcUnspent info = 0 := by omega
    simp [hzero, PerDispatchClass.sub]

theorem charge_le (weights : BlockWeights) (e : Extrinsic) :
    charge weights e ≤ e.info.weight + (weights.get e.info.dispatchClass).baseExtrinsic := by
  have hactual := e.post.calcActualWeight_le e.info
  unfold charge
  split_ifs <;> omega

section CheckWeight

variable {weights : BlockWeights} {length : BlockLength}

/-- One extrinsic charges its class `charge` if it passes its checks, and nothing to the other
classes, as long as the class's sum does not saturate: the class is limited and the extrinsic's
weight plus its base fits a `Weight`, or the sum fits. -/
theorem blockWeight_applyExtrinsic (c : DispatchClass) {e : Extrinsic} {s : State}
    (hfit : e.info.dispatchClass = c →
      (((weights.get c).maxTotal.isSome ∨ (weights.get c).reserved.isSome) ∧
          e.info.weight + (weights.get c).baseExtrinsic ≤ weightMax) ∨
        s.blockWeight.get c + (e.info.weight + (weights.get c).baseExtrinsic) ≤ weightMax) :
    (applyExtrinsic weights length s e).blockWeight.get c = s.blockWeight.get c +
      if e.Accepted weights length s ∧ e.info.dispatchClass = c then charge weights e else 0 := by
  by_cases hacc : e.Accepted weights length s
  swap
  · rw [applyExtrinsic_of_not_accepted hacc, if_neg (fun h => hacc h.1), Nat.add_zero]
  obtain ⟨nextLen, nextWeight, -, hweight, happly⟩ := applyExtrinsic_of_accepted hacc
  obtain ⟨hnext, hlimited, -, -⟩ := calculateConsumedWeight_ok hweight
  rw [happly, postDispatch_snd]
  by_cases hc : e.info.dispatchClass = c
  swap
  · -- another class: neither the add nor the refund touches `c`
    have hcharge : ¬(e.Accepted weights length s ∧ e.info.dispatchClass = c) := fun h => hc h.2
    rw [if_neg hcharge]
    split_ifs <;> simp [hnext, PerDispatchClass.sub, hc]
  subst hc
  -- the sum did not saturate, so the class's weight grew by the weight plus the base
  have hsum : s.blockWeight.get e.info.dispatchClass +
      (e.info.weight + (weights.get e.info.dispatchClass).baseExtrinsic) ≤ weightMax := by
    rcases hfit rfl with ⟨hlim, hw⟩ | hsum
    · simpa only [min_eq_left hw] using hlimited hlim
    · exact hsum
  have hget : nextWeight.get e.info.dispatchClass = s.blockWeight.get e.info.dispatchClass +
      (e.info.weight + (weights.get e.info.dispatchClass).baseExtrinsic) := by
    have hw : e.info.weight + (weights.get e.info.dispatchClass).baseExtrinsic ≤ weightMax := by
      omega
    rw [hnext, PerDispatchClass.get_set_self, min_eq_left hw, min_eq_left hsum]
  have hactual := e.post.calcUnspent_add_calcActualWeight e.info
  have hcharge : e.Accepted weights length s ∧ e.info.dispatchClass = e.info.dispatchClass :=
    ⟨hacc, rfl⟩
  rw [if_pos hcharge, charge]
  split_ifs
  · -- a failed mandatory dispatch: refused before the refund
    rw [hget]
    omega
  · simp only [PerDispatchClass.sub, PerDispatchClass.get_set_self, hget]
    omega

theorem allExtrinsicsLen_applyExtrinsic_le {e : Extrinsic} {s : State}
    (h : e.Accepted weights length s) :
    (applyExtrinsic weights length s e).allExtrinsicsLen ≤ length.max.get e.info.dispatchClass := by
  obtain ⟨nextLen, nextWeight, hlen, -, happly⟩ := applyExtrinsic_of_accepted h
  have hle := (checkBlockLength_ok hlen).2
  rw [happly, postDispatch_snd]
  split_ifs <;> exact hle

/-! ## A block -/

theorem run_of_lastAcceptedClass_none (exts : List Extrinsic) :
    ∀ s, lastAcceptedClass weights length s exts = none →
      run (applyExtrinsic weights length) s exts = s := by
  induction exts with
  | nil => exact fun _ _ => rfl
  | cons e rest ih =>
    intro s h
    rw [lastAcceptedClass, Option.or_eq_none_iff] at h
    obtain ⟨hrest, hfirst⟩ := h
    -- the first extrinsic was refused, so it left the state as it was
    have hacc : ¬e.Accepted weights length s := fun hacc => by
      rw [if_pos hacc] at hfirst
      cases hfirst
    rw [applyExtrinsic_of_not_accepted hacc] at hrest
    rw [run_cons, applyExtrinsic_of_not_accepted hacc]
    exact ih s hrest

theorem allExtrinsicsLen_run_le (exts : List Extrinsic) :
    ∀ s c, lastAcceptedClass weights length s exts = some c →
      (run (applyExtrinsic weights length) s exts).allExtrinsicsLen ≤ length.max.get c := by
  induction exts with
  | nil => exact fun _ _ h => by cases h
  | cons e rest ih =>
    intro s c h
    rw [lastAcceptedClass] at h
    rw [run_cons]
    cases hrest : lastAcceptedClass weights length (applyExtrinsic weights length s e) rest with
    | some last =>
      -- an extrinsic after the first passed its checks
      rw [hrest, Option.some_or] at h
      exact ih _ c (hrest.trans h)
    | none =>
      -- the first extrinsic is the last that passed its checks, and the rest wrote nothing
      rw [hrest, Option.none_or] at h
      by_cases hacc : e.Accepted weights length s
      · rw [if_pos hacc] at h
        cases h
        rw [run_of_lastAcceptedClass_none rest _ hrest]
        exact allExtrinsicsLen_applyExtrinsic_le hacc
      · rw [if_neg hacc] at h
        cases h

/-- The weight of class `c` over a block: its value at the start plus the `charge` of every
extrinsic of class `c` that passed its checks, while nothing saturates: the class is limited and
no extrinsic's weight plus base overflows a `Weight`, or the sum of all of them fits. -/
theorem blockWeight_run (c : DispatchClass) (exts : List Extrinsic) :
    ∀ s, (((weights.get c).maxTotal.isSome ∨ (weights.get c).reserved.isSome) ∧
        ∀ e ∈ exts, e.info.dispatchClass = c →
          e.info.weight + (weights.get c).baseExtrinsic ≤ weightMax) ∨
      s.blockWeight.get c + ((exts.filter fun e => e.info.dispatchClass = c).map
        fun e => e.info.weight + (weights.get c).baseExtrinsic).sum ≤ weightMax →
    (run (applyExtrinsic weights length) s exts).blockWeight.get c =
      s.blockWeight.get c + charged weights length c s exts := by
  induction exts with
  | nil => exact fun _ _ => rfl
  | cons e rest ih =>
    intro s hfit
    -- what the first extrinsic adds, by the step lemma, and at most its weight plus base
    have hstep := @blockWeight_applyExtrinsic weights length c e s (fun hc => by
      rcases hfit with ⟨hlim, hw⟩ | hsum
      · exact .inl ⟨hlim, hw e List.mem_cons_self hc⟩
      · refine .inr ?_
        simp only [List.filter_cons, hc, decide_true, if_true, List.map_cons,
          List.sum_cons] at hsum
        omega)
    have hcharge := charge_le weights e
    -- the rest of the block still does not saturate from the new state
    have hfit' : (((weights.get c).maxTotal.isSome ∨ (weights.get c).reserved.isSome) ∧
        ∀ e ∈ rest, e.info.dispatchClass = c →
          e.info.weight + (weights.get c).baseExtrinsic ≤ weightMax) ∨
        (applyExtrinsic weights length s e).blockWeight.get c +
          ((rest.filter fun e => e.info.dispatchClass = c).map
            fun e => e.info.weight + (weights.get c).baseExtrinsic).sum ≤ weightMax := by
      rcases hfit with ⟨hlim, hw⟩ | hsum
      · exact .inl ⟨hlim, fun e' he' => hw e' (List.mem_cons_of_mem _ he')⟩
      · refine .inr ?_
        rw [hstep]
        by_cases hc : e.info.dispatchClass = c
        · subst hc
          simp only [List.filter_cons, decide_true, if_true, List.map_cons, List.sum_cons] at hsum
          split_ifs <;> omega
        · simp only [List.filter_cons, hc, decide_false, Bool.false_eq_true, if_false] at hsum
          rw [if_neg (fun h => hc h.2)]
          omega
    rw [run_cons, ih _ hfit', hstep, charged]
    omega

end CheckWeight

/-- `CheckWeight` over a block, for any limits: a check that fails writes nothing; after one that
passes, the limits of the extrinsic's class hold; the length of the block is within the limit of
the class of the last extrinsic that passed; and while nothing saturates, each class's weight is
its start value plus the base and actual weight of each of its extrinsics that passed, or the
declared weight of a mandatory one whose dispatch failed. -/
theorem checkWeight_block_accounting (weights : BlockWeights) (length : BlockLength) :
    (∀ (e : Extrinsic) s, ¬e.Accepted weights length s → (e.preDispatch weights length s).2 = s) ∧
    (∀ (e : Extrinsic) s s', e.preDispatch weights length s = (.ok (), s') →
      (∀ max, (weights.get e.info.dispatchClass).maxTotal = some max →
          s'.blockWeight.get e.info.dispatchClass ≤ max) ∧
        (∀ max, (weights.get e.info.dispatchClass).maxExtrinsic = some max → e.info.weight ≤ max) ∧
        (s'.blockWeight.total ≤ weights.maxBlock ∨
          ∀ reserved, (weights.get e.info.dispatchClass).reserved = some reserved →
            s'.blockWeight.get e.info.dispatchClass ≤ reserved) ∧
        s'.allExtrinsicsLen ≤ length.max.get e.info.dispatchClass) ∧
    (∀ exts s c, lastAcceptedClass weights length s exts = some c →
      (run (applyExtrinsic weights length) s exts).allExtrinsicsLen ≤ length.max.get c) ∧
    (∀ c exts s, (((weights.get c).maxTotal.isSome ∨ (weights.get c).reserved.isSome) ∧
          ∀ e ∈ exts, e.info.dispatchClass = c →
            e.info.weight + (weights.get c).baseExtrinsic ≤ weightMax) ∨
        s.blockWeight.get c + ((exts.filter fun e => e.info.dispatchClass = c).map
          fun e => e.info.weight + (weights.get c).baseExtrinsic).sum ≤ weightMax →
      (run (applyExtrinsic weights length) s exts).blockWeight.get c =
        s.blockWeight.get c + charged weights length c s exts) := by
  refine ⟨fun e s h => Extrinsic.preDispatch_of_not_accepted h, ?_,
    fun exts => allExtrinsicsLen_run_le exts, fun c exts => blockWeight_run c exts⟩
  intro e s s' h
  obtain ⟨-, hmaxTotal, hmaxExtrinsic, hreserved, hlen⟩ := Extrinsic.preDispatch_ok h
  refine ⟨exceeds_eq_false_iff.mp hmaxTotal, exceeds_eq_false_iff.mp hmaxExtrinsic, ?_, hlen⟩
  exact hreserved.imp_right exceeds_eq_false_iff.mp

/-- Limits that `validate` accepts: `normal` has a base weight of one and a `reserved` pool as
large as a `Weight`, the other classes no limit. -/
def sampleWeights : BlockWeights :=
  ⟨0, 10, ⟨⟨1, none, none, some weightMax⟩, ⟨0, none, none, none⟩, ⟨0, none, none, none⟩⟩⟩

def sampleLength : BlockLength := ⟨⟨100, 100, 100⟩⟩

/-- The start of a block. -/
def emptyBlock : State := ⟨⟨0, 0, 0⟩, 0⟩

/-- An unsigned `normal` extrinsic of weight five that reports two. -/
def smallExtrinsic : Extrinsic := ⟨false, ⟨5, .normal, .yes⟩, 3, ⟨some 2, .yes⟩, true⟩

theorem checkWeight_block_accounting_small :
    (run (applyExtrinsic sampleWeights sampleLength) emptyBlock [smallExtrinsic]).blockWeight.get
      .normal = 3 :=
  ((checkWeight_block_accounting sampleWeights sampleLength).2.2.2 .normal [smallExtrinsic] emptyBlock
    (.inr (by decide))).trans (by decide)

/-- An unsigned `normal` extrinsic that declares the largest `Weight` and reports none. -/
def heaviestExtrinsic : Extrinsic := ⟨false, ⟨weightMax, .normal, .yes⟩, 0, ⟨some 0, .yes⟩, true⟩

/-- Without the no-saturation condition the accounting fails even for a limited class: the
base weight of the heaviest extrinsic is lost to the saturating add, and its refund takes the
class's weight back to zero, not to its base weight plus the weight it used. -/
theorem checkWeight_base_weight_lost :
    sampleWeights.validate = true ∧ (sampleWeights.get .normal).reserved.isSome = true ∧
      heaviestExtrinsic.Accepted sampleWeights sampleLength emptyBlock ∧
      (run (applyExtrinsic sampleWeights sampleLength) emptyBlock [heaviestExtrinsic]).blockWeight.get
        .normal = 0 ∧
      (sampleWeights.get .normal).baseExtrinsic +
        heaviestExtrinsic.post.calcActualWeight heaviestExtrinsic.info = 1 := by
  decide

end Tetcore.System
