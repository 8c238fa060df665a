import Mathlib
import Tetcore.Staking.Slashing
import Tetcore.Lib.Vec

/-!
# Slashing spans and the spans they encode

`fabric/staking/src/slashing.rs`, `SlashingSpans`. The record keeps the index and the start of the
ongoing span and only the lengths of the spans before it; `iter` rebuilds the spans, taking each
length off a running start. The reference is the list of spans itself: `end_span` gives the ongoing
span its length and opens the next, `prune` drops the prior spans that ended by the window and moves
the ongoing start up to it. For every record made by `new` and every sequence of calls, `iter` is
that list (`iter_run`).

Two facts carry it (`Fits`): the stored lengths never add up to more than the ongoing start, so no
start is cut at zero, and there are never more of them than the span index, so no index is. Neither
needs the calls in order: `now` and the window may go anywhere.
-/

namespace Tetcore.Staking

open StepMachine

/-- The calls on a record of slashing spans. -/
inductive SpansCall
  | endSpan (now : ℕ)
  | prune (windowStart : ℕ)
  deriving DecidableEq, Repr

/-- The test of `prune`: a prior span that ended by `windowStart`. -/
def SlashingSpan.endedBy (windowStart : ℕ) (span : SlashingSpan) : Bool :=
  span.length.elim false fun len => decide (span.start + len ≤ windowStart)

namespace SlashingSpans

/-- One call, its answer dropped. -/
def step (s : SlashingSpans) : SpansCall → SlashingSpans
  | .endSpan now => (s.endSpan now).2
  | .prune windowStart => (s.prune windowStart).2

/-- What keeps `iter` exact: the stored lengths fit below the ongoing start, and there are no
more of them than the span index. -/
structure Fits (s : SlashingSpans) : Prop where
  sum_le : s.prior.sum ≤ s.lastStart
  length_le : s.prior.length ≤ s.spanIndex

end SlashingSpans

/-! ## The reference: the spans themselves -/

namespace Spans

/-- `new`: the ongoing span alone. -/
def new (windowStart : ℕ) : List SlashingSpan := [⟨0, windowStart, none⟩]

/-- Ending the ongoing span after `now`: it gets its length, and the next one starts. -/
def endSpan (now : ℕ) : List SlashingSpan → Bool × List SlashingSpan
  | [] => (false, [])
  | ongoing :: prior =>
    if now + 1 ≤ ongoing.start then (false, ongoing :: prior)
    else
      (true, ⟨ongoing.index + 1, now + 1, none⟩ ::
        { ongoing with length := some (now + 1 - ongoing.start) } :: prior)

/-- Pruning at `windowStart`: the prior spans that ended by then go, and the ongoing one starts no
earlier. -/
def prune (windowStart : ℕ) : List SlashingSpan → List SlashingSpan
  | [] => []
  | ongoing :: prior =>
    { ongoing with start := max ongoing.start windowStart } ::
      prior.filter fun span => !span.endedBy windowStart

def step (spans : List SlashingSpan) : SpansCall → List SlashingSpan
  | .endSpan now => (endSpan now spans).2
  | .prune windowStart => prune windowStart spans

/-- Prior spans, most recent first, behind a span that starts at `start` with index `index`: each
ends where the one before it in the list starts, and has the index one less. -/
def Chained : ℕ → ℕ → List SlashingSpan → Prop
  | _, _, [] => True
  | start, index, span :: rest =>
    span.index + 1 = index ∧ (∃ len, span.length = some len ∧ span.start + len = start) ∧
      Chained span.start span.index rest

theorem Chained.end_le {start index : ℕ} {spans : List SlashingSpan}
    (h : Chained start index spans) {span : SlashingSpan} (hspan : span ∈ spans) :
    ∃ len, span.length = some len ∧ span.start + len ≤ start := by
  induction spans generalizing start index with
  | nil => cases hspan
  | cons first rest ih =>
    obtain ⟨-, ⟨len, hlen, hend⟩, hrest⟩ := h
    rcases List.mem_cons.mp hspan with rfl | hmem
    · exact ⟨len, hlen, hend.le⟩
    · obtain ⟨len', hlen', hend'⟩ := ih hrest hmem
      exact ⟨len', hlen', by omega⟩

theorem Chained.pairwise_endedBy {start index : ℕ} {spans : List SlashingSpan}
    (h : Chained start index spans) (windowStart : ℕ) :
    spans.Pairwise fun a b => a.endedBy windowStart → b.endedBy windowStart := by
  induction spans generalizing start index with
  | nil => exact List.Pairwise.nil
  | cons first rest ih =>
    obtain ⟨-, ⟨len, hlen, -⟩, hrest⟩ := h
    refine List.Pairwise.cons (fun span hspan hfirst => ?_) (ih hrest)
    obtain ⟨len', hlen', hend'⟩ := hrest.end_le hspan
    simp only [SlashingSpan.endedBy, hlen, hlen', Option.elim, decide_eq_true_eq] at hfirst ⊢
    omega

end Spans

namespace SlashingSpans

/-! ## `iter` -/

@[simp]
theorem length_priorSpans (prior : List ℕ) :
    ∀ lastStart index, (priorSpans lastStart index prior).length = prior.length := by
  induction prior with
  | nil => simp [priorSpans]
  | cons length prior ih => simp [priorSpans, ih]

theorem priorSpans_take (prior : List ℕ) :
    ∀ lastStart index o,
      priorSpans lastStart index (prior.take o) = (priorSpans lastStart index prior).take o := by
  induction prior with
  | nil => simp [priorSpans]
  | cons length prior ih =>
    intro lastStart index o
    cases o with
    | zero => simp [priorSpans]
    | succ o => simp [priorSpans, ih]

theorem index_getElem_priorSpans (prior : List ℕ) :
    ∀ lastStart index k (hk : k < (priorSpans lastStart index prior).length),
      (priorSpans lastStart index prior)[k].index = index - (k + 1) := by
  induction prior with
  | nil => simp [priorSpans]
  | cons length prior ih =>
    intro lastStart index k hk
    cases k with
    | zero => simp [priorSpans]
    | succ k =>
      simp only [priorSpans, List.getElem_cons_succ]
      rw [ih]
      omega

theorem chained_priorSpans (prior : List ℕ) :
    ∀ lastStart index, prior.sum ≤ lastStart → prior.length ≤ index →
      Spans.Chained lastStart index (priorSpans lastStart index prior) := by
  induction prior with
  | nil => simp [priorSpans, Spans.Chained]
  | cons length prior ih =>
    intro lastStart index hsum hlen
    simp only [List.sum_cons, List.length_cons] at hsum hlen
    simp only [priorSpans, Spans.Chained]
    refine ⟨by omega, ⟨length, rfl, by omega⟩, ih _ _ (by omega) (by omega)⟩

theorem iter_eq (s : SlashingSpans) :
    s.iter = ⟨s.spanIndex, s.lastStart, none⟩ :: priorSpans s.lastStart s.spanIndex s.prior := rfl

theorem Fits.chained {s : SlashingSpans} (hs : s.Fits) :
    Spans.Chained s.lastStart s.spanIndex s.iter.tail :=
  chained_priorSpans s.prior s.lastStart s.spanIndex hs.sum_le hs.length_le

theorem fits_new (windowStart : ℕ) : (new windowStart).Fits := ⟨Nat.zero_le _, le_rfl⟩

/-! ## `end_span` -/

theorem endSpan_fst (s : SlashingSpans) (now : ℕ) :
    (s.endSpan now).1 = decide (s.lastStart < now + 1) := by
  simp only [SlashingSpans.endSpan]
  split_ifs with h
  · simp [not_lt.mpr h]
  · simp [not_le.mp h]

theorem Fits.endSpan {s : SlashingSpans} (hs : s.Fits) (now : ℕ) : (s.endSpan now).2.Fits := by
  simp only [SlashingSpans.endSpan]
  split_ifs with h
  · exact hs
  · have := hs.sum_le
    have := hs.length_le
    constructor <;> simp only [List.sum_cons, List.length_cons] <;> omega

theorem iter_endSpan (s : SlashingSpans) (now : ℕ) :
    (s.endSpan now).2.iter = (Spans.endSpan now s.iter).2 := by
  unfold SlashingSpans.endSpan
  simp only [iter_eq, Spans.endSpan]
  split_ifs with h
  · rfl
  · have hstart : now + 1 - (now + 1 - s.lastStart) = s.lastStart := by omega
    simp [priorSpans, hstart]

/-! ## `prune` -/

theorem filter_priorSpans_prune {s : SlashingSpans} (hs : s.Fits) (windowStart : ℕ) :
    (s.iter.tail.filter fun span => !span.endedBy windowStart) =
      priorSpans s.lastStart s.spanIndex (s.prune windowStart).2.prior := by
  have hclosed := hs.chained.pairwise_endedBy windowStart
  unfold prune
  dsimp only
  split
  · next o ho =>
    rw [priorSpans_take]
    exact (Vec.take_eq_filter_of_findIdx?_eq_some hclosed ho).symm
  · next ho => exact Vec.filter_eq_self_of_findIdx?_eq_none ho

theorem lastStart_prune (s : SlashingSpans) (windowStart : ℕ) :
    (s.prune windowStart).2.lastStart = max s.lastStart windowStart := by
  unfold prune
  dsimp only
  split <;> rfl

theorem Fits.prune {s : SlashingSpans} (hs : s.Fits) (windowStart : ℕ) :
    (s.prune windowStart).2.Fits := by
  have hstart := lastStart_prune s windowStart
  have hindex := spanIndex_prune s windowStart
  rcases prune_cases s windowStart with ⟨-, hprior⟩ | ⟨o, hprior, -⟩
  · exact ⟨by rw [hprior, hstart]; exact hs.sum_le.trans (le_max_left _ _),
      by rw [hprior, hindex]; exact hs.length_le⟩
  · have hsum : (s.prior.take o).sum ≤ s.prior.sum :=
      (List.take_sublist o s.prior).sum_le_sum fun _ _ => Nat.zero_le _
    exact ⟨by rw [hprior, hstart]; exact (hsum.trans hs.sum_le).trans (le_max_left _ _),
      by rw [hprior, hindex]; exact (List.length_take_le' o s.prior).trans hs.length_le⟩

theorem iter_prune {s : SlashingSpans} (hs : s.Fits) (windowStart : ℕ) :
    (s.prune windowStart).2.iter = Spans.prune windowStart s.iter := by
  have hkept := filter_priorSpans_prune hs windowStart
  rw [iter_eq, iter_eq s, Spans.prune, lastStart_prune, spanIndex_prune]
  congr 1
  by_cases hle : windowStart ≤ s.lastStart
  · rw [max_eq_left hle, ← hkept]
    rfl
  · -- every prior span ends by the ongoing start, before the window
    have hall : (s.iter.tail.filter fun span => !span.endedBy windowStart) = [] := by
      refine List.filter_eq_nil_iff.mpr fun span hspan => ?_
      obtain ⟨len, hlen, hend⟩ := hs.chained.end_le hspan
      simp only [SlashingSpan.endedBy, hlen, Option.elim, Bool.not_eq_true', decide_eq_false_iff_not,
        not_not]
      omega
    have hnil : (s.prune windowStart).2.prior = [] := by
      rw [hall] at hkept
      exact List.length_eq_zero_iff.mp (by simpa using congrArg List.length hkept.symm)
    rw [hnil]
    exact hall.symm

theorem prune_fst_some {s : SlashingSpans} (hs : s.Fits) {windowStart a b : ℕ}
    (h : (s.prune windowStart).1 = some (a, b)) :
    a = s.earliest ∧ b = (s.prune windowStart).2.earliest ∧
      ∀ span ∈ s.iter.tail, span.endedBy windowStart = true ↔ a ≤ span.index ∧ span.index < b := by
  have hclosed : (priorSpans s.lastStart s.spanIndex s.prior).Pairwise
      fun a b => a.endedBy windowStart → b.endedBy windowStart :=
    hs.chained.pairwise_endedBy windowStart
  have hlen := hs.length_le
  unfold prune at h ⊢
  dsimp only at h ⊢
  split at h
  · next o ho =>
    change (priorSpans s.lastStart s.spanIndex s.prior).findIdx? (SlashingSpan.endedBy windowStart)
      = some o at ho
    obtain ⟨rfl, rfl⟩ := Prod.mk.inj (Option.some.inj h)
    have hlt : o < s.prior.length := by
      simpa using (List.findIdx?_eq_some_iff_getElem.mp ho).1
    refine ⟨rfl, rfl, fun span hspan => ?_⟩
    change span ∈ priorSpans s.lastStart s.spanIndex s.prior at hspan
    obtain ⟨k, hk, rfl⟩ := List.mem_iff_getElem.mp hspan
    have hk' : k < s.prior.length := by simpa using hk
    rw [Vec.getElem_iff_le_of_findIdx?_eq_some hclosed ho hk,
      index_getElem_priorSpans s.prior s.lastStart s.spanIndex k hk, List.length_take]
    omega
  · cases h

theorem prune_fst_none {s : SlashingSpans} {windowStart : ℕ}
    (h : (s.prune windowStart).1 = none) :
    ∀ span ∈ s.iter.tail, span.endedBy windowStart = false := by
  unfold prune at h
  dsimp only at h
  split at h
  · cases h
  · next ho =>
    intro span hspan
    exact List.findIdx?_eq_none_iff.mp ho span hspan

/-! ## Runs -/

theorem Fits.step {s : SlashingSpans} (hs : s.Fits) : ∀ call, (s.step call).Fits
  | .endSpan now => hs.endSpan now
  | .prune windowStart => hs.prune windowStart

theorem iter_step {s : SlashingSpans} (hs : s.Fits) :
    ∀ call, (s.step call).iter = Spans.step s.iter call
  | .endSpan now => iter_endSpan s now
  | .prune windowStart => iter_prune hs windowStart

theorem iter_run (windowStart : ℕ) (ops : List SpansCall) :
    (run step (new windowStart) ops).iter = run Spans.step (Spans.new windowStart) ops :=
  run_simulation step iter Spans.step (fun _ call hs => hs.step call)
    (fun _ call hs => iter_step hs call) ops (fits_new windowStart)

theorem fits_run (windowStart : ℕ) (ops : List SpansCall) : (run step (new windowStart) ops).Fits :=
  run_invariant step (fun _ call hs => hs.step call) ops (fits_new windowStart)

/-- For every record made by `new` and every sequence of calls: `iter` is the reference list, the
ongoing span first at `last_start`, then a chain of prior spans with consecutive indices ending
each where the next more recent starts, with no index or start cut at zero; `end_span` starts a
span exactly when `now + 1` is past the ongoing start; `prune` keeps exactly the prior spans that
did not end by the window and answers the range of the indices of those that did. -/
theorem slashingSpans_iter_refines :
    ∀ (w : ℕ) (ops : List SpansCall) (s : SlashingSpans), run step (new w) ops = s →
      s.iter = run Spans.step (Spans.new w) ops ∧
      s.iter.head? = some ⟨s.spanIndex, s.lastStart, none⟩ ∧
      Spans.Chained s.lastStart s.spanIndex s.iter.tail ∧
      s.iter.tail.length = s.prior.length ∧ s.prior.length ≤ s.spanIndex ∧
      s.prior.sum ≤ s.lastStart ∧
      (∀ now, (s.endSpan now).1 = decide (s.lastStart < now + 1)) ∧
      (∀ windowStart,
        (s.prune windowStart).2.iter.tail =
            s.iter.tail.filter (fun span => !span.endedBy windowStart) ∧
        ((s.prune windowStart).1 = none →
          ∀ span ∈ s.iter.tail, span.endedBy windowStart = false) ∧
        (∀ a b, (s.prune windowStart).1 = some (a, b) →
          a = s.earliest ∧ b = (s.prune windowStart).2.earliest ∧
          ∀ span ∈ s.iter.tail, span.endedBy windowStart = true ↔
            a ≤ span.index ∧ span.index < b)) := by
  rintro w ops s rfl
  have hs := fits_run w ops
  refine ⟨iter_run w ops, rfl, hs.chained, length_priorSpans _ _ _, hs.length_le, hs.sum_le,
    endSpan_fst _, fun windowStart => ⟨?_, prune_fst_none, fun a b h => prune_fst_some hs h⟩⟩
  rw [iter_prune hs windowStart]
  rfl

/-- Spans from era 3: ended after eras 5 and 8, then pruned at era 7, which drops the first. -/
theorem slashingSpans_iter_refines_three :
    run step (new 3) [.endSpan 5, .endSpan 8, .prune 7] = ⟨2, 9, 0, [3]⟩ ∧
      (⟨2, 9, 0, [3]⟩ : SlashingSpans).iter =
        run Spans.step (Spans.new 3) [.endSpan 5, .endSpan 8, .prune 7] :=
  have h : run step (new 3) [.endSpan 5, .endSpan 8, .prune 7] = ⟨2, 9, 0, [3]⟩ := by decide
  ⟨h, (slashingSpans_iter_refines 3 _ _ h).1⟩

end SlashingSpans

end Tetcore.Staking
