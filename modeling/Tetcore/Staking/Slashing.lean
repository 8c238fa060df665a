import Mathlib
import Tetcore.Lib.Run
import Tetcore.Arithmetic.PerThing

/-!
# Slashing spans

`fabric/staking/src/slashing.rs`. A stash's eras are cut into slashing spans. `SlashingSpans`
stores the index and start of the ongoing span and, most recent first, the lengths of the spans
before it; `iter` rebuilds the spans from these offsets. Each span has a record `SpanSlash` of
what was slashed in it and what was paid out for it. A slash for an era is compared with the
record of the span the era falls in: only a new maximum is applied, and only its difference, so a
staker pays for its largest offence in a span and not for their sum.

The spans are handled through `InspectingSpans`, fetched at a window start: reports
(`compare_and_update_span_slash`) and `end_span` act on it, and its drop prunes the spans that
ended before the window and writes them back, only when something changed.

The record of a span follows the reports that were attributed to it when they were made. The
lookup does not follow the window: spans are pruned only on a drop that writes, a span that
straddles the window start is kept, and the ongoing span's start moves up to the window after its
reports were counted.
-/

namespace Tetcore.Staking

open Tetcore.Arithmetic

/-- `SlashingSpan`: a span of eras; the ongoing span has no length. -/
structure SlashingSpan where
  index : ℕ
  start : ℕ
  length : Option ℕ
  deriving DecidableEq, Repr

/-- `SlashingSpan::contains_era`. -/
def SlashingSpan.containsEra (span : SlashingSpan) (era : ℕ) : Bool :=
  decide (span.start ≤ era) && span.length.elim true fun l => decide (era < span.start + l)

/-- `SlashingSpans`: the prior spans are stored by their lengths, most recent first. -/
structure SlashingSpans where
  spanIndex : ℕ
  lastStart : ℕ
  lastNonzeroSlash : ℕ
  prior : List ℕ
  deriving DecidableEq, Repr

namespace SlashingSpans

/-- `SlashingSpans::new`. -/
def new (windowStart : ℕ) : SlashingSpans := ⟨0, windowStart, 0, []⟩

/-- `SlashingSpans::end_span`: start a new span at the era after `now`; `false` when the state is
unchanged. -/
def endSpan (s : SlashingSpans) (now : ℕ) : Bool × SlashingSpans :=
  let nextStart := now + 1
  if nextStart ≤ s.lastStart then (false, s)
  else
    let lastLength := nextStart - s.lastStart
    (true, { s with
      prior := lastLength :: s.prior
      lastStart := nextStart
      spanIndex := s.spanIndex + 1 })

/-- The `prior` part of `SlashingSpans::iter`: each length is taken off the running start, and
the index counts down. -/
def priorSpans : ℕ → ℕ → List ℕ → List SlashingSpan
  | _, _, [] => []
  | lastStart, index, length :: prior =>
    let start := lastStart - length
    ⟨index - 1, start, some length⟩ :: priorSpans start (index - 1) prior

/-- `SlashingSpans::iter`: the spans, most recent first. -/
def iter (s : SlashingSpans) : List SlashingSpan :=
  ⟨s.spanIndex, s.lastStart, none⟩ :: priorSpans s.lastStart s.spanIndex s.prior

/-- `SlashingSpans::prune`: drop the prior spans that ended by `windowStart`, returning the range
of their indices, and move the ongoing span's start up to the window. -/
def prune (s : SlashingSpans) (windowStart : ℕ) : Option (ℕ × ℕ) × SlashingSpans :=
  let oldIdx := (s.iter.drop 1).findIdx? fun span =>
    span.length.elim false fun len => decide (span.start + len ≤ windowStart)
  let earliestSpanIndex := s.spanIndex - s.prior.length
  match oldIdx with
  | some o =>
    let prior := s.prior.take o
    (some (earliestSpanIndex, s.spanIndex - prior.length),
      { s with prior, lastStart := max s.lastStart windowStart })
  | none => (none, { s with lastStart := max s.lastStart windowStart })

/-- The index of the oldest span kept. -/
def earliest (s : SlashingSpans) : ℕ := s.spanIndex - s.prior.length

end SlashingSpans

/-- `SpanRecord`; an absent record reads as zero. -/
structure SpanRecord where
  slashed : ℕ
  paidOut : ℕ
  deriving DecidableEq, Repr

/-- The storage of one stash: `SlashingSpans` and `SpanSlash`. -/
structure SpanStore where
  slashingSpans : Option SlashingSpans
  spanSlash : ℕ → SpanRecord

/-- A stash with no slashing metadata. -/
def SpanStore.empty : SpanStore := ⟨none, fun _ => ⟨0, 0⟩⟩

/-- The index of the oldest span kept, `0` before the spans are created: the indices below it
are those pruned. -/
def SpanStore.earliest (store : SpanStore) : ℕ :=
  (store.slashingSpans.map SlashingSpans.earliest).getD 0

/-- `REWARD_F1`, `Perbill::from_percent(50)`, in parts. -/
def rewardF1 : ℕ := 500000000

/-- `InspectingSpans`, with the values of its two accumulators `paid_out` and `slash_of`. -/
structure InspectingSpans where
  dirty : Bool
  windowStart : ℕ
  spans : SlashingSpans
  paidOut : ℕ
  slashOf : ℕ
  rewardProportion : ℕ

/-- `fetch_spans`: the stash's spans, created at the window start when it has none. -/
def fetchSpans (store : SpanStore) (windowStart paidOut slashOf rewardProportion : ℕ) :
    SpanStore × InspectingSpans :=
  match store.slashingSpans with
  | some spans => (store, ⟨false, windowStart, spans, paidOut, slashOf, rewardProportion⟩)
  | none =>
    let spans := SlashingSpans.new windowStart
    ({ store with slashingSpans := some spans },
      ⟨false, windowStart, spans, paidOut, slashOf, rewardProportion⟩)

/-- What `compare_and_update_span_slash` makes of a span's record: the record, the difference
passed to `add_slash` (none when the report is not a new maximum) and the reward. -/
structure SpanUpdate where
  record : SpanRecord
  difference : Option ℕ
  reward : ℕ

/-- The three branches of `compare_and_update_span_slash` on the record of the span. -/
def updateSpanRecord (rewardProportion : ℕ) (record : SpanRecord) (slash : ℕ) : SpanUpdate :=
  if record.slashed < slash then
    -- new maximum span slash: apply the difference
    let difference := slash - record.slashed
    let record := { record with slashed := slash }
    let reward := PerThing.perbill.mul rewardF1
      (PerThing.perbill.mul rewardProportion slash - record.paidOut)
    ⟨record, some difference, reward⟩
  else if record.slashed = slash then
    ⟨record, none, PerThing.perbill.mul rewardF1
      (PerThing.perbill.mul rewardProportion slash - record.paidOut)⟩
  else ⟨record, none, 0⟩

namespace InspectingSpans

/-- `InspectingSpans::end_span`. -/
def endSpan (insp : InspectingSpans) (now : ℕ) : InspectingSpans :=
  let r := insp.spans.endSpan now
  { insp with spans := r.2, dirty := r.1 || insp.dirty }

/-- `InspectingSpans::add_slash`. -/
def addSlash (insp : InspectingSpans) (amount slashEra : ℕ) : InspectingSpans :=
  { insp with
    slashOf := insp.slashOf + amount
    spans := { insp.spans with lastNonzeroSlash := max insp.spans.lastNonzeroSlash slashEra } }

/-- `InspectingSpans::era_span`. -/
def eraSpan (insp : InspectingSpans) (era : ℕ) : Option SlashingSpan :=
  insp.spans.iter.find? (·.containsEra era)

/-- `InspectingSpans::compare_and_update_span_slash`: returns the storage, the spans and the
index of the span of the era, if any. -/
def compareAndUpdateSpanSlash (insp : InspectingSpans) (store : SpanStore) (slashEra slash : ℕ) :
    SpanStore × InspectingSpans × Option ℕ :=
  match insp.eraSpan slashEra with
  | none => (store, insp, none)
  | some targetSpan =>
    let u := updateSpanRecord insp.rewardProportion (store.spanSlash targetSpan.index) slash
    let insp := match u.difference with
      | some difference => insp.addSlash difference slashEra
      | none => insp
    let changed := u.difference.isSome || u.reward != 0
    -- a zero reward adds nothing to the record or to `paid_out`
    let record := { u.record with paidOut := u.record.paidOut + u.reward }
    let insp := { insp with paidOut := insp.paidOut + u.reward }
    if changed then
      ({ store with spanSlash := Function.update store.spanSlash targetSpan.index record },
        { insp with dirty := true }, some targetSpan.index)
    else (store, insp, some targetSpan.index)

/-- `Drop for InspectingSpans`: only when something changed, prune the spans against the window,
remove the records of the pruned spans and write the spans back. -/
def drop (insp : InspectingSpans) (store : SpanStore) : SpanStore :=
  if insp.dirty then
    let r := insp.spans.prune insp.windowStart
    let spanSlash := match r.1 with
      | some (start, stop) => fun k => if start ≤ k ∧ k < stop then ⟨0, 0⟩ else store.spanSlash k
      | none => store.spanSlash
    ⟨some r.2, spanSlash⟩
  else store

end InspectingSpans

/-! ## Sessions over the spans -/

/-- The calls on fetched spans. -/
inductive SpanCall
  | compareAndUpdateSpanSlash (slashEra slash : ℕ)
  | endSpan (now : ℕ)
  deriving DecidableEq, Repr

/-- The spans fetched at `windowStart`, the calls on them, then the drop. `compute_slash` makes one
report and ends the current span when the report lands in it; a session here is any sequence of
the two calls, so it also covers sessions with no `end_span` after a current-span report, which
`compute_slash` never makes. -/
structure SpanSession where
  windowStart : ℕ
  calls : List SpanCall
  deriving DecidableEq, Repr

/-- A report as it was handled: its era and slash, the span index the lookup gave, and the amount
`add_slash` added to the stash's slash for it. -/
structure SpanReport where
  slashEra : ℕ
  slash : ℕ
  target : Option ℕ
  difference : ℕ
  deriving DecidableEq, Repr

/-- The storage, the fetched spans and the reports of a session so far. -/
structure SessionState where
  store : SpanStore
  spans : InspectingSpans
  log : List SpanReport

/-- One call of a session. -/
def sessionStep (st : SessionState) : SpanCall → SessionState
  | .compareAndUpdateSpanSlash slashEra slash =>
    let r := st.spans.compareAndUpdateSpanSlash st.store slashEra slash
    ⟨r.1, r.2.1, st.log ++ [⟨slashEra, slash, r.2.2, r.2.1.slashOf - st.spans.slashOf⟩]⟩
  | .endSpan now => { st with spans := st.spans.endSpan now }

/-- A session from the storage and the reports so far: fetch, the calls, drop. -/
def runSession (rewardProportion : ℕ) (acc : SpanStore × List SpanReport)
    (session : SpanSession) : SpanStore × List SpanReport :=
  let f := fetchSpans acc.1 session.windowStart 0 0 rewardProportion
  let st := session.calls.foldl sessionStep ⟨f.1, f.2, acc.2⟩
  (st.spans.drop st.store, st.log)

/-- Sessions from a stash with no slashing metadata. -/
def runSpans (rewardProportion : ℕ) (sessions : List SpanSession) : SpanStore × List SpanReport :=
  StepMachine.run (runSession rewardProportion) (SpanStore.empty, []) sessions

/-- The reports the lookup attributed to span `k`. -/
def reportsFor (log : List SpanReport) (k : ℕ) : List SpanReport :=
  log.filter fun r => r.target = some k

/-- The largest slash reported against span `k`. -/
def maxReported (log : List SpanReport) (k : ℕ) : ℕ :=
  (reportsFor log k).foldl (fun m r => max m r.slash) 0

/-- What `add_slash` added for the reports against span `k`. -/
def sumDifferences (log : List SpanReport) (k : ℕ) : ℕ :=
  ((reportsFor log k).map (·.difference)).sum

/-! ## The spans -/

namespace SlashingSpans

theorem index_priorSpans (prior : List ℕ) :
    ∀ (lastStart index : ℕ), prior.length ≤ index →
      ∀ span ∈ priorSpans lastStart index prior, index - prior.length ≤ span.index := by
  induction prior with
  | nil => simp [priorSpans]
  | cons length prior ih =>
    intro lastStart index hlen span hspan
    simp only [List.length_cons] at hlen ⊢
    rcases List.mem_cons.mp hspan with rfl | hspan
    · dsimp only
      omega
    · have hrest := ih (lastStart - length) (index - 1) (by omega) span hspan
      omega

theorem earliest_le_of_mem_iter {s : SlashingSpans} (hwf : s.prior.length ≤ s.spanIndex)
    {span : SlashingSpan} (hspan : span ∈ s.iter) : s.earliest ≤ span.index := by
  rcases List.mem_cons.mp hspan with rfl | hprior
  · exact Nat.sub_le _ _
  · exact index_priorSpans s.prior s.lastStart s.spanIndex hwf span hprior

theorem earliest_endSpan (s : SlashingSpans) (now : ℕ) : (s.endSpan now).2.earliest = s.earliest := by
  unfold endSpan
  dsimp only
  split_ifs
  · rfl
  · simp only [earliest, List.length_cons]
    omega

theorem wf_endSpan {s : SlashingSpans} (hwf : s.prior.length ≤ s.spanIndex) (now : ℕ) :
    (s.endSpan now).2.prior.length ≤ (s.endSpan now).2.spanIndex := by
  unfold endSpan
  dsimp only
  split_ifs
  · exact hwf
  · simp only [List.length_cons]
    omega

theorem prune_cases (s : SlashingSpans) (windowStart : ℕ) :
    ((s.prune windowStart).1 = none ∧ (s.prune windowStart).2.prior = s.prior) ∨
      ∃ o, (s.prune windowStart).2.prior = s.prior.take o ∧
        (s.prune windowStart).1 = some (s.earliest, (s.prune windowStart).2.earliest) := by
  unfold prune
  dsimp only
  split
  · exact .inr ⟨_, rfl, rfl⟩
  · exact .inl ⟨rfl, rfl⟩

theorem spanIndex_prune (s : SlashingSpans) (windowStart : ℕ) :
    (s.prune windowStart).2.spanIndex = s.spanIndex := by
  unfold prune
  dsimp only
  split <;> rfl

theorem earliest_le_prune {s : SlashingSpans} (windowStart : ℕ) :
    s.earliest ≤ (s.prune windowStart).2.earliest := by
  have hindex := spanIndex_prune s windowStart
  rcases prune_cases s windowStart with ⟨-, hprior⟩ | ⟨o, hprior, -⟩
  · simp only [earliest, hindex, hprior, le_refl]
  · have htake := List.length_take_le' o s.prior
    simp only [earliest, hindex, hprior]
    omega

theorem wf_prune {s : SlashingSpans} (hwf : s.prior.length ≤ s.spanIndex) (windowStart : ℕ) :
    (s.prune windowStart).2.prior.length ≤ (s.prune windowStart).2.spanIndex := by
  rw [spanIndex_prune]
  rcases prune_cases s windowStart with ⟨-, hprior⟩ | ⟨o, hprior, -⟩ <;> rw [hprior]
  · exact hwf
  · exact (List.length_take_le' o s.prior).trans hwf

end SlashingSpans

/-! ## The records of the spans -/

section Records

variable (rp : ℕ)

theorem slashed_updateSpanRecord (record : SpanRecord) (slash : ℕ) :
    (updateSpanRecord rp record slash).record.slashed = max record.slashed slash := by
  unfold updateSpanRecord
  split_ifs <;> dsimp only <;> omega

theorem paidOut_updateSpanRecord (record : SpanRecord) (slash : ℕ) :
    (updateSpanRecord rp record slash).record.paidOut = record.paidOut := by
  unfold updateSpanRecord
  split_ifs <;> rfl

theorem difference_updateSpanRecord (record : SpanRecord) (slash : ℕ) :
    (updateSpanRecord rp record slash).difference.getD 0 = slash - record.slashed := by
  unfold updateSpanRecord
  split_ifs <;> dsimp only [Option.getD_some, Option.getD_none] <;> omega

theorem paidOut_add_reward_le {record : SpanRecord}
    (hpaid : record.paidOut ≤ PerThing.perbill.mul rp record.slashed) (slash : ℕ) :
    record.paidOut + (updateSpanRecord rp record slash).reward ≤
      PerThing.perbill.mul rp (max record.slashed slash) := by
  have hF1 : rewardF1 ≤ PerThing.perbill.accuracy := by decide
  unfold updateSpanRecord
  split_ifs with hlt heq
  · -- a new maximum raises the proportion that bounds the payout
    have hmono := PerThing.perbill.mul_le_mul_right rp hlt.le
    have hhalf := PerThing.perbill.mul_le_self hF1
      (PerThing.perbill.mul rp slash - record.paidOut)
    rw [max_eq_right hlt.le]
    dsimp only
    omega
  · have hhalf := PerThing.perbill.mul_le_self hF1
      (PerThing.perbill.mul rp slash - record.paidOut)
    rw [← heq, max_self] at *
    dsimp only
    omega
  · dsimp only
    rw [max_eq_left (by omega)]
    omega

end Records

/-! ## The reports against a span -/

theorem reportsFor_append_singleton (log : List SpanReport) (r : SpanReport) (k : ℕ) :
    reportsFor (log ++ [r]) k =
      if r.target = some k then reportsFor log k ++ [r] else reportsFor log k := by
  unfold reportsFor
  split_ifs with h <;> simp [List.filter_append, h]

theorem maxReported_append_singleton (log : List SpanReport) (r : SpanReport) (k : ℕ) :
    maxReported (log ++ [r]) k =
      if r.target = some k then max (maxReported log k) r.slash else maxReported log k := by
  unfold maxReported
  rw [reportsFor_append_singleton]
  split_ifs <;> simp

theorem sumDifferences_append_singleton (log : List SpanReport) (r : SpanReport) (k : ℕ) :
    sumDifferences (log ++ [r]) k =
      if r.target = some k then sumDifferences log k + r.difference else sumDifferences log k := by
  unfold sumDifferences
  rw [reportsFor_append_singleton]
  split_ifs <;> simp

/-! ## A report and a session -/

namespace InspectingSpans

variable {insp : InspectingSpans} {store : SpanStore} {slashEra : ℕ}

theorem compareAndUpdateSpanSlash_of_eraSpan_none (h : insp.eraSpan slashEra = none) (slash : ℕ) :
    insp.compareAndUpdateSpanSlash store slashEra slash = (store, insp, none) := by
  unfold compareAndUpdateSpanSlash
  rw [h]

theorem compareAndUpdateSpanSlash_of_eraSpan_some {span : SlashingSpan}
    (h : insp.eraSpan slashEra = some span) (slash : ℕ) :
    (insp.compareAndUpdateSpanSlash store slashEra slash).1 =
        { store with spanSlash := (Function.update store.spanSlash span.index
          ⟨max (store.spanSlash span.index).slashed slash, (store.spanSlash span.index).paidOut +
            (updateSpanRecord insp.rewardProportion (store.spanSlash span.index) slash).reward⟩) } ∧
      (insp.compareAndUpdateSpanSlash store slashEra slash).2.1.slashOf =
        insp.slashOf + (slash - (store.spanSlash span.index).slashed) ∧
      (insp.compareAndUpdateSpanSlash store slashEra slash).2.1.spans.spanIndex =
        insp.spans.spanIndex ∧
      (insp.compareAndUpdateSpanSlash store slashEra slash).2.1.spans.prior = insp.spans.prior ∧
      (insp.compareAndUpdateSpanSlash store slashEra slash).2.1.rewardProportion =
        insp.rewardProportion ∧
      (insp.compareAndUpdateSpanSlash store slashEra slash).2.2 = some span.index := by
  have hslashed := slashed_updateSpanRecord insp.rewardProportion (store.spanSlash span.index) slash
  have hpaid := paidOut_updateSpanRecord insp.rewardProportion (store.spanSlash span.index) slash
  have hdiff := difference_updateSpanRecord insp.rewardProportion (store.spanSlash span.index) slash
  unfold compareAndUpdateSpanSlash
  rw [h]
  dsimp only
  generalize updateSpanRecord insp.rewardProportion (store.spanSlash span.index) slash = u
    at hslashed hpaid hdiff ⊢
  obtain ⟨⟨slashed, paidOut⟩, difference, reward⟩ := u
  dsimp only at hslashed hpaid hdiff ⊢
  subst hslashed hpaid
  cases difference with
  | some d =>
    simp only [Option.getD_some] at hdiff
    simp [addSlash, hdiff]
  | none =>
    simp only [Option.getD_none] at hdiff
    by_cases hreward : reward = 0
    · -- nothing changed: the record written would be the record there
      have hle : slash ≤ (store.spanSlash span.index).slashed := by omega
      have hrecord : (⟨max (store.spanSlash span.index).slashed slash,
          (store.spanSlash span.index).paidOut + reward⟩ : SpanRecord) =
          store.spanSlash span.index := by
        rw [hreward, max_eq_left hle]
        rfl
      rw [hrecord, Function.update_eq_self]
      simp [hreward]
      omega
    · simp [hreward]
      omega

end InspectingSpans

/-! ## The records follow the reports -/

/-- Every span kept has as its record the largest slash reported against it, and the stash was
slashed for it by exactly that; every payout is within the reward proportion of its span's slash;
and a report that no span took applied no slash. -/
structure RecordsFollow (rp earliest : ℕ) (spanSlash : ℕ → SpanRecord) (log : List SpanReport) :
    Prop where
  slashed_eq : ∀ k, earliest ≤ k → (spanSlash k).slashed = maxReported log k
  sum_eq : ∀ k, earliest ≤ k → sumDifferences log k = (spanSlash k).slashed
  paidOut_le : ∀ k, (spanSlash k).paidOut ≤ PerThing.perbill.mul rp (spanSlash k).slashed
  unattributed : ∀ r ∈ log, r.target = none → r.difference = 0

/-- The invariant of the stored spans and records between sessions. -/
structure StoreInvariant (rp : ℕ) (acc : SpanStore × List SpanReport) : Prop where
  spans_wf : ∀ spans ∈ acc.1.slashingSpans, spans.prior.length ≤ spans.spanIndex
  records : RecordsFollow rp acc.1.earliest acc.1.spanSlash acc.2

/-- The invariant during a session: the fetched spans keep the stored spans' oldest index until
the drop. -/
structure SessionInvariant (rp : ℕ) (st : SessionState) : Prop where
  stored : ∃ spans, st.store.slashingSpans = some spans ∧
    spans.earliest = st.spans.spans.earliest ∧ spans.prior.length ≤ spans.spanIndex
  spans_wf : st.spans.spans.prior.length ≤ st.spans.spans.spanIndex
  rewardProportion : st.spans.rewardProportion = rp
  records : RecordsFollow rp st.spans.spans.earliest st.store.spanSlash st.log

section Follow

variable {rp earliest : ℕ} {spanSlash : ℕ → SpanRecord} {log : List SpanReport}

theorem RecordsFollow.append_unattributed (h : RecordsFollow rp earliest spanSlash log)
    {r : SpanReport} (htarget : r.target = none) (hdifference : r.difference = 0) :
    RecordsFollow rp earliest spanSlash (log ++ [r]) where
  slashed_eq k hk := by
    rw [maxReported_append_singleton, htarget, if_neg (by simp)]
    exact h.slashed_eq k hk
  sum_eq k hk := by
    rw [sumDifferences_append_singleton, htarget, if_neg (by simp)]
    exact h.sum_eq k hk
  paidOut_le := h.paidOut_le
  unattributed r' hr' := by
    rcases List.mem_append.mp hr' with hr' | hr'
    · exact h.unattributed r' hr'
    · rw [List.mem_singleton.mp hr']
      exact fun _ => hdifference

theorem RecordsFollow.report (h : RecordsFollow rp earliest spanSlash log) {j : ℕ}
    (hj : earliest ≤ j) (slashEra slash reward : ℕ)
    (hreward : (spanSlash j).paidOut + reward ≤
      PerThing.perbill.mul rp (max (spanSlash j).slashed slash)) :
    RecordsFollow rp earliest
      (Function.update spanSlash j ⟨max (spanSlash j).slashed slash, (spanSlash j).paidOut + reward⟩)
      (log ++ [⟨slashEra, slash, some j, slash - (spanSlash j).slashed⟩]) where
  slashed_eq k hk := by
    rw [maxReported_append_singleton]
    by_cases hkj : k = j
    · subst hkj
      rw [Function.update_self, if_pos rfl, ← h.slashed_eq k hk]
    · rw [Function.update_of_ne hkj, if_neg (by simpa using Ne.symm hkj)]
      exact h.slashed_eq k hk
  sum_eq k hk := by
    rw [sumDifferences_append_singleton]
    by_cases hkj : k = j
    · subst hkj
      have hsum := h.sum_eq k hk
      rw [Function.update_self, if_pos rfl, hsum]
      dsimp only
      omega
    · rw [Function.update_of_ne hkj, if_neg (by simpa using Ne.symm hkj)]
      exact h.sum_eq k hk
  paidOut_le k := by
    by_cases hkj : k = j
    · subst hkj
      rw [Function.update_self]
      exact hreward
    · rw [Function.update_of_ne hkj]
      exact h.paidOut_le k
  unattributed r hr := by
    rcases List.mem_append.mp hr with hr | hr
    · exact h.unattributed r hr
    · rw [List.mem_singleton.mp hr]
      simp

end Follow

theorem storeInvariant_empty (rp : ℕ) : StoreInvariant rp (SpanStore.empty, []) where
  spans_wf := by simp [SpanStore.empty]
  records := ⟨fun _ _ => rfl, fun _ _ => rfl, fun _ => Nat.zero_le _, by simp⟩

section Session

variable {rp : ℕ}

theorem sessionInvariant_fetchSpans {acc : SpanStore × List SpanReport}
    (h : StoreInvariant rp acc) (windowStart : ℕ) :
    SessionInvariant rp ⟨(fetchSpans acc.1 windowStart 0 0 rp).1,
      (fetchSpans acc.1 windowStart 0 0 rp).2, acc.2⟩ := by
  obtain ⟨hwf, hrecords⟩ := h
  unfold fetchSpans
  cases hspans : acc.1.slashingSpans with
  | none =>
    -- the spans are created with index `0`, as `SpanStore.earliest` reads a store without them
    refine ⟨⟨_, rfl, rfl, le_refl _⟩, le_refl _, rfl, ?_⟩
    simpa [SpanStore.earliest, hspans, SlashingSpans.earliest, SlashingSpans.new] using hrecords
  | some spans =>
    refine ⟨⟨spans, hspans, rfl, hwf spans hspans⟩, hwf spans hspans, rfl, ?_⟩
    simpa [SpanStore.earliest, hspans] using hrecords

theorem sessionInvariant_report_none {st : SessionState} (h : SessionInvariant rp st)
    {slashEra : ℕ} (hspan : st.spans.eraSpan slashEra = none) (slash : ℕ) :
    SessionInvariant rp (sessionStep st (.compareAndUpdateSpanSlash slashEra slash)) := by
  simp only [sessionStep, InspectingSpans.compareAndUpdateSpanSlash_of_eraSpan_none hspan]
  exact ⟨h.stored, h.spans_wf, h.rewardProportion,
    h.records.append_unattributed rfl (Nat.sub_self _)⟩

theorem sessionInvariant_report_some {st : SessionState} (h : SessionInvariant rp st)
    {slashEra : ℕ} {span : SlashingSpan} (hspan : st.spans.eraSpan slashEra = some span)
    (slash : ℕ) :
    SessionInvariant rp (sessionStep st (.compareAndUpdateSpanSlash slashEra slash)) := by
  obtain ⟨hstore, hslashOf, hindex, hprior, hrp, htarget⟩ :=
    @InspectingSpans.compareAndUpdateSpanSlash_of_eraSpan_some st.spans st.store slashEra span hspan
      slash
  -- the lookup only finds kept spans
  have hj : st.spans.spans.earliest ≤ span.index :=
    SlashingSpans.earliest_le_of_mem_iter h.spans_wf (List.mem_of_find?_eq_some hspan)
  have hreward := paidOut_add_reward_le st.spans.rewardProportion
    (h.rewardProportion ▸ h.records.paidOut_le span.index) slash
  have hearliest : (st.spans.compareAndUpdateSpanSlash st.store slashEra slash).2.1.spans.earliest =
      st.spans.spans.earliest := by
    simp only [SlashingSpans.earliest, hindex, hprior]
  simp only [sessionStep]
  rw [hstore, htarget, hslashOf]
  refine ⟨?_, ?_, hrp.trans h.rewardProportion, ?_⟩
  · simpa [hearliest] using h.stored
  · rw [hindex, hprior]
    exact h.spans_wf
  · rw [hearliest, show st.spans.slashOf + (slash - (st.store.spanSlash span.index).slashed) -
      st.spans.slashOf = slash - (st.store.spanSlash span.index).slashed by omega]
    exact h.records.report hj slashEra slash _ (h.rewardProportion ▸ hreward)

theorem sessionInvariant_endSpan {st : SessionState} (h : SessionInvariant rp st) (now : ℕ) :
    SessionInvariant rp (sessionStep st (.endSpan now)) := by
  have hearliest := SlashingSpans.earliest_endSpan st.spans.spans now
  refine ⟨?_, SlashingSpans.wf_endSpan h.spans_wf now, h.rewardProportion, ?_⟩
  · simpa [sessionStep, InspectingSpans.endSpan, hearliest] using h.stored
  · simpa [sessionStep, InspectingSpans.endSpan, hearliest] using h.records

theorem sessionInvariant_sessionStep {st : SessionState} (h : SessionInvariant rp st)
    (call : SpanCall) : SessionInvariant rp (sessionStep st call) := by
  cases call with
  | compareAndUpdateSpanSlash slashEra slash =>
    cases hspan : st.spans.eraSpan slashEra with
    | none => exact sessionInvariant_report_none h hspan slash
    | some span => exact sessionInvariant_report_some h hspan slash
  | endSpan now => exact sessionInvariant_endSpan h now

theorem storeInvariant_drop {st : SessionState} (h : SessionInvariant rp st) :
    StoreInvariant rp (st.spans.drop st.store, st.log) := by
  obtain ⟨⟨spans, hspans, hearliest, hwf⟩, hwf', -, hrecords⟩ := h
  unfold InspectingSpans.drop
  split_ifs with hdirty
  · -- the records of the spans kept are those of the spans from the new oldest index on
    have hle := SlashingSpans.earliest_le_prune (s := st.spans.spans) st.spans.windowStart
    refine ⟨by simpa using SlashingSpans.wf_prune hwf' st.spans.windowStart, ?_⟩
    dsimp only
    rcases SlashingSpans.prune_cases st.spans.spans st.spans.windowStart with
      ⟨hnone, -⟩ | ⟨o, -, hrange⟩
    · rw [hnone]
      simp only [SpanStore.earliest, Option.map_some, Option.getD_some]
      exact ⟨fun k hk => hrecords.slashed_eq k (hle.trans hk),
        fun k hk => hrecords.sum_eq k (hle.trans hk), hrecords.paidOut_le, hrecords.unattributed⟩
    · rw [hrange]
      simp only [SpanStore.earliest, Option.map_some, Option.getD_some]
      refine ⟨fun k hk => ?_, fun k hk => ?_, fun k => ?_, hrecords.unattributed⟩
      · rw [if_neg (by omega)]
        exact hrecords.slashed_eq k (hle.trans hk)
      · rw [if_neg (by omega)]
        exact hrecords.sum_eq k (hle.trans hk)
      · split_ifs
        · exact Nat.zero_le _
        · exact hrecords.paidOut_le k
  · refine ⟨by simpa [hspans] using hwf, ?_⟩
    simpa [SpanStore.earliest, hspans, hearliest] using hrecords

theorem storeInvariant_runSession {acc : SpanStore × List SpanReport} (h : StoreInvariant rp acc)
    (session : SpanSession) : StoreInvariant rp (runSession rp acc session) := by
  have hstep : ∀ st call, SessionInvariant rp st → SessionInvariant rp (sessionStep st call) :=
    fun _ call hst => sessionInvariant_sessionStep hst call
  exact storeInvariant_drop
    (StepMachine.run_invariant sessionStep hstep session.calls
      (sessionInvariant_fetchSpans h session.windowStart))

end Session

theorem storeInvariant_runSpans (rp : ℕ) (sessions : List SpanSession) :
    StoreInvariant rp (runSpans rp sessions) := by
  have hstep : ∀ acc session, StoreInvariant rp acc → StoreInvariant rp (runSession rp acc session) :=
    fun _ session h => storeInvariant_runSession h session
  exact StepMachine.run_invariant _ hstep sessions (storeInvariant_empty rp)

/-- From a stash without slashing metadata, over any sessions of reports and ends of spans:
every span not pruned has as its record the largest slash that the lookup attributed to it when
it was reported, and the stash was slashed for the span by exactly that much; every payout stays
within the reward proportion of its span's slash; and a report for an era that no span covers
applies no slash. -/
theorem spanSlash_follows_reports (rp : ℕ) (sessions : List SpanSession) :
    (∀ k, (runSpans rp sessions).1.earliest ≤ k →
      ((runSpans rp sessions).1.spanSlash k).slashed = maxReported (runSpans rp sessions).2 k ∧
        sumDifferences (runSpans rp sessions).2 k =
          ((runSpans rp sessions).1.spanSlash k).slashed) ∧
    (∀ k, ((runSpans rp sessions).1.spanSlash k).paidOut ≤
      PerThing.perbill.mul rp ((runSpans rp sessions).1.spanSlash k).slashed) ∧
    (∀ r ∈ (runSpans rp sessions).2, r.target = none → r.difference = 0) := by
  obtain ⟨-, hrecords⟩ := storeInvariant_runSpans rp sessions
  exact ⟨fun k hk => ⟨hrecords.slashed_eq k hk, hrecords.sum_eq k hk⟩, hrecords.paidOut_le,
    hrecords.unattributed⟩

/-- A span ends at era 2, a slash of 10 is reported for era 4, then, with the window at era 6, a
slash of 7 for era 1. -/
def staleSpanSessions : List SpanSession :=
  [⟨0, [.endSpan 2]⟩, ⟨0, [.compareAndUpdateSpanSlash 4 10]⟩, ⟨6, [.compareAndUpdateSpanSlash 1 7]⟩]

theorem spanSlash_follows_reports_staleSpans :
    ((runSpans 0 staleSpanSessions).1.spanSlash 1).slashed =
        maxReported (runSpans 0 staleSpanSessions).2 1 ∧
      sumDifferences (runSpans 0 staleSpanSessions).2 1 =
        ((runSpans 0 staleSpanSessions).1.spanSlash 1).slashed :=
  (spanSlash_follows_reports 0 staleSpanSessions).1 1 (by decide)

/-- The lookup does not follow the window: the report for era 1, before the window start 6, is
slashed 7 through span 0, not yet pruned; the drop then prunes span 0 and moves span 1 to start at
era 6, so span 1 keeps the record 10 of era 4, an era it no longer covers. -/
theorem stale_span_slashes_before_window :
    (runSpans 0 staleSpanSessions).2 = [⟨4, 10, some 1, 10⟩, ⟨1, 7, some 0, 7⟩] ∧
      (runSpans 0 staleSpanSessions).1.slashingSpans = some ⟨1, 6, 4, []⟩ ∧
      ((runSpans 0 staleSpanSessions).1.spanSlash 1).slashed = 10 := by
  decide

end Tetcore.Staking
