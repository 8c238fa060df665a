import Mathlib.Logic.Relation

/-!
# Runs of a step function

A component with explicit state is a step function `step : σ → ω → σ` over the operations `ω`
its callers may issue. A run is the fold of `step` over a list of operations, and a state is
reachable when some run leads to it. Two rules carry every invariant and every refinement proof
built on top: a property that one step preserves holds after every run, and an abstraction that
commutes with one step commutes with every run.
-/

namespace StepMachine

variable {σ τ ω : Type*}

/-- The state after issuing `ops` in order from `s`. -/
def run (step : σ → ω → σ) (s : σ) (ops : List ω) : σ :=
  ops.foldl step s

section Run

variable (step : σ → ω → σ)

@[simp]
theorem run_nil (s : σ) : run step s [] = s := rfl

@[simp]
theorem run_cons (s : σ) (op : ω) (ops : List ω) :
    run step s (op :: ops) = run step (step s op) ops := rfl

theorem run_append (s : σ) (ops ops' : List ω) :
    run step s (ops ++ ops') = run step (run step s ops) ops' := by
  simp [run, List.foldl_append]

@[simp]
theorem run_concat (s : σ) (ops : List ω) (op : ω) :
    run step s (ops ++ [op]) = step (run step s ops) op := by
  rw [run_append]
  rfl

/-- A state some run from `init` leads to. -/
def Reachable (init : σ) (s : σ) : Prop :=
  ∃ ops, run step init ops = s

theorem reachable_init (init : σ) : Reachable step init init := ⟨[], rfl⟩

theorem Reachable.next {init s : σ} (hs : Reachable step init s) (op : ω) :
    Reachable step init (step s op) := by
  obtain ⟨ops, rfl⟩ := hs
  exact ⟨ops ++ [op], run_concat step init ops op⟩

theorem run_invariant {inv : σ → Prop} (hstep : ∀ s op, inv s → inv (step s op)) :
    ∀ (ops : List ω) {s : σ}, inv s → inv (run step s ops) := by
  intro ops
  induction ops with
  | nil => exact fun hs => hs
  | cons op ops ih => exact fun hs => ih (hstep _ op hs)

theorem run_take_invariant {inv ok : σ → Prop}
    (hstep : ∀ s op, inv s → ok (step s op) → inv (step s op)) :
    ∀ (ops : List ω) {s : σ}, inv s → (∀ n, ok (run step s (ops.take n))) →
      ∀ n, inv (run step s (ops.take n)) := by
  intro ops
  induction ops with
  | nil =>
    intro s hs _ n
    simpa using hs
  | cons op ops ih =>
    intro s hs hok n
    cases n with
    | zero => exact hs
    | succ n =>
      have hnext : inv (step s op) := hstep s op hs (hok 1)
      exact ih hnext (fun m => hok (m + 1)) n

theorem run_guarded_invariant {inv : σ → Prop} {guard : σ → ω → Prop}
    (hstep : ∀ s op, inv s → guard s op → inv (step s op)) :
    ∀ (ops : List ω) {s : σ}, inv s →
      (∀ n (h : n < ops.length), guard (run step s (ops.take n)) ops[n]) →
        inv (run step s ops) := by
  intro ops
  induction ops with
  | nil => exact fun hs _ => hs
  | cons op ops ih =>
    intro s hs hguard
    -- the first operation is guarded at `s`, the later ones at the states after it
    have hnext : inv (step s op) := hstep s op hs (hguard 0 (Nat.succ_pos _))
    exact ih hnext (fun n h => hguard (n + 1) (Nat.succ_lt_succ h))

/-- **Guarded simulation rule.** A relation between two machines driven by the same operations,
kept by each step whose operation meets a guard in the second machine's state, holds after every
run whose operations each meet the guard. -/
theorem run_guarded_simulation (step' : τ → ω → τ) {rel : σ → τ → Prop}
    {guard : τ → ω → Prop} (hstep : ∀ s t op, rel s t → guard t op → rel (step s op) (step' t op)) :
    ∀ (ops : List ω) {s : σ} {t : τ}, rel s t →
      (∀ n (h : n < ops.length), guard (run step' t (ops.take n)) ops[n]) →
        rel (run step s ops) (run step' t ops) := by
  intro ops
  induction ops with
  | nil => exact fun hrel _ => hrel
  | cons op ops ih =>
    intro s t hrel hguard
    -- the first operation is guarded at `t`, the later ones along the second machine's run
    have hnext : rel (step s op) (step' t op) := hstep s t op hrel (hguard 0 (Nat.succ_pos _))
    exact ih hnext (fun n h => hguard (n + 1) (Nat.succ_lt_succ h))

theorem Reachable.invariant {inv : σ → Prop} (hstep : ∀ s op, inv s → inv (step s op))
    {init s : σ} (hinit : inv init) (hs : Reachable step init s) : inv s := by
  obtain ⟨ops, rfl⟩ := hs
  exact run_invariant step hstep ops hinit

theorem run_simulation {inv : σ → Prop} (abs : σ → τ) (absStep : τ → ω → τ)
    (hinv : ∀ s op, inv s → inv (step s op))
    (hcomm : ∀ s op, inv s → abs (step s op) = absStep (abs s) op) :
    ∀ (ops : List ω) {s : σ}, inv s → abs (run step s ops) = run absStep (abs s) ops := by
  intro ops
  induction ops with
  | nil => exact fun _ => rfl
  | cons op ops ih =>
    intro s hs
    rw [run_cons, run_cons, ← hcomm s op hs]
    exact ih (hinv s op hs)

end Run

theorem foldl_invariant {α : Type*} (f : σ → α → σ) (P : List α → σ → Prop)
    (hstep : ∀ a as s, P (a :: as) s → P as (f s a)) :
    ∀ (as : List α) {s : σ}, P as s → P [] (as.foldl f s) := by
  intro as
  induction as with
  | nil => exact fun hs => hs
  | cons a as ih => exact fun hs => ih (hstep a as _ hs)

theorem foldl_range_invariant (f : σ → Nat → σ) (inv : Nat → σ → Prop) :
    ∀ (n : Nat), (∀ j s, j < n → inv j s → inv (j + 1) (f s j)) →
      ∀ {s : σ}, inv 0 s → inv n ((List.range n).foldl f s)
  | 0, _, _, hs => hs
  | n + 1, hstep, s, hs => by
    rw [List.range_succ, List.foldl_append, List.foldl_cons, List.foldl_nil]
    exact hstep n _ (Nat.lt_succ_self n)
      (foldl_range_invariant f inv n (fun j t hj => hstep j t (Nat.lt_succ_of_lt hj)) hs)

theorem foldl_range_reverse_invariant (f : σ → Nat → σ) (inv : Nat → σ → Prop) :
    ∀ (n : Nat), (∀ j s, j < n → inv (j + 1) s → inv j (f s j)) →
      ∀ {s : σ}, inv n s → inv 0 ((List.range n).reverse.foldl f s)
  | 0, _, _, hs => hs
  | n + 1, hstep, s, hs => by
    rw [List.range_succ, List.reverse_append, List.reverse_singleton, List.singleton_append,
      List.foldl_cons]
    exact foldl_range_reverse_invariant f inv n (fun j t hj => hstep j t (Nat.lt_succ_of_lt hj))
      (hstep n s (Nat.lt_succ_self n) hs)

theorem foldlM_option_invariant {α : Type*} (f : σ → α → Option σ) (P : σ → Prop)
    (hstep : ∀ s a, P s → ∃ s', f s a = some s' ∧ P s') :
    ∀ (as : List α) {s : σ}, P s → ∃ s', as.foldlM f s = some s' ∧ P s' := by
  intro as
  induction as with
  | nil => exact fun hs => ⟨_, rfl, hs⟩
  | cons a as ih =>
    intro s hs
    obtain ⟨s₁, hf, hs₁⟩ := hstep s a hs
    obtain ⟨s₂, hfold, hs₂⟩ := ih hs₁
    refine ⟨s₂, ?_, hs₂⟩
    rw [List.foldlM_cons, hf]
    exact hfold

theorem foldlM_option_preserves {α : Type*} (f : σ → α → Option σ) (P : σ → Prop)
    (hstep : ∀ s a s', f s a = some s' → P s → P s') :
    ∀ (as : List α) {s s' : σ}, as.foldlM f s = some s' → P s → P s'
  | [], _, _, h, hs => by
    cases h
    exact hs
  | a :: as, s, _, h, hs => by
    rw [List.foldlM_cons] at h
    obtain ⟨s₁, hf, hrest⟩ := Option.bind_eq_some_iff.mp h
    exact foldlM_option_preserves f P hstep as hrest (hstep s a s₁ hf hs)

end StepMachine
