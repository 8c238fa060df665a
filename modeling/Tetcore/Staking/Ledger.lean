import Mathlib
import Tetcore.Lib.Run

/-!
# The staking ledger

`fabric/staking/src/lib.rs`. A bonded stash has a `StakingLedger`: `total` is the balance at
stake, `active` the part that stays bonded, and `unlocking` the chunks of value that become free
at an era, oldest first. `bond_extra` adds to `active`, `unbond` moves a part of `active` into a
new chunk `BondingDuration` eras ahead, `rebond` moves chunks back into `active` newest first,
`withdraw_unbonded` drops the chunks whose era has come (`consolidate_unlocked`), and a slash
(`StakingLedger::slash`, called by `slashing::do_slash`) takes value from `active` and then from
the chunks, sweeping any dust left at or below the minimum balance into the slash.

The ledger keeps `total = active + Σ unlocking`, at most `MAX_UNLOCKING_CHUNKS` chunks, no empty
chunk and chunk eras in order. The order needs one more fact: no chunk is due later than the era
a new chunk would get, `current_era + BondingDuration`. A ledger whose chunks lie further ahead
satisfies the four properties, and one `unbond` puts a chunk out of order behind them.

The ledger's `stash` and `claimed_rewards` are carried unchanged by every function here and left
out.
-/

namespace Tetcore.Staking

/-- `MAX_UNLOCKING_CHUNKS`. -/
def maxUnlockingChunks : ℕ := 32

/-- `UnlockChunk`: a value that becomes free at `era`. -/
structure UnlockChunk where
  value : ℕ
  era : ℕ
  deriving DecidableEq, Repr

/-- `StakingLedger`, without `stash` and `claimed_rewards`. -/
structure StakingLedger where
  total : ℕ
  active : ℕ
  unlocking : List UnlockChunk
  deriving DecidableEq, Repr

/-- The staking errors the ledger calls return. -/
inductive StakingError
  | insufficientValue
  | noMoreChunks
  | noUnlockChunk
  | incorrectSlashingSpans
  deriving DecidableEq, Repr

/-- The value still unlocking in `chunks`. -/
def unlockingSum (chunks : List UnlockChunk) : ℕ := (chunks.map (·.value)).sum

@[simp]
theorem unlockingSum_nil : unlockingSum [] = 0 := rfl

@[simp]
theorem unlockingSum_cons (c : UnlockChunk) (cs : List UnlockChunk) :
    unlockingSum (c :: cs) = c.value + unlockingSum cs := by
  simp [unlockingSum]

@[simp]
theorem unlockingSum_append (cs cs' : List UnlockChunk) :
    unlockingSum (cs ++ cs') = unlockingSum cs + unlockingSum cs' := by
  simp [unlockingSum]

@[simp]
theorem unlockingSum_reverse (cs : List UnlockChunk) :
    unlockingSum cs.reverse = unlockingSum cs := by
  simp [unlockingSum]

/-! ## The ledger's own functions -/

/-- One chunk through the `filter` closure of `consolidate_unlocked`, with the running total and
the chunks kept so far: a chunk whose era has come is dropped and its value taken off the
total. -/
def consolidateStep (currentEra : ℕ) (acc : ℕ × List UnlockChunk) (chunk : UnlockChunk) :
    ℕ × List UnlockChunk :=
  if currentEra < chunk.era then (acc.1, acc.2 ++ [chunk]) else (acc.1 - chunk.value, acc.2)

/-- `StakingLedger::consolidate_unlocked`. -/
def StakingLedger.consolidateUnlocked (l : StakingLedger) (currentEra : ℕ) : StakingLedger :=
  let r := l.unlocking.foldl (consolidateStep currentEra) (l.total, [])
  { l with total := r.1, unlocking := r.2 }

/-- The `while let Some(last) = self.unlocking.last_mut()` loop of `StakingLedger::rebond`, over
the chunks newest first, from `unlocking_balance` and `active`: returns the new `active` and the
chunks left, still newest first. -/
def rebondLoop (value : ℕ) : ℕ → ℕ → List UnlockChunk → ℕ × List UnlockChunk
  | _, active, [] => (active, [])
  | unlockingBalance, active, last :: rest =>
    if unlockingBalance + last.value ≤ value then
      if value ≤ unlockingBalance + last.value then (active + last.value, rest)
      else rebondLoop value (unlockingBalance + last.value) (active + last.value) rest
    else
      -- the rest of `value` comes out of `last`: `unlocking_balance` reaches `value` and the
      -- loop breaks
      (active + (value - unlockingBalance),
        { last with value := last.value - (value - unlockingBalance) } :: rest)

theorem rebondLoop_nil (value unlockingBalance active : ℕ) :
    rebondLoop value unlockingBalance active [] = (active, []) := rfl

theorem rebondLoop_cons (value unlockingBalance active : ℕ) (last : UnlockChunk)
    (rest : List UnlockChunk) :
    rebondLoop value unlockingBalance active (last :: rest) =
      if unlockingBalance + last.value ≤ value then
        if value ≤ unlockingBalance + last.value then (active + last.value, rest)
        else rebondLoop value (unlockingBalance + last.value) (active + last.value) rest
      else
        (active + (value - unlockingBalance),
          { last with value := last.value - (value - unlockingBalance) } :: rest) := rfl

/-- `StakingLedger::rebond`. -/
def StakingLedger.rebond (l : StakingLedger) (value : ℕ) : StakingLedger :=
  let r := rebondLoop value 0 l.active l.unlocking.reverse
  { l with active := r.1, unlocking := r.2.reverse }

/-- The three balances the `slash_out_of` closure of `StakingLedger::slash` takes by mutable
reference. -/
structure SlashCursor where
  totalRemaining : ℕ
  target : ℕ
  value : ℕ

/-- The `slash_out_of` closure: slash up to `value` from `target`, and take all of `target` if
what is left of it is at most the minimum balance. -/
def slashOutOf (minimumBalance : ℕ) (c : SlashCursor) : SlashCursor :=
  let slashFromTarget := min c.value c.target
  if slashFromTarget = 0 then c
  else
    let target := c.target - slashFromTarget
    -- don't leave a dust balance in the staking system
    if target ≤ minimumBalance then
      let slashFromTarget := slashFromTarget + target
      ⟨c.totalRemaining - slashFromTarget, 0, c.value + target - slashFromTarget⟩
    else ⟨c.totalRemaining - slashFromTarget, target, c.value - slashFromTarget⟩

/-- What the walk over the chunks in `StakingLedger::slash` leaves: the balances of the closure,
the number `i` of chunks drained, and the chunks as the walk left them. -/
structure SlashWalk where
  totalRemaining : ℕ
  value : ℕ
  count : ℕ
  chunks : List UnlockChunk

/-- `self.unlocking.iter_mut().map(..).take_while(|value| value.is_zero()).count()`: each chunk
is slashed in turn and the walk stops after the first chunk left non-empty. -/
def slashChunks (minimumBalance : ℕ) : ℕ → ℕ → List UnlockChunk → SlashWalk
  | totalRemaining, value, [] => ⟨totalRemaining, value, 0, []⟩
  | totalRemaining, value, chunk :: rest =>
    let c := slashOutOf minimumBalance ⟨totalRemaining, chunk.value, value⟩
    let chunk := { chunk with value := c.target }
    if c.target = 0 then
      let w := slashChunks minimumBalance c.totalRemaining c.value rest
      { w with count := w.count + 1, chunks := chunk :: w.chunks }
    -- `take_while` stops here, and the lazy `map` slashes no further chunk
    else ⟨c.totalRemaining, c.value, 0, chunk :: rest⟩

theorem slashChunks_nil (minimumBalance totalRemaining value : ℕ) :
    slashChunks minimumBalance totalRemaining value [] = ⟨totalRemaining, value, 0, []⟩ := rfl

theorem slashChunks_cons (minimumBalance totalRemaining value : ℕ) (chunk : UnlockChunk)
    (rest : List UnlockChunk) :
    slashChunks minimumBalance totalRemaining value (chunk :: rest) =
      let c := slashOutOf minimumBalance ⟨totalRemaining, chunk.value, value⟩
      let chunk := { chunk with value := c.target }
      if c.target = 0 then
        let w := slashChunks minimumBalance c.totalRemaining c.value rest
        { w with count := w.count + 1, chunks := chunk :: w.chunks }
      else ⟨c.totalRemaining, c.value, 0, chunk :: rest⟩ := rfl

/-- `StakingLedger::slash`: returns the amount slashed and the ledger. -/
def StakingLedger.slash (l : StakingLedger) (value minimumBalance : ℕ) : ℕ × StakingLedger :=
  let preTotal := l.total
  let a := slashOutOf minimumBalance ⟨l.total, l.active, value⟩
  let w := slashChunks minimumBalance a.totalRemaining a.value l.unlocking
  -- kill all drained chunks
  (preTotal - w.totalRemaining,
    { l with total := w.totalRemaining, active := a.target, unlocking := w.chunks.drop w.count })

/-! ## The ledger's invariant -/

/-- The four properties the staking module keeps of a ledger. -/
structure StakingLedger.WellFormed (l : StakingLedger) : Prop where
  total_eq : l.total = l.active + unlockingSum l.unlocking
  length_le : l.unlocking.length ≤ maxUnlockingChunks
  value_pos : ∀ c ∈ l.unlocking, 0 < c.value
  eras_sorted : (l.unlocking.map (·.era)).Pairwise (· ≤ ·)

instance (l : StakingLedger) : Decidable l.WellFormed :=
  decidable_of_iff
    (l.total = l.active + unlockingSum l.unlocking ∧ l.unlocking.length ≤ maxUnlockingChunks ∧
      (∀ c ∈ l.unlocking, 0 < c.value) ∧ (l.unlocking.map (·.era)).Pairwise (· ≤ ·))
    ⟨fun ⟨h₁, h₂, h₃, h₄⟩ => ⟨h₁, h₂, h₃, h₄⟩, fun ⟨h₁, h₂, h₃, h₄⟩ => ⟨h₁, h₂, h₃, h₄⟩⟩

/-- No chunk is due after `bound`. -/
def ErasWithin (bound : ℕ) (chunks : List UnlockChunk) : Prop := ∀ c ∈ chunks, c.era ≤ bound

instance (bound : ℕ) (chunks : List UnlockChunk) : Decidable (ErasWithin bound chunks) :=
  inferInstanceAs (Decidable (∀ c ∈ chunks, c.era ≤ bound))

theorem eras_of_sublist {cs cs' : List UnlockChunk} {bound : ℕ}
    (hsub : List.Sublist (cs'.map (·.era)) (cs.map (·.era))) (hsorted : (cs.map (·.era)).Pairwise (· ≤ ·))
    (hwithin : ErasWithin bound cs) :
    (cs'.map (·.era)).Pairwise (· ≤ ·) ∧ ErasWithin bound cs' := by
  refine ⟨hsorted.sublist hsub, ?_⟩
  intro c hc
  obtain ⟨c₀, hc₀, heq⟩ := List.mem_map.mp (hsub.subset (List.mem_map_of_mem hc))
  rw [← heq]
  exact hwithin c₀ hc₀

/-! ## A slash -/

/-- A chunk after a slash: as it was, or slashed in its era to a value above the minimum
balance. -/
def SlashedTo (minimumBalance : ℕ) (chunk chunk' : UnlockChunk) : Prop :=
  chunk' = chunk ∨ chunk'.era = chunk.era ∧ minimumBalance < chunk'.value ∧ chunk'.value ≤ chunk.value

section Slash

variable (m : ℕ)

theorem slashOutOf_cases (c : SlashCursor) :
    (min c.value c.target = 0 ∧ slashOutOf m c = c) ∨
    (0 < min c.value c.target ∧ c.target - min c.value c.target ≤ m ∧
      slashOutOf m c = ⟨c.totalRemaining - c.target, 0, c.value - min c.value c.target⟩) ∨
    (0 < min c.value c.target ∧ m < c.target - min c.value c.target ∧
      slashOutOf m c = ⟨c.totalRemaining - min c.value c.target, c.target - min c.value c.target,
        c.value - min c.value c.target⟩) := by
  unfold slashOutOf
  dsimp only
  split_ifs with hzero hdust
  · exact .inl ⟨hzero, rfl⟩
  · refine .inr (.inl ⟨Nat.pos_of_ne_zero hzero, hdust, ?_⟩)
    congr 1 <;> omega
  · exact .inr (.inr ⟨Nat.pos_of_ne_zero hzero, Nat.lt_of_not_le hdust, rfl⟩)

theorem value_slashOutOf (c : SlashCursor) :
    (slashOutOf m c).value = c.value - min c.value c.target := by
  rcases slashOutOf_cases m c with ⟨hzero, h⟩ | ⟨-, -, h⟩ | ⟨-, -, h⟩ <;> simp only [h]
  omega

theorem target_slashOutOf_add_le (c : SlashCursor) :
    (slashOutOf m c).target + min c.value c.target ≤ c.target := by
  rcases slashOutOf_cases m c with ⟨hzero, h⟩ | ⟨-, -, h⟩ | ⟨-, -, h⟩ <;> simp only [h] <;> omega

theorem totalRemaining_slashOutOf (c : SlashCursor) :
    (slashOutOf m c).totalRemaining = c.totalRemaining - (c.target - (slashOutOf m c).target) := by
  rcases slashOutOf_cases m c with ⟨-, h⟩ | ⟨-, -, h⟩ | ⟨-, -, h⟩ <;> simp only [h] <;> omega

theorem target_slashOutOf_no_dust (c : SlashCursor) :
    (slashOutOf m c).target = 0 ∨ m < (slashOutOf m c).target ∨
      (slashOutOf m c).target = c.target := by
  rcases slashOutOf_cases m c with ⟨-, h⟩ | ⟨-, -, h⟩ | ⟨-, hdust, h⟩ <;> rw [h]
  · exact .inr (.inr rfl)
  · exact .inl rfl
  · exact .inr (.inl hdust)

theorem value_slashOutOf_eq_zero (c : SlashCursor) (h : (slashOutOf m c).target ≠ 0) :
    (slashOutOf m c).value = 0 := by
  rcases slashOutOf_cases m c with ⟨hzero, heq⟩ | ⟨-, -, heq⟩ | ⟨-, -, heq⟩ <;>
    simp only [heq] at h ⊢ <;> omega

/-! The walk over the chunks, by induction on the chunks: a drained chunk continues the walk,
the first chunk left non-empty ends it. -/

theorem map_era_slashChunks (t v : ℕ) (cs : List UnlockChunk) :
    (slashChunks m t v cs).chunks.map (·.era) = cs.map (·.era) := by
  induction cs generalizing t v with
  | nil => rfl
  | cons chunk rest ih =>
    simp only [slashChunks_cons]
    split_ifs <;> simp [ih]

theorem unlockingSum_drop_slashChunks (t v : ℕ) (cs : List UnlockChunk) :
    unlockingSum ((slashChunks m t v cs).chunks.drop (slashChunks m t v cs).count) =
      unlockingSum (slashChunks m t v cs).chunks := by
  induction cs generalizing t v with
  | nil => rfl
  | cons chunk rest ih =>
    simp only [slashChunks_cons]
    split_ifs with hdrained <;> simp [hdrained, ih]

theorem unlockingSum_slashChunks_le (t v : ℕ) (cs : List UnlockChunk) :
    unlockingSum (slashChunks m t v cs).chunks ≤ unlockingSum cs := by
  induction cs generalizing t v with
  | nil => rfl
  | cons chunk rest ih =>
    have htarget := target_slashOutOf_add_le m ⟨t, chunk.value, v⟩
    dsimp only at htarget
    simp only [slashChunks_cons]
    split_ifs with hdrained
    · have := ih (slashOutOf m ⟨t, chunk.value, v⟩).totalRemaining
        (slashOutOf m ⟨t, chunk.value, v⟩).value
      simp only [unlockingSum_cons, hdrained]
      omega
    · simp only [unlockingSum_cons]
      omega

theorem totalRemaining_slashChunks (t v : ℕ) (cs : List UnlockChunk) :
    (slashChunks m t v cs).totalRemaining =
      t - (unlockingSum cs - unlockingSum (slashChunks m t v cs).chunks) := by
  induction cs generalizing t v with
  | nil => simp [slashChunks_nil]
  | cons chunk rest ih =>
    have htotal := totalRemaining_slashOutOf m ⟨t, chunk.value, v⟩
    have htarget := target_slashOutOf_add_le m ⟨t, chunk.value, v⟩
    dsimp only at htotal htarget
    simp only [slashChunks_cons]
    split_ifs with hdrained
    · have hrest := ih (slashOutOf m ⟨t, chunk.value, v⟩).totalRemaining
        (slashOutOf m ⟨t, chunk.value, v⟩).value
      have hle := unlockingSum_slashChunks_le m (slashOutOf m ⟨t, chunk.value, v⟩).totalRemaining
        (slashOutOf m ⟨t, chunk.value, v⟩).value rest
      simp only [unlockingSum_cons, hdrained] at htotal ⊢
      omega
    · simp only [unlockingSum_cons]
      omega

theorem min_le_slashChunks (t v : ℕ) (cs : List UnlockChunk) :
    min v (unlockingSum cs) ≤ unlockingSum cs - unlockingSum (slashChunks m t v cs).chunks := by
  induction cs generalizing t v with
  | nil => simp [slashChunks_nil]
  | cons chunk rest ih =>
    have hvalue := value_slashOutOf m ⟨t, chunk.value, v⟩
    have htarget := target_slashOutOf_add_le m ⟨t, chunk.value, v⟩
    dsimp only at hvalue htarget
    simp only [slashChunks_cons]
    split_ifs with hdrained
    · have hrest := ih (slashOutOf m ⟨t, chunk.value, v⟩).totalRemaining
        (slashOutOf m ⟨t, chunk.value, v⟩).value
      have hle := unlockingSum_slashChunks_le m (slashOutOf m ⟨t, chunk.value, v⟩).totalRemaining
        (slashOutOf m ⟨t, chunk.value, v⟩).value rest
      simp only [unlockingSum_cons, hdrained]
      omega
    · -- the chunk left non-empty has taken all the value
      have hzero := value_slashOutOf_eq_zero m ⟨t, chunk.value, v⟩ hdrained
      simp only [unlockingSum_cons]
      omega

theorem forall₂_slashChunks (t v : ℕ) (cs : List UnlockChunk) :
    List.Forall₂ (SlashedTo m) (cs.drop (slashChunks m t v cs).count)
      ((slashChunks m t v cs).chunks.drop (slashChunks m t v cs).count) := by
  induction cs generalizing t v with
  | nil => exact List.Forall₂.nil
  | cons chunk rest ih =>
    have htarget := target_slashOutOf_add_le m ⟨t, chunk.value, v⟩
    dsimp only at htarget
    simp only [slashChunks_cons]
    split_ifs with hdrained
    · simpa using ih _ _
    · refine List.Forall₂.cons ?_ (List.forall₂_same.mpr fun c _ => .inl rfl)
      rcases target_slashOutOf_no_dust m ⟨t, chunk.value, v⟩ with h | h | h
      · exact absurd h hdrained
      · exact .inr ⟨rfl, h, by dsimp only; omega⟩
      · exact .inl (by simp [h])

theorem value_pos_slashChunks (t v : ℕ) {cs : List UnlockChunk} (hpos : ∀ c ∈ cs, 0 < c.value) :
    ∀ c ∈ (slashChunks m t v cs).chunks.drop (slashChunks m t v cs).count, 0 < c.value := by
  induction cs generalizing t v with
  | nil => simp [slashChunks_nil]
  | cons chunk rest ih =>
    have hrest : ∀ c ∈ rest, 0 < c.value := fun c hc => hpos c (List.mem_cons_of_mem _ hc)
    simp only [slashChunks_cons]
    split_ifs with hdrained
    · simpa using ih _ _ hrest
    · intro c hc
      rcases List.mem_cons.mp (by simpa using hc) with rfl | hc
      · exact Nat.pos_of_ne_zero hdrained
      · exact hrest c hc

/-! The slash of a ledger: `active` through the closure, then the walk over the chunks. -/

theorem total_slash_add (l : StakingLedger) (v : ℕ) :
    (l.slash v m).2.total + (l.slash v m).1 = l.total := by
  have hatotal := totalRemaining_slashOutOf m ⟨l.total, l.active, v⟩
  dsimp only at hatotal
  simp only [StakingLedger.slash]
  generalize slashOutOf m ⟨l.total, l.active, v⟩ = a at hatotal ⊢
  have hw := totalRemaining_slashChunks m a.totalRemaining a.value l.unlocking
  omega

theorem min_le_slash {l : StakingLedger} (htotal : l.total = l.active + unlockingSum l.unlocking)
    (v : ℕ) : min v l.total ≤ (l.slash v m).1 := by
  have hatotal := totalRemaining_slashOutOf m ⟨l.total, l.active, v⟩
  have hatarget := target_slashOutOf_add_le m ⟨l.total, l.active, v⟩
  have havalue := value_slashOutOf m ⟨l.total, l.active, v⟩
  dsimp only at hatotal hatarget havalue
  simp only [StakingLedger.slash]
  generalize slashOutOf m ⟨l.total, l.active, v⟩ = a at hatotal hatarget havalue ⊢
  have hw := totalRemaining_slashChunks m a.totalRemaining a.value l.unlocking
  have hle := unlockingSum_slashChunks_le m a.totalRemaining a.value l.unlocking
  -- the chunks give at least what `active` left of the value
  have hmin := min_le_slashChunks m a.totalRemaining a.value l.unlocking
  omega

theorem active_slash (l : StakingLedger) (v : ℕ) :
    (l.slash v m).2.active = 0 ∨ m < (l.slash v m).2.active ∨ (l.slash v m).2.active = l.active :=
  target_slashOutOf_no_dust m ⟨l.total, l.active, v⟩

theorem forall₂_slash (l : StakingLedger) (v : ℕ) :
    ∃ k, List.Forall₂ (SlashedTo m) (l.unlocking.drop k) (l.slash v m).2.unlocking :=
  ⟨_, forall₂_slashChunks m _ _ l.unlocking⟩

theorem value_pos_slash {l : StakingLedger} (hpos : ∀ c ∈ l.unlocking, 0 < c.value) (v : ℕ) :
    ∀ c ∈ (l.slash v m).2.unlocking, 0 < c.value :=
  value_pos_slashChunks m _ _ hpos

theorem wellFormed_slash {l : StakingLedger} (hl : l.WellFormed) {bound : ℕ}
    (hwithin : ErasWithin bound l.unlocking) (v : ℕ) :
    (l.slash v m).2.WellFormed ∧ ErasWithin bound (l.slash v m).2.unlocking := by
  have hatotal := totalRemaining_slashOutOf m ⟨l.total, l.active, v⟩
  have hatarget := target_slashOutOf_add_le m ⟨l.total, l.active, v⟩
  dsimp only at hatotal hatarget
  simp only [StakingLedger.slash]
  generalize slashOutOf m ⟨l.total, l.active, v⟩ = a at hatotal hatarget ⊢
  -- the chunks kept are a suffix of the walk's chunks, which have the eras of the ledger's
  have heras : List.Sublist
      (((slashChunks m a.totalRemaining a.value l.unlocking).chunks.drop
        (slashChunks m a.totalRemaining a.value l.unlocking).count).map (·.era))
      (l.unlocking.map (·.era)) := by
    rw [List.map_drop, map_era_slashChunks]
    exact List.drop_sublist _ _
  obtain ⟨hsorted, hwithin'⟩ := eras_of_sublist heras hl.eras_sorted hwithin
  refine ⟨⟨?_, ?_, value_pos_slashChunks m _ _ hl.value_pos, hsorted⟩, hwithin'⟩
  · have hw := totalRemaining_slashChunks m a.totalRemaining a.value l.unlocking
    have hle := unlockingSum_slashChunks_le m a.totalRemaining a.value l.unlocking
    have htotal := hl.total_eq
    dsimp only
    rw [unlockingSum_drop_slashChunks]
    omega
  · have hlen := heras.length_le
    simp only [List.length_map] at hlen
    exact hlen.trans hl.length_le

end Slash

/-! ## Rebonding

The loop runs over the chunks newest first, with `unlocking_balance` counting what it has moved
so far; the lemmas are by induction on that list. -/

section Rebond

variable (value : ℕ)

theorem fst_rebondLoop (unlockingBalance active : ℕ) (rs : List UnlockChunk) :
    (rebondLoop value unlockingBalance active rs).1 =
      active + min (value - unlockingBalance) (unlockingSum rs) := by
  induction rs generalizing unlockingBalance active with
  | nil => simp [rebondLoop_nil]
  | cons last rest ih =>
    simp only [rebondLoop_cons]
    split_ifs with hwhole hbreak
    · simp only [unlockingSum_cons]
      omega
    · rw [ih, unlockingSum_cons]
      omega
    · simp only [unlockingSum_cons]
      omega

theorem unlockingSum_snd_rebondLoop (unlockingBalance active : ℕ) (rs : List UnlockChunk) :
    unlockingSum (rebondLoop value unlockingBalance active rs).2 =
      unlockingSum rs - min (value - unlockingBalance) (unlockingSum rs) := by
  induction rs generalizing unlockingBalance active with
  | nil => simp [rebondLoop_nil]
  | cons last rest ih =>
    simp only [rebondLoop_cons]
    split_ifs with hwhole hbreak
    · simp only [unlockingSum_cons]
      omega
    · rw [ih, unlockingSum_cons]
      omega
    · simp only [unlockingSum_cons]
      omega

theorem snd_rebondLoop_suffix (unlockingBalance active : ℕ) (rs : List UnlockChunk) :
    List.IsSuffix (rebondLoop value unlockingBalance active rs).2.tail rs ∧
      List.IsSuffix ((rebondLoop value unlockingBalance active rs).2.map (·.era))
        (rs.map (·.era)) := by
  induction rs generalizing unlockingBalance active with
  | nil => simp [rebondLoop_nil]
  | cons last rest ih =>
    simp only [rebondLoop_cons]
    split_ifs with hwhole hbreak
    · exact ⟨(List.tail_suffix rest).trans (List.suffix_cons last rest),
        List.suffix_cons last.era _⟩
    · obtain ⟨htail, hera⟩ := ih (unlockingBalance + last.value) (active + last.value)
      exact ⟨htail.trans (List.suffix_cons last rest), hera.trans (List.suffix_cons last.era _)⟩
    · exact ⟨List.suffix_cons last rest, by simp⟩

theorem value_pos_rebondLoop (unlockingBalance active : ℕ) {rs : List UnlockChunk}
    (hpos : ∀ c ∈ rs, 0 < c.value) :
    ∀ c ∈ (rebondLoop value unlockingBalance active rs).2, 0 < c.value := by
  induction rs generalizing unlockingBalance active with
  | nil => simp [rebondLoop_nil]
  | cons last rest ih =>
    have hrest : ∀ c ∈ rest, 0 < c.value := fun c hc => hpos c (List.mem_cons_of_mem _ hc)
    simp only [rebondLoop_cons]
    split_ifs with hwhole hbreak
    · exact hrest
    · exact ih _ _ hrest
    · intro c hc
      rcases List.mem_cons.mp hc with rfl | hc
      · -- what is left of the partly rebonded chunk
        have hlast := hpos last List.mem_cons_self
        dsimp only
        omega
      · exact hrest c hc

theorem active_rebond (l : StakingLedger) :
    (l.rebond value).active = l.active + min value (unlockingSum l.unlocking) := by
  simp [StakingLedger.rebond, fst_rebondLoop]

theorem unlockingSum_rebond (l : StakingLedger) :
    unlockingSum (l.rebond value).unlocking =
      unlockingSum l.unlocking - min value (unlockingSum l.unlocking) := by
  simp [StakingLedger.rebond, unlockingSum_snd_rebondLoop]

theorem rebond_keeps_oldest_chunks (l : StakingLedger) :
    List.IsPrefix (l.rebond value).unlocking.dropLast l.unlocking ∧
      List.IsPrefix ((l.rebond value).unlocking.map (·.era)) (l.unlocking.map (·.era)) := by
  obtain ⟨htail, hera⟩ := snd_rebondLoop_suffix value 0 l.active l.unlocking.reverse
  simp only [StakingLedger.rebond, List.dropLast_reverse, List.map_reverse]
  constructor
  · simpa using List.reverse_prefix.mpr htail
  · simpa [List.map_reverse] using List.reverse_prefix.mpr hera

theorem wellFormed_rebond {l : StakingLedger} (hl : l.WellFormed) {bound : ℕ}
    (hwithin : ErasWithin bound l.unlocking) :
    (l.rebond value).WellFormed ∧ ErasWithin bound (l.rebond value).unlocking := by
  have heras := (rebond_keeps_oldest_chunks value l).2.sublist
  obtain ⟨hsorted, hwithin'⟩ := eras_of_sublist heras hl.eras_sorted hwithin
  refine ⟨⟨?_, ?_, ?_, hsorted⟩, hwithin'⟩
  · have htotal := hl.total_eq
    have hactive := active_rebond value l
    have hsum := unlockingSum_rebond value l
    -- `rebond` leaves the total as it is
    change l.total = _
    omega
  · have hlen := heras.length_le
    simp only [List.length_map] at hlen
    exact hlen.trans hl.length_le
  · intro c hc
    have hpos : ∀ c ∈ l.unlocking.reverse, 0 < c.value := fun c hc =>
      hl.value_pos c (List.mem_reverse.mp hc)
    exact value_pos_rebondLoop value 0 l.active hpos c (List.mem_reverse.mp hc)

end Rebond

/-! ## Consolidating the unlocked chunks -/

theorem foldl_consolidateStep (currentEra : ℕ) (cs : List UnlockChunk) (t : ℕ)
    (kept : List UnlockChunk) :
    cs.foldl (consolidateStep currentEra) (t, kept) =
      (t - unlockingSum (cs.filter fun c => c.era ≤ currentEra),
        kept ++ cs.filter fun c => currentEra < c.era) := by
  induction cs generalizing t kept with
  | nil => simp
  | cons c cs ih =>
    by_cases hdue : currentEra < c.era
    · simp [consolidateStep, hdue, ih, Nat.not_le.mpr hdue]
    · simp [consolidateStep, hdue, ih, Nat.le_of_not_lt hdue, Nat.sub_sub]

theorem unlockingSum_filter_add (currentEra : ℕ) (cs : List UnlockChunk) :
    unlockingSum (cs.filter fun c => c.era ≤ currentEra) +
      unlockingSum (cs.filter fun c => currentEra < c.era) = unlockingSum cs := by
  induction cs with
  | nil => rfl
  | cons c cs ih =>
    by_cases hdue : currentEra < c.era
    · simp [hdue, Nat.not_le.mpr hdue, ← ih]
      omega
    · simp [hdue, Nat.le_of_not_lt hdue, ← ih]
      omega

theorem consolidateUnlocked_eq (l : StakingLedger) (currentEra : ℕ) :
    l.consolidateUnlocked currentEra =
      { l with
        total := l.total - unlockingSum (l.unlocking.filter fun c => c.era ≤ currentEra)
        unlocking := l.unlocking.filter fun c => currentEra < c.era } := by
  simp [StakingLedger.consolidateUnlocked, foldl_consolidateStep]

theorem total_consolidateUnlocked_add {l : StakingLedger}
    (htotal : l.total = l.active + unlockingSum l.unlocking) (currentEra : ℕ) :
    (l.consolidateUnlocked currentEra).total +
      unlockingSum (l.unlocking.filter fun c => c.era ≤ currentEra) = l.total := by
  have hsplit := unlockingSum_filter_add currentEra l.unlocking
  rw [consolidateUnlocked_eq]
  dsimp only
  omega

theorem wellFormed_consolidateUnlocked {l : StakingLedger} (hl : l.WellFormed) {bound : ℕ}
    (hwithin : ErasWithin bound l.unlocking) (currentEra : ℕ) :
    (l.consolidateUnlocked currentEra).WellFormed ∧
      ErasWithin bound (l.consolidateUnlocked currentEra).unlocking := by
  rw [consolidateUnlocked_eq]
  have heras := (List.filter_sublist (p := fun c : UnlockChunk => decide (currentEra < c.era))
    (l := l.unlocking)).map (·.era)
  obtain ⟨hsorted, hwithin'⟩ := eras_of_sublist heras hl.eras_sorted hwithin
  refine ⟨⟨?_, ?_, ?_, hsorted⟩, hwithin'⟩
  · have htotal := hl.total_eq
    have hsplit := unlockingSum_filter_add currentEra l.unlocking
    dsimp only
    omega
  · exact (List.length_filter_le _ _).trans hl.length_le
  · intro c hc
    exact hl.value_pos c (List.mem_filter.mp hc).1

/-! ## The calls -/

/-- `bond_extra` on the stash's ledger, with the stash's free balance. -/
def bondExtra (l : StakingLedger) (stashBalance maxAdditional minimumBalance : ℕ) :
    Except StakingError StakingLedger :=
  if l.total ≤ stashBalance then
    let extra := min (stashBalance - l.total) maxAdditional
    let ledger := { l with total := l.total + extra, active := l.active + extra }
    -- last check: the new active amount of ledger must be more than ED
    if minimumBalance ≤ ledger.active then .ok ledger else .error .insufficientValue
  else .ok l

/-- `unbond` on the controller's ledger. -/
def unbond (l : StakingLedger) (value : ℕ) (currentEra : Option ℕ)
    (bondingDuration minimumBalance : ℕ) : Except StakingError StakingLedger :=
  if l.unlocking.length < maxUnlockingChunks then
    let value := min value l.active
    if value = 0 then .ok l
    else
      let active := l.active - value
      -- avoid there being a dust balance left in the staking system
      let dust := if active < minimumBalance then active else 0
      -- in case there is no current era it is fine to bond one era more
      let era := currentEra.getD 0 + bondingDuration
      .ok { l with active := active - dust, unlocking := l.unlocking ++ [⟨value + dust, era⟩] }
  else .error .noMoreChunks

/-- `withdraw_unbonded` on the controller's ledger: `none` when the stash is killed. Whether
`kill_stash` succeeds depends on the stash's slashing spans, outside the ledger, and is given. -/
def withdrawUnbonded (l : StakingLedger) (currentEra : Option ℕ) (minimumBalance : ℕ)
    (killStash : Bool) : Except StakingError (Option StakingLedger) :=
  let ledger := match currentEra with
    | some currentEra => l.consolidateUnlocked currentEra
    | none => l
  if ledger.unlocking.isEmpty ∧ ledger.active ≤ minimumBalance then
    if killStash then .ok none else .error .incorrectSlashingSpans
  else .ok (some ledger)

/-- `rebond` on the controller's ledger. -/
def rebond (l : StakingLedger) (value minimumBalance : ℕ) : Except StakingError StakingLedger :=
  if l.unlocking.isEmpty then .error .noUnlockChunk
  else
    let ledger := l.rebond value
    -- last check: the new active amount of ledger must be more than ED
    if minimumBalance ≤ ledger.active then .ok ledger else .error .insufficientValue

/-- `slashing::do_slash` on the stash's ledger: the ledger is written back only when something
was slashed. -/
def doSlash (l : StakingLedger) (value minimumBalance : ℕ) : StakingLedger :=
  let r := l.slash value minimumBalance
  if r.1 = 0 then l else r.2

/-- The runtime constants the calls read. -/
structure StakingParams where
  minimumBalance : ℕ
  bondingDuration : ℕ

/-- The ledger of one controller and `CurrentEra`. -/
structure LedgerState where
  ledger : Option StakingLedger
  currentEra : Option ℕ
  deriving DecidableEq, Repr

/-- The calls that read or write the ledger, and the start of a new era. -/
inductive LedgerCall
  | bondExtra (stashBalance maxAdditional : ℕ)
  | unbond (value : ℕ)
  | withdrawUnbonded (killStash : Bool)
  | rebond (value : ℕ)
  | slash (value : ℕ)
  | newEra
  deriving DecidableEq, Repr

/-- Run a call on the stored ledger: without one it fails with `NotController`, and a failed
call writes nothing. -/
def LedgerState.update (s : LedgerState)
    (f : StakingLedger → Except StakingError (Option StakingLedger)) : LedgerState :=
  match s.ledger with
  | none => s
  | some l =>
    match f l with
    | .ok ledger => { s with ledger }
    | .error _ => s

/-- One call on the ledger state. -/
def applyLedgerCall (p : StakingParams) (s : LedgerState) : LedgerCall → LedgerState
  | .bondExtra stashBalance maxAdditional =>
    s.update fun l => (bondExtra l stashBalance maxAdditional p.minimumBalance).map some
  | .unbond value =>
    s.update fun l => (unbond l value s.currentEra p.bondingDuration p.minimumBalance).map some
  | .withdrawUnbonded killStash =>
    s.update fun l => withdrawUnbonded l s.currentEra p.minimumBalance killStash
  | .rebond value => s.update fun l => (rebond l value p.minimumBalance).map some
  | .slash value => s.update fun l => .ok (some (doSlash l value p.minimumBalance))
  -- `new_era`: `*s = Some(s.map(|s| s + 1).unwrap_or(0))`
  | .newEra => { s with currentEra := some ((s.currentEra.map (· + 1)).getD 0) }

/-- The invariant of the ledger state: the stored ledger is well formed, and no chunk is due
after the era a new chunk would get. -/
def LedgerState.Invariant (p : StakingParams) (s : LedgerState) : Prop :=
  ∀ l ∈ s.ledger, l.WellFormed ∧ ErasWithin (s.currentEra.getD 0 + p.bondingDuration) l.unlocking

instance (p : StakingParams) (s : LedgerState) : Decidable (s.Invariant p) :=
  inferInstanceAs (Decidable (∀ l ∈ s.ledger, l.WellFormed ∧
    ErasWithin (s.currentEra.getD 0 + p.bondingDuration) l.unlocking))

/-! ## What each call can do to the ledger -/

section Calls

variable {l l' : StakingLedger}

theorem bondExtra_ok {stashBalance maxAdditional minimumBalance : ℕ}
    (h : bondExtra l stashBalance maxAdditional minimumBalance = .ok l') :
    ∃ extra, l' = { l with total := l.total + extra, active := l.active + extra } := by
  unfold bondExtra at h
  dsimp only at h
  split_ifs at h
  · exact ⟨_, (Except.ok.inj h).symm⟩
  · exact ⟨0, by simp [← Except.ok.inj h]⟩

theorem unbond_ok {value bondingDuration minimumBalance : ℕ} {currentEra : Option ℕ}
    (h : unbond l value currentEra bondingDuration minimumBalance = .ok l') :
    l' = l ∨ l.unlocking.length < maxUnlockingChunks ∧ ∃ x, 0 < x ∧ x ≤ l.active ∧
      l' = { l with
        active := l.active - x
        unlocking := l.unlocking ++ [⟨x, currentEra.getD 0 + bondingDuration⟩] } := by
  unfold unbond at h
  dsimp only at h
  split_ifs at h with hlen hzero hdust
  · exact .inl (Except.ok.inj h).symm
  · -- the dust left in `active` goes into the chunk
    refine .inr ⟨hlen, min value l.active + (l.active - min value l.active), by omega, by omega, ?_⟩
    rw [← Except.ok.inj h]
    congr 1
    omega
  · refine .inr ⟨hlen, min value l.active + 0, by omega, by omega, ?_⟩
    rw [← Except.ok.inj h]
    congr 1

theorem withdrawUnbonded_ok {currentEra : Option ℕ} {minimumBalance : ℕ} {killStash : Bool}
    (h : withdrawUnbonded l currentEra minimumBalance killStash = .ok (some l')) :
    l' = l ∨ ∃ era, l' = l.consolidateUnlocked era := by
  unfold withdrawUnbonded at h
  -- the ledger is written back, consolidated when there is a current era
  cases currentEra with
  | none =>
    dsimp only at h
    split_ifs at h
    · simp at h
    · exact .inl (Option.some.inj (Except.ok.inj h)).symm
  | some era =>
    dsimp only at h
    split_ifs at h
    · simp at h
    · exact .inr ⟨era, (Option.some.inj (Except.ok.inj h)).symm⟩

theorem rebond_ok {value minimumBalance : ℕ} (h : rebond l value minimumBalance = .ok l') :
    l' = l.rebond value := by
  unfold rebond at h
  dsimp only at h
  split_ifs at h
  exact (Except.ok.inj h).symm

theorem doSlash_cases (value minimumBalance : ℕ) :
    doSlash l value minimumBalance = l ∨
      doSlash l value minimumBalance = (l.slash value minimumBalance).2 := by
  unfold doSlash
  dsimp only
  split_ifs
  · exact .inl rfl
  · exact .inr rfl

theorem wellFormed_bondExtra (hl : l.WellFormed) {bound : ℕ} (hwithin : ErasWithin bound l.unlocking)
    {stashBalance maxAdditional minimumBalance : ℕ}
    (h : bondExtra l stashBalance maxAdditional minimumBalance = .ok l') :
    l'.WellFormed ∧ ErasWithin bound l'.unlocking := by
  obtain ⟨extra, rfl⟩ := bondExtra_ok h
  have htotal := hl.total_eq
  exact ⟨⟨by dsimp only; omega, hl.length_le, hl.value_pos, hl.eras_sorted⟩, hwithin⟩

theorem wellFormed_unbond (hl : l.WellFormed) {value bondingDuration minimumBalance : ℕ}
    {currentEra : Option ℕ}
    (hwithin : ErasWithin (currentEra.getD 0 + bondingDuration) l.unlocking)
    (h : unbond l value currentEra bondingDuration minimumBalance = .ok l') :
    l'.WellFormed ∧ ErasWithin (currentEra.getD 0 + bondingDuration) l'.unlocking := by
  rcases unbond_ok h with rfl | ⟨hlen, x, hpos, hle, rfl⟩
  · exact ⟨hl, hwithin⟩
  have htotal := hl.total_eq
  refine ⟨⟨?_, ?_, ?_, ?_⟩, ?_⟩
  · simp only [unlockingSum_append, unlockingSum_cons, unlockingSum_nil]
    omega
  · simp only [List.length_append, List.length_singleton]
    exact hlen
  · intro c hc
    rcases List.mem_append.mp hc with hc | hc
    · exact hl.value_pos c hc
    · rw [List.mem_singleton.mp hc]
      exact hpos
  · rw [List.map_append, List.pairwise_append]
    refine ⟨hl.eras_sorted, List.pairwise_singleton _ _, ?_⟩
    intro e he e' he'
    obtain ⟨c, hc, rfl⟩ := List.mem_map.mp he
    rw [List.map_singleton, List.mem_singleton] at he'
    rw [he']
    exact hwithin c hc
  · intro c hc
    rcases List.mem_append.mp hc with hc | hc
    · exact hwithin c hc
    · rw [List.mem_singleton.mp hc]

end Calls

/-! ## The invariant along runs -/

theorem map_some_eq_ok {x : Except StakingError StakingLedger} {l : StakingLedger}
    (h : x.map some = .ok (some l)) : x = .ok l := by
  cases x with
  | error e => cases h
  | ok l₀ =>
    simp only [Except.map, Except.ok.injEq, Option.some.injEq] at h
    rw [h]

theorem invariant_update {p : StakingParams} {s : LedgerState}
    {f : StakingLedger → Except StakingError (Option StakingLedger)} (hs : s.Invariant p)
    (hf : ∀ l l', l.WellFormed → ErasWithin (s.currentEra.getD 0 + p.bondingDuration) l.unlocking →
      f l = .ok (some l') →
        l'.WellFormed ∧ ErasWithin (s.currentEra.getD 0 + p.bondingDuration) l'.unlocking) :
    (s.update f).Invariant p := by
  unfold LedgerState.update
  split
  · exact hs
  · rename_i l hl
    obtain ⟨hwf, hwithin⟩ := hs l hl
    split
    · rename_i ledger hok
      intro l' hl'
      cases ledger with
      | none => cases hl'
      | some ledger =>
        cases hl'
        exact hf l l' hwf hwithin hok
    · exact hs

theorem invariant_applyLedgerCall {p : StakingParams} {s : LedgerState} (hs : s.Invariant p)
    (call : LedgerCall) : (applyLedgerCall p s call).Invariant p := by
  cases call with
  | bondExtra stashBalance maxAdditional =>
    refine invariant_update hs fun l l' hl hwithin h => ?_
    exact wellFormed_bondExtra hl hwithin (map_some_eq_ok h)
  | unbond value =>
    refine invariant_update hs fun l l' hl hwithin h => ?_
    exact wellFormed_unbond hl hwithin (map_some_eq_ok h)
  | withdrawUnbonded killStash =>
    refine invariant_update hs fun l l' hl hwithin h => ?_
    rcases withdrawUnbonded_ok h with rfl | ⟨era, rfl⟩
    · exact ⟨hl, hwithin⟩
    · exact wellFormed_consolidateUnlocked hl hwithin era
  | rebond value =>
    refine invariant_update hs fun l l' hl hwithin h => ?_
    rw [rebond_ok (map_some_eq_ok h)]
    exact wellFormed_rebond value hl hwithin
  | slash value =>
    refine invariant_update hs fun l l' hl hwithin h => ?_
    cases h
    rcases doSlash_cases (l := l) value p.minimumBalance with h | h <;> rw [h]
    · exact ⟨hl, hwithin⟩
    · exact wellFormed_slash p.minimumBalance hl hwithin value
  | newEra =>
    -- the new era only moves the bound up
    have hera : s.currentEra.getD 0 ≤ (s.currentEra.map (· + 1)).getD 0 := by
      cases s.currentEra <;> simp
    intro l hl
    obtain ⟨hwf, hwithin⟩ := hs l hl
    exact ⟨hwf, fun c hc => (hwithin c hc).trans (Nat.add_le_add_right hera _)⟩

theorem invariant_run (p : StakingParams) (calls : List LedgerCall) {s : LedgerState}
    (hs : s.Invariant p) : (StepMachine.run (applyLedgerCall p) s calls).Invariant p := by
  have hstep : ∀ s call, s.Invariant p → (applyLedgerCall p s call).Invariant p :=
    fun _ call hs => invariant_applyLedgerCall hs call
  exact StepMachine.run_invariant _ hstep calls hs

/-- The staking ledger with the era bound: the four properties of the ledger hold along every
run from a state where no chunk is due after `current_era + BondingDuration`; `rebond` moves
`min value Σ unlocking` from the newest chunks into `active`; `consolidate_unlocked` drops
exactly the chunks that are due and takes their sum off the total; and a slash returns exactly
what it takes off the total, at least `min value total`, leaves no dust in `active` or in a
chunk, and removes the chunks it drains. -/
theorem stakingLedger_invariant_of_eras_bounded (p : StakingParams) :
    (∀ (s : LedgerState) (calls : List LedgerCall), s.Invariant p →
      (StepMachine.run (applyLedgerCall p) s calls).Invariant p) ∧
    (∀ (l : StakingLedger) (value : ℕ),
      (l.rebond value).total = l.total ∧
      (l.rebond value).active = l.active + min value (unlockingSum l.unlocking) ∧
      unlockingSum (l.rebond value).unlocking =
        unlockingSum l.unlocking - min value (unlockingSum l.unlocking) ∧
      List.IsPrefix (l.rebond value).unlocking.dropLast l.unlocking ∧
      List.IsPrefix ((l.rebond value).unlocking.map (·.era)) (l.unlocking.map (·.era))) ∧
    (∀ (l : StakingLedger) (currentEra : ℕ), l.WellFormed →
      (l.consolidateUnlocked currentEra).unlocking =
          l.unlocking.filter (fun c => currentEra < c.era) ∧
        (l.consolidateUnlocked currentEra).total +
          unlockingSum (l.unlocking.filter fun c => c.era ≤ currentEra) = l.total) ∧
    (∀ (l : StakingLedger) (value : ℕ), l.WellFormed →
      (l.slash value p.minimumBalance).2.total + (l.slash value p.minimumBalance).1 = l.total ∧
      min value l.total ≤ (l.slash value p.minimumBalance).1 ∧
      ((l.slash value p.minimumBalance).2.active = 0 ∨
        p.minimumBalance < (l.slash value p.minimumBalance).2.active ∨
        (l.slash value p.minimumBalance).2.active = l.active) ∧
      (∃ k, List.Forall₂ (SlashedTo p.minimumBalance) (l.unlocking.drop k)
        (l.slash value p.minimumBalance).2.unlocking) ∧
      ∀ c ∈ (l.slash value p.minimumBalance).2.unlocking, 0 < c.value) := by
  refine ⟨fun s calls hs => invariant_run p calls hs, ?_, ?_, ?_⟩
  · intro l value
    exact ⟨rfl, active_rebond value l, unlockingSum_rebond value l,
      rebond_keeps_oldest_chunks value l⟩
  · intro l currentEra hl
    refine ⟨?_, total_consolidateUnlocked_add hl.total_eq currentEra⟩
    rw [consolidateUnlocked_eq]
  · intro l value hl
    exact ⟨total_slash_add _ l value, min_le_slash _ hl.total_eq value, active_slash _ l value,
      forall₂_slash _ l value, value_pos_slash _ hl.value_pos value⟩

theorem stakingLedger_invariant_of_eras_bounded_example :
    (StepMachine.run (applyLedgerCall ⟨1, 28⟩) ⟨some ⟨20, 10, [⟨10, 28⟩]⟩, some 0⟩
        [.unbond 5, .newEra, .rebond 3, .slash 4, .withdrawUnbonded true]).Invariant ⟨1, 28⟩ ∧
      (StakingLedger.consolidateUnlocked ⟨20, 10, [⟨10, 28⟩]⟩ 30).total +
        unlockingSum ([⟨10, 28⟩].filter fun c => c.era ≤ 30) = 20 ∧
      min 4 20 ≤ ((⟨20, 10, [⟨10, 28⟩]⟩ : StakingLedger).slash 4 1).1 :=
  ⟨(stakingLedger_invariant_of_eras_bounded ⟨1, 28⟩).1 _ _ (by decide),
    ((stakingLedger_invariant_of_eras_bounded ⟨1, 28⟩).2.2.1 ⟨20, 10, [⟨10, 28⟩]⟩ 30
      (by decide)).2,
    ((stakingLedger_invariant_of_eras_bounded ⟨1, 28⟩).2.2.2 ⟨20, 10, [⟨10, 28⟩]⟩ 4
      (by decide)).2.1⟩

/-- Without the era bound the order of the eras is lost: a well-formed ledger with a chunk due at
era 1000 while the current era is 0, and an `unbond` of 5 with a bonding duration of 28, appends
a chunk due at era 28 behind it. -/
theorem unbond_breaks_era_order :
    (⟨20, 10, [⟨10, 1000⟩]⟩ : StakingLedger).WellFormed ∧
      applyLedgerCall ⟨1, 28⟩ ⟨some ⟨20, 10, [⟨10, 1000⟩]⟩, some 0⟩ (.unbond 5) =
        ⟨some ⟨20, 5, [⟨10, 1000⟩, ⟨5, 28⟩]⟩, some 0⟩ ∧
      ¬ (⟨20, 5, [⟨10, 1000⟩, ⟨5, 28⟩]⟩ : StakingLedger).WellFormed := by
  decide

end Tetcore.Staking
