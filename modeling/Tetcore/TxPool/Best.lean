import Tetcore.TxPool.BasePool
import Tetcore.Lib.Schedule

/-!
# The order in which the ready queue hands out transactions

`BestIterator` of `client/transaction-pool/graph/src/ready.rs`. `get` clones the queue's map of
ready transactions and its set `best`; every `next` takes the greatest reference out of `best`,
yields its transaction and counts one more met requirement for each hash in its `unlocks`: a
transaction whose requirements are all met goes to `best`, any other waits in `awaiting` with its
count. The map `all` is the queue's own map, shared with it; here nothing changes it while the
iterator runs.

On a queue whose indexes agree (`GraphInvariant`) the iterator lists a greedy schedule of the
dependency graph (`Schedule.Greedy`): each transaction after the ready transactions that provide
its tags, and at each step the greatest one that is ready. It yields exactly the transactions that
no chain of dependencies leads to from a cycle, so all of them when the graph is acyclic; the
queue can hold a cycle, and then it yields neither transaction of it.
-/

namespace Tetcore.TxPool

variable {H T : Type}

/-- `Ord for TransactionRef`: by priority, then the one valid for less time, then the one inserted
earlier. -/
def TransactionRef.cmp (self other : TransactionRef H T) : Ordering :=
  (compare self.transaction.priority other.transaction.priority).then
    ((compare other.transaction.validTill self.transaction.validTill).then
      (compare other.insertionId self.insertionId))

/-- `r` is greater than `r'` under `Ord`: a higher priority, then valid for less time, then
inserted earlier. -/
def TransactionRef.Above (r r' : TransactionRef H T) : Prop :=
  r'.transaction.priority < r.transaction.priority ∨
    r'.transaction.priority = r.transaction.priority ∧
      (r.transaction.validTill < r'.transaction.validTill ∨
        r.transaction.validTill = r'.transaction.validTill ∧ r.insertionId < r'.insertionId)

namespace TransactionRef

theorem cmp_eq_gt_iff (r r' : TransactionRef H T) : r.cmp r' = .gt ↔ r.Above r' := by
  simp only [cmp, Above, Ordering.then_eq_gt, Nat.compare_eq_gt, Nat.compare_eq_eq]
  omega

theorem Above.irrefl (r : TransactionRef H T) : ¬r.Above r := by
  unfold Above
  omega

theorem Above.trans {r₁ r₂ r₃ : TransactionRef H T} (h₁₂ : r₁.Above r₂) (h₂₃ : r₂.Above r₃) :
    r₁.Above r₃ := by
  unfold Above at *
  omega

theorem key_eq_of_not_above {r r' : TransactionRef H T} (h : ¬r.Above r') (h' : ¬r'.Above r) :
    r.key = r'.key := by
  unfold Above at h h'
  simp only [key, Prod.mk.injEq]
  omega

end TransactionRef

/-- `best.iter().next_back()`: the greatest reference of the set. -/
def last (best : List (TransactionRef H T)) : Option (TransactionRef H T) :=
  best.foldl (fun greatest r =>
    match greatest with
    | some m => if r.cmp m = .gt then some r else some m
    | none => some r) none

theorem foldl_last_spec (best : List (TransactionRef H T)) :
    ∀ {seen : List (TransactionRef H T)} {m : TransactionRef H T}, m ∈ seen →
      (∀ r ∈ seen, ¬r.Above m) →
      ∃ m', best.foldl (fun greatest r =>
          match greatest with
          | some m => if r.cmp m = .gt then some r else some m
          | none => some r) (some m) = some m' ∧
        m' ∈ seen ++ best ∧ ∀ r ∈ seen ++ best, ¬r.Above m' := by
  induction best with
  | nil =>
    intro seen m hm hmax
    exact ⟨m, rfl, by simpa using hm, by simpa using hmax⟩
  | cons r best ih =>
    intro seen m hm hmax
    have hsplit : seen ++ r :: best = (seen ++ [r]) ++ best := by simp
    rw [List.foldl_cons, hsplit]
    dsimp only
    by_cases habove : r.Above m
    · -- `r` is the new greatest: what was below `m` is below `r`
      rw [if_pos ((TransactionRef.cmp_eq_gt_iff r m).mpr habove)]
      refine ih (by simp) fun s hs hsr => ?_
      rcases List.mem_append.mp hs with hs | hs
      · exact hmax s hs (hsr.trans habove)
      · rw [List.mem_singleton.mp hs] at hsr
        exact TransactionRef.Above.irrefl r hsr
    · rw [if_neg (mt (TransactionRef.cmp_eq_gt_iff r m).mp habove)]
      refine ih (List.mem_append_left _ hm) fun s hs => ?_
      rcases List.mem_append.mp hs with hs | hs
      · exact hmax s hs
      · rw [List.mem_singleton.mp hs]
        exact habove

theorem last_spec {best : List (TransactionRef H T)} {m : TransactionRef H T}
    (h : last best = some m) : m ∈ best ∧ ∀ r ∈ best, ¬r.Above m := by
  cases best with
  | nil => cases h
  | cons r best =>
    obtain ⟨m', hfold, hmem, hmax⟩ :=
      foldl_last_spec best (List.mem_singleton_self r) fun s hs => by
        rw [List.mem_singleton.mp hs]
        exact TransactionRef.Above.irrefl r
    rw [last, List.foldl_cons, hfold] at h
    cases h
    exact ⟨by simpa using hmem, by simpa using hmax⟩

theorem last_eq_none {best : List (TransactionRef H T)} (h : last best = none) : best = [] := by
  cases best with
  | nil => rfl
  | cons r best =>
    obtain ⟨m', hfold, -⟩ :=
      foldl_last_spec best (List.mem_singleton_self r) fun s hs => by
        rw [List.mem_singleton.mp hs]
        exact TransactionRef.Above.irrefl r
    rw [last, List.foldl_cons, hfold] at h
    cases h

theorem bestInsert_of_forall_ne {best : List (TransactionRef H T)} {r : TransactionRef H T}
    (h : ∀ r' ∈ best, r'.key ≠ r.key) : bestInsert best r = r :: best := by
  rw [bestInsert, if_neg]
  simpa using h

theorem length_bestRemove_lt {best : List (TransactionRef H T)} {m : TransactionRef H T}
    (hm : m ∈ best) : (bestRemove best m).length < best.length :=
  List.length_filter_lt_length_iff_exists.mpr ⟨m, hm, by simp⟩

variable [DecidableEq H]

structure BestIterator (H T : Type) [DecidableEq H] where
  all : ReadyMap H T
  awaiting : AList fun _ : H => ℕ × TransactionRef H T
  best : List (TransactionRef H T)

namespace BestIterator

/-- `best_or_awaiting`: to `best` once every requirement is met, else to `awaiting`. -/
def bestOrAwaiting (it : BestIterator H T) (satisfied : ℕ) (txRef : TransactionRef H T) :
    BestIterator H T :=
  if txRef.transaction.requires.length ≤ satisfied then { it with best := bestInsert it.best txRef }
  else { it with awaiting := it.awaiting.insert txRef.transaction.hash (satisfied, txRef) }

/-- One round of the loop of `next` over `ready.unlocks`: one more requirement of `hash` is met. -/
def unlock (it : BestIterator H T) (hash : H) : BestIterator H T :=
  match it.awaiting.lookup hash with
  | some (satisfied, txRef) =>
    ({ it with awaiting := it.awaiting.erase hash }).bestOrAwaiting (satisfied + 1) txRef
  | none =>
    match it.all.lookup hash with
    | some next => it.bestOrAwaiting (next.requiresOffset + 1) next.transaction
    | none => it

/-- `Iterator::next`. -/
def next (it : BestIterator H T) : Option (Transaction H T × BestIterator H T) :=
  match _hlast : last it.best with
  | none => none
  | some best =>
    let it' := { it with best := bestRemove it.best best }
    match it'.all.lookup best.transaction.hash with
    -- the transaction left the map in the meantime: take the next one
    | none => it'.next
    | some ready => some (best.transaction, ready.unlocks.foldl unlock it')
termination_by it.best.length
decreasing_by exact length_bestRemove_lt (last_spec _hlast).1

/-- The iterator yields the transactions `L`, then nothing. -/
inductive Yields : BestIterator H T → List (Transaction H T) → Prop
  | done {it : BestIterator H T} : it.next = none → Yields it []
  | step {it it' : BestIterator H T} {tx : Transaction H T} {L : List (Transaction H T)} :
    it.next = some (tx, it') → Yields it' L → Yields it (tx :: L)

theorem next_of_last_none {it : BestIterator H T} (h : last it.best = none) : it.next = none := by
  rw [next]
  split
  · rfl
  · rename_i hlast
    rw [h] at hlast
    cases hlast

theorem next_of_lookup {it : BestIterator H T} {m : TransactionRef H T} {ready : ReadyTx H T}
    (h : last it.best = some m) (hready : it.all.lookup m.transaction.hash = some ready) :
    it.next = some (m.transaction,
      ready.unlocks.foldl unlock { it with best := bestRemove it.best m }) := by
  rw [next]
  split
  · rename_i hlast
    rw [h] at hlast
    cases hlast
  · rename_i m' hlast
    rw [h, Option.some.injEq] at hlast
    subst hlast
    dsimp only
    rw [hready]

end BestIterator

namespace ReadyTransactions

/-- `get`: an iterator over the ready transactions. -/
def get (rt : ReadyTransactions H T) : BestIterator H T := ⟨rt.ready, ∅, rt.best⟩

/-- The ready transaction `u` requires a tag that `p` provides in the queue. -/
def Depends (rt : ReadyTransactions H T) (p u : H) : Prop :=
  ∃ tx, rt.ready.lookup u = some tx ∧
    ∃ tag ∈ tx.transaction.transaction.requires, rt.providedTags tag = some p

/-- The ready transaction `y` is not greater than `x` under `Ord`. -/
def NotAbove (rt : ReadyTransactions H T) (y x : H) : Prop :=
  ∀ ty tx, rt.ready.lookup y = some ty → rt.ready.lookup x = some tx →
    ¬ty.transaction.Above tx.transaction

/-- The invariant of the dependency graph: the indexes agree, each transaction is stored under its
hash, `best` holds the references of the map, and no two transactions share the key of `Ord`. -/
structure GraphInvariant (rt : ReadyTransactions H T) : Prop where
  consistent : rt.Consistent
  hash : ∀ h tx, rt.ready.lookup h = some tx → tx.transaction.transaction.hash = h
  bestRefs : ∀ r ∈ rt.best, ∃ h tx, rt.ready.lookup h = some tx ∧ tx.transaction = r
  bestNodup : (rt.best.map TransactionRef.key).Nodup
  key : ∀ h h' tx tx', rt.ready.lookup h = some tx → rt.ready.lookup h' = some tx' →
    tx.transaction.key = tx'.transaction.key → h = h'

theorem countP_or_of_disjoint {α : Type} {p q : α → Bool} :
    ∀ l : List α, (∀ a ∈ l, ¬(p a = true ∧ q a = true)) →
      l.countP (fun a => p a || q a) = l.countP p + l.countP q
  | [], _ => rfl
  | a :: l, h => by
    have ih := countP_or_of_disjoint l fun b hb => h b (List.mem_cons_of_mem a hb)
    have ha := h a List.mem_cons_self
    simp only [List.countP_cons, ih]
    cases hp : p a <;> cases hq : q a <;> simp [hp, hq] at ha ⊢ <;> omega

section Iteration

variable (rt : ReadyTransactions H T)

/-- How many times the `unlocks` of the transactions `Y` name `h`. -/
def unlockCount (Y : List H) (h : H) : ℕ :=
  (Y.map fun y => ((rt.ready.lookup y).map fun tx => tx.unlocks.count h).getD 0).sum

/-- `r` belongs in `best` once the transactions `Y` are yielded and `c h` requirements of each `h`
were met on the way: it is the reference of a transaction not yielded with all of them met. -/
def InBest (Y : List H) (c : H → ℕ) (r : TransactionRef H T) : Prop :=
  ∃ h tx, rt.ready.lookup h = some tx ∧ h ∉ Y ∧ tx.transaction = r ∧
    tx.transaction.transaction.requires.length ≤ tx.requiresOffset + c h

/-- Where `awaiting` keeps `h` once `c h` of its requirements were met: with its count, while
some but not all of them are. -/
def awaitingEntry (c : H → ℕ) (h : H) : Option (ℕ × TransactionRef H T) :=
  (rt.ready.lookup h).bind fun tx =>
    if 0 < c h ∧ tx.requiresOffset + c h < tx.transaction.transaction.requires.length then
      some (tx.requiresOffset + c h, tx.transaction)
    else none

/-- The state of an iterator over `rt` once the transactions `Y` are yielded and `c h`
requirements of each `h` were met. -/
structure Tracks (Y : List H) (c : H → ℕ) (it : BestIterator H T) : Prop where
  all : it.all = rt.ready
  best : ∀ r, r ∈ it.best ↔ rt.InBest Y c r
  bestNodup : (it.best.map TransactionRef.key).Nodup
  awaiting : ∀ h, it.awaiting.lookup h = rt.awaitingEntry c h

variable {rt} {Y : List H} {c c' : H → ℕ} {it : BestIterator H T}

theorem Tracks.congr (ht : rt.Tracks Y c it)
    (hc : ∀ h tx, rt.ready.lookup h = some tx → c h = c' h) : rt.Tracks Y c' it where
  all := ht.all
  best r := by
    rw [ht.best]
    constructor
    · rintro ⟨h, tx, htx, hY, hr, hle⟩
      exact ⟨h, tx, htx, hY, hr, by rw [← hc h tx htx]; exact hle⟩
    · rintro ⟨h, tx, htx, hY, hr, hle⟩
      exact ⟨h, tx, htx, hY, hr, by rw [hc h tx htx]; exact hle⟩
  bestNodup := ht.bestNodup
  awaiting h := by
    rw [ht.awaiting, awaitingEntry, awaitingEntry]
    cases htx : rt.ready.lookup h with
    | none => rfl
    | some tx => simp only [Option.bind_some, hc h tx htx]

theorem inBest_add_one {h : H} {tx : ReadyTx H T} (htx : rt.ready.lookup h = some tx)
    (hY : h ∉ Y) (r : TransactionRef H T) :
    rt.InBest Y (fun h' => c h' + if h' = h then 1 else 0) r ↔ rt.InBest Y c r ∨
      r = tx.transaction ∧ tx.transaction.transaction.requires.length ≤ tx.requiresOffset + c h + 1 := by
  constructor
  · rintro ⟨h', tx', htx', hY', rfl, hle⟩
    dsimp only at hle
    by_cases hh : h' = h
    · subst hh
      rw [htx] at htx'
      cases htx'
      rw [if_pos rfl] at hle
      exact .inr ⟨rfl, by omega⟩
    · rw [if_neg hh, Nat.add_zero] at hle
      exact .inl ⟨h', tx', htx', hY', rfl, hle⟩
  · rintro (⟨h', tx', htx', hY', rfl, hle⟩ | ⟨rfl, hle⟩)
    · refine ⟨h', tx', htx', hY', rfl, ?_⟩
      dsimp only
      split_ifs <;> omega
    · refine ⟨h, tx, htx, hY, rfl, ?_⟩
      dsimp only
      rw [if_pos rfl]
      omega

theorem unlockCount_nil (h : H) : rt.unlockCount [] h = 0 := rfl

theorem unlockCount_cons (y : H) (Y : List H) (h : H) :
    rt.unlockCount (y :: Y) h =
      ((rt.ready.lookup y).map fun ty => ty.unlocks.count h).getD 0 + rt.unlockCount Y h := by
  simp [unlockCount]

theorem unlockCount_append_singleton {y : H} {ty : ReadyTx H T} (hy : rt.ready.lookup y = some ty)
    (h : H) : rt.unlockCount (Y ++ [y]) h = rt.unlockCount Y h + ty.unlocks.count h := by
  simp [unlockCount, hy]

theorem awaitingEntry_congr {h : H} (hc : c h = c' h) :
    rt.awaitingEntry c h = rt.awaitingEntry c' h := by
  unfold awaitingEntry
  rw [hc]

theorem Tracks.bestOrAwaiting (hg : rt.GraphInvariant) (ht : rt.Tracks Y c it) {h : H}
    {tx : ReadyTx H T} (htx : rt.ready.lookup h = some tx) (hY : h ∉ Y)
    (hlt : tx.requiresOffset + c h < tx.transaction.transaction.requires.length)
    {aw : AList fun _ : H => ℕ × TransactionRef H T} (haw : aw.lookup h = none)
    (haw' : ∀ h', h' ≠ h → aw.lookup h' = it.awaiting.lookup h') :
    rt.Tracks Y (fun h' => c h' + if h' = h then 1 else 0)
      (({ it with awaiting := aw } : BestIterator H T).bestOrAwaiting
        (tx.requiresOffset + c h + 1) tx.transaction) := by
  have hhash : tx.transaction.transaction.hash = h := hg.hash h tx htx
  -- a reference in `best` with the key of `h`'s would be `h`'s, not all of whose requirements
  -- were met
  have hfresh : ∀ r ∈ it.best, r.key ≠ tx.transaction.key := by
    intro r hr hkey
    obtain ⟨h', tx', htx', -, rfl, hle⟩ := (ht.best r).mp hr
    obtain rfl := hg.key h' h tx' tx htx' htx hkey
    rw [htx] at htx'
    cases htx'
    omega
  have hother : ∀ h', h' ≠ h →
      rt.awaitingEntry (fun h' => c h' + if h' = h then 1 else 0) h' = it.awaiting.lookup h' := by
    intro h' hne
    rw [ht.awaiting, awaitingEntry_congr]
    simp [hne]
  unfold BestIterator.bestOrAwaiting
  split_ifs with hle
  · -- every requirement met: to `best`
    refine ⟨ht.all, fun r => ?_, ?_, fun h' => ?_⟩
    · dsimp only
      rw [bestInsert_of_forall_ne hfresh, List.mem_cons, inBest_add_one htx hY, ht.best]
      constructor
      · rintro (rfl | hr)
        · exact .inr ⟨rfl, hle⟩
        · exact .inl hr
      · rintro (hr | ⟨rfl, -⟩)
        · exact .inr hr
        · exact .inl rfl
    · dsimp only
      rw [bestInsert_of_forall_ne hfresh, List.map_cons, List.nodup_cons]
      refine ⟨fun hmem => ?_, ht.bestNodup⟩
      obtain ⟨r, hr, hkey⟩ := List.mem_map.mp hmem
      exact hfresh r hr hkey
    · dsimp only
      by_cases hh : h' = h
      · subst hh
        rw [haw, awaitingEntry, htx, Option.bind_some, if_neg]
        simp only [if_true]
        omega
      · exact (haw' h' hh).trans (hother h' hh).symm
  · -- some requirement left: to `awaiting`, with its count
    refine ⟨ht.all, fun r => ?_, ht.bestNodup, fun h' => ?_⟩
    · rw [inBest_add_one htx hY, ← ht.best]
      exact (or_iff_left fun hr => hle hr.2).symm
    · dsimp only
      rw [hhash]
      by_cases hh : h' = h
      · subst hh
        rw [AList.lookup_insert, awaitingEntry, htx, Option.bind_some, if_pos]
        · simp only [if_true, Nat.add_assoc]
        · simp only [if_true]
          omega
      · rw [AList.lookup_insert_ne hh, haw' h' hh, hother h' hh]

theorem Tracks.unlock (hg : rt.GraphInvariant) (ht : rt.Tracks Y c it) {h : H}
    (hpre : ∀ tx, rt.ready.lookup h = some tx →
      h ∉ Y ∧ tx.requiresOffset + c h < tx.transaction.transaction.requires.length) :
    rt.Tracks Y (fun h' => c h' + if h' = h then 1 else 0) (it.unlock h) := by
  unfold BestIterator.unlock
  cases haw : it.awaiting.lookup h with
  | some entry =>
    -- `h` waits with its count: it is in the map, with some but not all requirements met
    obtain ⟨satisfied, txRef⟩ := entry
    rw [ht.awaiting, awaitingEntry, Option.bind_eq_some_iff] at haw
    obtain ⟨tx, htx, hentry⟩ := haw
    split_ifs at hentry
    cases hentry
    obtain ⟨hY, hlt⟩ := hpre tx htx
    exact ht.bestOrAwaiting hg htx hY hlt (AList.lookup_erase h _)
      fun h' hne => AList.lookup_erase_ne hne
  | none =>
    dsimp only
    rw [ht.all]
    cases htx : rt.ready.lookup h with
    | some tx =>
      obtain ⟨hY, hlt⟩ := hpre tx htx
      -- `h` never waited, so none of its requirements was met yet
      have hc : c h = 0 := by
        rw [ht.awaiting, awaitingEntry, htx, Option.bind_some] at haw
        split_ifs at haw with hcond
        omega
      have hstep := ht.bestOrAwaiting hg htx hY hlt haw fun _ _ => rfl
      rw [hc, Nat.add_zero] at hstep
      exact hstep
    | none =>
      -- `h` is not in the map: only its count changes
      refine ht.congr fun h' tx' htx' => ?_
      have hne : h' ≠ h := by
        rintro rfl
        rw [htx] at htx'
        cases htx'
      simp [hne]

theorem Tracks.foldl_unlock (hg : rt.GraphInvariant) : ∀ (U : List H) {c : H → ℕ}
    {it : BestIterator H T}, rt.Tracks Y c it →
    (∀ h tx, rt.ready.lookup h = some tx → h ∈ U →
      h ∉ Y ∧ tx.requiresOffset + c h + U.count h ≤ tx.transaction.transaction.requires.length) →
    rt.Tracks Y (fun h => c h + U.count h) (U.foldl BestIterator.unlock it)
  | [], c, it, ht, _ => ht.congr fun _ _ _ => by simp
  | h :: U, c, it, ht, hpre => by
    rw [List.foldl_cons]
    have hstep := ht.unlock hg fun tx htx => by
      obtain ⟨hY, hle⟩ := hpre h tx htx List.mem_cons_self
      rw [List.count_cons_self] at hle
      exact ⟨hY, by omega⟩
    refine (hstep.foldl_unlock hg U fun h' tx' htx' hh' => ?_).congr fun h' _ _ => ?_
    · obtain ⟨hY, hle⟩ := hpre h' tx' htx' (List.mem_cons_of_mem h hh')
      refine ⟨hY, ?_⟩
      by_cases hh : h' = h
      · subst hh
        rw [List.count_cons_self] at hle
        simp only [if_true]
        omega
      · rw [List.count_cons_of_ne (Ne.symm hh)] at hle
        simp only [hh, if_false]
        omega
    · by_cases hh : h' = h
      · subst hh
        simp only [if_true, List.count_cons_self]
        omega
      · simp only [hh, if_false, List.count_cons_of_ne (Ne.symm hh)]
        omega

section Graph

variable (hg : rt.GraphInvariant)
include hg

theorem GraphInvariant.offset_le {h : H} {tx : ReadyTx H T} (htx : rt.ready.lookup h = some tx) :
    tx.requiresOffset ≤ tx.transaction.transaction.requires.length := by
  rw [hg.consistent.requiresOffset h tx htx]
  exact List.countP_le_length

theorem GraphInvariant.mem_keys_of_depends {p u : H} (hdep : rt.Depends p u) :
    p ∈ rt.ready.keys := by
  obtain ⟨-, -, tag, -, hp⟩ := hdep
  obtain ⟨ty, hty, -⟩ := hg.consistent.onlyProvided tag p hp
  exact AList.mem_keys.mp (AList.lookup_isSome.mp (by simp [hty]))

theorem GraphInvariant.count_unlocks {h : H} {tx : ReadyTx H T} (htx : rt.ready.lookup h = some tx)
    (y : H) : ((rt.ready.lookup y).map fun ty => ty.unlocks.count h).getD 0 =
      tx.transaction.transaction.requires.countP fun tag => rt.providedTags tag = some y := by
  cases hy : rt.ready.lookup y with
  | some ty =>
    rw [Option.map_some, Option.getD_some, hg.consistent.unlocks y ty hy h, htx]
    rfl
  | none =>
    -- no tag maps to `y`, which is not in the map
    rw [Option.map_none, Option.getD_none, eq_comm, List.countP_eq_zero]
    intro tag _ hp
    obtain ⟨ty, hty, -⟩ := hg.consistent.onlyProvided tag y (by simpa using hp)
    rw [hy] at hty
    cases hty

theorem GraphInvariant.depends_of_mem_unlocks {h h' : H} {tx tx' : ReadyTx H T}
    (htx : rt.ready.lookup h = some tx) (htx' : rt.ready.lookup h' = some tx')
    (hmem : h' ∈ tx.unlocks) : rt.Depends h h' := by
  have hcount := hg.count_unlocks htx' h
  rw [htx, Option.map_some, Option.getD_some] at hcount
  have hpos : 0 < tx'.transaction.transaction.requires.countP
      fun tag => rt.providedTags tag = some h := by
    rw [← hcount]
    exact List.count_pos_iff.mpr hmem
  obtain ⟨tag, htag, hp⟩ := List.countP_pos_iff.mp hpos
  exact ⟨tx', htx', tag, htag, by simpa using hp⟩

theorem GraphInvariant.offset_add_unlockCount {h : H} {tx : ReadyTx H T}
    (htx : rt.ready.lookup h = some tx) : ∀ {Y : List H}, Y.Nodup →
      tx.requiresOffset + rt.unlockCount Y h =
        tx.transaction.transaction.requires.countP fun tag => (rt.providedTags tag).all (· ∈ Y)
  | [], _ => by
    rw [unlockCount_nil, Nat.add_zero, hg.consistent.requiresOffset h tx htx]
    congr 1
    funext tag
    cases rt.providedTags tag <;> simp
  | y :: Y, hnodup => by
    obtain ⟨hy, hnodup⟩ := List.nodup_cons.mp hnodup
    have ih := GraphInvariant.offset_add_unlockCount htx hnodup
    -- a tag is met after `y` when it was before, or when `y` provides it
    have hsplit : (fun tag => (rt.providedTags tag).all (· ∈ y :: Y)) =
        fun tag => (rt.providedTags tag).all (· ∈ Y) || decide (rt.providedTags tag = some y) := by
      funext tag
      cases rt.providedTags tag with
      | none => rfl
      | some p =>
        by_cases hp : p = y
        · subst hp
          simp
        · simp [hp]
    rw [unlockCount_cons, hg.count_unlocks htx y, hsplit, countP_or_of_disjoint]
    · omega
    · intro tag _ hboth
      obtain ⟨hall, hyes⟩ := hboth
      rw [decide_eq_true_eq] at hyes
      rw [hyes] at hall
      exact hy (by simpa using hall)

theorem GraphInvariant.satisfied_iff {Y : List H} (hY : Y.Nodup) {h : H} {tx : ReadyTx H T}
    (htx : rt.ready.lookup h = some tx) :
    tx.transaction.transaction.requires.length ≤ tx.requiresOffset + rt.unlockCount Y h ↔
      Schedule.Available rt.Depends Y h := by
  rw [hg.offset_add_unlockCount htx hY]
  constructor
  · rintro hle p ⟨tx', htx', tag, htag, hp⟩
    rw [htx] at htx'
    cases htx'
    have hall := List.countP_eq_length.mp (le_antisymm List.countP_le_length hle) tag htag
    rw [hp] at hall
    simpa using hall
  · intro havail
    refine (List.countP_eq_length.mpr fun tag htag => ?_).ge
    cases hp : rt.providedTags tag with
    | none => rfl
    | some p => simpa using havail p ⟨tx, htx, tag, htag, hp⟩

end Graph

variable (rt) in
/-- An iterator over `rt` that has yielded the transactions `Y`: each once, each after the
transactions that provide its tags, and in the state `Tracks` describes. -/
structure Iterating (Y : List H) (it : BestIterator H T) : Prop where
  nodup : Y.Nodup
  mem : ∀ y ∈ Y, y ∈ rt.ready.keys
  closed : ∀ y ∈ Y, Schedule.Available rt.Depends Y y
  tracks : rt.Tracks Y (rt.unlockCount Y) it

section Graph

variable (hg : rt.GraphInvariant)
include hg

theorem GraphInvariant.iterating_get : rt.Iterating [] rt.get where
  nodup := List.nodup_nil
  mem := by simp
  closed := by simp
  tracks := {
    all := rfl
    best := fun r => by
      constructor
      · intro hr
        obtain ⟨h, tx, htx, rfl⟩ := hg.bestRefs r hr
        -- the queue's own `best` holds the transactions with no requirement left
        obtain ⟨h', tx', htx', hkey, hoffset⟩ :=
          (hg.consistent.best tx.transaction.key).mp (List.mem_map_of_mem hr)
        obtain rfl := hg.key h h' tx tx' htx htx' hkey.symm
        rw [htx] at htx'
        cases htx'
        exact ⟨h, tx, htx, List.not_mem_nil, rfl, by rw [unlockCount_nil]; omega⟩
      · rintro ⟨h, tx, htx, -, rfl, hle⟩
        rw [unlockCount_nil, Nat.add_zero] at hle
        obtain ⟨r, hr, hkey⟩ := List.mem_map.mp ((hg.consistent.best tx.transaction.key).mpr
          ⟨h, tx, htx, rfl, le_antisymm (hg.offset_le htx) hle⟩)
        obtain ⟨h', tx', htx', rfl⟩ := hg.bestRefs r hr
        obtain rfl := hg.key h' h tx' tx htx' htx hkey
        rw [htx] at htx'
        cases htx'
        exact hr
    bestNodup := hg.bestNodup
    awaiting := fun h => by
      simp [get, awaitingEntry, unlockCount_nil] }

variable {h : H} {tx : ReadyTx H T}

theorem Iterating.yield (hi : rt.Iterating Y it) (htx : rt.ready.lookup h = some tx) (hY : h ∉ Y)
    (havail : Schedule.Available rt.Depends Y h) :
    rt.Iterating (Y ++ [h])
      (tx.unlocks.foldl BestIterator.unlock { it with best := bestRemove it.best tx.transaction }) where
  nodup := by
    rw [← List.concat_eq_append]
    exact hi.nodup.concat hY
  mem y hy := by
    rcases List.mem_append.mp hy with hy | hy
    · exact hi.mem y hy
    · rw [List.mem_singleton.mp hy]
      exact AList.mem_keys.mp (AList.lookup_isSome.mp (by simp [htx]))
  closed y hy := by
    rcases List.mem_append.mp hy with hy | hy
    · exact (hi.closed y hy).mono (List.subset_append_left Y [h])
    · rw [List.mem_singleton.mp hy]
      exact havail.mono (List.subset_append_left Y [h])
  tracks := by
    have hnodup : (Y ++ [h]).Nodup := by
      rw [← List.concat_eq_append]
      exact hi.nodup.concat hY
    -- `h` leaves `best`: no other transaction has its key
    have hremoved : rt.Tracks (Y ++ [h]) (rt.unlockCount Y)
        { it with best := bestRemove it.best tx.transaction } := {
      all := hi.tracks.all
      best := fun r => by
        dsimp only
        rw [bestRemove, List.mem_filter, hi.tracks.best]
        constructor
        · rintro ⟨⟨h', tx', htx', hY', rfl, hle⟩, hkey⟩
          refine ⟨h', tx', htx', fun hmem => ?_, rfl, hle⟩
          rcases List.mem_append.mp hmem with hmem | hmem
          · exact hY' hmem
          · rw [List.mem_singleton.mp hmem, htx] at htx'
            cases htx'
            simp at hkey
        · rintro ⟨h', tx', htx', hY', rfl, hle⟩
          refine ⟨⟨h', tx', htx', fun hmem => hY' (List.mem_append_left _ hmem), rfl, hle⟩, ?_⟩
          rw [bne_iff_ne]
          intro hkey
          obtain rfl := hg.key h' h tx' tx htx' htx hkey
          exact hY' (by simp)
      bestNodup := hi.tracks.bestNodup.sublist ((List.filter_sublist).map _)
      awaiting := hi.tracks.awaiting }
    refine (hremoved.foldl_unlock hg tx.unlocks fun h' tx' htx' hmem => ?_).congr
      fun h' _ _ => (rt.unlockCount_append_singleton htx h').symm
    -- `h` provides a tag of each transaction it unlocks, so none of them is yielded yet
    have hdep := hg.depends_of_mem_unlocks htx htx' hmem
    refine ⟨fun hmem' => ?_, ?_⟩
    · rcases List.mem_append.mp hmem' with hmem' | hmem'
      · exact hY (hi.closed h' hmem' h hdep)
      · rw [List.mem_singleton.mp hmem'] at hdep
        exact hY (havail h hdep)
    · rw [Nat.add_assoc, ← rt.unlockCount_append_singleton htx, hg.offset_add_unlockCount htx' hnodup]
      exact List.countP_le_length

theorem Iterating.next (hi : rt.Iterating Y it) :
    (it.next = none ∧ ∀ h ∈ rt.ready.keys, h ∉ Y → ¬Schedule.Available rt.Depends Y h) ∨
    ∃ h tx, rt.ready.lookup h = some tx ∧ h ∉ Y ∧ Schedule.Available rt.Depends Y h ∧
      (∀ h' ∈ rt.ready.keys, h' ∉ Y → Schedule.Available rt.Depends Y h' → rt.NotAbove h' h) ∧
      it.next = some (tx.transaction.transaction,
        tx.unlocks.foldl BestIterator.unlock { it with best := bestRemove it.best tx.transaction }) := by
  -- the available transactions not yielded are those of `best`
  have hinBest : ∀ h tx, rt.ready.lookup h = some tx → h ∉ Y →
      Schedule.Available rt.Depends Y h → tx.transaction ∈ it.best := fun h tx htx hY havail =>
    (hi.tracks.best _).mpr ⟨h, tx, htx, hY, rfl, (hg.satisfied_iff hi.nodup htx).mpr havail⟩
  cases hlast : last it.best with
  | none =>
    refine .inl ⟨BestIterator.next_of_last_none hlast, fun h hh hY havail => ?_⟩
    obtain ⟨tx, htx⟩ := Option.isSome_iff_exists.mp (AList.lookup_isSome.mpr (AList.mem_keys.mpr hh))
    have hmem := hinBest h tx htx hY havail
    rw [last_eq_none hlast] at hmem
    cases hmem
  | some m =>
    obtain ⟨hm, hmax⟩ := last_spec hlast
    obtain ⟨h, tx, htx, hY, rfl, hle⟩ := (hi.tracks.best m).mp hm
    have hready : it.all.lookup tx.transaction.transaction.hash = some tx := by
      rw [hi.tracks.all, hg.hash h tx htx]
      exact htx
    refine .inr ⟨h, tx, htx, hY, (hg.satisfied_iff hi.nodup htx).mp hle,
      fun h' hh' hY' havail' ty tx' hty htx' => ?_, BestIterator.next_of_lookup hlast hready⟩
    rw [htx] at htx'
    cases htx'
    exact hmax _ (hinBest h' ty hty hY' havail')

theorem Iterating.yields : ∀ (n : ℕ) {Y : List H} {it : BestIterator H T}, rt.Iterating Y it →
    rt.ready.keys.length - Y.length ≤ n →
    ∃ L, it.Yields L ∧ Schedule.Greedy rt.Depends rt.NotAbove rt.ready.keys Y (L.map (·.hash)) ∧
      ∀ tx ∈ L, ∃ rtx, rt.ready.lookup tx.hash = some rtx ∧ rtx.transaction.transaction = tx
  | n, Y, it, hi, hn => by
    rcases hi.next hg with ⟨hnone, hstop⟩ | ⟨h, tx, htx, hY, havail, hmax, hnext⟩
    · exact ⟨[], .done hnone, hstop, by simp⟩
    · have hi' := hi.yield hg htx hY havail
      -- the transactions yielded are distinct transactions of the map
      have hlen : (Y ++ [h]).length ≤ rt.ready.keys.length :=
        (List.subperm_of_subset hi'.nodup hi'.mem).length_le
      rw [List.length_append, List.length_singleton] at hlen
      match n, hn with
      | 0, hn => omega
      | n + 1, hn =>
        obtain ⟨L, hyields, hgreedy, hL⟩ := Iterating.yields n hi' (by
          rw [List.length_append, List.length_singleton]
          omega)
        have hhash := hg.hash h tx htx
        have hmem : h ∈ rt.ready.keys :=
          AList.mem_keys.mp (AList.lookup_isSome.mp (by simp [htx]))
        refine ⟨tx.transaction.transaction :: L, .step hnext hyields, ?_, ?_⟩
        · rw [List.map_cons, hhash]
          exact ⟨hmem, hY, havail, hmax, hgreedy⟩
        · rintro tx' (_ | ⟨_, htx'⟩)
          · exact ⟨tx, by rw [hhash]; exact htx, rfl⟩
          · exact hL tx' htx'

end Graph

end Iteration

/-- **`get`.** On a queue whose dependency graph keeps its invariant, the iterator stops after
yielding ready transactions `L`, each once, in a greedy schedule of the graph: each after the
transactions that provide its tags, and each the greatest under `Ord` of the transactions left whose
providers are all yielded. It yields exactly the transactions that no chain of dependencies leads
to from a cycle, so every ready transaction when the graph is acyclic. -/
theorem get_yields_greedy (rt : ReadyTransactions H T) (hg : rt.GraphInvariant) :
    ∃ L, rt.get.Yields L ∧
      (∀ tx ∈ L, ∃ rtx, rt.ready.lookup tx.hash = some rtx ∧ rtx.transaction.transaction = tx) ∧
      Schedule.Greedy rt.Depends rt.NotAbove rt.ready.keys [] (L.map (·.hash)) ∧
      (∀ h, h ∈ L.map (·.hash) ↔ h ∈ rt.ready.keys ∧ Acc rt.Depends h) ∧
      (WellFounded rt.Depends → (L.map (·.hash)).Perm rt.ready.keys) := by
  obtain ⟨L, hyields, hgreedy, hL⟩ :=
    hg.iterating_get.yields hg rt.ready.keys.length (by simp)
  -- a transaction depends only on transactions of the map
  have hclosed : ∀ x ∈ rt.ready.keys, ∀ y, rt.Depends y x → y ∈ rt.ready.keys :=
    fun _ _ _ hdep => hg.mem_keys_of_depends hdep
  exact ⟨L, hyields, hL, hgreedy, hgreedy.mem_iff_acc hclosed,
    fun hwf => hgreedy.perm hclosed rt.ready.keys_nodup hwf⟩

end ReadyTransactions

/-- A transaction that takes tag `0` over from `provider` and requires tag `1`, which `dependent`
provides. -/
def replacement : WaitingTransaction ℕ ℕ := ⟨⟨3, 2, 0, [1], [0], 0⟩, [], 0⟩

/-- The queue after importing `provider`, `dependent` and `replacement`: `replacement` replaces
`provider` but keeps `dependent`, and each of the two requires a tag of the other. -/
def cycle : ReadyTransactions ℕ ℕ where
  insertionId := 3
  providedTags := Function.update (Function.update (Function.update (fun _ => none) 0 (some 1))
    1 (some 2)) 0 (some 3)
  ready := ⟨[⟨3, ⟨⟨replacement.transaction, 3⟩, [2], 0⟩⟩, ⟨2, ⟨⟨dependent.transaction, 2⟩, [3], 0⟩⟩],
    by simp [List.NodupKeys]⟩
  best := []

namespace ReadyTransactions

open BasePool in
theorem importTx_replacement_cycle :
    ∃ pool pool', BasePool.run [.importTx provider.transaction 0,
        .importTx dependent.transaction 0] = some pool ∧
      pool.importTx replacement.transaction 0 =
        some (pool', .ok (.ready 3 [] [] [provider.transaction])) ∧ pool'.ready = cycle := by
  simp [BasePool.run, BasePool.exec, BasePool.importTx, new, isImported,
    FutureTransactions.contains, ReadyTransactions.contains, ReadyTransactions.default,
    FutureTransactions.default, WaitingTransaction.new, WaitingTransaction.isReady, importToReady,
    importLoop_cons, importLoop, ReadyTransactions.importTx, replacePrevious, linkRequires,
    FutureTransactions.importTx, provider, dependent, replacement, -AList.insert_empty,
    AList.lookup_empty, FutureTransactions.satisfyTags, FutureTransactions.satisfyHashes,
    Saturating.add, removeSubtreeWithTagFilter, removeSubtreeLoop_cons, removeSubtreeLoop,
    removeEntry, invalidated, unlinkRequires, AList.lookup_replace]
  rfl

theorem cycle_lookup {h : ℕ} {tx : ReadyTx ℕ ℕ} : cycle.ready.lookup h = some tx ↔
    h = 3 ∧ tx = ⟨⟨replacement.transaction, 3⟩, [2], 0⟩ ∨
      h = 2 ∧ tx = ⟨⟨dependent.transaction, 2⟩, [3], 0⟩ := by
  rw [← Option.mem_def, AList.mem_lookup_iff]
  simp [cycle]

theorem cycle_lookup_of_ne {u : ℕ} (h2 : u ≠ 2) (h3 : u ≠ 3) : cycle.ready.lookup u = none := by
  cases h : cycle.ready.lookup u with
  | none => rfl
  | some tx => rcases cycle_lookup.mp h with ⟨rfl, -⟩ | ⟨rfl, -⟩ <;> contradiction

theorem cycle_providedTags {tag p : ℕ} :
    cycle.providedTags tag = some p ↔ tag = 0 ∧ p = 3 ∨ tag = 1 ∧ p = 2 := by
  by_cases h0 : tag = 0
  · subst h0
    simp [cycle, eq_comm]
  · by_cases h1 : tag = 1
    · subst h1
      simp [cycle, eq_comm]
    · simp [cycle, h0, h1]

theorem cycle_graphInvariant : cycle.GraphInvariant where
  consistent := {
    provided := by
      intro hash tx tag hl htag
      rcases cycle_lookup.mp hl with ⟨rfl, rfl⟩ | ⟨rfl, rfl⟩
      · obtain rfl : tag = 0 := by simpa [replacement] using htag
        exact ⟨3, _, rfl, cycle_lookup.mpr (.inl ⟨rfl, rfl⟩), by simp [replacement]⟩
      · obtain rfl : tag = 1 := by simpa [dependent] using htag
        exact ⟨2, _, rfl, cycle_lookup.mpr (.inr ⟨rfl, rfl⟩), by simp [dependent]⟩
    onlyProvided := by
      intro tag hash hp
      rcases cycle_providedTags.mp hp with ⟨rfl, rfl⟩ | ⟨rfl, rfl⟩
      · exact ⟨_, cycle_lookup.mpr (.inl ⟨rfl, rfl⟩), by simp [replacement]⟩
      · exact ⟨_, cycle_lookup.mpr (.inr ⟨rfl, rfl⟩), by simp [dependent]⟩
    unlocks := by
      intro hash tx hl u
      by_cases h2 : u = 2
      · subst h2
        rcases cycle_lookup.mp hl with ⟨rfl, rfl⟩ | ⟨rfl, rfl⟩ <;> rfl
      · by_cases h3 : u = 3
        · subst h3
          rcases cycle_lookup.mp hl with ⟨rfl, rfl⟩ | ⟨rfl, rfl⟩ <;> rfl
        · rw [cycle_lookup_of_ne h2 h3]
          rcases cycle_lookup.mp hl with ⟨rfl, rfl⟩ | ⟨rfl, rfl⟩ <;> simp [Ne.symm h2, Ne.symm h3]
    requiresOffset := by
      intro hash tx hl
      rcases cycle_lookup.mp hl with ⟨rfl, rfl⟩ | ⟨rfl, rfl⟩ <;> rfl
    best := by
      -- no transaction of `cycle` has all its requirements met outside the queue
      intro key
      refine iff_of_false (by simp [cycle]) ?_
      rintro ⟨hash, tx, hl, -, hoffset⟩
      rcases cycle_lookup.mp hl with ⟨rfl, rfl⟩ | ⟨rfl, rfl⟩ <;>
        simp [replacement, dependent] at hoffset }
  hash := by
    intro h tx hl
    rcases cycle_lookup.mp hl with ⟨rfl, rfl⟩ | ⟨rfl, rfl⟩ <;> rfl
  bestRefs := by simp [cycle]
  bestNodup := List.nodup_nil
  key := by
    intro h h' tx tx' hl hl' hkey
    rcases cycle_lookup.mp hl with ⟨rfl, rfl⟩ | ⟨rfl, rfl⟩ <;>
      rcases cycle_lookup.mp hl' with ⟨rfl, rfl⟩ | ⟨rfl, rfl⟩ <;> simp_all [TransactionRef.key]

theorem get_yields_greedy_cycle :
    ∃ L, cycle.get.Yields L ∧ ∀ h, h ∈ L.map (·.hash) ↔ h ∈ cycle.ready.keys ∧ Acc cycle.Depends h := by
  obtain ⟨L, hyields, -, -, hacc, -⟩ := get_yields_greedy cycle cycle_graphInvariant
  exact ⟨L, hyields, hacc⟩

/-- The queue can hold a cycle that the pool does not catch: three imports leave two ready
transactions, each requiring a tag of the other, with the indexes in agreement, and the iterator
yields neither. -/
theorem get_misses_cycle :
    (∃ pool pool', BasePool.run [.importTx provider.transaction 0,
        .importTx dependent.transaction 0] = some pool ∧
      pool.importTx replacement.transaction 0 =
        some (pool', .ok (.ready 3 [] [] [provider.transaction])) ∧ pool'.ready = cycle) ∧
      cycle.GraphInvariant ∧ cycle.ready.keys = [3, 2] ∧ cycle.Depends 3 2 ∧ cycle.Depends 2 3 ∧
      cycle.get.Yields [] :=
  ⟨importTx_replacement_cycle, cycle_graphInvariant, rfl, ⟨_, rfl, 0, by simp [dependent], rfl⟩,
    ⟨_, rfl, 1, by simp [replacement], rfl⟩, .done (BestIterator.next_of_last_none rfl)⟩

end ReadyTransactions

end Tetcore.TxPool
