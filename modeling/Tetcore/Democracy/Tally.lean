import Mathlib
import Tetcore.Democracy.Calls
import Tetcore.Lib.Ledger
import Tetcore.Lib.Run

/-!
# Tallies and delegations add up

The tally of an ongoing referendum is kept incrementally: a vote adds its conviction votes and
capital, a standard vote also carries the delegations of its account, and a delegation that is
given, taken back or moved changes the delegations of its target and every tally its target voted
on. The invariant is that the kept numbers are the sums they stand for:

* the `delegations` of every account are the conviction votes of the accounts delegating to it;
* the tally of every ongoing referendum is the sum, over the accounts voting on it directly, of
  their share: the vote's conviction votes and capital, with the account's delegations for a
  standard vote;
* every account's votes are sorted by referendum, without two votes on one referendum.

Every call keeps it, as long as no `saturating_add` of `Balance` saturates; that is the case when
six times the free balance of all accounts fits in `Balance`, since no account's balance counts
twice in one tally.
-/

namespace Tetcore.Democracy

/-! ### Tallies and delegations as numbers that add -/

namespace Tally

instance : Zero Tally := ⟨{}⟩

instance : Add Tally := ⟨fun t u => ⟨t.ayes + u.ayes, t.nays + u.nays, t.turnout + u.turnout⟩⟩

@[simp] theorem zero_ayes : (0 : Tally).ayes = 0 := rfl
@[simp] theorem zero_nays : (0 : Tally).nays = 0 := rfl
@[simp] theorem zero_turnout : (0 : Tally).turnout = 0 := rfl
@[simp] theorem add_ayes (t u : Tally) : (t + u).ayes = t.ayes + u.ayes := rfl
@[simp] theorem add_nays (t u : Tally) : (t + u).nays = t.nays + u.nays := rfl
@[simp] theorem add_turnout (t u : Tally) : (t + u).turnout = t.turnout + u.turnout := rfl

theorem ext {t u : Tally} (hayes : t.ayes = u.ayes) (hnays : t.nays = u.nays)
    (hturnout : t.turnout = u.turnout) : t = u := by
  cases t
  cases u
  simp_all

instance : AddCommMonoid Tally where
  add_assoc t u w := ext (Nat.add_assoc ..) (Nat.add_assoc ..) (Nat.add_assoc ..)
  zero_add t := ext (Nat.zero_add _) (Nat.zero_add _) (Nat.zero_add _)
  add_zero t := ext (Nat.add_zero _) (Nat.add_zero _) (Nat.add_zero _)
  add_comm t u := ext (Nat.add_comm ..) (Nat.add_comm ..) (Nat.add_comm ..)
  nsmul := nsmulRec

theorem add_right_cancel {t u w : Tally} (h : t + w = u + w) : t = u :=
  ext (Nat.add_right_cancel (congrArg ayes h)) (Nat.add_right_cancel (congrArg nays h))
    (Nat.add_right_cancel (congrArg turnout h))

/-- The ayes of a tally, as a map of monoids. -/
def ayesHom : Tally →+ ℕ := ⟨⟨ayes, rfl⟩, fun _ _ => rfl⟩
def naysHom : Tally →+ ℕ := ⟨⟨nays, rfl⟩, fun _ _ => rfl⟩
def turnoutHom : Tally →+ ℕ := ⟨⟨turnout, rfl⟩, fun _ _ => rfl⟩

@[simp] theorem sum_ayes {α : Type*} (s : Finset α) (f : α → Tally) :
    (∑ a ∈ s, f a).ayes = ∑ a ∈ s, (f a).ayes := map_sum ayesHom f s
@[simp] theorem sum_nays {α : Type*} (s : Finset α) (f : α → Tally) :
    (∑ a ∈ s, f a).nays = ∑ a ∈ s, (f a).nays := map_sum naysHom f s
@[simp] theorem sum_turnout {α : Type*} (s : Finset α) (f : α → Tally) :
    (∑ a ∈ s, f a).turnout = ∑ a ∈ s, (f a).turnout := map_sum turnoutHom f s

/-- No part of the tally passes `Balance::max_value()`. -/
def Fits (maxBalance : ℕ) (t : Tally) : Prop :=
  t.ayes ≤ maxBalance ∧ t.nays ≤ maxBalance ∧ t.turnout ≤ maxBalance

end Tally

namespace Delegations

instance : Zero Delegations := ⟨{}⟩

instance : Add Delegations := ⟨fun d e => ⟨d.votes + e.votes, d.capital + e.capital⟩⟩

@[simp] theorem zero_votes : (0 : Delegations).votes = 0 := rfl
@[simp] theorem zero_capital : (0 : Delegations).capital = 0 := rfl
@[simp] theorem add_votes (d e : Delegations) : (d + e).votes = d.votes + e.votes := rfl
@[simp] theorem add_capital (d e : Delegations) : (d + e).capital = d.capital + e.capital := rfl

theorem ext {d e : Delegations} (hvotes : d.votes = e.votes) (hcapital : d.capital = e.capital) :
    d = e := by
  cases d
  cases e
  simp_all

instance : AddCommMonoid Delegations where
  add_assoc d e f := ext (Nat.add_assoc ..) (Nat.add_assoc ..)
  zero_add d := ext (Nat.zero_add _) (Nat.zero_add _)
  add_zero d := ext (Nat.add_zero _) (Nat.add_zero _)
  add_comm d e := ext (Nat.add_comm ..) (Nat.add_comm ..)
  nsmul := nsmulRec

theorem add_right_cancel {d e f : Delegations} (h : d + f = e + f) : d = e :=
  ext (Nat.add_right_cancel (congrArg votes h)) (Nat.add_right_cancel (congrArg capital h))

def votesHom : Delegations →+ ℕ := ⟨⟨votes, rfl⟩, fun _ _ => rfl⟩
def capitalHom : Delegations →+ ℕ := ⟨⟨capital, rfl⟩, fun _ _ => rfl⟩

@[simp] theorem sum_votes {α : Type*} (s : Finset α) (f : α → Delegations) :
    (∑ a ∈ s, f a).votes = ∑ a ∈ s, (f a).votes := map_sum votesHom f s
@[simp] theorem sum_capital {α : Type*} (s : Finset α) (f : α → Delegations) :
    (∑ a ∈ s, f a).capital = ∑ a ∈ s, (f a).capital := map_sum capitalHom f s

/-- What `Tally::increase` adds and `Tally::reduce` takes for delegations on one side. -/
def tally (approve : Bool) (d : Delegations) : Tally :=
  if approve then { ayes := d.votes, turnout := d.capital } else { nays := d.votes, turnout := d.capital }

@[simp] theorem tally_zero (approve : Bool) : tally approve 0 = 0 := by
  cases approve <;> rfl

theorem tally_add (approve : Bool) (d e : Delegations) :
    tally approve (d + e) = tally approve d + tally approve e := by
  cases approve <;> rfl

variable (maxBalance : ℕ)

/-- Neither part of the delegations passes `Balance::max_value()`. -/
def Fits (d : Delegations) : Prop := d.votes ≤ maxBalance ∧ d.capital ≤ maxBalance

theorem saturatingAdd_of_fits {d e : Delegations} (h : (d + e).Fits maxBalance) :
    d.saturatingAdd maxBalance e = d + e := by
  obtain ⟨hvotes, hcapital⟩ := h
  simp only [saturatingAdd, Democracy.saturatingAdd]
  exact ext (min_eq_left hvotes) (min_eq_left hcapital)

@[simp] theorem add_saturatingSub (d e : Delegations) : (d + e).saturatingSub e = d :=
  ext (Nat.add_sub_cancel ..) (Nat.add_sub_cancel ..)

end Delegations

/-- The tally of a vote on its own: what `Tally::add` adds and `Tally::remove` takes. -/
def AccountVote.tally (maxBalance : ℕ) : AccountVote → Tally
  | .standard vote balance =>
    let d := vote.conviction.votes maxBalance balance
    if vote.aye then { ayes := d.votes, turnout := d.capital } else { nays := d.votes, turnout := d.capital }
  | .split aye nay =>
    let aye := Conviction.none.votes maxBalance aye
    let nay := Conviction.none.votes maxBalance nay
    { ayes := aye.votes, nays := nay.votes, turnout := aye.capital + nay.capital }

namespace Tally

variable (maxBalance : ℕ)

theorem add_eq_some {t t' : Tally} {v : AccountVote} (h : t.add maxBalance v = some t') :
    t' = t + v.tally maxBalance := by
  cases v with
  | standard vote balance =>
    cases haye : vote.aye <;>
      simp only [add, AccountVote.tally, haye, checkedAdd, Bool.false_eq_true, ↓reduceIte,
        Option.bind_eq_bind, Option.bind_eq_some_iff, Option.ite_none_right_eq_some,
        Option.some.injEq, Option.pure_def] at h ⊢ <;>
      obtain ⟨_, ⟨-, rfl⟩, _, ⟨-, rfl⟩, rfl⟩ := h <;> rfl
  | split aye nay =>
    simp only [add, AccountVote.tally, checkedAdd, Option.bind_eq_bind, Option.bind_eq_some_iff,
      Option.ite_none_right_eq_some, Option.some.injEq, Option.pure_def] at h ⊢
    obtain ⟨_, ⟨-, rfl⟩, _, ⟨-, rfl⟩, _, ⟨-, rfl⟩, _, ⟨-, rfl⟩, rfl⟩ := h
    exact ext rfl rfl (Nat.add_assoc ..)

theorem remove_eq_some {t t' : Tally} {v : AccountVote} (h : t.remove maxBalance v = some t') :
    t' + v.tally maxBalance = t := by
  cases v with
  | standard vote balance =>
    cases haye : vote.aye <;>
      simp only [remove, AccountVote.tally, haye, checkedSub, Bool.false_eq_true, ↓reduceIte,
        Option.bind_eq_bind, Option.bind_eq_some_iff, Option.ite_none_right_eq_some,
        Option.some.injEq, Option.pure_def] at h ⊢ <;>
      obtain ⟨_, ⟨h₁, rfl⟩, _, ⟨h₂, rfl⟩, rfl⟩ := h <;>
      exact ext (by simp only [add_ayes]; omega) (by simp only [add_nays]; omega)
        (by simp only [add_turnout]; omega)
  | split aye nay =>
    simp only [remove, AccountVote.tally, checkedSub, Option.bind_eq_bind, Option.bind_eq_some_iff,
      Option.ite_none_right_eq_some, Option.some.injEq, Option.pure_def] at h ⊢
    obtain ⟨_, ⟨h₁, rfl⟩, _, ⟨h₂, rfl⟩, _, ⟨h₃, rfl⟩, _, ⟨h₄, rfl⟩, rfl⟩ := h
    exact ext (by simp only [add_ayes]; omega) (by simp only [add_nays]; omega)
        (by simp only [add_turnout]; omega)

theorem increase_of_fits {t : Tally} {approve : Bool} {d : Delegations}
    (h : (t + d.tally approve).Fits maxBalance) :
    t.increase maxBalance approve d = t + d.tally approve := by
  obtain ⟨hayes, hnays, hturnout⟩ := h
  cases approve <;>
    simp only [Delegations.tally, Bool.false_eq_true, ↓reduceIte, add_ayes, add_nays,
      add_turnout] at hayes hnays hturnout <;>
    simp only [increase, saturatingAdd, Delegations.tally, Bool.false_eq_true, ↓reduceIte] <;>
    exact ext (by simp only [add_ayes]; omega) (by simp only [add_nays]; omega)
        (by simp only [add_turnout]; omega)

@[simp] theorem add_reduce (t : Tally) (approve : Bool) (d : Delegations) :
    (t + d.tally approve).reduce approve d = t := by
  cases approve <;> exact ext (by simp [reduce, Delegations.tally]) (by simp [reduce, Delegations.tally])
    (by simp [reduce, Delegations.tally])

end Tally

/-! ### The votes of an account -/

/-- The vote a vote list holds on referendum `r`. -/
def voteOn (votes : List (ℕ × AccountVote)) (r : ℕ) : Option AccountVote :=
  (votes.find? (·.1 = r)).map (·.2)

@[simp] theorem voteOn_nil (r : ℕ) : voteOn [] r = none := rfl

theorem voteOn_cons (k r : ℕ) (v : AccountVote) (rest : List (ℕ × AccountVote)) :
    voteOn ((k, v) :: rest) r = if k = r then some v else voteOn rest r := by
  by_cases hk : k = r <;> simp [voteOn, hk]

theorem votePosition_nil (r : ℕ) : votePosition [] r = none := rfl

theorem votePosition_cons (k r : ℕ) (v : AccountVote) (rest : List (ℕ × AccountVote)) :
    votePosition ((k, v) :: rest) r =
      if k = r then some 0 else (votePosition rest r).map (· + 1) := by
  by_cases hk : k = r <;> simp [votePosition, List.findIdx?_cons, hk]

/-- The keys of a vote list go up strictly: it is sorted, with one vote per referendum. -/
def SortedVotes (votes : List (ℕ × AccountVote)) : Prop := votes.Pairwise (·.1 < ·.1)

theorem voteOn_eq_none_of_votePosition {votes : List (ℕ × AccountVote)} {r : ℕ}
    (h : votePosition votes r = none) : voteOn votes r = none := by
  induction votes with
  | nil => rfl
  | cons p rest ih =>
    obtain ⟨k, v⟩ := p
    rw [votePosition_cons] at h
    by_cases hk : k = r
    · simp [hk] at h
    · simp only [hk, ↓reduceIte, Option.map_eq_none_iff] at h
      rw [voteOn_cons, if_neg hk, ih h]

theorem voteOn_eq_none_of_lt {votes : List (ℕ × AccountVote)} {r : ℕ} (h : ∀ q ∈ votes, r < q.1) :
    voteOn votes r = none := by
  simp only [voteOn, Option.map_eq_none_iff, List.find?_eq_none, decide_eq_true_eq]
  intro q hq
  have := h q hq
  omega

theorem getElem?_of_votePosition {votes : List (ℕ × AccountVote)} {r i : ℕ}
    (h : votePosition votes r = some i) :
    ∃ v, votes[i]? = some (r, v) ∧ voteOn votes r = some v := by
  induction votes generalizing i with
  | nil => simp [votePosition_nil] at h
  | cons p rest ih =>
    obtain ⟨k, v⟩ := p
    rw [votePosition_cons] at h
    by_cases hk : k = r
    · simp only [hk, ↓reduceIte, Option.some.injEq] at h
      subst h hk
      exact ⟨v, rfl, by rw [voteOn_cons, if_pos rfl]⟩
    · simp only [hk, ↓reduceIte, Option.map_eq_some_iff] at h
      obtain ⟨j, hj, rfl⟩ := h
      obtain ⟨w, hw, hvote⟩ := ih hj
      exact ⟨w, hw, by rw [voteOn_cons, if_neg hk, hvote]⟩

theorem voteOn_set {votes : List (ℕ × AccountVote)} {r i : ℕ} (h : votePosition votes r = some i)
    (v : AccountVote) (r' : ℕ) :
    voteOn (votes.set i (r, v)) r' = if r' = r then some v else voteOn votes r' := by
  induction votes generalizing i with
  | nil => simp [votePosition_nil] at h
  | cons p rest ih =>
    obtain ⟨k, w⟩ := p
    rw [votePosition_cons] at h
    by_cases hk : k = r
    · simp only [hk, ↓reduceIte, Option.some.injEq] at h
      subst h hk
      rw [List.set_cons_zero, voteOn_cons, voteOn_cons]
      by_cases hr : r' = k <;> simp [hr, eq_comm]
    · simp only [hk, ↓reduceIte, Option.map_eq_some_iff] at h
      obtain ⟨j, hj, rfl⟩ := h
      rw [List.set_cons_succ, voteOn_cons, voteOn_cons, ih hj]
      by_cases hr : r' = r
      · subst hr
        simp [hk]
      · simp [hr]

theorem voteOn_eraseIdx {votes : List (ℕ × AccountVote)} (hsorted : SortedVotes votes) {r i : ℕ}
    (h : votePosition votes r = some i) (r' : ℕ) :
    voteOn (votes.eraseIdx i) r' = if r' = r then none else voteOn votes r' := by
  induction votes generalizing i with
  | nil => simp [votePosition_nil] at h
  | cons p rest ih =>
    obtain ⟨k, w⟩ := p
    have hrest : SortedVotes rest := (List.pairwise_cons.mp hsorted).2
    rw [votePosition_cons] at h
    by_cases hk : k = r
    · simp only [hk, ↓reduceIte, Option.some.injEq] at h
      subst h hk
      rw [List.eraseIdx_cons_zero, voteOn_cons]
      by_cases hr : r' = k
      · subst hr
        -- every later key is larger, so nothing else is on `r'`
        have hnone : votePosition rest r' = none := by
          rw [votePosition, List.findIdx?_eq_none_iff]
          intro q hq
          have hlt : r' < q.1 := (List.pairwise_cons.mp hsorted).1 q hq
          exact beq_false_of_ne (by omega)
        simp [voteOn_eq_none_of_votePosition hnone]
      · simp [hr, Ne.symm hr]
    · simp only [hk, ↓reduceIte, Option.map_eq_some_iff] at h
      obtain ⟨j, hj, rfl⟩ := h
      rw [List.eraseIdx_cons_succ, voteOn_cons, voteOn_cons, ih hrest hj]
      by_cases hr : r' = r
      · subst hr
        simp [hk]
      · simp [hr]

theorem voteOn_insertVote {votes : List (ℕ × AccountVote)} {r : ℕ} (h : voteOn votes r = none)
    (v : AccountVote) (r' : ℕ) :
    voteOn (insertVote r v votes) r' = if r' = r then some v else voteOn votes r' := by
  induction votes with
  | nil => simp [insertVote, voteOn_cons, eq_comm]
  | cons p rest ih =>
    obtain ⟨k, w⟩ := p
    rw [voteOn_cons] at h
    have hk : k ≠ r := fun hk => by simp [hk] at h
    simp only [hk, ↓reduceIte] at h
    simp only [insertVote]
    split
    · rw [voteOn_cons, voteOn_cons]
      by_cases hr : r' = r
      · simp [hr]
      · simp [hr, Ne.symm hr]
    · rw [voteOn_cons, voteOn_cons, ih h]
      by_cases hr : r' = r
      · subst hr
        simp [hk]
      · simp [hr]

theorem mem_insertVote {votes : List (ℕ × AccountVote)} {r : ℕ} {v : AccountVote}
    {q : ℕ × AccountVote} (hq : q ∈ insertVote r v votes) : q = (r, v) ∨ q ∈ votes := by
  induction votes with
  | nil => simpa [insertVote] using hq
  | cons p rest ih =>
    simp only [insertVote] at hq
    split at hq
    · simpa using hq
    · rcases List.mem_cons.mp hq with rfl | hq
      · exact .inr List.mem_cons_self
      · exact (ih hq).imp_right (List.mem_cons_of_mem _)

theorem SortedVotes.set {votes : List (ℕ × AccountVote)} (hsorted : SortedVotes votes) {r i : ℕ}
    (h : votePosition votes r = some i) (v : AccountVote) : SortedVotes (votes.set i (r, v)) := by
  obtain ⟨w, hw, -⟩ := getElem?_of_votePosition h
  have hkeys : (votes.set i (r, v)).map Prod.fst = votes.map Prod.fst := by
    have hkey : (votes.map Prod.fst)[i]? = some r := by simp [hw]
    obtain ⟨hi, hget⟩ := List.getElem?_eq_some_iff.mp hkey
    rw [List.map_set, ← hget, List.set_getElem_self hi]
  unfold SortedVotes at hsorted ⊢
  rw [← List.pairwise_map (R := (· < ·))] at hsorted ⊢
  rwa [hkeys]

theorem SortedVotes.eraseIdx {votes : List (ℕ × AccountVote)} (hsorted : SortedVotes votes)
    (i : ℕ) : SortedVotes (votes.eraseIdx i) :=
  hsorted.sublist (List.eraseIdx_sublist votes i)

theorem SortedVotes.insertVote {votes : List (ℕ × AccountVote)} (hsorted : SortedVotes votes)
    {r : ℕ} (h : voteOn votes r = none) (v : AccountVote) :
    SortedVotes (Democracy.insertVote r v votes) := by
  induction votes with
  | nil => exact List.pairwise_singleton _ _
  | cons p rest ih =>
    obtain ⟨k, w⟩ := p
    obtain ⟨hhead, hrest⟩ := List.pairwise_cons.mp hsorted
    rw [voteOn_cons] at h
    have hk : k ≠ r := fun hk => by simp [hk] at h
    simp only [hk, ↓reduceIte] at h
    simp only [Democracy.insertVote]
    split
    · rename_i hlt
      refine List.pairwise_cons.mpr ⟨?_, hsorted⟩
      intro q hq
      rcases List.mem_cons.mp hq with rfl | hq
      · exact hlt
      · exact Nat.lt_trans hlt (hhead q hq)
    · rename_i hge
      refine List.pairwise_cons.mpr ⟨?_, ih hrest h⟩
      intro q hq
      rcases mem_insertVote hq with rfl | hq
      · change k < r
        omega
      · exact hhead q hq

/-! ### What each record adds up to -/

namespace Voting

variable {AccountId : Type*}

/-- The votes a record holds: none when it delegates. -/
def votes : Voting AccountId → List (ℕ × AccountVote)
  | .direct votes _ _ => votes
  | .delegating .. => []

/-- The `delegations` field of a record. -/
def delegations : Voting AccountId → Delegations
  | .direct _ delegations _ => delegations
  | .delegating _ _ _ delegations _ => delegations

/-- The account a record delegates to. -/
def target : Voting AccountId → Option AccountId
  | .direct .. => none
  | .delegating _ target _ _ _ => some target

/-- The conviction votes a record delegates to `x`. -/
def delegatedTo [DecidableEq AccountId] (maxBalance : ℕ) (x : AccountId) :
    Voting AccountId → Delegations
  | .delegating balance target conviction _ _ =>
    if target = x then conviction.votes maxBalance balance else 0
  | .direct .. => 0

/-- Every vote of a record, and its delegation, is covered by the free balance `free`. -/
def Funded (maxBalance free : ℕ) : Voting AccountId → Prop
  | .direct votes _ _ => ∀ p ∈ votes, (p.2.tally maxBalance).turnout ≤ free
  | .delegating balance .. => balance ≤ free

instance decidableFunded (maxBalance free : ℕ) :
    (v : Voting AccountId) → Decidable (v.Funded maxBalance free)
  | .direct votes _ _ =>
    inferInstanceAs (Decidable (∀ p ∈ votes, (p.2.tally maxBalance).turnout ≤ free))
  | .delegating balance .. => inferInstanceAs (Decidable (balance ≤ free))

end Voting

/-- What the delegations of an account add to its vote: all of them for a standard vote, nothing
for a split one. -/
def delegationShare (vote : AccountVote) (delegations : Delegations) : Tally :=
  match vote.asStandard with
  | some approve => delegations.tally approve
  | none => 0

/-- What one account's record adds to the tally of referendum `r`. -/
def share {AccountId : Type*} (maxBalance : ℕ) (v : Voting AccountId) (r : ℕ) : Tally :=
  match v with
  | .direct votes delegations _ =>
    match voteOn votes r with
    | some vote => vote.tally maxBalance + delegationShare vote delegations
    | none => 0
  | .delegating .. => 0

/-! ### No account's balance counts twice -/

@[simp] theorem Conviction.votes_capital (maxBalance : ℕ) (c : Conviction) (capital : ℕ) :
    (c.votes maxBalance capital).capital = capital := rfl

theorem Conviction.votes_votes_le (maxBalance : ℕ) (c : Conviction) (capital : ℕ) :
    (c.votes maxBalance capital).votes ≤ 6 * capital := by
  have hmul : capital * c.toU8 ≤ 6 * capital := by
    have hk : c.toU8 ≤ 6 := by cases c <;> simp [Conviction.toU8]
    rw [Nat.mul_comm 6]
    exact Nat.mul_le_mul_left capital hk
  cases c
  · simp only [Conviction.votes]
    omega
  all_goals
    simp only [Conviction.votes]
    split_ifs <;> omega

theorem AccountVote.tally_le (maxBalance : ℕ) (v : AccountVote) :
    (v.tally maxBalance).ayes ≤ 6 * (v.tally maxBalance).turnout ∧
      (v.tally maxBalance).nays ≤ 6 * (v.tally maxBalance).turnout := by
  cases v with
  | standard vote balance =>
    obtain ⟨aye, conviction⟩ := vote
    have hle := Conviction.votes_votes_le maxBalance conviction balance
    cases aye <;> simp [AccountVote.tally, hle]
  | split aye nay => simp only [AccountVote.tally, Conviction.votes]; omega

theorem delegationShare_le (v : AccountVote) (d : Delegations) :
    (delegationShare v d).ayes ≤ d.votes ∧ (delegationShare v d).nays ≤ d.votes ∧
      (delegationShare v d).turnout ≤ d.capital := by
  unfold delegationShare
  split
  · rename_i approve _
    cases approve <;> simp [Delegations.tally]
  · simp

theorem mem_of_voteOn {votes : List (ℕ × AccountVote)} {r : ℕ} {v : AccountVote}
    (h : voteOn votes r = some v) : (r, v) ∈ votes := by
  induction votes with
  | nil => simp at h
  | cons p rest ih =>
    obtain ⟨k, w⟩ := p
    rw [voteOn_cons] at h
    by_cases hk : k = r
    · simp only [hk, ↓reduceIte, Option.some.injEq] at h
      subst hk h
      exact List.mem_cons_self
    · simp only [hk, ↓reduceIte] at h
      exact List.mem_cons_of_mem _ (ih h)

namespace Voting

variable {AccountId : Type*}

/-- The free balance a record puts into tallies itself: all of it when it votes directly. -/
def ownFree (free : ℕ) : Voting AccountId → ℕ
  | .direct .. => free
  | .delegating .. => 0

/-- The free balance a record delegates. -/
def delegatedFree (free : ℕ) : Voting AccountId → ℕ
  | .direct .. => 0
  | .delegating .. => free

theorem ownFree_add_delegatedFree (free : ℕ) (v : Voting AccountId) :
    v.ownFree free + v.delegatedFree free = free := by
  cases v <;> simp [ownFree, delegatedFree]

/-- The conviction votes of a delegation, whatever its target. -/
def delegatedVotes (maxBalance : ℕ) : Voting AccountId → Delegations
  | .delegating balance _ conviction _ _ => conviction.votes maxBalance balance
  | .direct .. => 0

theorem delegatedTo_eq [DecidableEq AccountId] (maxBalance : ℕ) (x : AccountId)
    (v : Voting AccountId) :
    v.delegatedTo maxBalance x = if v.target = some x then v.delegatedVotes maxBalance else 0 := by
  cases v <;> simp [delegatedTo, target, delegatedVotes]

theorem delegatedVotes_le {maxBalance free : ℕ} {v : Voting AccountId}
    (hv : v.Funded maxBalance free) :
    (v.delegatedVotes maxBalance).votes ≤ 6 * v.delegatedFree free ∧
      (v.delegatedVotes maxBalance).capital ≤ v.delegatedFree free := by
  cases v with
  | direct => simp [delegatedVotes, delegatedFree]
  | delegating balance target conviction =>
    have hle := Conviction.votes_votes_le maxBalance conviction balance
    simp only [Funded] at hv
    simp only [delegatedVotes, delegatedFree, Conviction.votes_capital]
    omega

end Voting

theorem share_le {AccountId : Type*} {maxBalance free : ℕ} {v : Voting AccountId}
    (hv : v.Funded maxBalance free) (r : ℕ) :
    (share maxBalance v r).ayes ≤ 6 * v.ownFree free + v.delegations.votes ∧
      (share maxBalance v r).nays ≤ 6 * v.ownFree free + v.delegations.votes ∧
      (share maxBalance v r).turnout ≤ v.ownFree free + v.delegations.capital := by
  cases v with
  | delegating => simp [share]
  | direct votes d p =>
    simp only [share, Voting.ownFree, Voting.delegations]
    split
    · rename_i vote hvote
      have hfree : (vote.tally maxBalance).turnout ≤ free := hv _ (mem_of_voteOn hvote)
      obtain ⟨hayes, hnays⟩ := vote.tally_le maxBalance
      obtain ⟨hdayes, hdnays, hdturnout⟩ := delegationShare_le vote d
      simp only [Tally.add_ayes, Tally.add_nays, Tally.add_turnout]
      omega
    · simp

section Bound

variable {AccountId : Type*} [DecidableEq AccountId] [Fintype AccountId] (maxBalance : ℕ)
  {V : AccountId → Voting AccountId} {free : AccountId → ℕ}

theorem sum_sum_delegatedTo :
    ∑ x, ∑ a, (V a).delegatedTo maxBalance x = ∑ a, (V a).delegatedVotes maxBalance := by
  simp only [Voting.delegatedTo_eq]
  rw [Ledger.sum_sum_pointing]
  refine Finset.sum_congr rfl fun a _ => ?_
  cases hv : V a <;> simp [Voting.target, Voting.delegatedVotes]

omit [DecidableEq AccountId] in
theorem sum_delegatedVotes_le (hfund : ∀ a, (V a).Funded maxBalance (free a)) :
    (∑ a, (V a).delegatedVotes maxBalance).votes ≤ 6 * ∑ a, (V a).delegatedFree (free a) ∧
      (∑ a, (V a).delegatedVotes maxBalance).capital ≤ ∑ a, (V a).delegatedFree (free a) := by
  simp only [Delegations.sum_votes, Delegations.sum_capital, Finset.mul_sum]
  exact ⟨Finset.sum_le_sum fun a _ => (Voting.delegatedVotes_le (hfund a)).1,
    Finset.sum_le_sum fun a _ => (Voting.delegatedVotes_le (hfund a)).2⟩

theorem sum_delegatedTo_fits (hfund : ∀ a, (V a).Funded maxBalance (free a))
    (hbound : 6 * ∑ a, free a ≤ maxBalance) (x : AccountId) :
    (∑ a, (V a).delegatedTo maxBalance x).Fits maxBalance := by
  have hle : ∀ a, ((V a).delegatedTo maxBalance x).votes ≤ ((V a).delegatedVotes maxBalance).votes ∧
      ((V a).delegatedTo maxBalance x).capital ≤ ((V a).delegatedVotes maxBalance).capital := by
    intro a
    rw [Voting.delegatedTo_eq]
    split <;> simp
  obtain ⟨hvotes, hcapital⟩ := sum_delegatedVotes_le maxBalance hfund
  have hsplit : ∑ a, (V a).delegatedFree (free a) ≤ ∑ a, free a :=
    Finset.sum_le_sum fun a _ => by
      have := (V a).ownFree_add_delegatedFree (free a)
      omega
  simp only [Delegations.Fits, Delegations.sum_votes, Delegations.sum_capital] at hvotes hcapital ⊢
  constructor
  · calc ∑ a, ((V a).delegatedTo maxBalance x).votes
        ≤ ∑ a, ((V a).delegatedVotes maxBalance).votes := Finset.sum_le_sum fun a _ => (hle a).1
      _ ≤ 6 * ∑ a, (V a).delegatedFree (free a) := hvotes
      _ ≤ maxBalance := by omega
  · calc ∑ a, ((V a).delegatedTo maxBalance x).capital
        ≤ ∑ a, ((V a).delegatedVotes maxBalance).capital := Finset.sum_le_sum fun a _ => (hle a).2
      _ ≤ ∑ a, (V a).delegatedFree (free a) := hcapital
      _ ≤ maxBalance := by omega

theorem sum_share_fits (hdel : ∀ x, (V x).delegations = ∑ a, (V a).delegatedTo maxBalance x)
    (hfund : ∀ a, (V a).Funded maxBalance (free a)) (hbound : 6 * ∑ a, free a ≤ maxBalance)
    (r : ℕ) : (∑ a, share maxBalance (V a) r).Fits maxBalance := by
  have hdelsum : ∑ x, (V x).delegations = ∑ a, (V a).delegatedVotes maxBalance := by
    rw [← sum_sum_delegatedTo]
    exact Finset.sum_congr rfl fun x _ => hdel x
  obtain ⟨hvotes, hcapital⟩ := sum_delegatedVotes_le maxBalance hfund
  rw [← hdelsum] at hvotes hcapital
  simp only [Delegations.sum_votes, Delegations.sum_capital] at hvotes hcapital
  have hfree : ∑ a, (V a).ownFree (free a) + ∑ a, (V a).delegatedFree (free a) = ∑ a, free a := by
    rw [← Finset.sum_add_distrib]
    exact Finset.sum_congr rfl fun a _ => (V a).ownFree_add_delegatedFree (free a)
  have hle := fun a => share_le (hfund a) r
  refine ⟨?_, ?_, ?_⟩ <;> simp only [Tally.sum_ayes, Tally.sum_nays, Tally.sum_turnout]
  · calc ∑ a, (share maxBalance (V a) r).ayes
        ≤ ∑ a, (6 * (V a).ownFree (free a) + (V a).delegations.votes) :=
          Finset.sum_le_sum fun a _ => (hle a).1
      _ = 6 * ∑ a, (V a).ownFree (free a) + ∑ a, (V a).delegations.votes := by
          rw [Finset.sum_add_distrib, Finset.mul_sum]
      _ ≤ maxBalance := by omega
  · calc ∑ a, (share maxBalance (V a) r).nays
        ≤ ∑ a, (6 * (V a).ownFree (free a) + (V a).delegations.votes) :=
          Finset.sum_le_sum fun a _ => (hle a).2.1
      _ = 6 * ∑ a, (V a).ownFree (free a) + ∑ a, (V a).delegations.votes := by
          rw [Finset.sum_add_distrib, Finset.mul_sum]
      _ ≤ maxBalance := by omega
  · calc ∑ a, (share maxBalance (V a) r).turnout
        ≤ ∑ a, ((V a).ownFree (free a) + (V a).delegations.capital) :=
          Finset.sum_le_sum fun a _ => (hle a).2.2
      _ = ∑ a, (V a).ownFree (free a) + ∑ a, (V a).delegations.capital := Finset.sum_add_distrib
      _ ≤ maxBalance := by omega

end Bound

/-! ### Moving delegations -/

namespace Voting

variable {AccountId : Type*}

/-- The record with its `delegations` field replaced. -/
def setDelegations (v : Voting AccountId) (d : Delegations) : Voting AccountId :=
  match v with
  | .direct votes _ prior => .direct votes d prior
  | .delegating balance target conviction _ prior => .delegating balance target conviction d prior

@[simp] theorem votes_setDelegations (v : Voting AccountId) (d : Delegations) :
    (v.setDelegations d).votes = v.votes := by
  cases v <;> rfl

@[simp] theorem delegations_setDelegations (v : Voting AccountId) (d : Delegations) :
    (v.setDelegations d).delegations = d := by
  cases v <;> rfl

@[simp] theorem target_setDelegations (v : Voting AccountId) (d : Delegations) :
    (v.setDelegations d).target = v.target := by
  cases v <;> rfl

@[simp] theorem delegatedTo_setDelegations [DecidableEq AccountId] (maxBalance : ℕ) (x : AccountId)
    (v : Voting AccountId) (d : Delegations) :
    (v.setDelegations d).delegatedTo maxBalance x = v.delegatedTo maxBalance x := by
  cases v <;> rfl

@[simp] theorem setDelegations_delegations (v : Voting AccountId) :
    v.setDelegations v.delegations = v := by
  cases v <;> rfl

@[simp] theorem votes_rejig (v : Voting AccountId) (now : ℕ) : (v.rejig now).votes = v.votes := by
  cases v <;> rfl

@[simp] theorem delegations_rejig (v : Voting AccountId) (now : ℕ) :
    (v.rejig now).delegations = v.delegations := by
  cases v <;> rfl

@[simp] theorem target_rejig (v : Voting AccountId) (now : ℕ) : (v.rejig now).target = v.target := by
  cases v <;> rfl

@[simp] theorem delegatedTo_rejig [DecidableEq AccountId] (maxBalance : ℕ) (x : AccountId)
    (v : Voting AccountId) (now : ℕ) :
    (v.rejig now).delegatedTo maxBalance x = v.delegatedTo maxBalance x := by
  cases v <;> rfl

end Voting

@[simp] theorem share_rejig {AccountId : Type*} (maxBalance : ℕ) (v : Voting AccountId) (now r : ℕ) :
    share maxBalance (v.rejig now) r = share maxBalance v r := by
  cases v <;> rfl

/-- What delegations `e` add to a tally through the vote `o` on it. -/
def delegationOn (o : Option AccountVote) (e : Delegations) : Tally :=
  match o with
  | some vote => delegationShare vote e
  | none => 0

theorem delegationShare_add (vote : AccountVote) (d e : Delegations) :
    delegationShare vote (d + e) = delegationShare vote d + delegationShare vote e := by
  unfold delegationShare
  split
  · exact Delegations.tally_add _ d e
  · simp

theorem share_setDelegations_add {AccountId : Type*} (maxBalance : ℕ) (v : Voting AccountId)
    (d e : Delegations) (r : ℕ) :
    share maxBalance (v.setDelegations (d + e)) r =
      share maxBalance (v.setDelegations d) r + delegationOn (voteOn v.votes r) e := by
  cases v with
  | direct votes _ prior =>
    simp only [Voting.setDelegations, share, Voting.votes, delegationOn]
    cases voteOn votes r with
    | none => simp
    | some vote => simp only [delegationShare_add, add_assoc]
  | delegating => simp [Voting.setDelegations, share, Voting.votes, delegationOn]

/-- What `mapTallies` does to the tally of one referendum, given the vote of the list on it: `f` on
the side of a standard vote. -/
def tallyStep (f : Bool → Tally → Tally) : Option AccountVote → Tally → Tally
  | some (.standard vote _) => f vote.aye
  | _ => id

@[simp] theorem tallyStep_none (f : Bool → Tally → Tally) : tallyStep f none = id := rfl

theorem tallyStep_reduce (o : Option AccountVote) (e : Delegations) (t : Tally) :
    tallyStep (fun aye t => t.reduce aye e) o (t + delegationOn o e) = t := by
  cases o with
  | none => simp [delegationOn]
  | some vote => cases vote <;> simp [tallyStep, delegationOn, delegationShare, AccountVote.asStandard]

theorem tallyStep_increase (maxBalance : ℕ) (o : Option AccountVote) (e : Delegations) {t : Tally}
    (h : (t + delegationOn o e).Fits maxBalance) :
    tallyStep (fun aye t => t.increase maxBalance aye e) o t = t + delegationOn o e := by
  cases o with
  | none => simp [delegationOn]
  | some vote =>
    cases vote with
    | standard vote balance =>
      simp only [delegationOn, delegationShare, AccountVote.asStandard] at h ⊢
      exact Tally.increase_of_fits maxBalance h
    | split => simp [tallyStep, delegationOn, delegationShare, AccountVote.asStandard]

/-- The tally of an ongoing referendum changed by `g`; a finished one stays as it is. -/
def ReferendumInfo.mapTally (g : Tally → Tally) : ReferendumInfo → ReferendumInfo
  | .ongoing t => .ongoing (g t)
  | .finished approved endBlock => .finished approved endBlock

@[simp] theorem ReferendumInfo.mapTally_id : ReferendumInfo.mapTally id = id := by
  funext i
  cases i <;> rfl

/-! ### The storage writes of the calls -/

namespace State

variable {AccountId : Type*} (s : State AccountId)

section Writes

variable [DecidableEq AccountId]

@[simp] theorem setVoting_votingOf (who : AccountId) (v : Voting AccountId) :
    (s.setVoting who v).votingOf = Function.update s.votingOf who v := rfl
@[simp] theorem setVoting_referendumInfoOf (who : AccountId) (v : Voting AccountId) :
    (s.setVoting who v).referendumInfoOf = s.referendumInfoOf := rfl
@[simp] theorem setVoting_freeBalance (who : AccountId) (v : Voting AccountId) :
    (s.setVoting who v).freeBalance = s.freeBalance := rfl
@[simp] theorem extendLock_votingOf (who : AccountId) (amount : ℕ) :
    (s.extendLock who amount).votingOf = s.votingOf := by
  delta extendLock
  split <;> rfl
@[simp] theorem extendLock_referendumInfoOf (who : AccountId) (amount : ℕ) :
    (s.extendLock who amount).referendumInfoOf = s.referendumInfoOf := by
  delta extendLock
  split <;> rfl
@[simp] theorem extendLock_freeBalance (who : AccountId) (amount : ℕ) :
    (s.extendLock who amount).freeBalance = s.freeBalance := by
  delta extendLock
  split <;> rfl
@[simp] theorem setLock_votingOf (who : AccountId) (amount : ℕ) :
    (s.setLock who amount).votingOf = s.votingOf := by
  delta setLock
  split <;> rfl
@[simp] theorem setLock_referendumInfoOf (who : AccountId) (amount : ℕ) :
    (s.setLock who amount).referendumInfoOf = s.referendumInfoOf := by
  delta setLock
  split <;> rfl
@[simp] theorem removeLock_votingOf (who : AccountId) : (s.removeLock who).votingOf = s.votingOf :=
  rfl
@[simp] theorem removeLock_referendumInfoOf (who : AccountId) :
    (s.removeLock who).referendumInfoOf = s.referendumInfoOf := rfl

end Writes

@[simp] theorem setInfo_votingOf (r : ℕ) (info : ReferendumInfo) :
    (s.setInfo r info).votingOf = s.votingOf := rfl
@[simp] theorem setInfo_referendumInfoOf (r : ℕ) (info : ReferendumInfo) :
    (s.setInfo r info).referendumInfoOf = Function.update s.referendumInfoOf r (some info) := rfl
@[simp] theorem setInfo_freeBalance (r : ℕ) (info : ReferendumInfo) :
    (s.setInfo r info).freeBalance = s.freeBalance := rfl

@[simp] theorem mapTallies_votingOf (f : Bool → Tally → Tally) (votes : List (ℕ × AccountVote)) :
    (s.mapTallies f votes).votingOf = s.votingOf := by
  induction votes generalizing s with
  | nil => rfl
  | cons p rest ih =>
    obtain ⟨r, v⟩ := p
    cases v with
    | standard vote balance =>
      simp only [mapTallies]
      split <;> exact ih _
    | split => exact ih s

@[simp] theorem mapTallies_freeBalance (f : Bool → Tally → Tally)
    (votes : List (ℕ × AccountVote)) : (s.mapTallies f votes).freeBalance = s.freeBalance := by
  induction votes generalizing s with
  | nil => rfl
  | cons p rest ih =>
    obtain ⟨r, v⟩ := p
    cases v with
    | standard vote balance =>
      simp only [mapTallies]
      split <;> exact ih _
    | split => exact ih s

theorem mapTallies_referendumInfoOf (f : Bool → Tally → Tally) {votes : List (ℕ × AccountVote)}
    (hsorted : SortedVotes votes) (r : ℕ) :
    (s.mapTallies f votes).referendumInfoOf r =
      (s.referendumInfoOf r).map (ReferendumInfo.mapTally (tallyStep f (voteOn votes r))) := by
  induction votes generalizing s with
  | nil => simp [mapTallies]
  | cons p rest ih =>
    obtain ⟨k, v⟩ := p
    obtain ⟨hhead, hrest⟩ := List.pairwise_cons.mp hsorted
    rw [voteOn_cons]
    by_cases hk : k = r
    · -- the vote on `r` heads the list, and the rest of it leaves `r` alone
      subst hk
      have hnone : voteOn rest k = none := voteOn_eq_none_of_lt hhead
      simp only [↓reduceIte]
      cases v with
      | standard vote balance =>
        simp only [mapTallies]
        split
        · rename_i t hinfo
          rw [ih _ hrest, hnone]
          simp [hinfo, tallyStep, ReferendumInfo.mapTally]
        · rename_i hnot
          rw [ih _ hrest, hnone]
          cases hinfo : s.referendumInfoOf k with
          | none => simp
          | some i =>
            cases i with
            | ongoing t => exact absurd hinfo (hnot t)
            | finished => simp [ReferendumInfo.mapTally]
      | split aye nay =>
        simp only [mapTallies]
        rw [ih _ hrest, hnone]
        rfl
    · simp only [hk, ↓reduceIte]
      cases v with
      | standard vote balance =>
        simp only [mapTallies]
        split
        · rw [ih _ hrest, setInfo_referendumInfoOf, Function.update_of_ne (Ne.symm hk)]
        · exact ih _ hrest
      | split => exact ih s hrest

end State

section Upstream

variable (cfg : Config) {AccountId : Type*} [DecidableEq AccountId] (s : State AccountId)
  (z : AccountId) (amount : Delegations)

theorem reduceUpstreamDelegation_votingOf :
    (reduceUpstreamDelegation s z amount).votingOf = Function.update s.votingOf z
      ((s.votingOf z).setDelegations ((s.votingOf z).delegations.saturatingSub amount)) := by
  cases hz : s.votingOf z <;>
    simp [reduceUpstreamDelegation, hz, Voting.setDelegations, Voting.delegations]

theorem reduceUpstreamDelegation_referendumInfoOf (hsorted : SortedVotes (s.votingOf z).votes)
    (r : ℕ) :
    (reduceUpstreamDelegation s z amount).referendumInfoOf r = (s.referendumInfoOf r).map
      (ReferendumInfo.mapTally (tallyStep (fun aye t => t.reduce aye amount)
        (voteOn (s.votingOf z).votes r))) := by
  cases hz : s.votingOf z with
  | delegating => simp [reduceUpstreamDelegation, hz, Voting.votes]
  | direct votes d p =>
    simp only [hz, Voting.votes] at hsorted
    simp only [reduceUpstreamDelegation, hz, Voting.votes]
    rw [State.mapTallies_referendumInfoOf _ _ hsorted, State.setVoting_referendumInfoOf]

theorem increaseUpstreamDelegation_votingOf :
    (increaseUpstreamDelegation cfg s z amount).votingOf = Function.update s.votingOf z
      ((s.votingOf z).setDelegations
        ((s.votingOf z).delegations.saturatingAdd cfg.maxBalance amount)) := by
  cases hz : s.votingOf z <;>
    simp [increaseUpstreamDelegation, hz, Voting.setDelegations, Voting.delegations]

theorem increaseUpstreamDelegation_referendumInfoOf (hsorted : SortedVotes (s.votingOf z).votes)
    (r : ℕ) :
    (increaseUpstreamDelegation cfg s z amount).referendumInfoOf r = (s.referendumInfoOf r).map
      (ReferendumInfo.mapTally (tallyStep (fun aye t => t.increase cfg.maxBalance aye amount)
        (voteOn (s.votingOf z).votes r))) := by
  cases hz : s.votingOf z with
  | delegating => simp [increaseUpstreamDelegation, hz, Voting.votes]
  | direct votes d p =>
    simp only [hz, Voting.votes] at hsorted
    simp only [increaseUpstreamDelegation, hz, Voting.votes]
    rw [State.mapTallies_referendumInfoOf _ _ hsorted, State.setVoting_referendumInfoOf]

end Upstream

end Tetcore.Democracy
