import Mathlib
import Tetcore.Democracy.Tally

/-!
# The tallies stay the sums they stand for

`frame/democracy/src/lib.rs` keeps two aggregates by increments: the `delegations` of each account,
which should be the conviction votes of the accounts delegating to it, and the tally of each ongoing
referendum, which should be the votes on it with the delegations of each standard voter. This module
states the invariant (`TalliesConsistent`, with the fact that nobody delegates to itself that carries
it), proves that every call keeps it when nothing saturates (`WithinBalance` of the state it leads
to), and lifts that to every prefix of a run from a state before any vote.

Each call gets an inversion lemma that says what it can do; the invariant proofs cite them and never
unfold the calls.
-/

namespace Tetcore.Democracy

open StepMachine

section Invariant

variable (cfg : Config) {AccountId : Type*} [DecidableEq AccountId] [Fintype AccountId]

/-- The kept delegations and tallies are the sums they stand for, and vote lists are sorted. -/
structure TalliesConsistent (s : State AccountId) : Prop where
  delegations : ∀ x, (s.votingOf x).delegations = ∑ a, (s.votingOf a).delegatedTo cfg.maxBalance x
  tally : ∀ r t, s.referendumInfoOf r = some (.ongoing t) →
    t = ∑ a, share cfg.maxBalance (s.votingOf a) r
  sorted : ∀ a, SortedVotes (s.votingOf a).votes

/-- No delegation total and no ongoing tally, as the records add them up, passes `Balance`: the state
of a run in which nothing saturated. -/
structure WithinBalance (s : State AccountId) : Prop where
  delegations : ∀ x, (∑ a, (s.votingOf a).delegatedTo cfg.maxBalance x).Fits cfg.maxBalance
  tally : ∀ r t, s.referendumInfoOf r = some (.ongoing t) →
    (∑ a, share cfg.maxBalance (s.votingOf a) r).Fits cfg.maxBalance

/-- The consistency of the tallies, with what carries it from call to call: nobody delegates to
itself. -/
structure Sound (s : State AccountId) : Prop extends TalliesConsistent cfg s where
  notSelf : ∀ a, (s.votingOf a).target ≠ some a

/-- A state before any vote or delegation: every record is an empty direct one, and every ongoing
tally is zero. -/
structure Fresh (s : State AccountId) : Prop where
  voting : ∀ a, ∃ p, s.votingOf a = .direct [] 0 p
  tally : ∀ r t, s.referendumInfoOf r = some (.ongoing t) → t = 0

end Invariant

section Sums

variable {AccountId : Type*} [DecidableEq AccountId] [Fintype AccountId] (maxBalance : ℕ)

theorem sum_delegatedTo_setDelegations (V : AccountId → Voting AccountId) (z : AccountId)
    (D : Delegations) (x : AccountId) :
    ∑ a, (Function.update V z ((V z).setDelegations D) a).delegatedTo maxBalance x =
      ∑ a, (V a).delegatedTo maxBalance x :=
  Finset.sum_congr rfl fun a _ =>
    Ledger.apply_update_of_eq (fun _ (v : Voting AccountId) => v.delegatedTo maxBalance x) V z _
      (by simp) a

theorem sum_share_setDelegations_add (V : AccountId → Voting AccountId) (z : AccountId)
    (D e : Delegations) (r : ℕ) :
    ∑ a, share maxBalance (Function.update V z ((V z).setDelegations (D + e)) a) r =
      ∑ a, share maxBalance (Function.update V z ((V z).setDelegations D) a) r +
        delegationOn (voteOn (V z).votes r) e := by
  have hbig : ∑ a, share maxBalance (Function.update V z ((V z).setDelegations (D + e)) a) r +
      share maxBalance (V z) r = ∑ a, share maxBalance (V a) r +
        share maxBalance ((V z).setDelegations (D + e)) r :=
    Ledger.sum_update_add (fun _ (v : Voting AccountId) => share maxBalance v r) V z _
  have hsmall : ∑ a, share maxBalance (Function.update V z ((V z).setDelegations D) a) r +
      share maxBalance (V z) r = ∑ a, share maxBalance (V a) r +
        share maxBalance ((V z).setDelegations D) r :=
    Ledger.sum_update_add (fun _ (v : Voting AccountId) => share maxBalance v r) V z _
  rw [share_setDelegations_add, ← add_assoc, ← hsmall, add_right_comm] at hbig
  exact Tally.add_right_cancel hbig

theorem sum_share_update_of_zero (V : AccountId → Voting AccountId) (who : AccountId)
    (v : Voting AccountId) (r : ℕ) (hold : share maxBalance (V who) r = 0)
    (hnew : share maxBalance v r = 0) :
    ∑ a, share maxBalance (Function.update V who v a) r = ∑ a, share maxBalance (V a) r := by
  have h : ∑ a, share maxBalance (Function.update V who v a) r + share maxBalance (V who) r =
      ∑ a, share maxBalance (V a) r + share maxBalance v r :=
    Ledger.sum_update_add (fun _ (v : Voting AccountId) => share maxBalance v r) V who v
  rwa [hold, hnew, add_zero, add_zero] at h

omit [Fintype AccountId] in
theorem sorted_notSelf_update {V : AccountId → Voting AccountId}
    (hsorted : ∀ a, SortedVotes (V a).votes) (hnot : ∀ a, (V a).target ≠ some a) (x : AccountId)
    (v : Voting AccountId) (hv : SortedVotes v.votes) (hvt : v.target ≠ some x) :
    (∀ a, SortedVotes (Function.update V x v a).votes) ∧
      ∀ a, (Function.update V x v a).target ≠ some a :=
  ⟨(Function.forall_update_iff V fun _ v => SortedVotes v.votes).2 ⟨hv, fun a _ => hsorted a⟩,
    (Function.forall_update_iff V fun a v => v.target ≠ some a).2 ⟨hvt, fun a _ => hnot a⟩⟩

omit [DecidableEq AccountId] [Fintype AccountId] in
theorem tallyStep_remove {tally W t1 : Tally} {old : AccountVote} {d : Delegations}
    (hW : tally = W + (old.tally maxBalance + delegationShare old d))
    (hremove : tally.remove maxBalance old = some t1) :
    tallyStep (fun aye t => t.reduce aye d) (some old) t1 = W := by
  have hsplit : t1 + old.tally maxBalance = W + delegationShare old d + old.tally maxBalance := by
    rw [Tally.remove_eq_some maxBalance hremove, hW]
    abel
  rw [Tally.add_right_cancel hsplit]
  exact tallyStep_reduce (some old) d W

end Sums

section Preservation

variable {cfg : Config} {AccountId : Type*} [DecidableEq AccountId] [Fintype AccountId]
  {s s' : State AccountId}

theorem Sound.of_eq (hs : Sound cfg s) (hvoting : s'.votingOf = s.votingOf)
    (hinfo : s'.referendumInfoOf = s.referendumInfoOf) : Sound cfg s' where
  delegations := by
    rw [hvoting]
    exact hs.delegations
  tally := by
    rw [hvoting, hinfo]
    exact hs.tally
  sorted := by
    rw [hvoting]
    exact hs.sorted
  notSelf := by
    rw [hvoting]
    exact hs.notSelf

theorem TalliesConsistent.exists_add_share (hs : TalliesConsistent cfg s) {r : ℕ} {t : Tally}
    (h : s.referendumInfoOf r = some (.ongoing t)) (who : AccountId) :
    ∃ W, t = W + share cfg.maxBalance (s.votingOf who) r :=
  ⟨∑ a ∈ Finset.univ.erase who, share cfg.maxBalance (s.votingOf a) r, by
    rw [hs.tally r t h, Finset.sum_erase_add _ _ (Finset.mem_univ who)]⟩

theorem Sound.setDirect (hs : Sound cfg s) {who : AccountId}
    {votes votes' : List (ℕ × AccountVote)} {d : Delegations} {p p' : PriorLock}
    (hwho : s.votingOf who = .direct votes d p)
    (hvoting : s'.votingOf = Function.update s.votingOf who (.direct votes' d p'))
    (hsorted : SortedVotes votes')
    (htally : ∀ r t', s'.referendumInfoOf r = some (.ongoing t') → ∃ t,
      s.referendumInfoOf r = some (.ongoing t) ∧
        t' + share cfg.maxBalance (.direct votes d p : Voting AccountId) r =
          t + share cfg.maxBalance (.direct votes' d p' : Voting AccountId) r) :
    Sound cfg s' where
  delegations x := by
    -- a direct record delegates nothing, before and after
    have hsame : ∀ a, (s'.votingOf a).delegatedTo cfg.maxBalance x =
        (s.votingOf a).delegatedTo cfg.maxBalance x := by
      rw [hvoting]
      exact Ledger.apply_update_of_eq
        (fun _ (v : Voting AccountId) => v.delegatedTo cfg.maxBalance x) _ _ _
        (by simp [hwho, Voting.delegatedTo])
    rw [Finset.sum_congr rfl fun a _ => hsame a, ← hs.delegations x, hvoting]
    by_cases hx : x = who
    · subst hx
      simp [hwho, Voting.delegations]
    · rw [Function.update_of_ne hx]
  tally r t' h := by
    obtain ⟨t, hinfo, heq⟩ := htally r t' h
    have hsum : ∑ a, share cfg.maxBalance (s'.votingOf a) r +
        share cfg.maxBalance (.direct votes d p : Voting AccountId) r =
          t + share cfg.maxBalance (.direct votes' d p' : Voting AccountId) r := by
      rw [hvoting, ← hwho, hs.tally r t hinfo]
      exact Ledger.sum_update_add (fun _ (v : Voting AccountId) => share cfg.maxBalance v r) _ _ _
    exact Tally.add_right_cancel (heq.trans hsum.symm)
  sorted := by
    rw [hvoting]
    exact (sorted_notSelf_update hs.sorted hs.notSelf who (.direct votes' d p') hsorted
      (by simp [Voting.target])).1
  notSelf := by
    rw [hvoting]
    exact (sorted_notSelf_update hs.sorted hs.notSelf who (.direct votes' d p') hsorted
      (by simp [Voting.target])).2

/-! ### Votes -/

section Vote

variable (cfg)

omit [Fintype AccountId] in
/-- What a vote does: nothing, or, on an ongoing referendum, it puts the vote into the account's
sorted list, takes the vote it replaces with its delegations off the tally, adds the new one with
them, and extends the account's lock. -/
theorem tryVote_cases (s : State AccountId) (who : AccountId) (r : ℕ) (vote : AccountVote)
    (hsorted : SortedVotes (s.votingOf who).votes) :
    (tryVote cfg s who r vote).2 = s ∨
      ∃ tally votes d p votes' t2 t3,
        s.referendumInfoOf r = some (.ongoing tally) ∧ s.votingOf who = .direct votes d p ∧
        SortedVotes votes' ∧
        (∀ r', voteOn votes' r' = if r' = r then some vote else voteOn votes r') ∧
        (∀ W, tally = W + share cfg.maxBalance (.direct votes d p : Voting AccountId) r → t2 = W) ∧
        t2.add cfg.maxBalance vote = some t3 ∧
        (tryVote cfg s who r vote).2 = ((s.setVoting who (.direct votes' d p)).extendLock who
          (vote.balance cfg.maxBalance)).setInfo r
            (.ongoing (tallyStep (fun aye t => t.increase cfg.maxBalance aye d) (some vote) t3)) := by
  unfold tryVote
  split
  next tally hinfo =>
    split
    next =>
      split
      next votes d p hwho =>
        simp only [hwho, Voting.votes] at hsorted
        dsimp only
        split
        next => exact .inl rfl
        next votes' t2 hrep =>
          split
          next => exact .inl rfl
          next t3 hadd =>
            -- the list and the tally after the replaced vote, if any, is taken off
            have hfacts : SortedVotes votes' ∧
                (∀ r', voteOn votes' r' = if r' = r then some vote else voteOn votes r') ∧
                (∀ W, tally = W + share cfg.maxBalance (.direct votes d p : Voting AccountId) r →
                  t2 = W) := by
              split at hrep
              next i hpos =>
                obtain ⟨old, hget, hold⟩ := getElem?_of_votePosition hpos
                split at hrep
                next k old' hget' =>
                  rw [hget, Option.some.injEq, Prod.mk.injEq] at hget'
                  obtain ⟨-, rfl⟩ := hget'
                  split at hrep
                  next => cases hrep
                  next t1 hremove =>
                    cases hrep
                    refine ⟨hsorted.set hpos vote, voteOn_set hpos vote, fun W hW => ?_⟩
                    simp only [share, hold] at hW
                    calc _ = tallyStep (fun aye t => t.reduce aye d) (some old) t1 := by
                          cases old <;> rfl
                      _ = W := tallyStep_remove cfg.maxBalance hW hremove
                next hnone =>
                  rw [hget] at hnone
                  cases hnone
              next hpos =>
                split at hrep
                next =>
                  cases hrep
                  have hnone := voteOn_eq_none_of_votePosition hpos
                  refine ⟨hsorted.insertVote hnone vote, voteOn_insertVote hnone vote,
                    fun W hW => ?_⟩
                  simpa [share, hnone] using hW
                next => cases hrep
            obtain ⟨hsorted', hon, ht2⟩ := hfacts
            refine .inr ⟨tally, votes, d, p, votes', t2, t3, hinfo, hwho, hsorted', hon, ht2, hadd,
              ?_⟩
            cases vote <;> rfl
      next => exact .inl rfl
    next => exact .inl rfl
  next => exact .inl rfl

variable {cfg}

theorem Sound.tryVote (hs : Sound cfg s) (who : AccountId) (r : ℕ) (vote : AccountVote)
    (hw : WithinBalance cfg (tryVote cfg s who r vote).2) :
    Sound cfg (tryVote cfg s who r vote).2 := by
  rcases tryVote_cases cfg s who r vote (hs.sorted who) with
    heq | ⟨tally, votes, d, p, votes', t2, t3, hinfo, hwho, hsorted, hon, ht2, hadd, heq⟩
  · rw [heq]
    exact hs
  rw [heq] at hw ⊢
  -- the tally without the account's share, and what its new record adds at `r` and elsewhere
  obtain ⟨W, hW⟩ := hs.exists_add_share hinfo who
  rw [hwho] at hW
  have ht3 : t3 = W + vote.tally cfg.maxBalance := by
    rw [Tally.add_eq_some _ hadd, ht2 W hW]
  have hnew : share cfg.maxBalance (.direct votes' d p : Voting AccountId) r =
      vote.tally cfg.maxBalance + delegationOn (some vote) d := by
    simp [share, hon, delegationOn]
  have hoff : ∀ r', r' ≠ r → share cfg.maxBalance (.direct votes' d p : Voting AccountId) r' =
      share cfg.maxBalance (.direct votes d p : Voting AccountId) r' := by
    intro r' hr
    simp [share, hon, hr]
  -- the new records add up to the rest and the new share
  have hsum : ∑ a, share cfg.maxBalance (Function.update s.votingOf who (.direct votes' d p) a) r =
      W + share cfg.maxBalance (.direct votes' d p : Voting AccountId) r := by
    have h := Ledger.sum_update_add (fun _ (v : Voting AccountId) => share cfg.maxBalance v r)
      s.votingOf who (.direct votes' d p)
    rw [← hs.tally r tally hinfo, hwho, hW, add_right_comm] at h
    exact Tally.add_right_cancel h
  have hfits : (t3 + delegationOn (some vote) d).Fits cfg.maxBalance := by
    have h := hw.tally r _ (by rw [State.setInfo_referendumInfoOf, Function.update_self])
    simp only [State.setInfo_votingOf, State.extendLock_votingOf, State.setVoting_votingOf] at h
    rwa [hsum, hnew, ← add_assoc, ← ht3] at h
  have ht4 : tallyStep (fun aye t => t.increase cfg.maxBalance aye d) (some vote) t3 =
      W + share cfg.maxBalance (.direct votes' d p : Voting AccountId) r := by
    rw [tallyStep_increase cfg.maxBalance (some vote) d hfits, hnew, ht3, add_assoc]
  refine hs.setDirect hwho
    (by rw [State.setInfo_votingOf, State.extendLock_votingOf, State.setVoting_votingOf]) hsorted
    fun r' t' h => ?_
  by_cases hr : r' = r
  · subst hr
    simp only [State.setInfo_referendumInfoOf, Function.update_self, Option.some.injEq,
      ReferendumInfo.ongoing.injEq] at h
    refine ⟨tally, hinfo, ?_⟩
    rw [← h, ht4, hW, add_right_comm]
  · simp only [State.setInfo_referendumInfoOf, Function.update_of_ne hr,
      State.extendLock_referendumInfoOf, State.setVoting_referendumInfoOf] at h
    exact ⟨t', h, by rw [hoff r' hr]⟩

end Vote

/-! ### Removing votes -/

section RemoveVote

variable (cfg)

omit [Fintype AccountId] in
theorem tryRemoveVote_cases (s : State AccountId) (who : AccountId) (r : ℕ) (scope : UnvoteScope)
    (hsorted : SortedVotes (s.votingOf who).votes) :
    (tryRemoveVote cfg s who r scope).2 = s ∨
      ∃ votes d p votes', s.votingOf who = .direct votes d p ∧ SortedVotes votes' ∧
        (∀ r', voteOn votes' r' = if r' = r then none else voteOn votes r') ∧
        ((∃ p', (∀ t, s.referendumInfoOf r ≠ some (.ongoing t)) ∧
            (tryRemoveVote cfg s who r scope).2 = s.setVoting who (.direct votes' d p')) ∨
          ∃ tally t', s.referendumInfoOf r = some (.ongoing tally) ∧
            (∀ W, tally = W + share cfg.maxBalance (.direct votes d p : Voting AccountId) r →
              t' = W) ∧
            (tryRemoveVote cfg s who r scope).2 =
              (s.setInfo r (.ongoing t')).setVoting who (.direct votes' d p)) := by
  unfold tryRemoveVote
  split
  next votes d p hwho =>
    simp only [hwho, Voting.votes] at hsorted
    split
    next i k old hpos hget =>
      rw [hpos, Option.bind_some] at hget
      obtain ⟨w, hw, hold⟩ := getElem?_of_votePosition hpos
      rw [hw, Option.some.injEq, Prod.mk.injEq] at hget
      obtain ⟨-, rfl⟩ := hget
      have hrest := voteOn_eraseIdx hsorted hpos
      have hsorted' := hsorted.eraseIdx i
      split
      next tally hinfo =>
        split
        next => exact .inl rfl
        next =>
          split
          next => exact .inl rfl
          next t1 hremove =>
            refine .inr ⟨votes, d, p, _, hwho, hsorted', hrest, .inr ⟨tally, _, hinfo,
              fun W hW => ?_, rfl⟩⟩
            simp only [share, hold] at hW
            calc _ = tallyStep (fun aye t => t.reduce aye d) (some w) t1 := by cases w <;> rfl
              _ = W := tallyStep_remove cfg.maxBalance hW hremove
      next approved endBlock hinfo =>
        have hnot : ∀ t, s.referendumInfoOf r ≠ some (.ongoing t) := by simp [hinfo]
        split
        next =>
          dsimp only
          split
          next =>
            split
            next => exact .inl rfl
            next => exact .inr ⟨votes, d, p, _, hwho, hsorted', hrest, .inl ⟨_, hnot, rfl⟩⟩
          next => exact .inr ⟨votes, d, p, _, hwho, hsorted', hrest, .inl ⟨_, hnot, rfl⟩⟩
        next => exact .inr ⟨votes, d, p, _, hwho, hsorted', hrest, .inl ⟨_, hnot, rfl⟩⟩
      next hinfo =>
        have hnot : ∀ t, s.referendumInfoOf r ≠ some (.ongoing t) := by simp [hinfo]
        exact .inr ⟨votes, d, p, _, hwho, hsorted', hrest, .inl ⟨_, hnot, rfl⟩⟩
    next => exact .inl rfl
  next => exact .inl rfl

variable {cfg}

theorem Sound.tryRemoveVote (hs : Sound cfg s) (who : AccountId) (r : ℕ) (scope : UnvoteScope) :
    Sound cfg (tryRemoveVote cfg s who r scope).2 := by
  rcases tryRemoveVote_cases cfg s who r scope (hs.sorted who) with
    heq | ⟨votes, d, p, votes', hwho, hsorted, hon, hcase⟩
  · rw [heq]
    exact hs
  -- away from `r` the record adds what it added before
  have hoff : ∀ r', r' ≠ r → ∀ p', share cfg.maxBalance (.direct votes' d p' : Voting AccountId) r' =
      share cfg.maxBalance (.direct votes d p : Voting AccountId) r' := by
    intro r' hr p'
    simp [share, hon, hr]
  rcases hcase with ⟨p', hnot, heq⟩ | ⟨tally, t', hinfo, ht', heq⟩
  · rw [heq]
    refine hs.setDirect hwho (by rw [State.setVoting_votingOf]) hsorted fun r' t'' h => ?_
    rw [State.setVoting_referendumInfoOf] at h
    have hr : r' ≠ r := by
      rintro rfl
      exact hnot t'' h
    exact ⟨t'', h, by rw [hoff r' hr]⟩
  · rw [heq]
    refine hs.setDirect hwho (by rw [State.setVoting_votingOf, State.setInfo_votingOf]) hsorted
      fun r' t'' h => ?_
    by_cases hr : r' = r
    · subst hr
      simp only [State.setVoting_referendumInfoOf, State.setInfo_referendumInfoOf,
        Function.update_self, Option.some.injEq, ReferendumInfo.ongoing.injEq] at h
      -- the tally loses the account's share, which is gone from its record
      obtain ⟨W, hW⟩ := hs.exists_add_share hinfo who
      rw [hwho] at hW
      have hgone : share cfg.maxBalance (.direct votes' d p : Voting AccountId) r' = 0 := by
        simp [share, hon]
      refine ⟨tally, hinfo, ?_⟩
      rw [← h, ht' W hW, hW, hgone, add_zero]
    · simp only [State.setVoting_referendumInfoOf, State.setInfo_referendumInfoOf,
        Function.update_of_ne hr] at h
      exact ⟨t'', h, by rw [hoff r' hr]⟩

end RemoveVote

/-! ### Delegations -/

section Delegate

theorem Sound.reduceUpstream (hs : Sound cfg s) {who z : AccountId} {balance : ℕ}
    {conviction : Conviction} {d : Delegations} {p : PriorLock}
    (hwho : s.votingOf who = .delegating balance z conviction d p) (p' : PriorLock) :
    Sound cfg ((reduceUpstreamDelegation s z (conviction.votes cfg.maxBalance balance)).setVoting
      who (.direct [] d p')) := by
  have hz : z ≠ who := by
    rintro rfl
    exact hs.notSelf z (by simp [hwho, Voting.target])
  -- `W`: the records with `who` emptied; `D`: what the others delegate to `z`
  obtain ⟨W, hW⟩ : ∃ W, W = Function.update s.votingOf who (.direct [] d p') := ⟨_, rfl⟩
  have hWz : W z = s.votingOf z := by rw [hW, Function.update_of_ne hz]
  have hdel : ∀ x, ∑ a, (W a).delegatedTo cfg.maxBalance x +
      (if z = x then conviction.votes cfg.maxBalance balance else 0) =
        ∑ a, (s.votingOf a).delegatedTo cfg.maxBalance x := by
    intro x
    have h := Ledger.sum_update_add
      (fun _ (v : Voting AccountId) => v.delegatedTo cfg.maxBalance x) s.votingOf who
      (.direct [] d p')
    simpa [← hW, hwho, Voting.delegatedTo] using h
  obtain ⟨D, hD⟩ : ∃ D, D = ∑ a, (W a).delegatedTo cfg.maxBalance z := ⟨_, rfl⟩
  have hkeep : (W z).delegations = D + conviction.votes cfg.maxBalance balance := by
    rw [hWz, hs.delegations z, ← hdel z, if_pos rfl, hD]
  have hvoting : ((reduceUpstreamDelegation s z (conviction.votes cfg.maxBalance balance)).setVoting
      who (.direct [] d p')).votingOf = Function.update W z ((W z).setDelegations D) := by
    rw [State.setVoting_votingOf, reduceUpstreamDelegation_votingOf, Function.update_comm hz, ← hW,
      ← hWz, hkeep, Delegations.add_saturatingSub]
  have hW' := sorted_notSelf_update hs.sorted hs.notSelf who (.direct [] d p') List.Pairwise.nil
    (by simp [Voting.target])
  rw [← hW] at hW'
  have hV' := sorted_notSelf_update hW'.1 hW'.2 z ((W z).setDelegations D)
    (by simpa using hW'.1 z) (by simpa using hW'.2 z)
  refine ⟨⟨fun x => ?_, fun r t' h => ?_, by rw [hvoting]; exact hV'.1⟩,
    by rw [hvoting]; exact hV'.2⟩
  · rw [hvoting, sum_delegatedTo_setDelegations]
    by_cases hx : x = z
    · subst hx
      rw [Function.update_self, Voting.delegations_setDelegations, hD]
    · have h := hdel x
      rw [if_neg (Ne.symm hx), add_zero] at h
      rw [Function.update_of_ne hx, h, hW]
      by_cases hxw : x = who
      · subst hxw
        rw [Function.update_self, ← hs.delegations, hwho]
        rfl
      · rw [Function.update_of_ne hxw, hs.delegations x]
  · rw [State.setVoting_referendumInfoOf,
      reduceUpstreamDelegation_referendumInfoOf _ _ _ (hs.sorted z)] at h
    obtain ⟨i, hi, hmap⟩ := Option.map_eq_some_iff.mp h
    cases i with
    | finished => simp [ReferendumInfo.mapTally] at hmap
    | ongoing t =>
      simp only [ReferendumInfo.mapTally, ReferendumInfo.ongoing.injEq] at hmap
      -- the tally counted what `who` delegated, through the vote of `z`
      have hsum : t = ∑ a, share cfg.maxBalance (Function.update W z ((W z).setDelegations D) a) r +
          delegationOn (voteOn (s.votingOf z).votes r) (conviction.votes cfg.maxBalance balance) := by
        calc t = ∑ a, share cfg.maxBalance (s.votingOf a) r := hs.tally r t hi
          _ = ∑ a, share cfg.maxBalance (W a) r := by
            rw [hW, sum_share_update_of_zero _ _ _ _ _ (by simp [hwho, share]) (by simp [share])]
          _ = ∑ a, share cfg.maxBalance (Function.update W z
                ((W z).setDelegations (D + conviction.votes cfg.maxBalance balance)) a) r := by
            rw [← hkeep, Voting.setDelegations_delegations, Function.update_eq_self]
          _ = _ := by rw [sum_share_setDelegations_add, hWz]
      rw [← hmap, hsum, tallyStep_reduce, hvoting]

theorem Sound.increaseUpstream (hs : Sound cfg s) {who target : AccountId} {d : Delegations}
    {p : PriorLock} (hwho : s.votingOf who = .direct [] d p) (hne : who ≠ target) (balance : ℕ)
    (conviction : Conviction) (p' : PriorLock)
    (hvoting : s'.votingOf = Function.update (Function.update s.votingOf target
      ((s.votingOf target).setDelegations ((s.votingOf target).delegations.saturatingAdd
        cfg.maxBalance (conviction.votes cfg.maxBalance balance)))) who
      (.delegating balance target conviction d p'))
    (hinfo : ∀ r, s'.referendumInfoOf r = (s.referendumInfoOf r).map (ReferendumInfo.mapTally
      (tallyStep (fun aye t => t.increase cfg.maxBalance aye (conviction.votes cfg.maxBalance balance))
        (voteOn (s.votingOf target).votes r))))
    (hw : WithinBalance cfg s') : Sound cfg s' := by
  -- `W`: the records with `who` delegating and `target` not yet told
  obtain ⟨W, hW⟩ : ∃ W, W = Function.update s.votingOf who
      (.delegating balance target conviction d p') := ⟨_, rfl⟩
  have hWt : W target = s.votingOf target := by rw [hW, Function.update_of_ne (Ne.symm hne)]
  have hdel : ∀ x, ∑ a, (W a).delegatedTo cfg.maxBalance x =
      ∑ a, (s.votingOf a).delegatedTo cfg.maxBalance x +
        (if target = x then conviction.votes cfg.maxBalance balance else 0) := by
    intro x
    have h := Ledger.sum_update_add
      (fun _ (v : Voting AccountId) => v.delegatedTo cfg.maxBalance x) s.votingOf who
      (.delegating balance target conviction d p')
    simpa [← hW, hwho, Voting.delegatedTo] using h
  have hV : s'.votingOf = Function.update W target ((W target).setDelegations
      ((W target).delegations.saturatingAdd cfg.maxBalance
        (conviction.votes cfg.maxBalance balance))) := by
    rw [hvoting, Function.update_comm (Ne.symm hne), ← hW, ← hWt]
  -- nothing saturates, so `target` is given exactly the new delegation
  have hexact : (W target).delegations.saturatingAdd cfg.maxBalance
      (conviction.votes cfg.maxBalance balance) =
        (W target).delegations + conviction.votes cfg.maxBalance balance := by
    have h := hw.delegations target
    rw [hV, sum_delegatedTo_setDelegations, hdel, if_pos rfl, ← hs.delegations, ← hWt] at h
    exact Delegations.saturatingAdd_of_fits _ h
  rw [hexact] at hV
  have hW' := sorted_notSelf_update hs.sorted hs.notSelf who
    (.delegating balance target conviction d p') List.Pairwise.nil
    (by simpa [Voting.target] using Ne.symm hne)
  rw [← hW] at hW'
  have hV' := sorted_notSelf_update hW'.1 hW'.2 target
    ((W target).setDelegations ((W target).delegations + conviction.votes cfg.maxBalance balance))
    (by simpa using hW'.1 target) (by simpa using hW'.2 target)
  refine ⟨⟨fun x => ?_, fun r t' h => ?_, by rw [hV]; exact hV'.1⟩, by rw [hV]; exact hV'.2⟩
  · rw [hV, sum_delegatedTo_setDelegations, hdel]
    by_cases hx : x = target
    · subst hx
      rw [Function.update_self, Voting.delegations_setDelegations, if_pos rfl, hWt, hs.delegations]
    · rw [Function.update_of_ne hx, if_neg (Ne.symm hx), add_zero, hW]
      by_cases hxw : x = who
      · subst hxw
        rw [Function.update_self, ← hs.delegations, hwho]
        rfl
      · rw [Function.update_of_ne hxw, hs.delegations x]
  · have hfits := hw.tally r t' h
    rw [hinfo, Option.map_eq_some_iff] at h
    obtain ⟨i, hi, hmap⟩ := h
    cases i with
    | finished => simp [ReferendumInfo.mapTally] at hmap
    | ongoing t =>
      simp only [ReferendumInfo.mapTally, ReferendumInfo.ongoing.injEq] at hmap
      -- the new tally is the old one with the delegation through the vote of `target`
      have hsum : ∑ a, share cfg.maxBalance (s'.votingOf a) r =
          t + delegationOn (voteOn (s.votingOf target).votes r)
            (conviction.votes cfg.maxBalance balance) := by
        calc ∑ a, share cfg.maxBalance (s'.votingOf a) r
            = ∑ a, share cfg.maxBalance (Function.update W target ((W target).setDelegations
                (W target).delegations) a) r +
              delegationOn (voteOn (W target).votes r) (conviction.votes cfg.maxBalance balance) := by
              rw [hV, sum_share_setDelegations_add]
          _ = ∑ a, share cfg.maxBalance (W a) r +
              delegationOn (voteOn (s.votingOf target).votes r)
                (conviction.votes cfg.maxBalance balance) := by
              rw [Voting.setDelegations_delegations, Function.update_eq_self, hWt]
          _ = _ := by
              rw [hW, sum_share_update_of_zero _ _ _ _ _ (by simp [hwho, share]) (by simp [share]),
                ← hs.tally r t hi]
      rw [hsum] at hfits
      rw [← hmap, tallyStep_increase _ _ _ hfits, hsum]

variable (cfg)

omit [Fintype AccountId] in
theorem tryDelegate_cases (s : State AccountId) (who target : AccountId) (conviction : Conviction)
    (balance : ℕ) :
    (tryDelegate cfg s who target conviction balance).2 = s ∨
      who ≠ target ∧ ∃ u d p,
        ((s.votingOf who = .direct [] d p ∧ u = s) ∨
          ∃ oldBalance oldTarget oldConviction,
            s.votingOf who = .delegating oldBalance oldTarget oldConviction d p ∧
            u = reduceUpstreamDelegation s oldTarget
              (oldConviction.votes cfg.maxBalance oldBalance)) ∧
        (tryDelegate cfg s who target conviction balance).2 =
          ((increaseUpstreamDelegation cfg u target (conviction.votes cfg.maxBalance balance)).extendLock
            who balance).setVoting who (.delegating balance target conviction d p) := by
  unfold tryDelegate
  split
  next => exact .inl rfl
  next hne =>
    split
    next => exact .inl rfl
    next =>
      split
      next oldBalance oldTarget oldConviction d p hwho =>
        exact .inr ⟨hne, _, d, p, .inr ⟨oldBalance, oldTarget, oldConviction, hwho, rfl⟩, rfl⟩
      next votes d p hwho =>
        split
        next => exact .inl rfl
        next hvotes =>
          rw [not_not] at hvotes
          subst hvotes
          exact .inr ⟨hne, s, d, p, .inl ⟨hwho, rfl⟩, rfl⟩

variable {cfg}

theorem Sound.tryDelegate (hs : Sound cfg s) (who target : AccountId) (conviction : Conviction)
    (balance : ℕ) (hw : WithinBalance cfg (tryDelegate cfg s who target conviction balance).2) :
    Sound cfg (tryDelegate cfg s who target conviction balance).2 := by
  rcases tryDelegate_cases cfg s who target conviction balance with heq | ⟨hne, u, d, p, hu, heq⟩
  · rw [heq]
    exact hs
  -- the state in which `who` is an empty direct record, before it delegates again
  have hbase : Sound cfg (u.setVoting who (.direct [] d p)) := by
    rcases hu with ⟨hwho, rfl⟩ | ⟨oldBalance, oldTarget, oldConviction, hwho, rfl⟩
    · exact hs.of_eq (by rw [State.setVoting_votingOf, ← hwho, Function.update_eq_self]) rfl
    · exact hs.reduceUpstream hwho p
  have hut : (u.setVoting who (.direct [] d p)).votingOf target = u.votingOf target := by
    rw [State.setVoting_votingOf, Function.update_of_ne (Ne.symm hne)]
  have hsorted : SortedVotes (u.votingOf target).votes := hut ▸ hbase.sorted target
  rw [heq] at hw ⊢
  refine hbase.increaseUpstream (by rw [State.setVoting_votingOf, Function.update_self]) hne
    balance conviction p ?_ (fun r => ?_) hw
  · rw [State.setVoting_votingOf, State.extendLock_votingOf, increaseUpstreamDelegation_votingOf,
      hut, State.setVoting_votingOf, Function.update_comm hne, Function.update_idem]
  · rw [State.setVoting_referendumInfoOf, State.extendLock_referendumInfoOf,
      increaseUpstreamDelegation_referendumInfoOf cfg u target _ hsorted, hut,
      State.setVoting_referendumInfoOf]

theorem Sound.tryUndelegate (hs : Sound cfg s) (who : AccountId) :
    Sound cfg (tryUndelegate cfg s who).2 := by
  unfold Democracy.tryUndelegate
  split
  next balance target conviction d p hwho => exact hs.reduceUpstream hwho _
  next => exact hs

end Delegate

/-! ### Every call, and every run -/

theorem Sound.updateLock (hs : Sound cfg s) (who : AccountId) : Sound cfg (updateLock cfg s who) := by
  have hvoting : (Democracy.updateLock cfg s who).votingOf =
      Function.update s.votingOf who ((s.votingOf who).rejig s.now) := by
    unfold Democracy.updateLock
    dsimp only
    split <;> simp
  have hinfo : (Democracy.updateLock cfg s who).referendumInfoOf = s.referendumInfoOf := by
    unfold Democracy.updateLock
    dsimp only
    split <;> simp
  refine ⟨⟨fun x => ?_, fun r t h => ?_, fun a => ?_⟩, fun a => ?_⟩
  · rw [hvoting, Ledger.apply_update_of_eq (fun _ (v : Voting AccountId) => v.delegations) _ _ _
      (by simp), Finset.sum_congr rfl fun a _ => Ledger.apply_update_of_eq
        (fun _ (v : Voting AccountId) => v.delegatedTo cfg.maxBalance x) _ _ _ (by simp) a]
    exact hs.delegations x
  · rw [hinfo] at h
    rw [hs.tally r t h, hvoting]
    exact Finset.sum_congr rfl fun a _ => (Ledger.apply_update_of_eq
      (fun _ (v : Voting AccountId) => share cfg.maxBalance v r) _ _ _ (by simp) a).symm
  · rw [hvoting, Ledger.apply_update_of_eq (fun _ (v : Voting AccountId) => v.votes) _ _ _
      (by simp)]
    exact hs.sorted a
  · rw [hvoting, Ledger.apply_update_of_eq (fun _ (v : Voting AccountId) => v.target) _ _ _
      (by simp)]
    exact hs.notSelf a

theorem Sound.setFinished (hs : Sound cfg s) (r : ℕ) (approved : Bool) (endBlock : ℕ) :
    Sound cfg (s.setInfo r (.finished approved endBlock)) where
  delegations := hs.delegations
  tally r' t h := by
    by_cases hr : r' = r
    · subst hr
      simp at h
    · rw [State.setInfo_referendumInfoOf, Function.update_of_ne hr] at h
      exact hs.tally r' t h
  sorted := hs.sorted
  notSelf := hs.notSelf

theorem Sound.step (hs : Sound cfg s) (call : Call AccountId)
    (hw : WithinBalance cfg (Democracy.step cfg s call)) : Sound cfg (Democracy.step cfg s call) := by
  cases call with
  | vote who r vote => exact hs.tryVote who r vote hw
  | removeVote who r => exact hs.tryRemoveVote who r .any
  | removeOtherVote who target r => exact hs.tryRemoveVote target r _
  | delegate who target conviction balance => exact hs.tryDelegate who target conviction balance hw
  | undelegate who => exact hs.tryUndelegate who
  | unlock target => exact hs.updateLock target
  | finish r approved =>
    simp only [Democracy.step]
    split
    · exact hs.setFinished r approved s.now
    · exact hs
  | advance blocks => exact hs.of_eq rfl rfl

theorem Sound.run (hs : Sound cfg s) (calls : List (Call AccountId))
    (hw : ∀ n, WithinBalance cfg (StepMachine.run (Democracy.step cfg) s (calls.take n))) (n : ℕ) :
    Sound cfg (StepMachine.run (Democracy.step cfg) s (calls.take n)) :=
  run_take_invariant (Democracy.step cfg) (fun _ call hs hw => hs.step call hw) calls hs hw n

theorem Fresh.sound (h : Fresh s) : Sound cfg s where
  delegations x := by
    have hzero : ∀ a, (s.votingOf a).delegatedTo cfg.maxBalance x = 0 := by
      intro a
      obtain ⟨q, hq⟩ := h.voting a
      simp [hq, Voting.delegatedTo]
    obtain ⟨p, hp⟩ := h.voting x
    simp [hp, hzero, Voting.delegations]
  tally r t hr := by
    have hzero : ∀ a, share cfg.maxBalance (s.votingOf a) r = 0 := by
      intro a
      obtain ⟨q, hq⟩ := h.voting a
      simp [hq, share]
    simp [h.tally r t hr, hzero]
  sorted a := by
    obtain ⟨q, hq⟩ := h.voting a
    rw [hq]
    exact List.Pairwise.nil
  notSelf a := by
    obtain ⟨q, hq⟩ := h.voting a
    simp [hq, Voting.target]

/-- After each call of a run from a state before any vote, in which no delegation total and no
ongoing tally saturates `Balance`: every account's delegations are the conviction votes of the
accounts delegating to it, every ongoing tally is the sum over the direct voters on it of their
vote, with their delegations for a standard one, and every vote list is sorted without duplicates. -/
theorem talliesConsistent_after_each_call {s₀ : State AccountId} (h₀ : Fresh s₀)
    (calls : List (Call AccountId))
    (hw : ∀ n, WithinBalance cfg (run (step cfg) s₀ (calls.take n))) (n : ℕ) :
    TalliesConsistent cfg (run (step cfg) s₀ (calls.take n)) :=
  (h₀.sound.run calls hw n).toTalliesConsistent

theorem WithinBalance.of_funded
    (hdel : ∀ x, (s.votingOf x).delegations = ∑ a, (s.votingOf a).delegatedTo cfg.maxBalance x)
    (hfund : ∀ a, (s.votingOf a).Funded cfg.maxBalance (s.freeBalance a))
    (hbound : 6 * ∑ a, s.freeBalance a ≤ cfg.maxBalance) : WithinBalance cfg s :=
  ⟨sum_delegatedTo_fits cfg.maxBalance hfund hbound,
    fun r _ _ => sum_share_fits cfg.maxBalance hdel hfund hbound r⟩

end Preservation

/-- Two accounts with 50 free each, every referendum ongoing at zero, and a `Balance` of 1000. -/
def twoAccounts : State (Fin 2) :=
  { now := 0
    referendumInfoOf := fun _ => some (.ongoing 0)
    votingOf := fun _ => .direct [] 0 {}
    lock := fun _ => 0
    freeBalance := fun _ => 50 }

/-- The two accounts are numbered modulo 2. -/
local instance neZero_two : NeZero (2 : ℕ) := ⟨by decide⟩

/-- Account 0 delegates 20 to account 1 with conviction 1x; account 1 votes aye with 30 at 2x on
referendum 0. -/
def delegateThenVote : List (Call (Fin 2)) :=
  [.delegate 0 1 .locked1x 20, .vote 1 0 (.standard ⟨true, .locked2x⟩ 30)]

theorem talliesConsistent_after_delegateThenVote :
    Fresh twoAccounts ∧
      (∀ n, WithinBalance ⟨0, 10, 1000⟩
        (run (step ⟨0, 10, 1000⟩) twoAccounts (delegateThenVote.take n))) ∧
      ∀ n, TalliesConsistent ⟨0, 10, 1000⟩
        (run (step ⟨0, 10, 1000⟩) twoAccounts (delegateThenVote.take n)) := by
  have h₀ : Fresh twoAccounts :=
    ⟨fun _ => ⟨{}, rfl⟩, fun _ _ h => (ReferendumInfo.ongoing.inj (Option.some.inj h)).symm⟩
  have hw : ∀ n, WithinBalance ⟨0, 10, 1000⟩
      (run (step ⟨0, 10, 1000⟩) twoAccounts (delegateThenVote.take n)) := by
    intro n
    rcases n with _ | _ | n
    · exact WithinBalance.of_funded (by decide) (by decide) (by decide)
    · exact WithinBalance.of_funded (by decide) (by decide) (by decide)
    · simp only [delegateThenVote, List.take_succ_cons, List.take_nil]
      exact WithinBalance.of_funded (by decide) (by decide) (by decide)
  exact ⟨h₀, hw, talliesConsistent_after_each_call h₀ delegateThenVote hw⟩

end Tetcore.Democracy
