import Tetcore.Balances.Issuance
import Tetcore.Lib.Ledger
import Tetcore.Lib.Run

/-!
# The issuance is the sum of the balances

Every call of `Currency` and `ReservableCurrency` changes balances and returns an imbalance for
the change, and the imbalance moves `TotalIssuance` by the same amount when it is dropped; dust an
account leaves below the existential deposit goes to `DustRemoval`, which takes it off the
issuance. So the issuance stays the sum of `free + reserved` over all accounts.

Two things break it, and only two. An account whose last provider is held by a consumer cannot
be reaped, and the dust and the imbalance of the closure are gone all the same (`slash_breaks_issuance`
in `Balances.Issuance`). And `saturating_add` on the issuance stops at the largest balance. The
invariant `Ledgered` holds on states with no consumer reference; a call that mints no more than
the room left below the largest balance keeps it, and with it the issuance.

Underneath is one fact about the account store: whatever path `try_mutate_account` takes through
the provider references, it leaves the state its closure left with the new data written for the
account, or nothing when the data falls below the existential deposit, its total then taken off
the issuance (`tryMutateAccount_stored`).
-/

namespace Tetcore.Balances

variable (cfg : Config) {AccountId : Type*} [DecidableEq AccountId]

open State

/-- What an account holds, `free + reserved`, with no saturation. -/
def AccountData.held (d : AccountData) : ℕ := d.free + d.reserved

/-- What `post_mutation` keeps of new account data: nothing below the existential deposit. -/
def annul (a : AccountData) : AccountData :=
  if a.total cfg < cfg.existentialDeposit then default else a

/-- What `post_mutation` hands to `DustRemoval`. -/
def dust (a : AccountData) : ℕ :=
  if a.total cfg < cfg.existentialDeposit then a.total cfg else 0

theorem total_eq_held {a : AccountData} (h : a.held ≤ cfg.maxBalance) : a.total cfg = a.held :=
  min_eq_left h

theorem held_annul_add_dust {a : AccountData} (h : a.held ≤ cfg.maxBalance) :
    (annul cfg a).held + dust cfg a = a.held := by
  unfold annul dust
  rw [total_eq_held cfg h]
  split_ifs
  · show 0 + 0 + a.held = a.held
    omega
  · rfl

theorem isProviding_eq_false_iff {d : AccountData} : isProviding d = false ↔ d = default := by
  simp [isProviding]

theorem existentialDeposit_le_held_annul {a : AccountData} (h : isProviding (annul cfg a) = true) :
    cfg.existentialDeposit ≤ (annul cfg a).held := by
  unfold annul at h ⊢
  split_ifs at h ⊢ with hlt
  · simp [isProviding] at h
  · exact le_trans (Nat.not_lt.mp hlt) (min_le_left _ _)

/-! ### The account store -/

section Store

@[simp]
theorem data_setAccount (s : State AccountId) (k : AccountId) (v : Option AccountInfo) :
    (s.setAccount k v).data = Function.update s.data k (v.getD default).data := by
  funext a
  by_cases ha : a = k
  · subst ha
    simp [State.data, State.info, State.setAccount]
  · simp [State.data, State.info, State.setAccount, ha]

theorem info_setAccount (s : State AccountId) (k : AccountId) (v : Option AccountInfo) (a : AccountId) :
    (s.setAccount k v).info a = if a = k then v.getD default else s.info a := by
  by_cases ha : a = k
  · subst ha
    simp [State.info, State.setAccount]
  · simp [State.info, State.setAccount, ha]

@[simp]
theorem data_writeData (s : State AccountId) (k : AccountId) (d : Option AccountData) :
    (writeData s k d).data = Function.update s.data k (d.getD default) := by
  simp [writeData]

@[simp]
theorem data_incProviders (s : State AccountId) (k : AccountId) :
    (incProviders s k).data = s.data := by
  unfold incProviders
  dsimp only
  split_ifs <;> simp [State.data]

theorem consumers_writeData_le (s : State AccountId) (k : AccountId) (d : Option AccountData)
    (a : AccountId) : ((writeData s k d).info a).consumers ≤ (s.info a).consumers := by
  rw [writeData, info_setAccount]
  split_ifs with ha <;> simp [ha]

theorem consumers_incProviders_le (s : State AccountId) (k : AccountId) (a : AccountId) :
    ((incProviders s k).info a).consumers ≤ (s.info a).consumers := by
  unfold incProviders
  dsimp only
  split_ifs <;> rw [info_setAccount] <;> split_ifs with ha <;> simp [ha]

/-- The account store wrote `d` as the data of `k` over `s₁`, and `dust` left the issuance: every
other account keeps its data, and no account gains a consumer. -/
structure Stored (s₁ : State AccountId) (k : AccountId) (d : AccountData) (dust : ℕ)
    (s' : State AccountId) : Prop where
  issuance : s'.totalIssuance = s₁.totalIssuance - dust
  data : s'.data = Function.update s₁.data k d
  consumers : ∀ a, (s'.info a).consumers ≤ (s₁.info a).consumers

theorem decProviders_of_consumers_eq_zero (s : State AccountId) (k : AccountId)
    (hcons : (s.info k).consumers = 0) :
    (decProviders s k = (.ok .reaped, s) ∧ s.account k = none) ∨
      decProviders s k = (.ok .reaped, s.setAccount k none) ∨
      ∃ a x, s.account k = some a ∧
        decProviders s k = (.ok .exists, s.setAccount k (some { a with providers := x + 1 })) := by
  unfold decProviders
  cases ha : s.account k with
  | none => exact .inl ⟨rfl, rfl⟩
  | some a =>
    have ha0 : a.consumers = 0 := by simpa [State.info, ha] using hcons
    dsimp only
    rcases a with ⟨consumers, providers, data⟩
    dsimp only at ha0 ⊢
    subst ha0
    match providers with
    | 0 => exact .inr (.inl rfl)
    | 1 => exact .inr (.inl rfl)
    | x + 2 => exact .inr (.inr ⟨_, x, rfl, rfl⟩)

theorem tryMutateExists_stored {R : Type*} {s s₁ : State AccountId} {k : AccountId}
    {f : Option AccountData → State AccountId → Except Error (R × Option AccountData) × State AccountId}
    {dropR : State AccountId → R → State AccountId} {r : R} {newData : Option AccountData}
    (hf : f (if isProviding (s.data k) then some (s.data k) else none) s = (.ok (r, newData), s₁))
    (hframe : s₁.data k = s.data k) (hcons : (s₁.info k).consumers = 0) :
    ∃ s', tryMutateExists s k f dropR = (.ok r, s') ∧ Stored s₁ k (newData.getD default) 0 s' := by
  have hf' : f (if isProviding (s.info k).data then some (s.info k).data else none) s =
      (.ok (r, newData), s₁) := hf
  unfold tryMutateExists
  dsimp only
  rw [hf']
  dsimp only
  cases hwas : isProviding (s.data k) with
  | false =>
    have hwas' : isProviding (s.info k).data = false := hwas
    cases hnow : newData with
    | none =>
      -- the data was and stays the default: nothing is written
      have hdefault := isProviding_eq_false_iff.mp hwas
      refine ⟨s₁, by simp [hwas'], ⟨by simp, ?_, fun _ => le_refl _⟩⟩
      rw [Option.getD_none, ← hdefault, ← hframe, Function.update_eq_self]
    | some d =>
      refine ⟨writeData (incProviders s₁ k) k (some d), by simp [hwas'], ⟨?_, by simp, fun a => ?_⟩⟩
      · simp only [writeData, incProviders]
        split_ifs <;> simp [State.setAccount]
      · exact le_trans (consumers_writeData_le _ _ _ a) (consumers_incProviders_le _ _ a)
  | true =>
    have hwas' : isProviding (s.info k).data = true := hwas
    cases hnow : newData with
    | none =>
      -- the data goes: the provider reference is taken off, and the account with it or not
      rcases decProviders_of_consumers_eq_zero s₁ k hcons with ⟨hdec, hnone⟩ | hdec |
        ⟨a, x, hsome, hdec⟩
      · refine ⟨s₁, by simp [hwas', hdec], ⟨by simp, ?_, fun _ => le_refl _⟩⟩
        have hdata : s₁.data k = default := by
          simp only [State.data, State.info, hnone]
          rfl
        rw [Option.getD_none, ← hdata, Function.update_eq_self]
      · refine ⟨s₁.setAccount k none, by simp [hwas', hdec],
          ⟨by simp [State.setAccount], by simp; rfl, fun a => ?_⟩⟩
        rw [info_setAccount]
        split_ifs
        · exact Nat.zero_le _
        · exact le_refl _
      · refine ⟨writeData (s₁.setAccount k (some { a with providers := x + 1 })) k none,
          by simp [hwas', hdec], ⟨by simp [writeData, State.setAccount], by simp, fun b => ?_⟩⟩
        refine le_trans (consumers_writeData_le _ _ _ b) ?_
        rw [info_setAccount]
        split_ifs with hb
        · subst hb
          simp [State.info, hsome]
        · exact le_refl _
    | some d =>
      refine ⟨writeData s₁ k (some d), by simp [hwas'], ⟨by simp [writeData, State.setAccount],
        by simp, consumers_writeData_le _ _ _⟩⟩

omit [DecidableEq AccountId] in
theorem postMutation_spec (s : State AccountId) (a : AccountData) :
    (postMutation cfg s a).1.getD default = annul cfg a ∧
      (postMutation cfg s a).2.totalIssuance = s.totalIssuance - dust cfg a ∧
      (postMutation cfg s a).2.account = s.account := by
  unfold postMutation annul dust
  dsimp only
  split_ifs with hlt hzero <;> simp_all [State.dropNegative]

theorem Stored.of_postMutation {s₁ s' : State AccountId} {k : AccountId} {a : AccountData}
    (h : Stored (postMutation cfg s₁ a).2 k ((postMutation cfg s₁ a).1.getD default) 0 s') :
    Stored s₁ k (annul cfg a) (dust cfg a) s' := by
  obtain ⟨hdata, hissuance, haccount⟩ := postMutation_spec cfg s₁ a
  have hinfo : (postMutation cfg s₁ a).2.info = s₁.info := by
    funext b
    simp only [State.info, haccount]
  refine ⟨by rw [h.issuance, hissuance, Nat.sub_zero], ?_, fun b => ?_⟩
  · rw [h.data, ← hdata]
    congr 1
    funext b
    simp only [State.data, hinfo]
  · exact hinfo ▸ h.consumers b

theorem getD_someData (d : AccountData) :
    (if isProviding d then some d else none).getD default = d := by
  cases hp : isProviding d
  · simpa using (isProviding_eq_false_iff.mp hp).symm
  · rfl

theorem isNone_someData (d : AccountData) :
    (if isProviding d then some d else none).isNone = !isProviding d := by
  cases isProviding d <;> rfl

theorem tryMutateAccount_stored {R : Type*} {s s₁ : State AccountId} {who : AccountId}
    {f : AccountData → Bool → State AccountId → Except Error (R × AccountData) × State AccountId}
    {dropR : State AccountId → R → State AccountId} {r : R} {account : AccountData}
    (hf : f (s.data who) (!isProviding (s.data who)) s = (.ok (r, account), s₁))
    (hframe : s₁.data who = s.data who) (hcons : (s₁.info who).consumers = 0) :
    ∃ s', tryMutateAccount cfg s who f dropR = (.ok r, s') ∧
      Stored s₁ who (annul cfg account) (dust cfg account) s' := by
  obtain ⟨-, -, haccount⟩ := postMutation_spec cfg s₁ account
  unfold tryMutateAccount
  refine Exists.imp (fun s' h => ⟨h.1, Stored.of_postMutation cfg h.2⟩)
    (tryMutateExists_stored ?_ ?_ ?_)
  · simp only [getD_someData, isNone_someData, hf]
  · simp only [State.data, State.info, haccount]
    exact hframe
  · simp only [State.info, haccount]
    exact hcons

theorem tryMutateAccount_of_error {R : Type*} {s s₁ : State AccountId} {who : AccountId}
    {f : AccountData → Bool → State AccountId → Except Error (R × AccountData) × State AccountId}
    {dropR : State AccountId → R → State AccountId} {e : Error}
    (hf : f (s.data who) (!isProviding (s.data who)) s = (.error e, s₁)) :
    tryMutateAccount cfg s who f dropR = (.error e, s₁) := by
  have hf' : f ((if isProviding (s.info who).data then some (s.info who).data else none).getD default)
      (if isProviding (s.info who).data then some (s.info who).data else none).isNone s =
        (.error e, s₁) := by
    rw [getD_someData, isNone_someData]
    exact hf
  simp only [tryMutateAccount, tryMutateExists, hf']

/-- **What `try_mutate_account` did**: the closure failed and its state is the result, or it
succeeded, and then, unless a consumer holds the account, its data is written over the state it
left. -/
theorem tryMutateAccount_cases {R : Type*} {s s' : State AccountId} {who : AccountId}
    {f : AccountData → Bool → State AccountId → Except Error (R × AccountData) × State AccountId}
    {dropR : State AccountId → R → State AccountId} {res : Except Error R}
    (h : tryMutateAccount cfg s who f dropR = (res, s')) :
    (∃ e, res = .error e ∧ f (s.data who) (!isProviding (s.data who)) s = (.error e, s')) ∨
      ∃ r account s₁, f (s.data who) (!isProviding (s.data who)) s = (.ok (r, account), s₁) ∧
        (s₁.data who = s.data who → (s₁.info who).consumers = 0 →
          res = .ok r ∧ Stored s₁ who (annul cfg account) (dust cfg account) s') := by
  cases hf : f (s.data who) (!isProviding (s.data who)) s with
  | mk out s₁ =>
    cases out with
    | error e =>
      rw [tryMutateAccount_of_error cfg hf, Prod.mk.injEq] at h
      obtain ⟨rfl, rfl⟩ := h
      exact .inl ⟨e, rfl, rfl⟩
    | ok p =>
      obtain ⟨r, account⟩ := p
      refine .inr ⟨r, account, s₁, rfl, fun hframe hcons => ?_⟩
      obtain ⟨s'', hrun, hstored⟩ := tryMutateAccount_stored cfg hf hframe hcons
      rw [h, Prod.mk.injEq] at hrun
      obtain ⟨rfl, rfl⟩ := hrun
      exact ⟨rfl, hstored⟩

theorem tryMutateAccount_pure {R : Type*} {s s' : State AccountId} {who : AccountId}
    {f : AccountData → Bool → State AccountId → Except Error (R × AccountData) × State AccountId}
    {dropR : State AccountId → R → State AccountId} {res : Except Error R}
    (h : tryMutateAccount cfg s who f dropR = (res, s'))
    (hpure : ∀ b, (f (s.data who) b s).2 = s) (hcons : (s.info who).consumers = 0) :
    (∃ e, res = .error e ∧ s' = s ∧ f (s.data who) (!isProviding (s.data who)) s = (.error e, s)) ∨
      ∃ r account, f (s.data who) (!isProviding (s.data who)) s = (.ok (r, account), s) ∧
        res = .ok r ∧ Stored s who (annul cfg account) (dust cfg account) s' := by
  have hstate := hpure (!isProviding (s.data who))
  rcases tryMutateAccount_cases cfg h with ⟨e, hres, hf⟩ | ⟨r, account, s₁, hf, hstore⟩
  · rw [hf] at hstate
    subst hstate
    exact .inl ⟨e, hres, rfl, hf⟩
  · rw [hf] at hstate
    subst hstate
    obtain ⟨hres, hstored⟩ := hstore rfl hcons
    exact .inr ⟨r, account, hf, hres, hstored⟩

end Store

/-! ### The ledger -/

section Ledger

variable [Fintype AccountId]

/-- The balances held over all accounts. -/
def State.heldSum (s : State AccountId) : ℕ := ∑ a, (s.data a).held

/-- Every account whose data is stored holds at least the existential deposit. -/
def AboveDeposit (s : State AccountId) : Prop :=
  ∀ a, isProviding (s.data a) = true → cfg.existentialDeposit ≤ (s.data a).held

/-- No account has a consumer reference. -/
def NoConsumers (s : State AccountId) : Prop :=
  ∀ a, (s.info a).consumers = 0

/-- The bookkeeping of the balances: the issuance is the sum of the balances and within the largest
balance, every stored account holds the existential deposit, and no consumer holds an account. -/
structure Ledgered (s : State AccountId) : Prop where
  conserved : IssuanceConserved s
  bounded : s.totalIssuance ≤ cfg.maxBalance
  aboveDeposit : AboveDeposit cfg s
  noConsumers : NoConsumers s

omit [Fintype AccountId] in
theorem Stored.aboveDeposit {s₁ s' : State AccountId} {k : AccountId} {a : AccountData} {d : ℕ}
    (h : Stored s₁ k (annul cfg a) d s') (hs₁ : AboveDeposit cfg s₁) : AboveDeposit cfg s' := by
  intro b hb
  rw [h.data] at hb ⊢
  by_cases hbk : b = k
  · subst hbk
    rw [Function.update_self] at hb ⊢
    exact existentialDeposit_le_held_annul cfg hb
  · rw [Function.update_of_ne hbk] at hb ⊢
    exact hs₁ b hb

omit [Fintype AccountId] in
theorem Stored.noConsumers {s₁ s' : State AccountId} {k : AccountId} {a : AccountData} {d : ℕ}
    (h : Stored s₁ k a d s') (hs₁ : NoConsumers s₁) : NoConsumers s' :=
  fun b => Nat.eq_zero_of_le_zero (hs₁ b ▸ h.consumers b)

theorem Stored.heldSum {s₁ s' : State AccountId} {k : AccountId} {a : AccountData} {d : ℕ}
    (h : Stored s₁ k a d s') : s'.heldSum + (s₁.data k).held = s₁.heldSum + a.held := by
  rw [State.heldSum, State.heldSum, h.data]
  exact Ledger.sum_update_add (fun _ d => AccountData.held d) s₁.data k a

omit [DecidableEq AccountId] in
theorem held_le_heldSum (s : State AccountId) (k : AccountId) : (s.data k).held ≤ s.heldSum :=
  Finset.single_le_sum (f := fun a => (s.data a).held) (fun _ _ => Nat.zero_le _) (Finset.mem_univ k)

omit [Fintype AccountId] [DecidableEq AccountId] in
@[simp]
theorem State.dropNegative_zero (s : State AccountId) : s.dropNegative 0 = s := rfl

omit [Fintype AccountId] [DecidableEq AccountId] in
theorem data_eq_of_account_eq {s s' : State AccountId} (h : s'.account = s.account) :
    s'.data = s.data := by
  funext a
  simp only [State.data, State.info, h]

omit [Fintype AccountId] [DecidableEq AccountId] in
theorem info_eq_of_account_eq {s s' : State AccountId} (h : s'.account = s.account) :
    s'.info = s.info := by
  funext a
  simp only [State.info, h]

omit [DecidableEq AccountId] in
theorem Ledgered.held_le {s : State AccountId} (hs : Ledgered cfg s) (k : AccountId) :
    (s.data k).held ≤ s.totalIssuance :=
  hs.conserved ▸ held_le_heldSum s k

theorem dust_le_held (a : AccountData) : dust cfg a ≤ a.held := by
  unfold dust
  split_ifs
  · exact min_le_left _ _
  · exact Nat.zero_le _

theorem Ledgered.of_stored {s s₁ s' s'' : State AccountId} {k : AccountId}
    {account : AccountData} (hs : Ledgered cfg s) (hbase : s₁.account = s.account)
    (hstored : Stored s₁ k (annul cfg account) (dust cfg account) s')
    (haccount : account.held ≤ cfg.maxBalance) (hsame : s''.account = s'.account)
    (hissuance : s''.totalIssuance + (s.data k).held + dust cfg account =
      s.totalIssuance + account.held)
    (hbounded : s''.totalIssuance ≤ cfg.maxBalance) : Ledgered cfg s'' where
  conserved := by
    have hsum := hstored.heldSum
    have hsplit := held_annul_add_dust cfg haccount
    have hconserved : s.totalIssuance = s.heldSum := hs.conserved
    have hbefore : s₁.heldSum = s.heldSum := by
      simp only [State.heldSum, data_eq_of_account_eq hbase]
    have hafter : s''.heldSum = s'.heldSum := by
      simp only [State.heldSum, data_eq_of_account_eq hsame]
    rw [data_eq_of_account_eq hbase] at hsum
    show s''.totalIssuance = s''.heldSum
    omega
  bounded := hbounded
  aboveDeposit b hb := by
    have habove : AboveDeposit cfg s₁ := fun a ha => by
      rw [data_eq_of_account_eq hbase] at ha ⊢
      exact hs.aboveDeposit a ha
    rw [data_eq_of_account_eq hsame] at hb ⊢
    exact hstored.aboveDeposit cfg habove b hb
  noConsumers b := by
    have hcons : NoConsumers s₁ := fun a => by
      rw [info_eq_of_account_eq hbase]
      exact hs.noConsumers a
    rw [info_eq_of_account_eq hsame]
    exact hstored.noConsumers hcons b

theorem held_add_held_le (s : State AccountId) {k₁ k₂ : AccountId} (hne : k₁ ≠ k₂) :
    (s.data k₁).held + (s.data k₂).held ≤ s.heldSum := by
  rw [← Finset.sum_pair (f := fun a => (s.data a).held) hne]
  exact Finset.sum_le_sum_of_subset (Finset.subset_univ _)

theorem Ledgered.of_stored₂ {s s₁ s' : State AccountId} {k₁ k₂ : AccountId}
    {a₁ a₂ : AccountData} (hs : Ledgered cfg s) (hne : k₂ ≠ k₁)
    (hstored₁ : Stored s k₁ (annul cfg a₁) (dust cfg a₁) s₁)
    (hstored₂ : Stored s₁ k₂ (annul cfg a₂) (dust cfg a₂) s')
    (hheld : a₁.held + a₂.held = (s.data k₁).held + (s.data k₂).held)
    (hdust : dust cfg a₂ = 0) : Ledgered cfg s' where
  conserved := by
    have hsum₁ := hstored₁.heldSum
    have hsum₂ := hstored₂.heldSum
    have hsplit₁ := held_annul_add_dust cfg (a := a₁)
    have hsplit₂ := held_annul_add_dust cfg (a := a₂)
    have hpair := held_add_held_le s hne.symm
    have hconserved : s.totalIssuance = s.heldSum := hs.conserved
    have hbounded := hs.bounded
    have hdust₁ := dust_le_held cfg a₁
    have hother : s₁.data k₂ = s.data k₂ := by
      rw [hstored₁.data, Function.update_of_ne hne]
    rw [hother] at hsum₂
    have hissuance₁ := hstored₁.issuance
    have hissuance₂ := hstored₂.issuance
    have h₁ := hsplit₁ (by omega)
    have h₂ := hsplit₂ (by omega)
    show s'.totalIssuance = s'.heldSum
    omega
  bounded := by
    rw [hstored₂.issuance, hstored₁.issuance]
    exact le_trans (Nat.sub_le _ _) (le_trans (Nat.sub_le _ _) hs.bounded)
  aboveDeposit :=
    hstored₂.aboveDeposit cfg (hstored₁.aboveDeposit cfg hs.aboveDeposit)
  noConsumers := hstored₂.noConsumers (hstored₁.noConsumers hs.noConsumers)

omit [Fintype AccountId] [DecidableEq AccountId] in
theorem State.dropPositive_zero {s : State AccountId} (h : s.totalIssuance ≤ cfg.maxBalance) :
    s.dropPositive cfg 0 = s := by
  simp only [State.dropPositive, saturatingAdd, Nat.add_zero, min_eq_left h]

theorem Ledgered.write_burn {s s' : State AccountId} {k : AccountId} {account : AccountData}
    (hs : Ledgered cfg s) (hstored : Stored s k (annul cfg account) (dust cfg account) s')
    {burned : ℕ} (hheld : account.held + burned = (s.data k).held) :
    Ledgered cfg (s'.dropNegative burned) := by
  have hold := hs.held_le cfg k
  have hdust := dust_le_held cfg account
  have hissuance := hstored.issuance
  have hbounded := hs.bounded
  refine hs.of_stored cfg rfl hstored (by omega) rfl ?_ ?_ <;>
    simp only [State.dropNegative] <;> omega

theorem Ledgered.write_mint {s s' : State AccountId} {k : AccountId} {account : AccountData}
    (hs : Ledgered cfg s) (hstored : Stored s k (annul cfg account) (dust cfg account) s')
    {minted : ℕ} (hheld : (s.data k).held + minted = account.held)
    (hed : cfg.existentialDeposit ≤ account.held)
    (hroom : s.totalIssuance + minted ≤ cfg.maxBalance) :
    Ledgered cfg (s'.dropPositive cfg minted) := by
  have hold := hs.held_le cfg k
  have hissuance := hstored.issuance
  have haccount : account.held ≤ cfg.maxBalance := by omega
  have hdust : dust cfg account = 0 := by
    unfold dust
    rw [total_eq_held cfg haccount, if_neg (Nat.not_lt.mpr hed)]
  refine hs.of_stored cfg rfl hstored haccount rfl ?_ ?_ <;>
    simp only [State.dropPositive, saturatingAdd] <;> omega

end Ledger

/-! ### The calls -/

section Calls

variable [Fintype AccountId] {s : State AccountId}

theorem Ledgered.withdraw (hs : Ledgered cfg s) (who : AccountId) (value : ℕ)
    (reasons : Finset WithdrawReason) (liveness : ExistenceRequirement) :
    Ledgered cfg (applyCall cfg s (.withdraw who value reasons liveness)) := by
  rcases hcall : Balances.withdraw cfg s who value reasons liveness with ⟨res, s'⟩
  delta applyCall
  dsimp only
  rw [hcall]
  unfold Balances.withdraw at hcall
  split_ifs at hcall with hvalue
  · rw [Prod.mk.injEq] at hcall
    obtain ⟨rfl, rfl⟩ := hcall
    simpa using hs
  · rcases tryMutateAccount_pure cfg hcall
      (fun b => by dsimp only; split <;> (try split_ifs) <;> (try split) <;> rfl)
      (hs.noConsumers who) with ⟨e, rfl, rfl, -⟩ | ⟨r, account, hf, rfl, hstored⟩
    · exact hs
    -- the closure took `value` off the free balance
    dsimp only [checkedSub] at hf ⊢
    by_cases hle : value ≤ (s.data who).free
    · rw [if_pos hle] at hf
      dsimp only at hf
      split_ifs at hf
      · split at hf
        · simp at hf
        · simp only [Prod.mk.injEq, Except.ok.injEq] at hf
          obtain ⟨⟨rfl, haccount⟩, -⟩ := hf
          have hheld : account.held + value = (s.data who).held := by
            rw [← haccount]
            simp only [AccountData.held]
            omega
          exact hs.write_burn cfg hstored hheld
      · simp at hf
    · rw [if_neg hle] at hf
      simp at hf

theorem Ledgered.depositIntoExisting (hs : Ledgered cfg s) (who : AccountId) (value : ℕ)
    (hroom : s.totalIssuance + value ≤ cfg.maxBalance) :
    Ledgered cfg (applyCall cfg s (.depositIntoExisting who value)) := by
  rcases hcall : Balances.depositIntoExisting cfg s who value with ⟨res, s'⟩
  delta applyCall
  dsimp only
  rw [hcall]
  unfold Balances.depositIntoExisting at hcall
  split_ifs at hcall with hvalue
  · rw [Prod.mk.injEq] at hcall
    obtain ⟨rfl, rfl⟩ := hcall
    dsimp only
    rw [State.dropPositive_zero cfg hs.bounded]
    exact hs
  · rcases tryMutateAccount_pure cfg hcall
      (fun b => by split_ifs <;> (try split) <;> rfl)
      (hs.noConsumers who) with ⟨e, rfl, rfl, -⟩ | ⟨r, account, hf, rfl, hstored⟩
    · exact hs
    -- the account exists, and the value is added to its free balance
    dsimp only [checkedAdd] at hf ⊢
    split_ifs at hf with hnew hfits
    · simp at hf
    · simp only [Prod.mk.injEq, Except.ok.injEq] at hf
      obtain ⟨⟨rfl, haccount⟩, -⟩ := hf
      have hheld : (s.data who).held + value = account.held := by
        rw [← haccount]
        simp only [AccountData.held]
        omega
      have hed := hs.aboveDeposit who (by simpa using hnew)
      exact hs.write_mint cfg hstored hheld (by omega) hroom
    · simp at hf

theorem Ledgered.depositCreating (hs : Ledgered cfg s) (who : AccountId) (value : ℕ)
    (hroom : s.totalIssuance + value ≤ cfg.maxBalance) :
    Ledgered cfg (applyCall cfg s (.depositCreating who value)) := by
  rcases hcall : Balances.depositCreating cfg s who value with ⟨r, s'⟩
  show Ledgered cfg ((Balances.depositCreating cfg s who value).2.dropPositive cfg
    (Balances.depositCreating cfg s who value).1)
  rw [hcall]
  unfold Balances.depositCreating at hcall
  split_ifs at hcall with hvalue
  · rw [Prod.mk.injEq] at hcall
    obtain ⟨rfl, rfl⟩ := hcall
    rw [State.dropPositive_zero cfg hs.bounded]
    exact hs
  split at hcall
  · rename_i r₀ s₀ hrun
    rw [Prod.mk.injEq] at hcall
    obtain ⟨rfl, rfl⟩ := hcall
    rcases tryMutateAccount_pure cfg hrun
      (fun b => by split_ifs <;> (try split) <;> rfl)
      (hs.noConsumers who) with ⟨e, he, -, -⟩ | ⟨r, account, hf, hres, hstored⟩
    · cases he
    cases hres
    have hold := hs.held_le cfg who
    have hbounded := hs.bounded
    dsimp only [checkedAdd] at hf
    split_ifs at hf with hcreate hfits
    · simp only [Prod.mk.injEq, Except.ok.injEq] at hf
      obtain ⟨⟨rfl, haccount⟩, -⟩ := hf
      have hheld : (s.data who).held + value = account.held := by
        rw [← haccount]
        simp only [AccountData.held]
        omega
      -- a new account gets at least the existential deposit, an old one has it already
      have hed : cfg.existentialDeposit ≤ account.held := by
        rcases hcreate with hge | hold'
        · omega
        · have := hs.aboveDeposit who (by simpa using hold')
          omega
      exact hs.write_mint cfg hstored hheld hed hroom
    · -- the deposit cannot overflow below the room left
      simp only [AccountData.held] at hold
      omega
    · simp at hf
  · rename_i e s₀ hrun
    rw [Prod.mk.injEq] at hcall
    obtain ⟨rfl, rfl⟩ := hcall
    rcases tryMutateAccount_pure cfg hrun
      (fun b => by split_ifs <;> (try split) <;> rfl)
      (hs.noConsumers who) with ⟨e, -, rfl, -⟩ | ⟨r, account, -, hres, -⟩
    · rw [State.dropPositive_zero cfg hs.bounded]
      exact hs
    · cases hres

theorem Ledgered.makeFreeBalanceBe (hs : Ledgered cfg s) (who : AccountId) (value : ℕ)
    (hroom : s.totalIssuance + value ≤ cfg.maxBalance) :
    Ledgered cfg (applyCall cfg s (.makeFreeBalanceBe who value)) := by
  rcases hcall : Balances.makeFreeBalanceBe cfg s who value with ⟨r, s'⟩
  show Ledgered cfg ((Balances.makeFreeBalanceBe cfg s who value).2.dropSigned cfg
    (Balances.makeFreeBalanceBe cfg s who value).1)
  rw [hcall]
  unfold Balances.makeFreeBalanceBe at hcall
  split at hcall
  · rename_i r₀ s₀ hrun
    rw [Prod.mk.injEq] at hcall
    obtain ⟨rfl, rfl⟩ := hcall
    rcases tryMutateAccount_pure cfg hrun
      (fun b => by dsimp only; split_ifs <;> rfl)
      (hs.noConsumers who) with ⟨e, he, -, -⟩ | ⟨r, account, hf, hres, hstored⟩
    · cases he
    cases hres
    have hold := hs.held_le cfg who
    have hbounded := hs.bounded
    dsimp only at hf
    split_ifs at hf with hcreate hup
    · -- the free balance grows: a positive imbalance
      simp only [Prod.mk.injEq, Except.ok.injEq] at hf
      obtain ⟨⟨rfl, haccount⟩, -⟩ := hf
      have hheld : account.held = value + (s.data who).reserved := by
        rw [← haccount]
        rfl
      have hed : cfg.existentialDeposit ≤ account.held := by
        rcases hcreate with hge | hold'
        · have : saturatingAdd cfg value (s.data who).reserved ≤ value + (s.data who).reserved :=
            min_le_left _ _
          omega
        · have := hs.aboveDeposit who (by simpa using hold')
          have hold_eq : (s.data who).held = (s.data who).free + (s.data who).reserved := rfl
          omega
      have hold_eq : (s.data who).held = (s.data who).free + (s.data who).reserved := rfl
      rw [dropSigned]
      exact hs.write_mint cfg hstored (by omega) hed (by omega)
    · -- the free balance shrinks: a negative imbalance
      simp only [Prod.mk.injEq, Except.ok.injEq] at hf
      obtain ⟨⟨rfl, haccount⟩, -⟩ := hf
      have hheld : account.held = value + (s.data who).reserved := by
        rw [← haccount]
        rfl
      have hold_eq : (s.data who).held = (s.data who).free + (s.data who).reserved := rfl
      rw [dropSigned]
      exact hs.write_burn cfg hstored (by omega)
    · simp at hf
  · rename_i e s₀ hrun
    rw [Prod.mk.injEq] at hcall
    obtain ⟨rfl, rfl⟩ := hcall
    rcases tryMutateAccount_pure cfg hrun
      (fun b => by dsimp only; split_ifs <;> rfl)
      (hs.noConsumers who) with ⟨e, -, rfl, -⟩ | ⟨r, account, -, hres, -⟩
    · rw [dropSigned, State.dropPositive_zero cfg hs.bounded]
      exact hs
    · cases hres

theorem Ledgered.reserve (hs : Ledgered cfg s) (who : AccountId) (value : ℕ) :
    Ledgered cfg (applyCall cfg s (.reserve who value)) := by
  rcases hcall : Balances.reserve cfg s who value with ⟨res, s'⟩
  show Ledgered cfg (Balances.reserve cfg s who value).2
  rw [hcall]
  unfold Balances.reserve at hcall
  split_ifs at hcall with hvalue
  · rw [Prod.mk.injEq] at hcall
    obtain ⟨-, rfl⟩ := hcall
    exact hs
  rcases tryMutateAccount_pure cfg hcall
    (fun b => by split <;> (try split) <;> (try split) <;> rfl)
    (hs.noConsumers who) with ⟨e, -, rfl, -⟩ | ⟨r, account, hf, -, hstored⟩
  · exact hs
  dsimp only [checkedSub, checkedAdd] at hf
  by_cases hle : value ≤ (s.data who).free
  · rw [if_pos hle] at hf
    by_cases hfits : (s.data who).reserved + value ≤ cfg.maxBalance
    · rw [if_pos hfits] at hf
      dsimp only at hf
      split at hf
      · simp at hf
      · simp only [Prod.mk.injEq, Except.ok.injEq] at hf
        obtain ⟨⟨-, haccount⟩, -⟩ := hf
        have hheld : account.held + 0 = (s.data who).held := by
          rw [← haccount]
          show (s.data who).free - value + ((s.data who).reserved + value) + 0 =
            (s.data who).free + (s.data who).reserved
          omega
        simpa using hs.write_burn cfg hstored hheld
    · rw [if_neg hfits] at hf
      simp at hf
  · rw [if_neg hle] at hf
    simp at hf

theorem Ledgered.unreserve (hs : Ledgered cfg s) (who : AccountId) (value : ℕ) :
    Ledgered cfg (Balances.unreserve cfg s who value).2 := by
  unfold Balances.unreserve
  split_ifs with hvalue htotal
  · exact hs
  · exact hs
  split
  · rename_i actual s' hrun
    rw [mutateAccount] at hrun
    rcases tryMutateAccount_pure cfg hrun (fun b => rfl) (hs.noConsumers who) with
      ⟨e, he, -, -⟩ | ⟨r, account, hf, hres, hstored⟩
    · cases he
    simp only [Prod.mk.injEq, Except.ok.injEq] at hf
    obtain ⟨⟨-, haccount⟩, -⟩ := hf
    -- the free balance takes what leaves the reserved one, below the largest balance
    have hold := hs.held_le cfg who
    have hbounded := hs.bounded
    have hheld : account.held + 0 = (s.data who).held := by
      rw [← haccount]
      have hheld_eq : (s.data who).held = (s.data who).free + (s.data who).reserved := rfl
      show min ((s.data who).free + min (s.data who).reserved value) cfg.maxBalance +
          ((s.data who).reserved - min (s.data who).reserved value) + 0 = (s.data who).held
      omega
    simpa using hs.write_burn cfg hstored hheld
  · rename_i e s' hrun
    rw [mutateAccount] at hrun
    rcases tryMutateAccount_pure cfg hrun (fun b => rfl) (hs.noConsumers who) with
      ⟨e, -, rfl, -⟩ | ⟨r, account, -, hres, -⟩
    · exact hs
    · cases hres

theorem Ledgered.of_attempt (hs : Ledgered cfg s) {who : AccountId}
    {g : AccountData → (ℕ × ℕ) × AccountData} (hg : ∀ a, (g a).2.held + (g a).1.1 = a.held)
    {dropR : State AccountId → ℕ × ℕ → State AccountId} {res : Except Error (ℕ × ℕ)}
    {s' : State AccountId}
    (h : tryMutateAccount cfg s who (fun a _ s => (.ok (g a), s)) dropR = (res, s')) :
    ∃ r, res = .ok r ∧ Ledgered cfg (s'.dropNegative r.1) := by
  rcases tryMutateAccount_pure cfg h (fun b => rfl) (hs.noConsumers who) with
    ⟨e, -, -, hf⟩ | ⟨r, account, hf, hres, hstored⟩
  · simp at hf
  simp only [Prod.mk.injEq, Except.ok.injEq] at hf
  have hheld := hg (s.data who)
  rw [hf.1] at hheld
  exact ⟨r, hres, hs.write_burn cfg hstored hheld⟩

theorem held_slashAttempt (value attempt : ℕ) (a : AccountData) :
    (slashAttempt cfg value attempt a).2.held + (slashAttempt cfg value attempt a).1.1 = a.held := by
  unfold slashAttempt
  dsimp only
  split_ifs <;> simp only [AccountData.held] <;> omega

theorem held_slashReservedAttempt (value attempt : ℕ) (a : AccountData) :
    (slashReservedAttempt cfg value attempt a).2.held +
      (slashReservedAttempt cfg value attempt a).1.1 = a.held := by
  unfold slashReservedAttempt
  simp only [AccountData.held]
  omega

theorem Ledgered.slash (hs : Ledgered cfg s) (who : AccountId) (value : ℕ) :
    Ledgered cfg (applyCall cfg s (.slash who value)) := by
  rcases hcall : Balances.slash cfg s who value with ⟨r, s'⟩
  show Ledgered cfg ((Balances.slash cfg s who value).2.dropNegative
    (Balances.slash cfg s who value).1.1)
  rw [hcall]
  unfold Balances.slash at hcall
  split_ifs at hcall with hvalue htotal
  · rw [Prod.mk.injEq] at hcall
    obtain ⟨rfl, rfl⟩ := hcall
    simpa using hs
  · rw [Prod.mk.injEq] at hcall
    obtain ⟨rfl, rfl⟩ := hcall
    simpa using hs
  dsimp only at hcall
  -- with no consumer, the first attempt goes through
  split at hcall
  · rename_i r₀ s₀ hrun
    rw [Prod.mk.injEq] at hcall
    obtain ⟨rfl, rfl⟩ := hcall
    obtain ⟨r, hres, hledgered⟩ := hs.of_attempt cfg (held_slashAttempt cfg value 0) hrun
    cases hres
    exact hledgered
  · rename_i e s₀ hrun
    obtain ⟨r, hres, -⟩ := hs.of_attempt cfg (held_slashAttempt cfg value 0) hrun
    cases hres

theorem Ledgered.slashReserved (hs : Ledgered cfg s) (who : AccountId) (value : ℕ) :
    Ledgered cfg (applyCall cfg s (.slashReserved who value)) := by
  rcases hcall : Balances.slashReserved cfg s who value with ⟨r, s'⟩
  show Ledgered cfg ((Balances.slashReserved cfg s who value).2.dropNegative
    (Balances.slashReserved cfg s who value).1.1)
  rw [hcall]
  unfold Balances.slashReserved at hcall
  split_ifs at hcall with hvalue htotal
  · rw [Prod.mk.injEq] at hcall
    obtain ⟨rfl, rfl⟩ := hcall
    simpa using hs
  · rw [Prod.mk.injEq] at hcall
    obtain ⟨rfl, rfl⟩ := hcall
    simpa using hs
  dsimp only [mutateAccount] at hcall
  split at hcall
  · rename_i r₀ s₀ hrun
    rw [Prod.mk.injEq] at hcall
    obtain ⟨rfl, rfl⟩ := hcall
    obtain ⟨r, hres, hledgered⟩ := hs.of_attempt cfg (held_slashReservedAttempt cfg value 0) hrun
    cases hres
    exact hledgered
  · rename_i e s₀ hrun
    obtain ⟨r, hres, -⟩ := hs.of_attempt cfg (held_slashReservedAttempt cfg value 0) hrun
    cases hres

omit [Fintype AccountId] in
theorem applyCall_issue (hbounded : s.totalIssuance ≤ cfg.maxBalance) (amount : ℕ) :
    applyCall cfg s (.issue amount) = s := by
  simp only [applyCall, Balances.issue, checkedAdd]
  split_ifs with hamount hfits
  · rfl
  · simp [State.dropNegative]
  · simp only [State.dropNegative]
    rw [Nat.sub_sub_self hbounded]

omit [Fintype AccountId] in
theorem applyCall_burn (hbounded : s.totalIssuance ≤ cfg.maxBalance) (amount : ℕ) :
    applyCall cfg s (.burn amount) = s := by
  simp only [applyCall, Balances.burn, checkedSub]
  split_ifs with hamount hle
  · exact State.dropPositive_zero cfg hbounded
  · simp only [State.dropPositive, saturatingAdd, Nat.sub_add_cancel hle, min_eq_left hbounded]
  · simp only [State.dropPositive, saturatingAdd, Nat.zero_add, min_eq_left hbounded]

theorem dust_eq_zero {a : AccountData} (h : ¬a.total cfg < cfg.existentialDeposit) :
    dust cfg a = 0 :=
  if_neg h

theorem Ledgered.transfer (hs : Ledgered cfg s) (transactor dest : AccountId) (value : ℕ)
    (existence : ExistenceRequirement) :
    Ledgered cfg (applyCall cfg s (.transfer transactor dest value existence)) := by
  rcases hcall : Balances.transfer cfg s transactor dest value existence with ⟨res, s'⟩
  show Ledgered cfg (Balances.transfer cfg s transactor dest value existence).2
  rw [hcall]
  unfold Balances.transfer at hcall
  split_ifs at hcall with htrivial
  · rw [Prod.mk.injEq] at hcall
    obtain ⟨-, rfl⟩ := hcall
    exact hs
  have hne : dest ≠ transactor := fun h => htrivial (.inr h.symm)
  rcases tryMutateAccount_cases cfg hcall with ⟨e, -, hf⟩ | ⟨r, toAccount, s₁, hf, hstore⟩
  · -- the transfer failed, and so did the sender's closure, changing nothing
    dsimp only at hf
    split at hf
    · rename_i e' s₀ hsender
      rw [Prod.mk.injEq] at hf
      obtain ⟨-, rfl⟩ := hf
      rcases tryMutateAccount_pure cfg hsender
        (fun b => by
          split <;> (try split) <;> (try split_ifs) <;> (try split) <;> rfl)
        (hs.noConsumers transactor) with ⟨-, -, rfl, -⟩ | ⟨r', account, -, hres, -⟩
      · exact hs
      · cases hres
    · simp at hf
  dsimp only at hf
  split at hf
  · simp at hf
  rename_i toAccount' s₀ hsender
  simp only [Prod.mk.injEq, Except.ok.injEq] at hf
  obtain ⟨⟨-, rfl⟩, rfl⟩ := hf
  rcases tryMutateAccount_pure cfg hsender
    (fun b => by
      split <;> (try split) <;> (try split_ifs) <;> (try split) <;> rfl)
    (hs.noConsumers transactor) with ⟨e, he, -, -⟩ | ⟨r', fromAccount, hf, hres, hstored₁⟩
  · cases he
  cases hres
  -- the sender's closure checked the balances and computed both accounts
  dsimp only [checkedSub, checkedAdd] at hf
  by_cases hle : value ≤ (s.data transactor).free
  swap
  · rw [if_neg hle] at hf
    simp at hf
  rw [if_pos hle] at hf
  by_cases hfits : (s.data dest).free + value ≤ cfg.maxBalance
  swap
  · rw [if_neg hfits] at hf
    simp at hf
  rw [if_pos hfits] at hf
  dsimp only at hf
  split_ifs at hf with hed hallow
  · simp at hf
  · split at hf
    · simp at hf
    simp only [Prod.mk.injEq, Except.ok.injEq] at hf
    obtain ⟨⟨rfl, rfl⟩, -⟩ := hf
    -- the receiver's write: over the sender's, which left the receiver alone
    have hframe : s₀.data dest = s.data dest := by
      rw [hstored₁.data, Function.update_of_ne hne]
    have hcons : (s₀.info dest).consumers = 0 :=
      Nat.eq_zero_of_le_zero (hs.noConsumers dest ▸ hstored₁.consumers dest)
    obtain ⟨-, hstored₂⟩ := hstore hframe hcons
    refine hs.of_stored₂ cfg hne hstored₁ hstored₂ ?_ (dust_eq_zero cfg hed)
    show (s.data transactor).free - value + (s.data transactor).reserved +
        ((s.data dest).free + value + (s.data dest).reserved) =
      (s.data transactor).free + (s.data transactor).reserved +
        ((s.data dest).free + (s.data dest).reserved)
    omega
  · split at hf <;> simp at hf

omit [Fintype AccountId] [DecidableEq AccountId] in
theorem setBalance_issuance (s : State AccountId) (newFree newReserved free reserved : ℕ)
    (hroom : s.totalIssuance + (newFree + newReserved) ≤ cfg.maxBalance)
    (hheld : free + reserved ≤ s.totalIssuance) :
    let s₁ := if newFree > free then s.dropPositive cfg (newFree - free)
      else if newFree < free then s.dropNegative (free - newFree) else s
    let s₂ := if newReserved > reserved then s₁.dropPositive cfg (newReserved - reserved)
      else if newReserved < reserved then s₁.dropNegative (reserved - newReserved) else s₁
    s₂.totalIssuance + (free + reserved) = s.totalIssuance + (newFree + newReserved) ∧
      s₂.account = s.account := by
  intro s₁ s₂
  have h₁ : s₁.totalIssuance + free = s.totalIssuance + newFree ∧ s₁.account = s.account := by
    simp only [s₁]
    split_ifs <;> simp only [State.dropPositive, State.dropNegative, saturatingAdd, and_true] <;>
      omega
  have h₂ : s₂.totalIssuance + reserved = s₁.totalIssuance + newReserved ∧
      s₂.account = s₁.account := by
    simp only [s₂]
    split_ifs <;> simp only [State.dropPositive, State.dropNegative, saturatingAdd, and_true] <;>
      omega
  exact ⟨by omega, h₂.2.trans h₁.2⟩

theorem Ledgered.setBalance (hs : Ledgered cfg s) (who : AccountId) (newFree newReserved : ℕ)
    (hroom : s.totalIssuance + (newFree + newReserved) ≤ cfg.maxBalance) :
    Ledgered cfg (applyCall cfg s (.setBalance who newFree newReserved)) := by
  rcases hcall : Balances.setBalance cfg s who newFree newReserved with ⟨res, s'⟩
  show Ledgered cfg (Balances.setBalance cfg s who newFree newReserved).2
  rw [hcall]
  dsimp only
  unfold Balances.setBalance mutateAccount at hcall
  rcases tryMutateAccount_cases cfg hcall with ⟨e, -, hf⟩ | ⟨r, account, s₁, hf, hstore⟩
  · simp at hf
  simp only [Prod.mk.injEq, Except.ok.injEq] at hf
  obtain ⟨⟨-, haccount⟩, hs₁⟩ := hf
  -- the balances set: both, or nothing below the existential deposit
  set free' := if newFree + newReserved < cfg.existentialDeposit then 0 else newFree with hfree'
  set reserved' := if newFree + newReserved < cfg.existentialDeposit then 0 else newReserved
    with hreserved'
  have hset : free' + reserved' ≤ newFree + newReserved ∧
      (free' + reserved' = 0 ∨ cfg.existentialDeposit ≤ free' + reserved') := by
    rw [hfree', hreserved']
    split_ifs <;> omega
  have hold := hs.held_le cfg who
  have hheld_eq : (s.data who).held = (s.data who).free + (s.data who).reserved := rfl
  obtain ⟨hissuance₁, hbase⟩ := setBalance_issuance cfg s free' reserved' (s.data who).free
    (s.data who).reserved (by omega) (by omega)
  rw [hs₁] at hissuance₁ hbase
  have hframe : s₁.data who = s.data who := by rw [data_eq_of_account_eq hbase]
  have hcons : (s₁.info who).consumers = 0 := by
    rw [info_eq_of_account_eq hbase]
    exact hs.noConsumers who
  obtain ⟨-, hstored⟩ := hstore hframe hcons
  have hnew : account.held = free' + reserved' := by
    rw [← haccount]
    rfl
  -- nothing or at least the existential deposit: no dust
  have hdust : dust cfg account = 0 := by
    have hbound : account.held ≤ cfg.maxBalance := by omega
    rcases hset.2 with hzero | hed
    · unfold dust
      rw [total_eq_held cfg hbound, hnew, hzero]
      split_ifs <;> rfl
    · exact dust_eq_zero cfg (by rw [total_eq_held cfg hbound]; omega)
  have hissuance := hstored.issuance
  refine hs.of_stored cfg hbase hstored (by omega) rfl (by omega) (by omega)

theorem Ledgered.repatriateReserved (hs : Ledgered cfg s) (slashed beneficiary : AccountId)
    (value : ℕ) (status : Status) :
    Ledgered cfg (applyCall cfg s (.repatriateReserved slashed beneficiary value status)) := by
  rcases hcall : Balances.repatriateReserved cfg s slashed beneficiary value status with ⟨res, s'⟩
  show Ledgered cfg (Balances.repatriateReserved cfg s slashed beneficiary value status).2
  rw [hcall]
  unfold Balances.repatriateReserved at hcall
  split_ifs at hcall with hvalue hsame
  · rw [Prod.mk.injEq] at hcall
    obtain ⟨-, rfl⟩ := hcall
    exact hs
  · -- to the same account: into its own free balance, an unreserve
    subst hsame
    cases status with
    | free =>
      rcases hun : Balances.unreserve cfg s slashed value with ⟨r, s₁⟩
      rw [hun, Prod.mk.injEq] at hcall
      obtain ⟨-, rfl⟩ := hcall
      simpa only [hun] using hs.unreserve cfg slashed value
    | reserved =>
      rw [Prod.mk.injEq] at hcall
      obtain ⟨-, rfl⟩ := hcall
      exact hs
  have hne : beneficiary ≠ slashed := fun h => hsame h.symm
  -- whether it failed or not, the call leaves the state of the beneficiary's write
  generalize hrun : tryMutateAccount cfg s beneficiary _ dropNone = run at hcall
  obtain ⟨r₀, s₀⟩ := run
  have hs₀ : s' = s₀ := by
    cases r₀ <;> exact (Prod.mk.inj hcall).2.symm
  subst hs₀
  rcases tryMutateAccount_cases cfg hrun with ⟨e, -, hf⟩ | ⟨r, toAccount, s₁, hf, hstore⟩
  · -- the beneficiary is new, or the slashed account's closure failed: nothing changed
    dsimp only at hf
    split_ifs at hf with hnew
    · rw [Prod.mk.injEq] at hf
      obtain ⟨-, rfl⟩ := hf
      exact hs
    split at hf
    · rename_i e' s₂ hinner
      rw [Prod.mk.injEq] at hf
      obtain ⟨-, rfl⟩ := hf
      rcases tryMutateAccount_pure cfg hinner (fun b => by split <;> rfl)
        (hs.noConsumers slashed) with ⟨-, -, rfl, -⟩ | ⟨r', account, -, hres, -⟩
      · exact hs
      · cases hres
    · simp at hf
  dsimp only at hf
  split_ifs at hf with hnew
  · simp at hf
  split at hf
  · simp at hf
  rename_i r' s₂ hinner
  simp only [Prod.mk.injEq, Except.ok.injEq] at hf
  obtain ⟨rfl, rfl⟩ := hf
  rcases tryMutateAccount_pure cfg hinner (fun b => by split <;> rfl)
    (hs.noConsumers slashed) with ⟨e, he, -, -⟩ | ⟨r', fromAccount, hf, hres, hstored₁⟩
  · cases he
  cases hres
  -- the slashed account's closure moved what it could of its reserved balance
  split at hf
  · simp at hf
  rename_i to' hto
  simp only [Prod.mk.injEq, Except.ok.injEq] at hf
  obtain ⟨⟨⟨rfl, rfl⟩, rfl⟩, -⟩ := hf
  have hto_held : to'.held = (s.data beneficiary).held + min (s.data slashed).reserved value := by
    cases status with
    | free =>
      simp only [checkedAdd] at hto
      split_ifs at hto
      · simp only [Option.map_some, Option.some.injEq] at hto
        rw [← hto]
        simp only [AccountData.held]
        omega
      · simp at hto
    | reserved =>
      simp only [checkedAdd] at hto
      split_ifs at hto
      · simp only [Option.map_some, Option.some.injEq] at hto
        rw [← hto]
        simp only [AccountData.held]
        omega
      · simp at hto
  -- the beneficiary's write: over the slashed account's, which left the beneficiary alone
  have hframe : s₂.data beneficiary = s.data beneficiary := by
    rw [hstored₁.data, Function.update_of_ne hne]
  have hcons : (s₂.info beneficiary).consumers = 0 :=
    Nat.eq_zero_of_le_zero (hs.noConsumers beneficiary ▸ hstored₁.consumers beneficiary)
  obtain ⟨-, hstored₂⟩ := hstore hframe hcons
  -- the beneficiary existed: it held the existential deposit, and holds more now, within bounds
  have hed := hs.aboveDeposit beneficiary (by simpa using hnew)
  have hpair := held_add_held_le s hsame
  have hconserved : s.totalIssuance = s.heldSum := hs.conserved
  have hbounded := hs.bounded
  have hheld_eq : (s.data slashed).held = (s.data slashed).free + (s.data slashed).reserved := rfl
  have hmin := min_le_left (s.data slashed).reserved value
  have hdust : dust cfg to' = 0 :=
    dust_eq_zero cfg (by rw [total_eq_held cfg (by omega)]; omega)
  refine hs.of_stored₂ cfg hne hstored₁ hstored₂ ?_ hdust
  show (s.data slashed).free + ((s.data slashed).reserved - min (s.data slashed).reserved value) +
      to'.held = (s.data slashed).held + (s.data beneficiary).held
  omega

end Calls

/-! ### Runs -/

omit [DecidableEq AccountId] in
/-- What a call may add to the issuance: the value it deposits, or the balances it sets. -/
def Call.minted : Call AccountId → ℕ
  | .depositIntoExisting _ value => value
  | .depositCreating _ value => value
  | .makeFreeBalanceBe _ value => value
  | .setBalance _ newFree newReserved => newFree + newReserved
  | _ => 0

section Runs

variable [Fintype AccountId]

theorem Ledgered.step {s : State AccountId} (hs : Ledgered cfg s) (call : Call AccountId)
    (hroom : s.totalIssuance + call.minted ≤ cfg.maxBalance) :
    Ledgered cfg (applyCall cfg s call) := by
  cases call with
  | transfer transactor dest value existence => exact hs.transfer cfg transactor dest value existence
  | slash who value => exact hs.slash cfg who value
  | depositIntoExisting who value => exact hs.depositIntoExisting cfg who value hroom
  | depositCreating who value => exact hs.depositCreating cfg who value hroom
  | withdraw who value reasons liveness => exact hs.withdraw cfg who value reasons liveness
  | makeFreeBalanceBe who value => exact hs.makeFreeBalanceBe cfg who value hroom
  | reserve who value => exact hs.reserve cfg who value
  | unreserve who value => exact hs.unreserve cfg who value
  | slashReserved who value => exact hs.slashReserved cfg who value
  | repatriateReserved slashed beneficiary value status =>
    exact hs.repatriateReserved cfg slashed beneficiary value status
  | setBalance who newFree newReserved => exact hs.setBalance cfg who newFree newReserved hroom
  -- the imbalance of `issue` and `burn` is dropped at once, undoing the call
  | issue amount => rwa [applyCall_issue cfg hs.bounded]
  | burn amount => rwa [applyCall_burn cfg hs.bounded]

/-- **The ledger over every run.** From a state whose issuance is the sum of the balances, whose
accounts hold at least the existential deposit and have no consumer reference, every sequence of
calls keeps the issuance equal to the sum of the balances, as long as the issuance leaves room before
each call for what the call may mint. -/
theorem ledgered_run (calls : List (Call AccountId)) {s : State AccountId} (hs : Ledgered cfg s)
    (hroom : ∀ n (h : n < calls.length),
      (StepMachine.run (applyCall cfg) s (calls.take n)).totalIssuance + calls[n].minted ≤
        cfg.maxBalance) :
    Ledgered cfg (StepMachine.run (applyCall cfg) s calls) :=
  StepMachine.run_guarded_invariant (applyCall cfg) (fun _ call hs hroom => hs.step cfg call hroom)
    calls hs hroom

end Runs

/-- Two accounts, `false` of twenty units and `true` of fifteen, five of them reserved. -/
def twoAccounts : State Bool :=
  { account := fun a => some (if a then { providers := 1, data := { free := 10, reserved := 5 } }
      else { providers := 1, data := { free := 20 } }),
    totalIssuance := 35 }

/-- Calls that move balances between the two accounts, mint and burn. -/
def twoAccountCalls : List (Call Bool) :=
  [.transfer false true 7 .allowDeath, .repatriateReserved true false 3 .free,
    .depositCreating true 4, .slash false 2, .setBalance true 8 0, .reserve false 5,
    .withdraw false 1 ∅ .keepAlive]

theorem twoAccounts_ledgered : Ledgered edFive twoAccounts where
  conserved := by decide
  bounded := by decide
  aboveDeposit := by
    unfold AboveDeposit
    decide
  noConsumers := by
    unfold NoConsumers
    decide

theorem twoAccountCalls_ledgered :
    Ledgered edFive (StepMachine.run (applyCall edFive) twoAccounts twoAccountCalls) :=
  ledgered_run edFive twoAccountCalls twoAccounts_ledgered (by decide)

end Tetcore.Balances
