import Tetcore.Peerset.PeersState
import Tetcore.Lib.Ledger
import Tetcore.Lib.Run

/-!
# The counters of the peerset agree with its nodes

`num_in` and `num_out` of a set count the nodes connected in and out of it that occupy a slot, that
is, are not no-slot nodes of the set. `Consistent` says so, with the two facts the methods of
`peersstate.rs` rely on when they write a node back: a node has a membership state for every set,
and a node that is a member of no set and has reputation zero is not kept. Every call keeps
`Consistent`, so every state the calls reach from `new` has it; and as a counter is a number of
nodes, it never exceeds the number of nodes. A node connected in some set is never removed, and
no call but `remove_no_slot_node` can push a counter past its limit.
-/

namespace Tetcore.Peerset

namespace PeersState

variable {P : Type} [DecidableEq P] {s s' : PeersState P}

/-- One when a peer is a node in `state` in the set that occupies a slot, zero otherwise. -/
def occupies (s : PeersState P) (set : ℕ) (state : MembershipState) (peerId : P) : ℕ :=
  if s.membership set peerId = state ∧ peerId ∉ s.noSlotNodes set then 1 else 0

/-- The number of nodes in `state` in the set that occupy a slot. -/
def slotCount (s : PeersState P) (set : ℕ) (state : MembershipState) : ℕ :=
  ∑ peerId ∈ s.nodes.keys, s.occupies set state peerId

theorem occupies_eq_zero {set : ℕ} {state : MembershipState} {peerId : P}
    (hstate : state.isConnected = true) (h : (s.membership set peerId).isConnected = false) :
    s.occupies set state peerId = 0 := by
  rw [occupies, if_neg]
  rintro ⟨hm, -⟩
  rw [hm, hstate] at h
  cases h

theorem occupies_congr {set : ℕ} {state : MembershipState} {peerId : P}
    (hm : s'.membership set peerId = s.membership set peerId)
    (hn : peerId ∈ s'.noSlotNodes set ↔ peerId ∈ s.noSlotNodes set) :
    s'.occupies set state peerId = s.occupies set state peerId := by
  simp only [occupies, hm, hn]

theorem slotCount_add_of_eq_off (a : P) (set : ℕ) {state : MembershipState}
    (hstate : state.isConnected = true)
    (hoff : ∀ x, x ≠ a → s'.occupies set state x = s.occupies set state x) :
    s.slotCount set state + s'.occupies set state a = s'.slotCount set state + s.occupies set state a :=
  Ledger.sum_add_of_eq_off _ _ a
    (fun x hx => occupies_eq_zero hstate (by rw [membership_of_notMem (mt Finmap.mem_keys.mpr hx)]; rfl))
    (fun x hx => occupies_eq_zero hstate (by rw [membership_of_notMem (mt Finmap.mem_keys.mpr hx)]; rfl))
    fun x hx => (hoff x hx).symm

/-- The invariant of every state the calls reach from `new`. -/
structure Consistent (s : PeersState P) : Prop where
  /-- Every node has a membership state for each set. -/
  sets_length : ∀ peerId node, s.nodes.lookup peerId = some node → node.sets.length = s.numSets
  /-- `num_in` and `num_out` are the numbers of slot-occupying nodes connected in and out. -/
  counters : ∀ set info, s.sets[set]? = some info → ∀ state, state.isConnected = true →
    info.num state = s.slotCount set state
  /-- No node has a reputation of zero and no set it is a member of. -/
  used : ∀ peerId node, s.nodes.lookup peerId = some node → node.isUnused = false

/-- **Frame lemma.** A call that changes one node `a` and the counters and no-slot nodes of one
set, that keeps the node's sets and use, keeps its membership in the other sets, and moves each
counter of the set by the change of the node's occupancy, keeps the invariant. -/
theorem Consistent.of_frame (hs : s.Consistent) (a : P) (set : ℕ) (hsets : s'.numSets = s.numSets)
    (hnodes : ∀ x, x ≠ a → s'.nodes.lookup x = s.nodes.lookup x)
    (hnode : ∀ node, s'.nodes.lookup a = some node →
      node.sets.length = s.numSets ∧ node.isUnused = false)
    (hother : ∀ j, j ≠ set → s'.sets[j]? = s.sets[j]? ∧ s'.membership j a = s.membership j a)
    (hnoSlot : ∀ x, x ≠ a → (x ∈ s'.noSlotNodes set ↔ x ∈ s.noSlotNodes set))
    (hcount : ∀ info', s'.sets[set]? = some info' → ∀ state, state.isConnected = true →
      ∃ info, s.sets[set]? = some info ∧
        info'.num state + s.occupies set state a = info.num state + s'.occupies set state a) :
    s'.Consistent where
  sets_length x node hx := by
    by_cases hxa : x = a
    · subst hxa
      exact hsets ▸ (hnode node hx).1
    · rw [hnodes x hxa] at hx
      exact hsets ▸ hs.sets_length x node hx
  counters j info' hinfo' state hstate := by
    -- the other nodes keep their occupancy of every set
    have hmembership : ∀ x, x ≠ a → s'.membership j x = s.membership j x := fun x hx => by
      rw [membership, membership, hnodes x hx]
    have hnoSlotj : ∀ x, x ≠ a → (x ∈ s'.noSlotNodes j ↔ x ∈ s.noSlotNodes j) := by
      intro x hx
      by_cases hj : j = set
      · subst hj
        exact hnoSlot x hx
      · rw [noSlotNodes_congr (hother j hj).1]
    have hframe : s.slotCount j state + s'.occupies j state a =
        s'.slotCount j state + s.occupies j state a :=
      slotCount_add_of_eq_off a j hstate fun x hx => occupies_congr (hmembership x hx) (hnoSlotj x hx)
    by_cases hj : j = set
    · subst hj
      obtain ⟨info, hinfo, hnum⟩ := hcount info' hinfo' state hstate
      have hold := hs.counters j info hinfo state hstate
      omega
    · -- in another set the node keeps its occupancy and the counters stay
      obtain ⟨hsetsj, hmemj⟩ := hother j hj
      have hocc : s'.occupies j state a = s.occupies j state a :=
        occupies_congr hmemj (by rw [noSlotNodes_congr hsetsj])
      have hold := hs.counters j info' (hsetsj ▸ hinfo') state hstate
      omega
  used x node hx := by
    by_cases hxa : x = a
    · subst hxa
      exact (hnode node hx).2
    · rw [hnodes x hxa] at hx
      exact hs.used x node hx

/-! ## The calls -/

theorem Consistent.length_lookupOrNew (hs : s.Consistent) (peerId : P) :
    ((s.nodes.lookup peerId).getD (Node.new s.sets.length)).sets.length = s.numSets := by
  cases h : s.nodes.lookup peerId with
  | none => simp [Node.new, numSets]
  | some node => exact hs.sets_length peerId node h

theorem Consistent.discover (hs : s.Consistent) {set : ℕ} {peerId : P} (hset : set < s.numSets)
    (hpeer : s.peer set peerId = .unknown) (now : ℕ) : (s.discover set peerId now).Consistent := by
  set node := (s.nodes.lookup peerId).getD (Node.new s.sets.length)
  have hlen : node.sets.length = s.numSets := hs.length_lookupOrNew peerId
  have hnew : (s.discover set peerId now).nodes.lookup peerId =
      some (node.setMembership set (.notConnected now)) := Finmap.lookup_insert _
  have hstateNew : (s.discover set peerId now).membership set peerId = .notConnected now := by
    rw [membership_of_lookup hnew, Node.getD_setMembership_self _ (hlen ▸ hset)]
  refine hs.of_frame peerId set rfl (fun x hx => Finmap.lookup_insert_of_ne _ hx) ?_ ?_
    (fun _ _ => Iff.rfl) ?_
  · intro node' h'
    rw [hnew] at h'
    cases h'
    refine ⟨by rw [Node.setMembership, List.length_set, hlen], Node.isUnused_eq_false (j := set) ?_⟩
    rw [Node.getD_setMembership_self _ (hlen ▸ hset)]
    exact MembershipState.noConfusion
  · intro j hj
    refine ⟨rfl, ?_⟩
    rw [membership_of_lookup hnew, Node.getD_setMembership_of_ne _ hj, membership_eq_lookupOrNew]
  · intro info' hinfo' state hstate
    refine ⟨info', hinfo', ?_⟩
    -- from no membership to not connected: no slot before or after
    rw [occupies_eq_zero hstate (by rw [membership_of_peer_unknown hpeer]; rfl),
      occupies_eq_zero hstate (by rw [hstateNew]; rfl)]

theorem occupies_of_lookup {set : ℕ} {state : MembershipState} {peerId : P} {node : Node}
    {info : SetInfo P} (hnode : s.nodes.lookup peerId = some node) (hinfo : s.sets[set]? = some info) :
    s.occupies set state peerId =
      if node.sets.getD set .notMember = state ∧ peerId ∉ info.noSlotNodes then 1 else 0 := by
  rw [occupies, membership_of_lookup hnode, noSlotNodes_of_getElem? hinfo]

theorem Consistent.tryConnect (hs : s.Consistent) {state : MembershipState}
    (hconnected : state.isConnected = true) {set : ℕ} {peerId : P} (hset : set < s.numSets)
    (hpeer : s.peer set peerId = .notConnected) : (s.tryConnect state set peerId).2.Consistent := by
  rcases tryConnect_cases state s set peerId with h | ⟨info, node, hinfo, hnode, -, h⟩
  · rw [h]
    exact hs
  rw [h, ite_set_eq hinfo]
  obtain ⟨t, ht⟩ := membership_of_peer_notConnected hpeer
  have hlen := hs.sets_length peerId node hnode
  set info' := if peerId ∈ info.noSlotNodes then info else info.increment state
  have hnoSlot' : info'.noSlotNodes = info.noSlotNodes := by
    simp only [info']
    split <;> simp
  refine hs.of_frame peerId set (by simp [numSets]) (fun x hx => Finmap.lookup_insert_of_ne _ hx)
    ?_ ?_ ?_ ?_
  · intro node' h'
    rw [Finmap.lookup_insert] at h'
    cases h'
    refine ⟨by rw [Node.setMembership, List.length_set, hlen], Node.isUnused_eq_false (j := set) ?_⟩
    rw [Node.getD_setMembership_self _ (hlen ▸ hset)]
    exact ne_notMember_of_isConnected hconnected
  · intro j hj
    refine ⟨by rw [getElem?_set_of_getElem? hinfo, if_neg hj], ?_⟩
    rw [membership_of_lookup (Finmap.lookup_insert _), Node.getD_setMembership_of_ne _ hj,
      membership_of_lookup hnode]
  · intro x _
    rw [noSlotNodes_of_getElem? (by rw [getElem?_set_of_getElem? hinfo, if_pos rfl]),
      noSlotNodes_of_getElem? hinfo, hnoSlot']
  · intro info'' hinfo'' m hm
    rw [getElem?_set_of_getElem? hinfo, if_pos rfl] at hinfo''
    cases hinfo''
    refine ⟨info, hinfo, ?_⟩
    -- not connected before; after, connected in `state`, occupying a slot unless no-slot
    rw [occupies_eq_zero hm (by rw [ht]; rfl),
      occupies_of_lookup (Finmap.lookup_insert _) (by rw [getElem?_set_of_getElem? hinfo, if_pos rfl]),
      Node.getD_setMembership_self _ (hlen ▸ hset), hnoSlot']
    simp only [info']
    by_cases hn : peerId ∈ info.noSlotNodes
    · simp [hn]
    · rw [if_neg hn, SetInfo.num_increment _ _ hm]
      by_cases hsm : state = m <;> simp [hsm, hn]

theorem occupies_le_slotCount (set : ℕ) {state : MembershipState}
    (hstate : state.isConnected = true) (peerId : P) :
    s.occupies set state peerId ≤ s.slotCount set state := by
  by_cases h : peerId ∈ s.nodes
  · exact Finset.single_le_sum (f := s.occupies set state) (fun _ _ => Nat.zero_le _)
      (Finmap.mem_keys.mpr h)
  · rw [occupies_eq_zero hstate (by rw [membership_of_notMem h]; rfl)]
    exact Nat.zero_le _

theorem Consistent.disconnect (hs : s.Consistent) {set : ℕ} {peerId : P} (hset : set < s.numSets)
    (hpeer : s.peer set peerId = .connected) (now : ℕ) : (s.disconnect set peerId now).Consistent := by
  rcases disconnect_cases s set peerId now with h | ⟨info, node, hinfo, hnode, h⟩
  · rw [h]
    exact hs
  rw [h, ite_set_eq hinfo]
  have hlen := hs.sets_length peerId node hnode
  have hconnected : (node.sets.getD set .notMember).isConnected = true := by
    rw [← membership_of_lookup hnode]
    exact membership_of_peer_connected hpeer
  set info' := if peerId ∈ info.noSlotNodes then info
    else info.decrement (node.sets.getD set .notMember)
  have hnoSlot' : info'.noSlotNodes = info.noSlotNodes := by
    simp only [info']
    split <;> simp
  refine hs.of_frame peerId set (by simp [numSets]) (fun x hx => Finmap.lookup_insert_of_ne _ hx)
    ?_ ?_ ?_ ?_
  · intro node' h'
    rw [Finmap.lookup_insert] at h'
    cases h'
    refine ⟨by rw [Node.setMembership, List.length_set, hlen], Node.isUnused_eq_false (j := set) ?_⟩
    rw [Node.getD_setMembership_self _ (hlen ▸ hset)]
    exact MembershipState.noConfusion
  · intro j hj
    refine ⟨by rw [getElem?_set_of_getElem? hinfo, if_neg hj], ?_⟩
    rw [membership_of_lookup (Finmap.lookup_insert _), Node.getD_setMembership_of_ne _ hj,
      membership_of_lookup hnode]
  · intro x _
    rw [noSlotNodes_of_getElem? (by rw [getElem?_set_of_getElem? hinfo, if_pos rfl]),
      noSlotNodes_of_getElem? hinfo, hnoSlot']
  · intro info'' hinfo'' m hm
    rw [getElem?_set_of_getElem? hinfo, if_pos rfl] at hinfo''
    cases hinfo''
    refine ⟨info, hinfo, ?_⟩
    -- connected before, counted unless no-slot; not connected after
    have hcount := hs.counters set info hinfo m hm
    have hle : s.occupies set m peerId ≤ s.slotCount set m := occupies_le_slotCount set hm peerId
    rw [occupies_of_lookup hnode hinfo] at hle ⊢
    rw [occupies_eq_zero hm (by rw [membership_of_lookup (Finmap.lookup_insert _),
      Node.getD_setMembership_self _ (hlen ▸ hset)]; rfl)]
    simp only [info']
    by_cases hn : peerId ∈ info.noSlotNodes
    · simp [hn]
    · rw [if_neg hn, SetInfo.num_decrement _ _ hm]
      by_cases hsm : node.sets.getD set .notMember = m
      · simp only [hsm, hn, not_false_eq_true, and_self, if_true] at hle ⊢
        omega
      · simp only [hsm, false_and, if_false, Nat.sub_zero, Nat.add_zero]

theorem Consistent.of_node (hs : s.Consistent) (a : P) (set : ℕ) (hsets : s'.sets = s.sets)
    (hnodes : ∀ x, x ≠ a → s'.nodes.lookup x = s.nodes.lookup x)
    (hnode : ∀ node, s'.nodes.lookup a = some node →
      node.sets.length = s.numSets ∧ node.isUnused = false)
    (hother : ∀ j, j ≠ set → s'.membership j a = s.membership j a)
    (hbefore : (s.membership set a).isConnected = false)
    (hafter : (s'.membership set a).isConnected = false) : s'.Consistent := by
  refine hs.of_frame a set (by rw [numSets, numSets, hsets]) hnodes hnode
    (fun j hj => ⟨by rw [hsets], hother j hj⟩) (fun x _ => by rw [noSlotNodes, noSlotNodes, hsets])
    fun info' hinfo' state hstate => ⟨info', hsets ▸ hinfo', ?_⟩
  rw [occupies_eq_zero hstate hbefore, occupies_eq_zero hstate hafter]

theorem Consistent.addReputation (hs : s.Consistent) {set : ℕ} {peerId : P}
    (hpeer : s.peer set peerId = .connected) (modifier : ℤ) :
    (s.addReputation peerId modifier).Consistent := by
  have hconnected := membership_of_peer_connected hpeer
  obtain ⟨node, hnode⟩ := exists_lookup_of_membership (ne_notMember_of_isConnected hconnected)
  obtain ⟨node', h, hsets'⟩ : ∃ node' : Node, s.addReputation peerId modifier =
      { s with nodes := s.nodes.insert peerId node' } ∧ node'.sets = node.sets :=
    ⟨⟨node.sets, Saturating.addSigned 32 node.reputation modifier⟩,
      by rw [PeersState.addReputation, hnode], rfl⟩
  rw [h]
  -- the node keeps every membership, so it stays connected in `set` and used
  have hsame : ∀ j, ({ s with nodes := s.nodes.insert peerId node' } : PeersState P).membership j
      peerId = s.membership j peerId := fun j => by
    rw [membership_of_lookup (Finmap.lookup_insert _), membership_of_lookup hnode, hsets']
  refine hs.of_frame peerId set rfl (fun x hx => Finmap.lookup_insert_of_ne _ hx) ?_
    (fun j _ => ⟨rfl, hsame j⟩) (fun _ _ => Iff.rfl)
    fun info' hinfo' state _ => ⟨info', hinfo', by rw [occupies_congr (hsame set) Iff.rfl]⟩
  intro node'' h'
  rw [Finmap.lookup_insert] at h'
  cases h'
  refine ⟨hsets' ▸ hs.sets_length peerId node hnode, Node.isUnused_eq_false (j := set) ?_⟩
  rw [hsets', ← membership_of_lookup hnode]
  exact ne_notMember_of_isConnected hconnected

theorem Consistent.bumpLastConnectedOrDiscovered (hs : s.Consistent) {set : ℕ} {peerId : P}
    (hset : set < s.numSets) (hpeer : s.peer set peerId = .notConnected) (now : ℕ) :
    (s.bumpLastConnectedOrDiscovered set peerId now).Consistent := by
  obtain ⟨t, ht⟩ := membership_of_peer_notConnected hpeer
  obtain ⟨node, hnode⟩ := exists_lookup_of_membership (by rw [ht]; exact MembershipState.noConfusion)
  have hlen := hs.sets_length peerId node hnode
  have hmem : node.sets.getD set .notMember = .notConnected t := membership_of_lookup hnode set ▸ ht
  have h : s.bumpLastConnectedOrDiscovered set peerId now =
      { s with nodes := s.nodes.insert peerId (node.setMembership set (.notConnected now)) } := by
    rw [PeersState.bumpLastConnectedOrDiscovered, hnode]
    dsimp only
    rw [hmem]
  rw [h]
  refine hs.of_node peerId set rfl (fun x hx => Finmap.lookup_insert_of_ne _ hx) ?_ ?_
    (by rw [ht]; rfl) ?_
  · intro node' h'
    rw [Finmap.lookup_insert] at h'
    cases h'
    refine ⟨by rw [Node.setMembership, List.length_set, hlen], Node.isUnused_eq_false (j := set) ?_⟩
    rw [Node.getD_setMembership_self _ (hlen ▸ hset)]
    exact MembershipState.noConfusion
  · intro j hj
    rw [membership_of_lookup (Finmap.lookup_insert _), Node.getD_setMembership_of_ne _ hj,
      membership_of_lookup hnode]
  · rw [membership_of_lookup (Finmap.lookup_insert _), Node.getD_setMembership_self _ (hlen ▸ hset)]
    rfl

theorem Consistent.forgetPeer (hs : s.Consistent) {set : ℕ} {peerId : P} (hset : set < s.numSets)
    (hpeer : s.peer set peerId = .notConnected) : (s.forgetPeer set peerId).Consistent := by
  obtain ⟨t, ht⟩ := membership_of_peer_notConnected hpeer
  have hbefore : (s.membership set peerId).isConnected = false := by
    rw [ht]
    rfl
  rcases forgetPeer_cases s set peerId with h | ⟨node, hnode, ⟨hunused, h⟩ | ⟨hused, h⟩⟩
  · rw [h]
    exact hs
  · -- the node is unused: it was a member of no other set, and is no longer a node
    rw [h]
    have hgone : peerId ∉ ({ s with nodes := s.nodes.erase peerId } : PeersState P).nodes :=
      Finmap.notMem_erase_self
    refine hs.of_node peerId set rfl (fun x hx => Finmap.lookup_erase_ne hx)
      (fun node' h' => by rw [Finmap.lookup_erase] at h'; cases h') (fun j hj => ?_) hbefore
      (by rw [membership_of_notMem hgone]; rfl)
    rw [membership_of_notMem hgone, membership_of_lookup hnode,
      ← Node.getD_setMembership_of_ne .notMember hj, Node.getD_of_isUnused hunused]
  · rw [h]
    have hlen := hs.sets_length peerId node hnode
    refine hs.of_node peerId set rfl (fun x hx => Finmap.lookup_insert_of_ne _ hx) ?_ ?_ hbefore ?_
    · intro node' h'
      rw [Finmap.lookup_insert] at h'
      cases h'
      exact ⟨by rw [Node.setMembership, List.length_set, hlen], hused⟩
    · intro j hj
      rw [membership_of_lookup (Finmap.lookup_insert _), Node.getD_setMembership_of_ne _ hj,
        membership_of_lookup hnode]
    · rw [membership_of_lookup (Finmap.lookup_insert _),
        Node.getD_setMembership_self _ (hlen ▸ hset)]
      rfl

/-- A call that writes the counters and no-slot nodes of one set, changing them at one peer only,
and leaves the nodes, keeps the invariant when each counter moves by the change of that peer's
occupancy. -/
theorem Consistent.of_setInfo (hs : s.Consistent) (a : P) {set : ℕ} {info info' : SetInfo P}
    (hinfo : s.sets[set]? = some info)
    (hnoSlot : ∀ x, x ≠ a → (x ∈ info'.noSlotNodes ↔ x ∈ info.noSlotNodes))
    (hcount : ∀ state, state.isConnected = true →
      info'.num state + s.occupies set state a =
        info.num state + if s.membership set a = state ∧ a ∉ info'.noSlotNodes then 1 else 0) :
    ({ s with sets := s.sets.set set info' } : PeersState P).Consistent := by
  have hinfo' : ({ s with sets := s.sets.set set info' } : PeersState P).sets[set]? = some info' := by
    rw [getElem?_set_of_getElem? hinfo, if_pos rfl]
  refine hs.of_frame a set (by simp [numSets]) (fun _ _ => rfl)
    (fun node h => ⟨hs.sets_length a node h, hs.used a node h⟩)
    (fun j hj => ⟨by rw [getElem?_set_of_getElem? hinfo, if_neg hj], rfl⟩) ?_ ?_
  · intro x hx
    rw [noSlotNodes_of_getElem? hinfo', noSlotNodes_of_getElem? hinfo]
    exact hnoSlot x hx
  · intro info'' hinfo'' state hstate
    rw [hinfo'] at hinfo''
    cases hinfo''
    refine ⟨info, hinfo, ?_⟩
    rw [hcount state hstate, occupies, noSlotNodes_of_getElem? hinfo']
    rfl

theorem Consistent.addNoSlotNode (hs : s.Consistent) (set : ℕ) (peerId : P) :
    (s.addNoSlotNode set peerId).Consistent := by
  rcases addNoSlotNode_cases s set peerId with h | ⟨info, hinfo, hn, h⟩
  · rw [h]
    exact hs
  rw [h]
  refine hs.of_setInfo peerId hinfo (fun x hx => by simp [hx]) fun m hm => ?_
  -- the peer occupied a slot when it was in `m`, and occupies none as a no-slot node
  have hle : s.occupies set m peerId ≤ s.slotCount set m := occupies_le_slotCount set hm peerId
  have hcount := hs.counters set info hinfo m hm
  have hnum : ({ info with noSlotNodes := insert peerId info.noSlotNodes } : SetInfo P).num m =
      info.num m := by
    cases m <;> rfl
  rw [occupies, noSlotNodes_of_getElem? hinfo] at hle ⊢
  rw [SetInfo.num_decrement _ _ hm, hnum]
  simp only [hn, not_false_eq_true, and_true, SetInfo.noSlotNodes_decrement, Finset.mem_insert,
    true_or, not_true_eq_false, and_false, if_false] at hle ⊢
  by_cases hmem : s.membership set peerId = m
  · simp only [hmem, if_true] at hle ⊢
    omega
  · simp only [hmem, if_false, Nat.sub_zero]

theorem Consistent.removeNoSlotNode (hs : s.Consistent) (set : ℕ) (peerId : P) :
    (s.removeNoSlotNode set peerId).Consistent := by
  rcases removeNoSlotNode_cases s set peerId with h | ⟨info, hinfo, hn, h⟩
  · rw [h]
    exact hs
  rw [h]
  refine hs.of_setInfo peerId hinfo (fun x hx => by simp [hx]) fun m hm => ?_
  -- a no-slot node occupied no slot, and occupies one in `m` now
  have hnum : ({ info with noSlotNodes := info.noSlotNodes.erase peerId } : SetInfo P).num m =
      info.num m := by
    cases m <;> rfl
  rw [occupies, noSlotNodes_of_getElem? hinfo, SetInfo.num_increment _ _ hm, hnum]
  simp only [hn, not_true_eq_false, and_false, if_false, SetInfo.noSlotNodes_increment,
    Finset.mem_erase, ne_eq, not_false_eq_true, and_true, Nat.add_zero]

theorem Consistent.peerReputation (hs : s.Consistent) (peerId : P) (edits : List ReputationEdit) :
    (s.peerReputation peerId edits).Consistent := by
  rcases peerReputation_cases s peerId edits with ⟨h, hnone⟩ | ⟨node, h, hsets, hused⟩
  · -- a node that is a member of no set leaves
    rw [h]
    have hgone : peerId ∉ ({ s with nodes := s.nodes.erase peerId } : PeersState P).nodes :=
      Finmap.notMem_erase_self
    refine hs.of_node peerId 0 rfl (fun x hx => Finmap.lookup_erase_ne hx)
      (fun node' h' => by rw [Finmap.lookup_erase] at h'; cases h')
      (fun j _ => by rw [membership_of_notMem hgone, hnone]) (by rw [hnone]; rfl)
      (by rw [membership_of_notMem hgone]; rfl)
  · -- the node keeps its memberships
    rw [h]
    have hsame : ∀ j, ({ s with nodes := s.nodes.insert peerId node } : PeersState P).membership j
        peerId = s.membership j peerId := fun j => by
      rw [membership_of_lookup (Finmap.lookup_insert _), hsets, membership_eq_lookupOrNew]
    refine hs.of_frame peerId 0 rfl (fun x hx => Finmap.lookup_insert_of_ne _ hx) ?_
      (fun j _ => ⟨rfl, hsame j⟩) (fun _ _ => Iff.rfl)
      fun info' hinfo' state _ => ⟨info', hinfo', by rw [occupies_congr (hsame 0) Iff.rfl]⟩
    intro node' h'
    rw [Finmap.lookup_insert] at h'
    cases h'
    exact ⟨hsets ▸ hs.length_lookupOrNew peerId, hused⟩

theorem Consistent.new (sets : List SetConfig) : (PeersState.new sets : PeersState P).Consistent where
  sets_length _ _ h := by cases h
  counters set info hinfo state hstate := by
    rw [PeersState.new, List.getElem?_map] at hinfo
    obtain ⟨config, -, rfl⟩ := Option.map_eq_some_iff.mp hinfo
    -- no node yet, and both counters at zero
    simp only [slotCount, PeersState.new, Finmap.keys_empty, Finset.sum_empty]
    cases state <;> rfl
  used _ _ h := by cases h

theorem slotCount_in_add_out_le (s : PeersState P) (set : ℕ) :
    s.slotCount set .in + s.slotCount set .out ≤ s.nodes.keys.card := by
  rw [slotCount, slotCount, ← Finset.sum_add_distrib, Finset.card_eq_sum_ones]
  refine Finset.sum_le_sum fun x _ => ?_
  -- a node has one membership state in the set
  unfold occupies
  split_ifs with hin hout
  · exact absurd (hin.1.symm.trans hout.1) MembershipState.noConfusion
  all_goals simp

/-- Every counter within its limit. -/
def Bounded (s : PeersState P) : Prop :=
  ∀ (set : ℕ) (info : SetInfo P), s.sets[set]? = some info →
    ∀ state : MembershipState, state.isConnected = true → info.num state ≤ info.max state

theorem Bounded.of_sets_eq (hb : s.Bounded) (h : s'.sets = s.sets) : s'.Bounded := fun set info hinfo =>
  hb set info (h ▸ hinfo)

theorem Bounded.of_set (hb : s.Bounded) {set : ℕ} {info info' : SetInfo P}
    (hinfo : s.sets[set]? = some info) (h : s'.sets = s.sets.set set info')
    (hle : ∀ state, state.isConnected = true → info'.num state ≤ info'.max state) : s'.Bounded := by
  intro j info'' hinfo'' state hstate
  rw [h, getElem?_set_of_getElem? hinfo] at hinfo''
  split at hinfo''
  · cases hinfo''
    exact hle state hstate
  · exact hb j info'' hinfo'' state hstate

theorem Bounded.decrement (hb : s.Bounded) {set : ℕ} {info : SetInfo P}
    (hinfo : s.sets[set]? = some info) (m : MembershipState) {state : MembershipState}
    (hstate : state.isConnected = true) : (info.decrement m).num state ≤ (info.decrement m).max state := by
  rw [SetInfo.num_decrement _ _ hstate, SetInfo.max_decrement]
  exact (Nat.sub_le _ _).trans (hb set info hinfo state hstate)

theorem Bounded.new (sets : List SetConfig) : (PeersState.new sets : PeersState P).Bounded := by
  intro set info hinfo state hstate
  rw [PeersState.new, List.getElem?_map] at hinfo
  obtain ⟨config, -, rfl⟩ := Option.map_eq_some_iff.mp hinfo
  cases state <;> exact Nat.zero_le _

end PeersState

variable {P : Type} [DecidableEq P]

theorem PeersState.Consistent.step {s : PeersState P} (hs : s.Consistent) (call : Call P) :
    (Peerset.step s call).Consistent := by
  unfold Peerset.step
  split
  case isFalse => exact hs
  case isTrue hen =>
    cases call with
    | discover set peerId now =>
      simp only [Call.enabled, Bool.and_eq_true, decide_eq_true_eq, beq_iff_eq] at hen
      exact hs.discover hen.1 hen.2 now
    | tryOutgoing set peerId =>
      simp only [Call.enabled, Bool.and_eq_true, decide_eq_true_eq, beq_iff_eq] at hen
      exact hs.tryConnect rfl hen.1 hen.2
    | tryAcceptIncoming set peerId =>
      simp only [Call.enabled, Bool.and_eq_true, decide_eq_true_eq, beq_iff_eq] at hen
      exact hs.tryConnect rfl hen.1 hen.2
    | disconnect set peerId now =>
      simp only [Call.enabled, Bool.and_eq_true, decide_eq_true_eq, beq_iff_eq] at hen
      exact hs.disconnect hen.1 hen.2 now
    | addReputation set peerId modifier =>
      simp only [Call.enabled, Bool.and_eq_true, decide_eq_true_eq, beq_iff_eq] at hen
      exact hs.addReputation hen.2 modifier
    | bumpLastConnectedOrDiscovered set peerId now =>
      simp only [Call.enabled, Bool.and_eq_true, decide_eq_true_eq, beq_iff_eq] at hen
      exact hs.bumpLastConnectedOrDiscovered hen.1 hen.2 now
    | forgetPeer set peerId =>
      simp only [Call.enabled, Bool.and_eq_true, decide_eq_true_eq, beq_iff_eq] at hen
      exact hs.forgetPeer hen.1 hen.2
    | addNoSlotNode set peerId => exact hs.addNoSlotNode set peerId
    | removeNoSlotNode set peerId => exact hs.removeNoSlotNode set peerId
    | peerReputation peerId edits => exact hs.peerReputation peerId edits

namespace PeersState

variable {s : PeersState P}

theorem Bounded.tryConnect (hb : s.Bounded) (state : MembershipState) (set : ℕ) (peerId : P) :
    (s.tryConnect state set peerId).2.Bounded := by
  rcases tryConnect_cases state s set peerId with h | ⟨info, node, hinfo, _, hfree, h⟩
  · exact hb.of_sets_eq (by rw [h])
  refine hb.of_set hinfo (by rw [h]; exact ite_set_eq hinfo _ _) fun m hm => ?_
  split
  · exact hb set info hinfo m hm
  · rename_i hn
    have hlt := Nat.lt_of_not_le fun hle => hfree ⟨hle, hn⟩
    have hbm := hb set info hinfo m hm
    rw [SetInfo.num_increment _ _ hm, SetInfo.max_increment]
    split
    · subst_vars
      omega
    · omega

theorem Bounded.disconnect (hb : s.Bounded) (set : ℕ) (peerId : P) (now : ℕ) :
    (s.disconnect set peerId now).Bounded := by
  rcases disconnect_cases s set peerId now with h | ⟨info, node, hinfo, _, h⟩
  · exact hb.of_sets_eq (by rw [h])
  refine hb.of_set hinfo (by rw [h]; exact ite_set_eq hinfo _ _) fun m hm => ?_
  split
  · exact hb set info hinfo m hm
  · exact hb.decrement hinfo _ hm

theorem Bounded.addNoSlotNode (hb : s.Bounded) (set : ℕ) (peerId : P) :
    (s.addNoSlotNode set peerId).Bounded := by
  rcases addNoSlotNode_cases s set peerId with h | ⟨info, hinfo, _, h⟩
  · exact hb.of_sets_eq (by rw [h])
  refine hb.of_set hinfo (by rw [h]) fun m hm => ?_
  -- the counters and limits of the set are those of `info`, a counter taken down
  have hnum : ({ info with noSlotNodes := insert peerId info.noSlotNodes } : SetInfo P).num m =
      info.num m := by
    cases m <;> rfl
  have hmax : ({ info with noSlotNodes := insert peerId info.noSlotNodes } : SetInfo P).max m =
      info.max m := by
    cases m <;> rfl
  rw [SetInfo.num_decrement _ _ hm, SetInfo.max_decrement, hnum, hmax]
  exact (Nat.sub_le _ _).trans (hb set info hinfo m hm)

end PeersState

theorem PeersState.Bounded.step {s : PeersState P} (hb : s.Bounded) (call : Call P)
    (hcall : ∀ set peerId, call ≠ .removeNoSlotNode set peerId) : (Peerset.step s call).Bounded := by
  unfold Peerset.step
  split
  case isFalse => exact hb
  case isTrue =>
    cases call with
    | discover set peerId now => exact hb.of_sets_eq rfl
    | tryOutgoing set peerId => exact hb.tryConnect .out set peerId
    | tryAcceptIncoming set peerId => exact hb.tryConnect .in set peerId
    | disconnect set peerId now => exact hb.disconnect set peerId now
    | addReputation set peerId modifier =>
      exact hb.of_sets_eq (PeersState.sets_addReputation s peerId modifier)
    | bumpLastConnectedOrDiscovered set peerId now =>
      exact hb.of_sets_eq (PeersState.sets_bumpLastConnectedOrDiscovered s set peerId now)
    | forgetPeer set peerId => exact hb.of_sets_eq (PeersState.sets_forgetPeer s set peerId)
    | addNoSlotNode set peerId => exact hb.addNoSlotNode set peerId
    | removeNoSlotNode set peerId => exact absurd rfl (hcall set peerId)
    | peerReputation peerId edits =>
      exact hb.of_sets_eq (PeersState.sets_peerReputation s peerId edits)

theorem PeersState.mem_nodes_step {s : PeersState P} (call : Call P) {peerId : P} {j : ℕ}
    (hconnected : (s.membership j peerId).isConnected = true) :
    peerId ∈ (Peerset.step s call).nodes := by
  obtain ⟨node, hnode⟩ := PeersState.exists_lookup_of_membership
    (PeersState.ne_notMember_of_isConnected hconnected)
  have hmem : peerId ∈ s.nodes := Finmap.mem_of_lookup_eq_some hnode
  have hinsert : ∀ a n, peerId ∈ s.nodes.insert a n := fun _ _ => Finmap.mem_insert.mpr (.inr hmem)
  unfold Peerset.step
  split
  case isFalse => exact hmem
  case isTrue hen =>
    cases call with
    | discover set a now => exact hinsert _ _
    | tryOutgoing set a =>
      show peerId ∈ (s.tryConnect .out set a).2.nodes
      rcases PeersState.tryConnect_cases .out s set a with h | ⟨_, _, _, _, _, h⟩ <;> rw [h]
      · exact hmem
      · exact hinsert _ _
    | tryAcceptIncoming set a =>
      show peerId ∈ (s.tryConnect .in set a).2.nodes
      rcases PeersState.tryConnect_cases .in s set a with h | ⟨_, _, _, _, _, h⟩ <;> rw [h]
      · exact hmem
      · exact hinsert _ _
    | disconnect set a now =>
      show peerId ∈ (s.disconnect set a now).nodes
      rcases PeersState.disconnect_cases s set a now with h | ⟨_, _, _, _, h⟩ <;> rw [h]
      · exact hmem
      · exact hinsert _ _
    | addReputation set a modifier =>
      show peerId ∈ (s.addReputation a modifier).nodes
      unfold PeersState.addReputation
      split
      · exact hinsert _ _
      · exact hmem
    | bumpLastConnectedOrDiscovered set a now =>
      show peerId ∈ (s.bumpLastConnectedOrDiscovered set a now).nodes
      unfold PeersState.bumpLastConnectedOrDiscovered
      split
      · split
        · exact hinsert _ _
        · exact hmem
      · exact hmem
    | forgetPeer set a =>
      simp only [Call.enabled, Bool.and_eq_true, decide_eq_true_eq, beq_iff_eq] at hen
      show peerId ∈ (s.forgetPeer set a).nodes
      rcases PeersState.forgetPeer_cases s set a with h | ⟨node', hnode', ⟨hunused, h⟩ | ⟨_, h⟩⟩ <;>
        rw [h]
      · exact hmem
      · refine Finmap.mem_erase.mpr ⟨?_, hmem⟩
        rintro rfl
        -- not connected in `set`, the node is a member of the set `j`, where it stays one
        obtain ⟨t, ht⟩ := PeersState.membership_of_peer_notConnected hen.2
        have hj : j ≠ set := by
          rintro rfl
          rw [ht] at hconnected
          cases hconnected
        have hleft := Node.getD_of_isUnused hunused j
        rw [Node.getD_setMembership_of_ne _ hj, ← PeersState.membership_of_lookup hnode' j] at hleft
        rw [hleft] at hconnected
        cases hconnected
      · exact hinsert _ _
    | addNoSlotNode set a =>
      show peerId ∈ (s.addNoSlotNode set a).nodes
      rw [PeersState.nodes_addNoSlotNode]
      exact hmem
    | removeNoSlotNode set a =>
      show peerId ∈ (s.removeNoSlotNode set a).nodes
      rw [PeersState.nodes_removeNoSlotNode]
      exact hmem
    | peerReputation a edits =>
      show peerId ∈ (s.peerReputation a edits).nodes
      rcases PeersState.peerReputation_cases s a edits with ⟨h, hnone⟩ | ⟨_, h, _⟩ <;> rw [h]
      · refine Finmap.mem_erase.mpr ⟨?_, hmem⟩
        rintro rfl
        rw [hnone j] at hconnected
        cases hconnected
      · exact hinsert _ _

/-- From `new`, after every sequence of calls: every node has a membership state for each set,
`num_in` and `num_out` are the numbers of slot-occupying nodes connected in and out of each set
(together at most the number of nodes), and no node is unused; no call removes a node connected
in some set; and while `remove_no_slot_node` is not called, every counter is within its limit. -/
theorem peersState_counters_consistent (sets : List SetConfig) :
    (∀ s : PeersState P, StepMachine.Reachable step (PeersState.new sets) s →
      s.Consistent ∧ ∀ (set : ℕ) (info : SetInfo P), s.sets[set]? = some info →
        info.numIn + info.numOut ≤ s.nodes.keys.card) ∧
    (∀ (s : PeersState P) (call : Call P) (peerId : P) (j : ℕ),
      (s.membership j peerId).isConnected = true → peerId ∈ (step s call).nodes) ∧
    ∀ calls : List (Call P), (∀ call ∈ calls, ∀ set peerId, call ≠ .removeNoSlotNode set peerId) →
      (StepMachine.run step (PeersState.new sets) calls).Bounded := by
  refine ⟨fun s hs => ?_, fun s call _ _ h => PeersState.mem_nodes_step call h, fun calls hcalls => ?_⟩
  · have hcons : s.Consistent :=
      StepMachine.Reachable.invariant step (fun _ call h => h.step call)
        (PeersState.Consistent.new sets) hs
    refine ⟨hcons, fun set info hinfo => ?_⟩
    have hin := hcons.counters set info hinfo .in rfl
    have hout := hcons.counters set info hinfo .out rfl
    have hle := s.slotCount_in_add_out_le set
    simp only [SetInfo.num] at hin hout
    omega
  · -- the calls before each one exclude `remove_no_slot_node` as well
    have hrun : ∀ (calls : List (Call P)) (s : PeersState P),
        (∀ call ∈ calls, ∀ set peerId, call ≠ .removeNoSlotNode set peerId) →
        s.Bounded → (StepMachine.run step s calls).Bounded := by
      intro calls
      induction calls with
      | nil => exact fun _ _ hb => hb
      | cons call calls ih =>
        intro s hcalls hb
        exact ih _ (fun c hc => hcalls c (List.mem_cons_of_mem _ hc))
          (hb.step call (hcalls call List.mem_cons_self))
    exact hrun calls _ hcalls (PeersState.Bounded.new sets)

theorem peersState_counters_consistent_acceptOne :
    (StepMachine.run step (PeersState.new [⟨1, 1⟩] : PeersState ℕ)
      [.discover 0 7 0, .tryAcceptIncoming 0 7]).Consistent :=
  ((peersState_counters_consistent [⟨1, 1⟩]).1 _ ⟨_, rfl⟩).1

end Tetcore.Peerset
