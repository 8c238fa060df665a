import Mathlib
import Tetcore.Lib.Saturating

/-!
# The slots and reputations of the peerset

`client/peerset/src/peersstate.rs`. A `PeersState` holds the nodes it knows, each with a
reputation and a membership state in every set, and for each set the numbers of slot-occupying
nodes connected in and out, their limits, and the nodes that occupy no slot. The `HashMap` of
nodes is a finite map and the `HashSet` of no-slot nodes a finite set; `Instant::now()` is a number
the caller passes.

The handles `Peer`, `ConnectedPeer`, `NotConnectedPeer` and `UnknownPeer` borrow the state
mutably, so each method of a handle runs on the state `peer` saw when it made the handle, or on
the state the previous method of the same handle left; either way the node is in the variant the
handle names. A `Call` is one such method, made on the handle `peer` gives for its set and peer,
and `step` makes a call only when `peer` gives that handle: a call the handles rule out, or whose
set is past the sets of `new` (where `peer` asserts), leaves the state as it is.
`highest_not_connected_peer` only reads the state; the `NotConnectedPeer` it returns is a handle
like the one `peer` gives.
-/

namespace Tetcore.Peerset

/-- `SetConfig`. -/
structure SetConfig where
  inPeers : ℕ
  outPeers : ℕ

/-- `MembershipState`; `notConnected` carries `last_connected`. -/
inductive MembershipState
  | notMember
  | «in»
  | out
  | notConnected (lastConnected : ℕ)
  deriving DecidableEq, Repr

/-- `MembershipState::is_connected`. -/
def MembershipState.isConnected : MembershipState → Bool
  | .in | .out => true
  | _ => false

/-- `SetInfo`. The counters are the `u32` fields as natural numbers. -/
structure SetInfo (P : Type) where
  numIn : ℕ
  numOut : ℕ
  maxIn : ℕ
  maxOut : ℕ
  noSlotNodes : Finset P

namespace SetInfo

variable {P : Type}

/-- The counter of a connected state: `num_in` for `In`, `num_out` for `Out`. -/
def num (info : SetInfo P) : MembershipState → ℕ
  | .in => info.numIn
  | .out => info.numOut
  | _ => 0

/-- The limit of a connected state: `max_in` for `In`, `max_out` for `Out`. -/
def max (info : SetInfo P) : MembershipState → ℕ
  | .in => info.maxIn
  | .out => info.maxOut
  | _ => 0

/-- `num_in += 1` for `In`, `num_out += 1` for `Out`, nothing otherwise. -/
def increment (info : SetInfo P) : MembershipState → SetInfo P
  | .in => { info with numIn := info.numIn + 1 }
  | .out => { info with numOut := info.numOut + 1 }
  | _ => info

/-- `num_in -= 1` for `In`, `num_out -= 1` for `Out`, nothing otherwise. -/
def decrement (info : SetInfo P) : MembershipState → SetInfo P
  | .in => { info with numIn := info.numIn - 1 }
  | .out => { info with numOut := info.numOut - 1 }
  | _ => info

end SetInfo

/-- `Node`. -/
structure Node where
  sets : List MembershipState
  reputation : ℤ

namespace Node

/-- `Node::new`. -/
def new (numSets : ℕ) : Node := ⟨List.replicate numSets .notMember, 0⟩

/-- `node.sets[set] = state`. -/
def setMembership (node : Node) (set : ℕ) (state : MembershipState) : Node :=
  { node with sets := node.sets.set set state }

/-- The condition under which `forget_peer` and the drop of a `Reputation` remove a node:
a reputation of zero and no set it is a member of. -/
def isUnused (node : Node) : Bool :=
  node.reputation == 0 && node.sets.all (· == .notMember)

end Node

/-- `PeersState`. -/
structure PeersState (P : Type) [DecidableEq P] where
  nodes : Finmap fun _ : P => Node
  sets : List (SetInfo P)

/-- The variant of `Peer` that `PeersState::peer` returns. -/
inductive PeerKind
  | connected
  | notConnected
  | unknown
  deriving DecidableEq, Repr

/-- An edit made through a `Reputation` handle. -/
inductive ReputationEdit
  | setReputation (value : ℤ)
  | addReputation (modifier : ℤ)

namespace PeersState

variable {P : Type} [DecidableEq P]

/-- `PeersState::new`. -/
def new (sets : List SetConfig) : PeersState P :=
  ⟨∅, sets.map fun config => ⟨0, 0, config.inPeers, config.outPeers, ∅⟩⟩

/-- `num_sets`. -/
def numSets (s : PeersState P) : ℕ := s.sets.length

/-- The membership state of a peer in a set: `notMember` when it is not a node. -/
def membership (s : PeersState P) (set : ℕ) (peerId : P) : MembershipState :=
  ((s.nodes.lookup peerId).map fun node => node.sets.getD set .notMember).getD .notMember

/-- The no-slot nodes of a set. -/
def noSlotNodes (s : PeersState P) (set : ℕ) : Finset P :=
  ((s.sets[set]?).map SetInfo.noSlotNodes).getD ∅

/-- `peer`, past its assert. -/
def peer (s : PeersState P) (set : ℕ) (peerId : P) : PeerKind :=
  match s.membership set peerId with
  | .notMember => .unknown
  | .in | .out => .connected
  | .notConnected _ => .notConnected

/-- `UnknownPeer::discover`: the node, added if it is new, is not connected in the set. -/
def discover (s : PeersState P) (set : ℕ) (peerId : P) (now : ℕ) : PeersState P :=
  let node := (s.nodes.lookup peerId).getD (Node.new s.sets.length)
  { s with nodes := s.nodes.insert peerId (node.setMembership set (.notConnected now)) }

/-- `try_outgoing` for `Out` and `try_accept_incoming` for `In`: `false` (`Err`) when the slots are
full and the node occupies one; otherwise the node is connected in the state, counted when it
occupies a slot. -/
def tryConnect (state : MembershipState) (s : PeersState P) (set : ℕ) (peerId : P) :
    Bool × PeersState P :=
  match s.sets[set]? with
  | none => (false, s)
  | some info =>
    let isNoSlotOccupy := peerId ∈ info.noSlotNodes
    if info.max state ≤ info.num state ∧ ¬isNoSlotOccupy then (false, s)
    else
      match s.nodes.lookup peerId with
      | none => (true, s)
      | some node =>
        let sets := if isNoSlotOccupy then s.sets else s.sets.set set (info.increment state)
        (true, ⟨s.nodes.insert peerId (node.setMembership set state), sets⟩)

/-- `NotConnectedPeer::try_outgoing`. -/
def tryOutgoing (s : PeersState P) (set : ℕ) (peerId : P) : Bool × PeersState P :=
  tryConnect .out s set peerId

/-- `NotConnectedPeer::try_accept_incoming`. -/
def tryAcceptIncoming (s : PeersState P) (set : ℕ) (peerId : P) : Bool × PeersState P :=
  tryConnect .in s set peerId

/-- `ConnectedPeer::disconnect`: the counter of the node's state goes down unless the node occupies
no slot, and the node is not connected. -/
def disconnect (s : PeersState P) (set : ℕ) (peerId : P) (now : ℕ) : PeersState P :=
  match s.sets[set]?, s.nodes.lookup peerId with
  | some info, some node =>
    let isNoSlotOccupy := peerId ∈ info.noSlotNodes
    let sets := if isNoSlotOccupy then s.sets
      else s.sets.set set (info.decrement (node.sets.getD set .notMember))
    ⟨s.nodes.insert peerId (node.setMembership set (.notConnected now)), sets⟩
  | _, _ => s

/-- `ConnectedPeer::add_reputation`, saturating in `i32`. -/
def addReputation (s : PeersState P) (peerId : P) (modifier : ℤ) : PeersState P :=
  match s.nodes.lookup peerId with
  | some node =>
    let node := { node with reputation := Saturating.addSigned 32 node.reputation modifier }
    { s with nodes := s.nodes.insert peerId node }
  | none => s

/-- `NotConnectedPeer::bump_last_connected_or_discovered`. -/
def bumpLastConnectedOrDiscovered (s : PeersState P) (set : ℕ) (peerId : P) (now : ℕ) :
    PeersState P :=
  match s.nodes.lookup peerId with
  | some node =>
    match node.sets.getD set .notMember with
    | .notConnected _ =>
      { s with nodes := s.nodes.insert peerId (node.setMembership set (.notConnected now)) }
    | _ => s
  | none => s

/-- `NotConnectedPeer::forget_peer`: the node leaves the set, and the state when it is unused. -/
def forgetPeer (s : PeersState P) (set : ℕ) (peerId : P) : PeersState P :=
  match s.nodes.lookup peerId with
  | some node =>
    let node := node.setMembership set .notMember
    if node.isUnused then { s with nodes := s.nodes.erase peerId }
    else { s with nodes := s.nodes.insert peerId node }
  | none => s

/-- `add_no_slot_node`: a node new to the no-slot nodes stops counting in the set. -/
def addNoSlotNode (s : PeersState P) (set : ℕ) (peerId : P) : PeersState P :=
  match s.sets[set]? with
  | none => s
  | some info =>
    if peerId ∈ info.noSlotNodes then s
    else
      let info := { info with noSlotNodes := insert peerId info.noSlotNodes }
      let info := match s.nodes.lookup peerId with
        | some node => info.decrement (node.sets.getD set .notMember)
        | none => info
      { s with sets := s.sets.set set info }

/-- `remove_no_slot_node`: a node that leaves the no-slot nodes counts again in the set. -/
def removeNoSlotNode (s : PeersState P) (set : ℕ) (peerId : P) : PeersState P :=
  match s.sets[set]? with
  | none => s
  | some info =>
    if peerId ∈ info.noSlotNodes then
      let info := { info with noSlotNodes := info.noSlotNodes.erase peerId }
      let info := match s.nodes.lookup peerId with
        | some node => info.increment (node.sets.getD set .notMember)
        | none => info
      { s with sets := s.sets.set set info }
    else s

/-- An edit through `Reputation::set_reputation` or `Reputation::add_reputation`. -/
def ReputationEdit.apply (reputation : ℤ) : ReputationEdit → ℤ
  | .setReputation value => value
  | .addReputation modifier => Saturating.addSigned 32 reputation modifier

/-- `peer_reputation`, the edits made through the `Reputation` it returns, and its drop: the node
is added if it is new, edited, and removed when it is unused. -/
def peerReputation (s : PeersState P) (peerId : P) (edits : List ReputationEdit) : PeersState P :=
  let node := (s.nodes.lookup peerId).getD (Node.new s.sets.length)
  let node := { node with reputation := edits.foldl ReputationEdit.apply node.reputation }
  if node.isUnused then { s with nodes := s.nodes.erase peerId }
  else { s with nodes := s.nodes.insert peerId node }

end PeersState

/-- The methods that change a `PeersState`, each on the handle its set and peer name. -/
inductive Call (P : Type)
  | discover (set : ℕ) (peerId : P) (now : ℕ)
  | tryOutgoing (set : ℕ) (peerId : P)
  | tryAcceptIncoming (set : ℕ) (peerId : P)
  | disconnect (set : ℕ) (peerId : P) (now : ℕ)
  | addReputation (set : ℕ) (peerId : P) (modifier : ℤ)
  | bumpLastConnectedOrDiscovered (set : ℕ) (peerId : P) (now : ℕ)
  | forgetPeer (set : ℕ) (peerId : P)
  | addNoSlotNode (set : ℕ) (peerId : P)
  | removeNoSlotNode (set : ℕ) (peerId : P)
  | peerReputation (peerId : P) (edits : List ReputationEdit)

namespace Call

variable {P : Type} [DecidableEq P]

/-- Whether the state gives the handle a call is made on: the set is one of `new`'s, and `peer`
returns the variant the method belongs to. -/
def enabled (s : PeersState P) : Call P → Bool
  | .discover set peerId _ => decide (set < s.numSets) && s.peer set peerId == .unknown
  | .tryOutgoing set peerId | .tryAcceptIncoming set peerId
  | .bumpLastConnectedOrDiscovered set peerId _ | .forgetPeer set peerId =>
    decide (set < s.numSets) && s.peer set peerId == .notConnected
  | .disconnect set peerId _ | .addReputation set peerId _ =>
    decide (set < s.numSets) && s.peer set peerId == .connected
  | .addNoSlotNode set _ | .removeNoSlotNode set _ => decide (set < s.numSets)
  | .peerReputation _ _ => true

/-- The state a call leaves. -/
def apply (s : PeersState P) : Call P → PeersState P
  | .discover set peerId now => s.discover set peerId now
  | .tryOutgoing set peerId => (s.tryOutgoing set peerId).2
  | .tryAcceptIncoming set peerId => (s.tryAcceptIncoming set peerId).2
  | .disconnect set peerId now => s.disconnect set peerId now
  | .addReputation _ peerId modifier => s.addReputation peerId modifier
  | .bumpLastConnectedOrDiscovered set peerId now => s.bumpLastConnectedOrDiscovered set peerId now
  | .forgetPeer set peerId => s.forgetPeer set peerId
  | .addNoSlotNode set peerId => s.addNoSlotNode set peerId
  | .removeNoSlotNode set peerId => s.removeNoSlotNode set peerId
  | .peerReputation peerId edits => s.peerReputation peerId edits

end Call

variable {P : Type} [DecidableEq P]

/-- One call, made when the state gives its handle. -/
def step (s : PeersState P) (call : Call P) : PeersState P :=
  if call.enabled s then call.apply s else s

/-! ## What each call does -/

namespace Node

theorem getD_setMembership_self {node : Node} {set : ℕ} (state : MembershipState)
    (h : set < node.sets.length) : (node.setMembership set state).sets.getD set .notMember = state := by
  rw [setMembership, List.getD_eq_getElem?_getD, List.getElem?_set_self h, Option.getD_some]

theorem getD_setMembership_of_ne {node : Node} {set j : ℕ} (state : MembershipState) (h : j ≠ set) :
    (node.setMembership set state).sets.getD j .notMember = node.sets.getD j .notMember := by
  rw [setMembership, List.getD_eq_getElem?_getD, List.getElem?_set_ne (Ne.symm h),
    ← List.getD_eq_getElem?_getD]

theorem getD_new (numSets j : ℕ) : (Node.new numSets).sets.getD j .notMember = .notMember := by
  rw [new, List.getD_eq_getElem?_getD, List.getElem?_replicate]
  split <;> rfl

theorem getD_of_isUnused {node : Node} (h : node.isUnused = true) (j : ℕ) :
    node.sets.getD j .notMember = .notMember := by
  rw [isUnused, Bool.and_eq_true, List.all_eq_true] at h
  rw [List.getD_eq_getElem?_getD]
  cases hj : node.sets[j]? with
  | none => rfl
  | some m => simpa using h.2 m (List.mem_of_getElem? hj)

theorem isUnused_eq_false {node : Node} {j : ℕ} (h : node.sets.getD j .notMember ≠ .notMember) :
    node.isUnused = false := by
  by_contra hunused
  exact h (getD_of_isUnused (Bool.not_eq_false _ ▸ hunused) j)

end Node

namespace SetInfo

variable {P : Type}

theorem num_increment (info : SetInfo P) (state : MembershipState) {m : MembershipState}
    (hm : m.isConnected = true) : (info.increment state).num m = info.num m + if state = m then 1 else 0 := by
  cases state <;> cases m <;> simp_all [increment, num, MembershipState.isConnected]

theorem num_decrement (info : SetInfo P) (state : MembershipState) {m : MembershipState}
    (hm : m.isConnected = true) : (info.decrement state).num m = info.num m - if state = m then 1 else 0 := by
  cases state <;> cases m <;> simp_all [decrement, num, MembershipState.isConnected]

@[simp] theorem noSlotNodes_increment (info : SetInfo P) (state : MembershipState) :
    (info.increment state).noSlotNodes = info.noSlotNodes := by
  cases state <;> rfl

@[simp] theorem noSlotNodes_decrement (info : SetInfo P) (state : MembershipState) :
    (info.decrement state).noSlotNodes = info.noSlotNodes := by
  cases state <;> rfl

theorem max_increment (info : SetInfo P) (state m : MembershipState) :
    (info.increment state).max m = info.max m := by
  cases state <;> cases m <;> rfl

theorem max_decrement (info : SetInfo P) (state m : MembershipState) :
    (info.decrement state).max m = info.max m := by
  cases state <;> cases m <;> rfl

end SetInfo

namespace PeersState

variable {P : Type} [DecidableEq P] {s s' : PeersState P}

theorem membership_of_lookup {peerId : P} {node : Node} (h : s.nodes.lookup peerId = some node)
    (set : ℕ) : s.membership set peerId = node.sets.getD set .notMember := by
  rw [membership, h]
  rfl

theorem membership_of_notMem {peerId : P} (h : peerId ∉ s.nodes) (set : ℕ) :
    s.membership set peerId = .notMember := by
  rw [membership, Finmap.lookup_eq_none.mpr h]
  rfl

theorem noSlotNodes_of_getElem? {set : ℕ} {info : SetInfo P} (h : s.sets[set]? = some info) :
    s.noSlotNodes set = info.noSlotNodes := by
  rw [noSlotNodes, h]
  rfl

theorem ne_notMember_of_isConnected {state : MembershipState} (h : state.isConnected = true) :
    state ≠ .notMember := by
  rintro rfl
  cases h

theorem membership_of_peer_unknown {set : ℕ} {peerId : P} (h : s.peer set peerId = .unknown) :
    s.membership set peerId = .notMember := by
  unfold peer at h
  split at h
  · assumption
  all_goals cases h

theorem membership_of_peer_notConnected {set : ℕ} {peerId : P}
    (h : s.peer set peerId = .notConnected) : ∃ t, s.membership set peerId = .notConnected t := by
  unfold peer at h
  split at h <;> first | exact ⟨_, ‹_›⟩ | cases h

theorem membership_of_peer_connected {set : ℕ} {peerId : P} (h : s.peer set peerId = .connected) :
    (s.membership set peerId).isConnected = true := by
  unfold peer at h
  split at h
  · cases h
  · rename_i hm
    rw [hm]
    rfl
  · rename_i hm
    rw [hm]
    rfl
  · cases h

theorem exists_lookup_of_membership {set : ℕ} {peerId : P}
    (h : s.membership set peerId ≠ .notMember) : ∃ node, s.nodes.lookup peerId = some node := by
  cases hl : s.nodes.lookup peerId with
  | none => exact absurd (by rw [membership, hl]; rfl) h
  | some node => exact ⟨node, rfl⟩

theorem noSlotNodes_congr {set : ℕ} (h : s'.sets[set]? = s.sets[set]?) :
    s'.noSlotNodes set = s.noSlotNodes set := by
  rw [noSlotNodes, noSlotNodes, h]

theorem membership_eq_lookupOrNew (peerId : P) (j : ℕ) :
    s.membership j peerId =
      ((s.nodes.lookup peerId).getD (Node.new s.sets.length)).sets.getD j .notMember := by
  cases h : s.nodes.lookup peerId with
  | none =>
    rw [membership, h]
    exact (Node.getD_new _ _).symm
  | some node =>
    rw [membership_of_lookup h]
    rfl

omit [DecidableEq P] in
theorem getElem?_set_of_getElem? {sets : List (SetInfo P)} {set : ℕ} {info : SetInfo P}
    (hinfo : sets[set]? = some info) (info' : SetInfo P) (j : ℕ) :
    (sets.set set info')[j]? = if j = set then some info' else sets[j]? := by
  have hlt : set < sets.length := (List.getElem?_eq_some_iff.mp hinfo).1
  rw [List.getElem?_set]
  by_cases hj : j = set
  · subst hj
    simp [hlt]
  · simp [Ne.symm hj, hj]

omit [DecidableEq P] in
theorem ite_set_eq {sets : List (SetInfo P)} {set : ℕ} {info : SetInfo P}
    (hinfo : sets[set]? = some info) (c : Prop) [Decidable c] (info' : SetInfo P) :
    (if c then sets else sets.set set info') = sets.set set (if c then info else info') := by
  split
  · obtain ⟨hlt, rfl⟩ := List.getElem?_eq_some_iff.mp hinfo
    exact (List.set_getElem_self hlt).symm
  · rfl

theorem tryConnect_cases (state : MembershipState) (s : PeersState P) (set : ℕ) (peerId : P) :
    (s.tryConnect state set peerId).2 = s ∨
      ∃ info node, s.sets[set]? = some info ∧ s.nodes.lookup peerId = some node ∧
        ¬(info.max state ≤ info.num state ∧ peerId ∉ info.noSlotNodes) ∧
        (s.tryConnect state set peerId).2 =
          ⟨s.nodes.insert peerId (node.setMembership set state),
            if peerId ∈ info.noSlotNodes then s.sets else s.sets.set set (info.increment state)⟩ := by
  unfold tryConnect
  split
  · exact .inl rfl
  · rename_i info hinfo
    dsimp only
    split
    · exact .inl rfl
    · rename_i hfull
      split
      · exact .inl rfl
      · rename_i node hnode
        exact .inr ⟨info, node, hinfo, hnode, hfull, rfl⟩

theorem disconnect_cases (s : PeersState P) (set : ℕ) (peerId : P) (now : ℕ) :
    s.disconnect set peerId now = s ∨
      ∃ info node, s.sets[set]? = some info ∧ s.nodes.lookup peerId = some node ∧
        s.disconnect set peerId now =
          ⟨s.nodes.insert peerId (node.setMembership set (.notConnected now)),
            if peerId ∈ info.noSlotNodes then s.sets
            else s.sets.set set (info.decrement (node.sets.getD set .notMember))⟩ := by
  unfold disconnect
  split
  · rename_i info node hinfo hnode
    exact .inr ⟨info, node, hinfo, hnode, rfl⟩
  · exact .inl rfl

theorem forgetPeer_cases (s : PeersState P) (set : ℕ) (peerId : P) :
    s.forgetPeer set peerId = s ∨
      ∃ node, s.nodes.lookup peerId = some node ∧
        ((node.setMembership set .notMember).isUnused = true ∧
            s.forgetPeer set peerId = { s with nodes := s.nodes.erase peerId } ∨
          (node.setMembership set .notMember).isUnused = false ∧
            s.forgetPeer set peerId =
              { s with nodes := s.nodes.insert peerId (node.setMembership set .notMember) }) := by
  unfold forgetPeer
  split
  · rename_i node hnode
    dsimp only
    refine .inr ⟨node, hnode, ?_⟩
    cases hunused : (node.setMembership set .notMember).isUnused
    · exact .inr ⟨rfl, if_neg Bool.false_ne_true⟩
    · exact .inl ⟨rfl, if_pos rfl⟩
  · exact .inl rfl

theorem addNoSlotNode_cases (s : PeersState P) (set : ℕ) (peerId : P) :
    s.addNoSlotNode set peerId = s ∨
      ∃ info, s.sets[set]? = some info ∧ peerId ∉ info.noSlotNodes ∧
        s.addNoSlotNode set peerId = { s with sets := (s.sets.set set
          (({ info with noSlotNodes := insert peerId info.noSlotNodes } : SetInfo P).decrement
            (s.membership set peerId))) } := by
  unfold addNoSlotNode
  split
  · exact .inl rfl
  · rename_i info hinfo
    split
    · exact .inl rfl
    · rename_i hn
      refine .inr ⟨info, hinfo, hn, ?_⟩
      dsimp only
      cases hnode : s.nodes.lookup peerId with
      | none => rw [membership, hnode]; rfl
      | some node => rw [membership_of_lookup hnode]

theorem removeNoSlotNode_cases (s : PeersState P) (set : ℕ) (peerId : P) :
    s.removeNoSlotNode set peerId = s ∨
      ∃ info, s.sets[set]? = some info ∧ peerId ∈ info.noSlotNodes ∧
        s.removeNoSlotNode set peerId = { s with sets := (s.sets.set set
          (({ info with noSlotNodes := info.noSlotNodes.erase peerId } : SetInfo P).increment
            (s.membership set peerId))) } := by
  unfold removeNoSlotNode
  split
  · exact .inl rfl
  · rename_i info hinfo
    split
    · rename_i hn
      refine .inr ⟨info, hinfo, hn, ?_⟩
      dsimp only
      cases hnode : s.nodes.lookup peerId with
      | none => rw [membership, hnode]; rfl
      | some node => rw [membership_of_lookup hnode]
    · exact .inl rfl

theorem peerReputation_cases (s : PeersState P) (peerId : P) (edits : List ReputationEdit) :
    (s.peerReputation peerId edits = { s with nodes := s.nodes.erase peerId } ∧
        ∀ j, s.membership j peerId = .notMember) ∨
      ∃ node : Node, s.peerReputation peerId edits = { s with nodes := s.nodes.insert peerId node } ∧
        node.sets = ((s.nodes.lookup peerId).getD (Node.new s.sets.length)).sets ∧
        node.isUnused = false := by
  unfold PeersState.peerReputation
  dsimp only
  split
  · rename_i hunused
    refine .inl ⟨rfl, fun j => ?_⟩
    rw [membership_eq_lookupOrNew]
    exact @Node.getD_of_isUnused ⟨_, _⟩ hunused j
  · rename_i hused
    exact .inr ⟨_, rfl, rfl, Bool.not_eq_true _ ▸ hused⟩

theorem sets_addReputation (s : PeersState P) (peerId : P) (modifier : ℤ) :
    (s.addReputation peerId modifier).sets = s.sets := by
  unfold PeersState.addReputation
  split <;> rfl

theorem sets_bumpLastConnectedOrDiscovered (s : PeersState P) (set : ℕ) (peerId : P) (now : ℕ) :
    (s.bumpLastConnectedOrDiscovered set peerId now).sets = s.sets := by
  unfold PeersState.bumpLastConnectedOrDiscovered
  split
  · split <;> rfl
  · rfl

theorem sets_forgetPeer (s : PeersState P) (set : ℕ) (peerId : P) :
    (s.forgetPeer set peerId).sets = s.sets := by
  rcases forgetPeer_cases s set peerId with h | ⟨_, _, ⟨_, h⟩ | ⟨_, h⟩⟩ <;> rw [h]

theorem sets_peerReputation (s : PeersState P) (peerId : P) (edits : List ReputationEdit) :
    (s.peerReputation peerId edits).sets = s.sets := by
  rcases peerReputation_cases s peerId edits with ⟨h, _⟩ | ⟨_, h, _⟩ <;> rw [h]

theorem nodes_addNoSlotNode (s : PeersState P) (set : ℕ) (peerId : P) :
    (s.addNoSlotNode set peerId).nodes = s.nodes := by
  rcases addNoSlotNode_cases s set peerId with h | ⟨_, _, _, h⟩ <;> rw [h]

theorem nodes_removeNoSlotNode (s : PeersState P) (set : ℕ) (peerId : P) :
    (s.removeNoSlotNode set peerId).nodes = s.nodes := by
  rcases removeNoSlotNode_cases s set peerId with h | ⟨_, _, _, h⟩ <;> rw [h]

end PeersState

end Tetcore.Peerset
