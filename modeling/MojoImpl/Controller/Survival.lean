import MojoImpl.Controller.Registry
import MojoImpl.Ports.NullFree

/-! Which messages a node controller survives. From every state it can be in, each
handler returns without a null dereference, lets no open channel go and leaves no null entry
exactly when the lookups it does not check find something and the pointers it drops are not
the last ones. -/
namespace MojoImpl.NodeController
open Foundation MojoImpl.Ports

/-- The states of a controller after calls and messages that all returned. A message
arrives on a channel and is from the name the channel has at that moment. -/
inductive Reachable : NodeController → Prop
  | create (name : NodeName) : Reachable (create name)
  | call (s t : NodeController) (call : Call) (before : Reachable s)
      (ran : s.call call = some t) : Reachable t
  | message (s t : NodeController) (channel : ChannelPtr) (message : Message) (before : Reachable s)
      (made : channel < s.created)
      (ran : s.onMessage (s.channels channel).remoteNodeName message = some t) : Reachable t

/-- The peer's channel, if there is one, has another owner, and its reserved ports are real. -/
def Droppable (s : NodeController) (name : NodeName) : Prop :=
  (∀ c, s.peers.lookup name = some c →
    s.inviterChannel = some c ∨ ∃ node ≠ name, s.peers.lookup node = some c) ∧
  ∀ portMap, s.reservedPorts.lookup name = some portMap → ∀ entry ∈ portMap.entries, entry.2.port ≠ none

/-- What a handler relies on without checking it. -/
def Safe (s : NodeController) (fromNode : NodeName) : Message → Prop
  | .acceptInvitee _ => s.inviterChannel ≠ none
  | .acceptInvitation data =>
    if s.pendingInvitations.lookup fromNode = none then s.Droppable fromNode
    else data.token = fromNode ∧ s.peers.lookup data.inviteeName = none
  | .requestPortMerge data => ∀ ref, s.reservation fromNode data.messagePipeName = some ref →
      ref.port ≠ none ∧ s.peers.lookup fromNode ≠ none
  | .responsePortMerge data => NullFree.Answerable s.node data.connectorPortName
  | .userMessage data => s.node.ports.lookup data.toPortName ≠ none
  | .acceptPeer _ => True

/-- The handler returns, and no null entry is left in `ports_` or `peer_port_maps_`. -/
def Survives (s : NodeController) (fromNode : NodeName) (message : Message) : Prop :=
  ∃ t, s.onMessage fromNode message = some t ∧ NullFree t.node

section Channels

/-- A channel that waits for the answer to its invitation has no other owner. -/
structure Registry.Moored (r : Registry) : Prop where
  made : ∀ c, (r.inviterChannel = some c ∨ ∃ node, r.peers.lookup node = some c) ∨
    (∃ token, r.pendingInvitations.lookup token = some c) → c < r.created
  apart : ∀ token c, r.pendingInvitations.lookup token = some c → r.inviterChannel ≠ some c ∧
    (∀ node, r.peers.lookup node ≠ some c) ∧ ∀ token', r.pendingInvitations.lookup token' = some c → token' = token

namespace Registry.Moored
variable {r t : Registry}

theorem invite (moored : r.Moored) (name : NodeName) (ports : List (List UInt8 × PortRef)) :
    (r.invite name ports).Moored := by
  have new {token : NodeName} {c : ChannelPtr}
      (found : (r.invite name ports).pendingInvitations.lookup token = some c) :
      r.pendingInvitations.lookup token = some c ∨ (token = name ∧ c = r.created) := by
    change (Table.emplace r.pendingInvitations name r.created).lookup token = some c at found
    rw [Table.lookup_emplace] at found
    split at found
    · next same =>
      subst same
      cases before : r.pendingInvitations.lookup token with
      | none =>
        rw [before] at found
        exact .inr ⟨rfl,(Option.some.inj found).symm⟩
      | some d =>
        rw [before] at found
        exact .inl found
    · exact .inl found
  constructor
  · rintro c (owned | ⟨token,waits⟩)
    · exact Nat.lt_succ_of_lt (moored.made c (.inl owned))
    · rcases new waits with before | ⟨_,rfl⟩
      · exact Nat.lt_succ_of_lt (moored.made c (.inr ⟨token,before⟩))
      · exact Nat.lt_succ_self _
  · intro token c waits
    rcases new waits with before | ⟨rfl,rfl⟩
    · obtain ⟨inviter,peers,alone⟩ := moored.apart token c before
      refine ⟨inviter,peers,fun token' waits' => ?_⟩
      rcases new waits' with before' | ⟨_,rfl⟩
      · exact alone token' before'
      · exact absurd (moored.made _ (.inr ⟨token,before⟩)) (Nat.lt_irrefl _)
    · have unseen {P : Prop} (below : r.created < r.created) : P := absurd below (Nat.lt_irrefl _)
      refine ⟨fun set => unseen (moored.made _ (.inl (.inl set))),
        fun node peer => unseen (moored.made _ (.inl (.inr ⟨node,peer⟩))),fun token' waits' => ?_⟩
      rcases new waits' with before' | ⟨rfl,_⟩
      · exact unseen (moored.made _ (.inr ⟨token',before'⟩))
      · rfl

theorem awaitInviter (moored : r.Moored) : r.awaitInviter.Moored := by
  constructor
  · rintro c ((set | peer) | waits)
    · cases set
      exact Nat.lt_succ_self _
    · exact Nat.lt_succ_of_lt (moored.made c (.inl (.inr peer)))
    · exact Nat.lt_succ_of_lt (moored.made c (.inr waits))
  · intro token c waits
    obtain ⟨_,apart⟩ := moored.apart token c waits
    refine ⟨?_,apart⟩
    intro set
    cases set
    exact absurd (moored.made _ (.inr ⟨token,waits⟩)) (Nat.lt_irrefl _)

theorem lookup_enter {name node : NodeName} {c d : ChannelPtr}
    (found : (r.enter name c).peers.lookup node = some d) : r.peers.lookup node = some d ∨ d = c := by
  change (Table.emplace r.peers name c).lookup node = some d at found
  rw [Table.lookup_emplace] at found
  split at found
  · next same =>
    subst same
    cases before : r.peers.lookup node with
    | none =>
      rw [before] at found
      exact .inr (Option.some.inj found).symm
    | some e =>
      rw [before] at found
      exact .inl found
  · exact .inl found

theorem enter (moored : r.Moored) {name : NodeName} {c : ChannelPtr} (below : c < r.created)
    (alone : ∀ token, r.pendingInvitations.lookup token ≠ some c) : (r.enter name c).Moored := by
  constructor
  · rintro d ((set | ⟨node,peer⟩) | waits)
    · exact moored.made d (.inl (.inl set))
    · rcases lookup_enter peer with before | rfl
      · exact moored.made d (.inl (.inr ⟨node,before⟩))
      · exact below
    · exact moored.made d (.inr waits)
  · intro token d waits
    obtain ⟨inviter,peers,rest⟩ := moored.apart token d waits
    refine ⟨inviter,fun node peer => ?_,rest⟩
    rcases lookup_enter peer with before | rfl
    · exact peers node before
    · exact alone token waits

/-- Without some of its owners a channel has no new ones. -/
theorem fewer (moored : r.Moored) (inviter : t.inviterChannel = r.inviterChannel) (created : t.created = r.created)
    (peers : ∀ node c, t.peers.lookup node = some c → r.peers.lookup node = some c)
    (pending : ∀ token c, t.pendingInvitations.lookup token = some c → r.pendingInvitations.lookup token = some c) :
    t.Moored := by
  constructor
  · rw [inviter,created]
    rintro c ((set | ⟨node,peer⟩) | ⟨token,waits⟩)
    · exact moored.made c (.inl (.inl set))
    · exact moored.made c (.inl (.inr ⟨node,peers node c peer⟩))
    · exact moored.made c (.inr ⟨token,pending token c waits⟩)
  · rw [inviter]
    intro token c waits
    obtain ⟨apart,others,alone⟩ := moored.apart token c (pending token c waits)
    exact ⟨apart,fun node peer => others node (peers node c peer),
      fun token' waits' => alone token' (pending token' c waits')⟩

theorem lookup_erase_some {ν : Type} {table : Table NodeName ν} {name node : NodeName} {v : ν}
    (found : (table.erase name).lookup node = some v) : node ≠ name ∧ table.lookup node = some v := by
  rw [Table.lookup_erase] at found
  split at found
  · contradiction
  · next other => exact ⟨other,found⟩

theorem gone (moored : r.Moored) {name : NodeName} {c : ChannelPtr}
    (pending : r.pendingInvitations.lookup name = some c) (token : NodeName) :
    (r.pendingInvitations.erase name).lookup token ≠ some c := by
  intro waits
  obtain ⟨other,waits⟩ := lookup_erase_some waits
  exact other ((moored.apart name c pending).2.2 token waits)

theorem effect {e : Event} (moored : r.Moored) (effect : r.Effect e t) : t.Moored := by
  cases effect with
  | none => exact moored
  | invite name ports => exact moored.invite name ports
  | awaitInviter => exact moored.awaitInviter
  | enter channel c data set =>
    exact moored.enter (moored.made c (.inl (.inl set))) fun token waits => (moored.apart token c waits).1 set
  | drop channel data =>
    exact moored.fewer rfl rfl (fun _ _ peer => (lookup_erase_some peer).2)
      fun _ _ waits => (lookup_erase_some waits).2
  | accepted channel c data pending =>
    have reduced : Moored { r with
        reservedPorts := renameReserved r.reservedPorts (r.remoteNames channel) data.inviteeName
        pendingInvitations := r.pendingInvitations.erase (r.remoteNames channel) } :=
      moored.fewer rfl rfl (fun _ _ peer => peer) fun _ _ waits => (lookup_erase_some waits).2
    exact reduced.enter (moored.made c (.inr ⟨_,pending⟩)) (moored.gone pending)
  | take => exact moored.fewer rfl rfl (fun _ _ peer => peer) fun _ _ waits => waits

theorem create (name : NodeName) : (NodeController.create name).registry.Moored where
  made _ owned := by
    rcases owned with (set | ⟨_,peer⟩) | ⟨_,waits⟩
    · exact nomatch set
    · exact nomatch peer
    · exact nomatch waits
  apart _ _ waits := nomatch waits

end Registry.Moored

end Channels

section Handlers

theorem onAcceptInvitee_iff {s : NodeController} (free : NullFree s.node) (inviterName token : NodeName) :
    (∃ t, s.onAcceptInvitee inviterName token = some t ∧ NullFree t.node) ↔
      s.inviterChannel ≠ none := by
  constructor
  · rintro ⟨t,ran,_⟩
    obtain ⟨c,set,_⟩ := Option.bind_eq_some_iff.mp ran
    change s.inviterChannel = some c at set
    simp [set]
  · intro real
    obtain ⟨c,set⟩ := Option.ne_none_iff_exists'.mp real
    obtain ⟨peers,pending,channels,added,known⟩ := addPeer_shape
      (({ s with inviterName := inviterName }.setRemoteNodeName c inviterName).sendChannelMessage c
        (.acceptInvitation ⟨token,s.name⟩)) inviterName c
    obtain ⟨channel,found⟩ := Option.ne_none_iff_exists'.mp known
    have split := onAcceptInvitee_some set inviterName token
    rw [added] at split
    have sent := handlePendingMergePort_sends (s := { s with
      inviterName := inviterName, peers := peers, pendingPeerMessages := pending
      channels := channels }) (c := channel) found
    exact ⟨_,split.trans sent,free⟩

theorem foldlM_closePort_iff {n : Node} (free : NullFree n) (refs : List PortRef) :
    (∃ t, refs.foldlM Node.closePort n = some t ∧ NullFree t) ↔ ∀ ref ∈ refs, ref.port ≠ none := by
  induction refs generalizing n with
  | nil => simpa using free
  | cons ref refs ih =>
    rw [List.foldlM_cons,List.forall_mem_cons]
    cases port : ref.port with
    | none => simp [Node.closePort,port]
    | some p =>
      have closed : n.closePort ref = some (n.erasePort ref.name) := by
        rw [Node.closePort,port]
        rfl
      rw [closed,Option.bind_eq_bind,Option.bind_some,ih (free.erasePort _)]
      simp

theorem closeReserved_iff {s : NodeController} (free : NullFree s.node) (name : NodeName) :
    (∃ t, s.closeReserved name = some t ∧ NullFree t.node) ↔
      ∀ portMap, s.reservedPorts.lookup name = some portMap →
        ∀ entry ∈ portMap.entries, entry.2.port ≠ none := by
  have real : (∀ ref ∈ reservedRefs s.reservedPorts name, ref.port ≠ none) ↔
      ∀ portMap, s.reservedPorts.lookup name = some portMap → ∀ entry ∈ portMap.entries, entry.2.port ≠ none := by
    unfold reservedRefs
    cases s.reservedPorts.lookup name with
    | none => simp
    | some portMap => simp only [Option.elim_some,List.forall_mem_map,Option.some.injEq,forall_eq']
  rw [← real,← foldlM_closePort_iff free,closeReserved_eq]
  constructor
  · rintro ⟨t,ran,kept⟩
    obtain ⟨node,closed,rfl⟩ := Option.map_eq_some_iff.mp ran
    exact ⟨node,closed,kept⟩
  · rintro ⟨node,closed,kept⟩
    exact ⟨_,Option.map_eq_some_iff.mpr ⟨node,closed,rfl⟩,kept⟩

/-- A peer with no invitation can be dropped when its channel has another owner. -/
theorem dropPeer_iff {s : NodeController} (free : NullFree s.node) (moored : s.registry.Moored) {name : NodeName}
    (expected : s.pendingInvitations.lookup name = none) :
    (∃ t, s.dropPeer name = some t ∧ NullFree t.node) ↔ s.Droppable name := by
  have others (c : ChannelPtr) (peer : s.peers.lookup name = some c) :
      c ∈ ({ s with peers := s.peers.erase name } : NodeController).owners ↔
        s.inviterChannel = some c ∨ ∃ node ≠ name, s.peers.lookup node = some c := by
    rw [mem_owners]
    change s.inviterChannel = some c ∨ (∃ node, (s.peers.erase name).lookup node = some c) ∨
      (∃ token, s.pendingInvitations.lookup token = some c) ↔ _
    have waiting : ¬∃ token, s.pendingInvitations.lookup token = some c := by
      rintro ⟨token,waits⟩
      exact (moored.apart token c waits).2.1 name peer
    simp only [waiting,or_false,Table.lookup_erase]
    refine or_congr_right (exists_congr fun node => ?_)
    by_cases same : node = name <;> simp [same]
  have closed : (∃ t, (s.forget name).closeReserved name = some t ∧ NullFree t.node) ↔ _ :=
    closeReserved_iff (s := s.forget name) free name
  unfold Droppable
  simp only [dropPeer_iff_forget,expected,Option.mem_def,reduceCtorEq,false_implies,implies_true,true_and,
    and_assoc,exists_and_left]
  rw [closed]
  exact and_congr_left' (forall₂_congr others)

/-- The invitation is the only owner of a channel that waits for its answer. -/
theorem forget_unowned {s : NodeController} (moored : s.registry.Moored) {name : NodeName} {channel : ChannelPtr}
    (pending : s.pendingInvitations.lookup name = some channel) : channel ∉ (s.forget name).owners := by
  intro owned
  obtain ⟨inviter,peers,_⟩ := moored.apart name channel pending
  rcases mem_owners.mp owned with set | ⟨node,peer⟩ | ⟨token,waits⟩
  · exact inviter set
  · exact peers node (Registry.Moored.lookup_erase_some peer).2
  · exact moored.gone pending token waits

/-- The answer gives the channel a new owner if the invitee's name is new. -/
theorem answered_owned {s : NodeController} (moored : s.registry.Moored) {fromNode : NodeName} {channel : ChannelPtr}
    (pending : s.pendingInvitations.lookup fromNode = some channel) (inviteeName : NodeName) :
    channel ∈ (s.answered fromNode inviteeName channel).owners ↔ s.peers.lookup inviteeName = none := by
  obtain ⟨inviter,peers,_⟩ := moored.apart fromNode channel pending
  have registry := registry_addPeer { s with
    reservedPorts := renameReserved s.reservedPorts fromNode inviteeName
    pendingInvitations := s.pendingInvitations.erase fromNode } inviteeName channel
  have set : (s.answered fromNode inviteeName channel).inviterChannel = s.inviterChannel :=
    congrArg Registry.inviterChannel registry
  have waiting : (s.answered fromNode inviteeName channel).pendingInvitations =
    s.pendingInvitations.erase fromNode := congrArg Registry.pendingInvitations registry
  have entered : (s.answered fromNode inviteeName channel).peers =
    Table.emplace s.peers inviteeName channel := congrArg Registry.peers registry
  rw [mem_owners,set,waiting,entered]
  constructor
  · rintro (same | ⟨node,peer⟩ | ⟨token,waits⟩)
    · exact absurd same inviter
    · rw [Table.lookup_emplace] at peer
      by_contra known
      obtain ⟨c,found⟩ := Option.ne_none_iff_exists'.mp known
      split at peer
      · rw [found] at peer
        exact peers inviteeName (found.trans peer)
      · exact peers node peer
    · exact absurd waits (moored.gone pending token)
  · intro unknown
    refine .inr (.inl ⟨inviteeName,?_⟩)
    rw [Table.lookup_emplace,if_pos rfl,unknown]
    rfl

theorem onAcceptInvitation_iff {s : NodeController} (free : NullFree s.node) (moored : s.registry.Moored)
    (fromNode token inviteeName : NodeName) :
    (∃ t, s.onAcceptInvitation fromNode token inviteeName = some t ∧ NullFree t.node) ↔
      if s.pendingInvitations.lookup fromNode = none then s.Droppable fromNode
      else token = fromNode ∧ s.peers.lookup inviteeName = none := by
  unfold onAcceptInvitation
  cases pending : s.pendingInvitations.lookup fromNode with
  | none =>
    rw [if_pos rfl]
    exact dropPeer_iff free moored pending
  | some channel =>
    rw [if_neg (Option.some_ne_none channel)]
    by_cases matching : token = fromNode
    · have kept : (s.answered fromNode inviteeName channel).node = s.node := by
        obtain ⟨peers,pending,channels,added,_⟩ := addPeer_shape { s with
          reservedPorts := renameReserved s.reservedPorts fromNode inviteeName
          pendingInvitations := s.pendingInvitations.erase fromNode } inviteeName channel
        rw [answered,added]
      simp only [ne_eq,matching,not_true_eq_false,if_false,true_and]
      change (∃ t, (s.answered fromNode inviteeName channel).release (some channel) = some t ∧ _) ↔ _
      simp only [release_iff,Option.mem_def,Option.some.injEq,forall_eq',answered_owned moored pending]
      constructor
      · rintro ⟨t,⟨unknown,_⟩,_⟩
        exact unknown
      · intro unknown
        exact ⟨_,⟨unknown,rfl⟩,kept ▸ free⟩
    · simp only [ne_eq,matching,not_false_eq_true,if_true,false_and,iff_false]
      rintro ⟨t,dropped,_⟩
      obtain ⟨_,second,_⟩ := dropPeer_iff_forget.mp dropped
      exact forget_unowned moored pending (second channel pending)

theorem onRequestPortMerge_iff {s : NodeController} (free : NullFree s.node) (fromNode : NodeName)
    (connectorPortName : PortName) (messagePipeName : List UInt8) :
    (∃ t, s.onRequestPortMerge fromNode connectorPortName messagePipeName = some t ∧
        NullFree t.node) ↔
      ∀ ref, s.reservation fromNode messagePipeName = some ref →
        ref.port ≠ none ∧ s.peers.lookup fromNode ≠ none := by
  unfold onRequestPortMerge
  cases taken : takeReserved s.reservedPorts fromNode messagePipeName with
  | none =>
    rw [reservation,takeReserved_none.mp taken]
    exact ⟨fun _ _ same => (nomatch same),fun _ => ⟨s,rfl,free⟩⟩
  | some pair =>
    obtain ⟨ref,rest⟩ := pair
    rw [reservation,takeReserved_some taken]
    simp only [Option.some.injEq,forall_eq']
    have merges := free.mergePorts_returns ref fromNode connectorPortName
    unfold mergePorts
    cases merged : s.node.mergePorts ref fromNode connectorPortName with
    | none =>
      rw [merged] at merges
      have null : ¬ ref.port ≠ none := fun real => by
        obtain ⟨t,same⟩ := merges.mpr real
        cases same
      simp [null]
    | some outcome =>
      obtain ⟨r,localPortName,node⟩ := outcome
      have real : ref.port ≠ none := merges.mp ⟨_,merged⟩
      have kept : NullFree node := free.mergePorts merged
      simp only [Option.bind_eq_bind,Option.bind_some,Option.pure_def,getPeerChannel,real,ne_eq,
        not_false_eq_true,true_and]
      cases peer : s.peers.lookup fromNode with
      | none => simp
      | some channel =>
        simp only [Option.bind_some,reduceCtorEq,not_false_eq_true,iff_true]
        exact ⟨_,rfl,kept⟩

theorem survives_iff {s : NodeController} (free : NullFree s.node) (moored : s.registry.Moored) (fromNode : NodeName)
    (message : Message) : s.Survives fromNode message ↔ s.Safe fromNode message := by
  cases message with
  | acceptInvitee data => exact onAcceptInvitee_iff free data.inviterName data.token
  | acceptInvitation data =>
    exact onAcceptInvitation_iff free moored fromNode data.token data.inviteeName
  | requestPortMerge data =>
    exact onRequestPortMerge_iff free fromNode data.connectorPortName data.messagePipeName
  | responsePortMerge data =>
    have node := free.mergePortsResponse_iff data.connectorPortName fromNode data.portName
    change _ ↔ NullFree.Answerable s.node data.connectorPortName
    rw [← node]
    constructor
    · rintro ⟨t,ran,kept⟩
      simp only [onMessage,onResponsePortMerge] at ran
      simp only [Option.bind_eq_bind,Option.pure_def] at ran
      obtain ⟨⟨r,u⟩,merged,rest⟩ := Option.bind_eq_some_iff.mp ran
      cases rest
      exact ⟨r,u,merged,kept⟩
    · rintro ⟨r,u,merged,kept⟩
      exact ⟨{ s with node := u },by rw [onMessage,onResponsePortMerge,merged]; rfl,kept⟩
  | userMessage data =>
    have node := free.onUserMessage_iff data
    change _ ↔ s.node.ports.lookup data.toPortName ≠ none
    rw [← node]
    constructor
    · rintro ⟨t,ran,kept⟩
      simp only [onMessage,NodeController.onUserMessage] at ran
      simp only [Option.bind_eq_bind,Option.pure_def] at ran
      obtain ⟨u,accepted,rest⟩ := Option.bind_eq_some_iff.mp ran
      cases rest
      exact ⟨u,accepted,kept⟩
    · rintro ⟨u,accepted,kept⟩
      exact ⟨{ s with node := u },by rw [onMessage,NodeController.onUserMessage,accepted]; rfl,kept⟩
  | acceptPeer data => exact ⟨fun _ => trivial,fun _ => ⟨s,rfl,free⟩⟩

end Handlers

section Nodes

/-- What every function that a handler calls on the node keeps. -/
structure Keeps (P : Node → Prop) : Prop where
  closePort : ∀ {n t : Node} {ref : PortRef}, P n → n.closePort ref = some t → P t
  mergePorts : ∀ {n t : Node} {ref : PortRef} {node : NodeName} {port localPortName : PortName} {r : Result},
    P n → n.mergePorts ref node port = some (r,localPortName,t) → P t
  mergePortsResponse : ∀ {n t : Node} {p port : PortName} {node : NodeName} {r : Result},
    P n → n.mergePortsResponse p node port = some (r,t) → P t
  onUserMessage : ∀ {n t : Node} {message : UserMessage}, P n → n.onUserMessage message = some t → P t

namespace Keeps
variable {P : Node → Prop} {s t : NodeController}

theorem foldlM_closePort (keeps : Keeps P) {n m : Node} (before : P n) {refs : List PortRef}
    (closed : refs.foldlM Node.closePort n = some m) : P m := by
  induction refs generalizing n with
  | nil =>
    cases closed
    exact before
  | cons ref refs ih =>
    rw [List.foldlM_cons] at closed
    obtain ⟨first,one,more⟩ := Option.bind_eq_some_iff.mp closed
    exact ih (keeps.closePort before one) more

theorem dropPeer (keeps : Keeps P) (before : P s.node) {name : NodeName}
    (ran : s.dropPeer name = some t) : P t.node := by
  obtain ⟨node,closed,rfl⟩ := dropPeer_ran ran
  exact keeps.foldlM_closePort before closed

end Keeps

theorem addPeer_node (s : NodeController) (name : NodeName) (channel : ChannelPtr) :
    (s.addPeer name channel).node = s.node := by
  obtain ⟨peers,pending,channels,added,_⟩ := s.addPeer_shape name channel
  rw [added]

theorem requestPendingMerges_node {s t : NodeController} {requests : List (List UInt8 × PortRef)}
    (ran : requests.foldlM requestPendingMerge s = some t) : t.node = s.node := by
  induction requests generalizing s with
  | nil =>
    cases ran
    rfl
  | cons request requests ih =>
    rw [List.foldlM_cons] at ran
    obtain ⟨u,one,more⟩ := Option.bind_eq_some_iff.mp ran
    obtain ⟨inviter,_,same⟩ := Option.bind_eq_some_iff.mp one
    cases same
    have kept := ih more
    exact kept

theorem onAcceptInvitee_node {s t : NodeController} {inviterName token : NodeName}
    (ran : s.onAcceptInvitee inviterName token = some t) : t.node = s.node := by
  obtain ⟨channel,_,more⟩ := Option.bind_eq_some_iff.mp ran
  exact (requestPendingMerges_node more).trans (addPeer_node ..)

/-- What the functions of the node keep, every message keeps. -/
theorem Keeps.onMessage {P : Node → Prop} {s t : NodeController} (keeps : Keeps P) (before : P s.node)
    {fromNode : NodeName} {message : Message} (ran : s.onMessage fromNode message = some t) : P t.node := by
  cases message with
  | acceptInvitee data =>
    rw [onAcceptInvitee_node ran]
    exact before
  | acceptInvitation data =>
    obtain ⟨_,dropped⟩ | ⟨channel,_,_,rfl⟩ := onAcceptInvitation_cases ran
    · exact keeps.dropPeer before dropped
    · rw [answered,addPeer_node]
      exact before
  | requestPortMerge data =>
    obtain ⟨_,rfl⟩ | ⟨port,rest,r,localPortName,node,channel,_,merged,_,rfl⟩ := onRequestPortMerge_cases ran
    · exact before
    · exact keeps.mergePorts before merged
  | responsePortMerge data =>
    obtain ⟨⟨r,node⟩,merged,same⟩ := Option.bind_eq_some_iff.mp ran
    cases same
    exact keeps.mergePortsResponse before merged
  | userMessage data =>
    obtain ⟨node,accepted,same⟩ := Option.bind_eq_some_iff.mp ran
    cases same
    exact keeps.onUserMessage before accepted
  | acceptPeer data =>
    cases ran
    exact before

end Nodes

section Runs

theorem keeps_nullFree : Keeps NullFree where
  closePort free ran := free.closePort ran
  mergePorts free ran := free.mergePorts ran
  mergePortsResponse free ran := free.mergePortsResponse ran
  onUserMessage free ran := free.onUserMessage ran

theorem call_nullFree {s t : NodeController} (free : NullFree s.node) {c : Call}
    (ran : s.call c = some t) : NullFree t.node := by
  cases c with
  | createPortPair name0 name1 =>
    obtain ⟨⟨r,port0,port1,node⟩,made,rest⟩ := Option.bind_eq_some_iff.mp ran
    cases rest
    exact free.createPortPair made
  | sendInvitation tempNodeName attachedPorts =>
    cases sendInvitation_ran ran
    exact free
  | acceptInvitation =>
    cases acceptInvitation_ran ran
    exact free
  | mergePortIntoInviter name port =>
    cases ran
    unfold mergePortIntoInviter
    split <;> exact free
  | sendUserMessage port message =>
    obtain ⟨⟨node,message⟩,_,rest⟩ := Option.bind_eq_some_iff.mp ran
    cases rest
    unfold forwardEvent sendPeerEvent
    split
    · exact free
    · split <;> exact free
  | getUserMessage port =>
    obtain ⟨⟨taken,u⟩,got,rest⟩ := Option.bind_eq_some_iff.mp ran
    obtain ⟨⟨taken',node⟩,got',rest'⟩ := Option.bind_eq_some_iff.mp got
    cases rest
    cases rest'
    obtain ⟨p,_,last⟩ := Option.bind_eq_some_iff.mp got'
    split at last
    · obtain ⟨⟨message,queue⟩,_,same⟩ := Option.bind_eq_some_iff.mp last
      cases same
      exact free.setPort _ _
    · cases last
      exact free

theorem reachable_nullFree {s : NodeController} (reached : Reachable s) : NullFree s.node := by
  induction reached with
  | create name => exact NullFree.create name
  | call s t c before ran free => exact call_nullFree free ran
  | message s t channel message before made ran free => exact keeps_nullFree.onMessage free ran

theorem reachable_moored {s : NodeController} (reached : Reachable s) : s.registry.Moored := by
  induction reached with
  | create name => exact .create name
  | call s t call before ran moored =>
    have effect := s.registry.event_effect (.call call)
    rw [← registry_call ran] at effect
    exact moored.effect effect
  | message s t channel message before made ran moored =>
    have effect := s.registry.event_effect (.message channel message)
    rw [← registry_event (e := .message channel message) (by rw [event,if_pos made,ran])] at effect
    exact moored.effect effect

/-- No reachable state has a null entry, and in each a handler survives a message exactly
when the message is safe. -/
theorem reachable_survives_iff {s : NodeController} (reached : Reachable s) :
    NullFree s.node ∧ ∀ channel message,
      s.Survives (s.channels channel).remoteNodeName message ↔
        s.Safe (s.channels channel).remoteNodeName message :=
  ⟨reachable_nullFree reached,fun _ _ => survives_iff (reachable_nullFree reached) (reachable_moored reached) _ _⟩

/-- An inviter that has sent its invitation: an answer to it is survived, an invitation is not. -/
theorem reachable_survives_iff_inviter :
    Reachable ((create ⟨1,2⟩).invite ⟨3,4⟩ []) ∧
      ((create ⟨1,2⟩).invite ⟨3,4⟩ []).Survives ⟨3,4⟩ (.acceptInvitation ⟨⟨3,4⟩,⟨5,6⟩⟩) ∧
      ¬ ((create ⟨1,2⟩).invite ⟨3,4⟩ []).Survives ⟨3,4⟩ (.acceptInvitee ⟨⟨5,6⟩,⟨7,8⟩⟩) := by
  have reached : Reachable ((create ⟨1,2⟩).invite ⟨3,4⟩ []) :=
    .call _ _ (.sendInvitation ⟨3,4⟩ []) (.create ⟨1,2⟩) rfl
  have survives := (reachable_survives_iff reached).2 0
  refine ⟨reached,(survives (.acceptInvitation ⟨⟨3,4⟩,⟨5,6⟩⟩)).mpr ⟨rfl,rfl⟩,?_⟩
  intro survived
  exact (survives (.acceptInvitee ⟨⟨5,6⟩,⟨7,8⟩⟩)).mp survived rfl

/-- A message to a port that is not there is not survived. -/
theorem not_survives : ¬ ∀ s, Reachable s → ∀ channel message,
    s.Survives (s.channels channel).remoteNodeName message := by
  intro survives
  have reached : Reachable ((create ⟨1,2⟩).invite ⟨3,4⟩ []) :=
    .call _ _ (.sendInvitation ⟨3,4⟩ []) (.create ⟨1,2⟩) rfl
  obtain ⟨t,ran,_⟩ := survives _ reached 0 (.userMessage ⟨⟨9,9⟩,⟨8,8⟩,[]⟩)
  have null : ((create ⟨1,2⟩).invite ⟨3,4⟩ []).onMessage ⟨3,4⟩ (.userMessage ⟨⟨9,9⟩,⟨8,8⟩,[]⟩) = none := rfl
  cases null.symm.trans ran

end Runs

end MojoImpl.NodeController
