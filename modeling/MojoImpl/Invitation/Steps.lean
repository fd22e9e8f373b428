import MojoImpl.Invitation.Handshake

/-! Each step of the two parties keeps the handshake: sending and accepting the
invitation, and the handlers of the four control messages. -/
namespace MojoImpl.Invitation
open Foundation MojoImpl.Ports

section Opening
variable {inviter invitee : NodeName} {s : System} {g : Progress}

def sentUse (use : PortName → Use) (invitation : MojoHandle) (x : PortName) : Use :=
  match use x with
  | .attached h name => if h = invitation then .reserved name else .attached h name
  | u => u

theorem Handshake.created_idle (h : Handshake inviter invitee s g)
    (new : (s.party .inviter).core.controller.created = 0) : g.phase = .idle := by
  by_contra sent
  have created := h.inviterState.created
  rw [new,if_neg sent] at created
  contradiction

theorem Handshake.created_unconnected (h : Handshake inviter invitee s g)
    (new : (s.party .invitee).core.controller.created = 0) : g.phase.connected = false := by
  cases connected : g.phase.connected with
  | false => rfl
  | true =>
    have created := h.inviteeState.met connected
    rw [new] at created
    contradiction

theorem Handshake.acceptInvitation (h : Handshake inviter invitee s g) {t : System}
    (ran : s.stepAcceptInvitation = some t) :
    ∃ g', Handshake inviter invitee t g' ∧ g.SameJoins g' := by
  obtain ⟨new,r,accepted,rfl⟩ := System.stepAcceptInvitation_ran ran
  have unconnected := h.created_unconnected new
  obtain ⟨kept,extended,_⟩ := (h.kept .invitee).addDispatcher (d := .invitation ∅)
    (fun ref same => by cases same) (fun m same name => by cases same; rfl)
  have controller := (addDispatcher_lookup (h.kept .invitee).counted (.invitation ∅)).2.1
  have node : ((s.party .invitee).addDispatcher (.invitation ∅)).node = (s.party .invitee).node :=
    congrArg NodeController.node controller
  obtain ⟨_,⟨_,core⟩ | ⟨_,core⟩⟩ := Core.acceptInvitation_ran accepted
  · rw [core]
    exact h.growSame (u := (s.party .invitee).addDispatcher (.invitation ∅)) kept extended.toGrows rfl
      (fun x unused => node ▸ unused) rfl rfl rfl
  · have core : r.2.2 = { ((s.party .invitee).addDispatcher (.invitation ∅)).core with
        controller := (s.party .invitee).core.controller.awaitInviter } := by
      rw [core,← controller]
      rfl
    rw [core]
    have state := h.inviteeState
    have merges := state.merges
    have name := state.inviterName
    have flight := h.toInviter
    rw [unconnected] at merges name flight
    have early : g.phase ≠ .greeted := by
      intro greeted
      rw [greeted] at unconnected
      contradiction
    refine ⟨g,⟨h.keptSet (kept.congr node.symm rfl rfl rfl rfl),h.unusedSet rfl,h.ends,
      h.inviterState,?_,?_,h.toInvitee,?_⟩,rfl,rfl⟩
    · rw [setParty_self]
      refine ⟨state.name,state.node,?_,.inr ⟨?_,?_⟩,?_,?_,state.peers,state.pending,?_⟩
      · rw [unconnected]
        rfl
      · exact congrArg (· + 1) new
      · exact congrArg some new
      · intro met
        rw [unconnected] at met
        contradiction
      · intro met
        rw [unconnected] at met
        contradiction
      · rw [unconnected]
        exact merges
    · rw [setParty_self]
      exact h.joined.congrInvitee rfl rfl
    · rw [setParty_self,unconnected,if_neg early]
      simp only [Party.inFlight,NodeController.awaitInviter,NodeController.createChannel,new,
        Function.update_self]
      rfl

def Progress.invite (g : Progress) (invitation : MojoHandle) (tempNodeName : NodeName) : Progress :=
  { g with
    phase := .invited
    token := tempNodeName
    use := Function.update g.use .inviter (sentUse (g.use .inviter) invitation) }

section Inviting
variable {p : Party} {use : PortName → Use} {invitation : MojoHandle} {m : PortMap}

theorem Party.invite_portOf (found : p.core.getDispatcher invitation = some (.invitation m))
    (tempNodeName : NodeName) (h : MojoHandle) (ref : PortRef) :
    (p.invite invitation m tempNodeName).portOf h = some ref ↔ p.portOf h = some ref :=
  portOf_setAttached found ∅ p.attached h ref

theorem sentUse_attached {x : PortName} {name : List UInt8} (used : use x = .attached invitation name) :
    sentUse use invitation x = .reserved name := by
  rw [sentUse,used]
  exact if_pos rfl

/-- The attachments of this invitation are reserved, the others stay attached. -/
theorem Kept.invite (kept : Kept p use)
    (found : p.core.getDispatcher invitation = some (.invitation m)) (tempNodeName : NodeName) :
    Kept (p.invite invitation m tempNodeName) (sentUse use invitation) := by
  have sent : Kept (p.setAttached invitation ∅ p.attached) (sentUse use invitation) := by
    refine kept.setAttached found ?_ ?_ ?_ (fun _ _ => rfl) (fun _ _ entry => (nomatch entry))
    · intro x used
      rw [sentUse,used]
    · intro x used
      rw [sentUse,used]
    · intro x h name other used
      rw [sentUse,used]
      exact if_neg other
  exact sent.congr rfl rfl rfl rfl rfl

theorem InviterState.invite {c : NodeController} (state : InviterState inviter invitee c g)
    (idle : g.phase = .idle) (new : c.created = 0) (invitation : MojoHandle) (tempNodeName : NodeName)
    (attachedPorts : List (List UInt8 × PortRef)) :
    InviterState inviter invitee (c.invite tempNodeName attachedPorts)
      (g.invite invitation tempNodeName) := by
  obtain ⟨created,channel,invitations⟩ := NodeController.invite_channel new tempNodeName attachedPorts
  refine ⟨state.name,state.node,state.inviterName,created,?_,?_,state.pending,?_,?_,?_⟩
  · intro _
    exact congrArg ChannelObject.remoteNodeName channel
  · intro x
    have peers := state.peers x
    rw [idle] at peers
    exact peers
  · intro _
    change (c.invite tempNodeName attachedPorts).pendingInvitations.lookup tempNodeName = some 0
    rw [invitations,Table.lookup_emplace,if_pos rfl,state.uninvited idle]
    rfl
  · intro same
    contradiction
  · intro x other
    have other : x ≠ tempNodeName := other.resolve_left (fun same => nomatch same)
    change (Table.modify c.reservedPorts tempNodeName ∅ _).lookup x = none
    rw [Table.lookup_modify,if_neg other,state.reserved x (.inl idle)]

/-- The invitee knows nothing of the invitation yet. -/
theorem InviteeState.invited {c : NodeController} (state : InviteeState inviter invitee c g)
    (idle : g.phase = .idle) (invitation : MojoHandle) (tempNodeName : NodeName) :
    InviteeState inviter invitee c (g.invite invitation tempNodeName) := by
  have name := state.inviterName
  have peers := state.peers
  have merges := state.merges
  rw [idle] at name merges
  simp only [idle] at peers
  exact ⟨state.name,state.node,name,state.channel,fun met => (nomatch met),fun met => (nomatch met),peers,
    state.pending,merges⟩

/-- Every port of the invitation is reserved under its name, and nothing else is. -/
theorem Joined.invite {b : Party} {offers : List UInt8 → Option MojoHandle}
    (joined : Joined inviter invitee p b offers g) (kept : Kept p (g.use .inviter))
    (here : p.node.name = inviter) (idle : g.phase = .idle)
    (bare : ∀ x, p.core.controller.reservedPorts.lookup x = none)
    (found : p.core.getDispatcher invitation = some (.invitation m)) (tempNodeName : NodeName) :
    Joined inviter invitee (p.invite invitation m tempNodeName) b
      (fun name => (m.lookup name).map fun _ => (p.attached invitation name).getD MOJO_HANDLE_INVALID)
      (g.invite invitation tempNodeName) := by
  obtain ⟨served,settled,opened⟩ := joined.early (by rw [idle]; exact fun same => nomatch same)
  have joinless : (g.invite invitation tempNodeName).joins = [] := by
    change g.settled ++ g.opened = []
    rw [settled,opened]
    rfl
  have unserved (name : List UInt8) : firstFor (g.invite invitation tempNodeName).served name = none := by
    change firstFor g.served name = none
    rw [served]
    rfl
  have ports := Party.invite_portOf found tempNodeName
  have reservation (x : NodeName) (name : List UInt8) :
      (p.invite invitation m tempNodeName).core.controller.reservation x name =
        if x = tempNodeName then m.lookup name else none := by
    have none_reserved : p.core.controller.reservation x name = none := by
      unfold NodeController.reservation NodeController.reservedFor
      rw [bare]
      rfl
    exact (NodeController.invite_reservation (bare tempNodeName) m x name).trans (by rw [none_reserved])
  refine ⟨fun _ => ⟨served,settled,opened⟩,joined.requests,joined.distinct,?_,?_,?_,joined.once,?_,
    joined.inviteePeer,?_,joined.inviteeOnly⟩
  · intro name handle offer
    obtain ⟨ref,entry,answer⟩ := Option.map_eq_some_iff.mp offer
    obtain ⟨_,_,handle',front,answer',behind,_⟩ := kept.attachments invitation m name ref found entry
    rw [answer'] at answer
    subst answer
    refine ⟨fun same => (nomatch same),front,(ports _ _).mpr behind,.inl ⟨unserved name,ref,?_⟩⟩
    rw [reservation]
    exact (if_pos rfl).trans entry
  · intro x name ref reserved
    rw [reservation] at reserved
    split at reserved
    · obtain ⟨held,used,handle,front,answer,behind,peer⟩ := kept.attachments invitation m name ref found reserved
      refine ⟨held,?_,unserved name,handle,front,?_,(ports _ _).mpr behind,?_⟩
      · change Function.update g.use .inviter (sentUse (g.use .inviter) invitation) .inviter _ = _
        rw [Function.update_self]
        exact sentUse_attached used
      · rw [reserved,answer]
        rfl
      · exact peer.trans (congrArg (fun n => some (n,front.name)) here)
    · contradiction
  · intro j member
    rw [joinless] at member
    contradiction
  · intro j member
    rw [joinless] at member
    contradiction
  · exact joined.inviterOnly

end Inviting

theorem Handshake.sendInvitation (h : Handshake inviter invitee s g) {invitation : MojoHandle}
    {tempNodeName : NodeName} {t : System}
    (ran : s.stepSendInvitation invitation tempNodeName = some t) :
    ∃ g', Handshake inviter invitee t g' ∧ g.SameJoins g' := by
  obtain ⟨m,found,⟨_,each⟩,new,rfl⟩ := System.stepSendInvitation_ran ran
  have idle := h.created_idle new
  have state := h.inviterState
  have stranger : tempNodeName ≠ invitee := fun same =>
    (each tempNodeName List.mem_cons_self).2 (same ▸ h.ends.1)
  have channel := (NodeController.invite_channel new tempNodeName
    (m.entries.map fun entry => (entry.1,entry.2))).2.1
  have inviterState := state.invite idle new invitation tempNodeName
    (m.entries.map fun entry => (entry.1,entry.2))
  have joined := h.joined.invite (h.kept .inviter) state.node idle
    (fun x => state.reserved x (.inl idle)) found tempNodeName
  have kept := kept_update .inviter h.kept ((h.kept .inviter).invite found tempNodeName)
  refine ⟨g.invite invitation tempNodeName,⟨kept,?_,⟨List.mem_cons_of_mem _ h.ends.1,
    fun _ => ⟨List.mem_cons_self,stranger⟩⟩,inviterState,
    h.inviteeState.invited idle invitation tempNodeName,joined,?_,?_⟩,rfl,rfl⟩
  · intro side x absent
    have node : ((s.party .inviter).invite invitation m tempNodeName).node = (s.party .inviter).node := rfl
    exact h.unusedSet node side x (fun member => absent (List.mem_cons_of_mem _ member))
  · obtain ⟨_,_,opened⟩ := h.joined.early (by rw [idle]; exact fun same => nomatch same)
    change control (((s.party .inviter).core.controller.invite tempNodeName
      (m.entries.map fun entry => (entry.1,entry.2))).channels 0).written =
      [.acceptInvitee ⟨tempNodeName,inviter⟩] ++ g.opened.map Join.response
    rw [channel,state.name,opened]
    rfl
  · have flight := h.toInviter
    rw [idle] at flight
    exact flight

end Opening

section Delivering
variable {inviter invitee : NodeName} {s : System} {g : Progress}

def delivered (s : System) (sender : Side) (rest : List Message) (p : Party) : System :=
  (s.setParty sender ((s.party sender).withInFlight rest)).setParty sender.other p

theorem withInFlight_inFlight (p : Party) (rest : List Message) : (p.withInFlight rest).inFlight = rest := by
  simp only [Party.inFlight,Party.withInFlight,Function.update_self]

theorem InviterState.withInFlight {p : Party} (state : InviterState inviter invitee p.core.controller g)
    (rest : List Message) : InviterState inviter invitee (p.withInFlight rest).core.controller g :=
  ⟨state.name,state.node,state.inviterName,state.created,fun sent => by
    simp only [Party.withInFlight,Function.update_self]
    exact state.remote sent,state.peers,state.pending,state.invited,state.uninvited,state.reserved⟩

theorem InviteeState.withInFlight {p : Party} (state : InviteeState inviter invitee p.core.controller g)
    (rest : List Message) : InviteeState inviter invitee (p.withInFlight rest).core.controller g :=
  ⟨state.name,state.node,state.inviterName,state.channel,state.met,fun met => by
    simp only [Party.withInFlight,Function.update_self]
    exact state.remote met,state.peers,state.pending,state.merges⟩

theorem Handshake.keptDelivered (h : Handshake inviter invitee s g) (sender : Side) {rest : List Message}
    {p : Party} (kept : Kept p (g.use sender.other)) (side : Side) :
    Kept ((delivered s sender rest p).party side) (g.use side) := by
  have left : Kept ((s.party sender).withInFlight rest) (g.use sender) :=
    (h.kept sender).congr rfl rfl rfl rfl rfl
  exact forall_setParty (P := fun side p => Kept p (g.use side)) kept
    (forall_setParty (P := fun side p => Kept p (g.use side)) left h.kept) side

theorem Handshake.unusedDelivered (h : Handshake inviter invitee s g) (sender : Side)
    {rest : List Message} {p : Party}
    (unused : ∀ x, (s.party sender.other).node.Unused x → p.node.Unused x) (side : Side) (x : Name)
    (absent : x ∉ s.used) : ((delivered s sender rest p).party side).node.Unused x := by
  have left : ((s.party sender).withInFlight rest).node.Unused x := h.unused sender x absent
  exact forall_setParty (P := fun _ p => p.node.Unused x) (unused x (h.unused sender.other x absent))
    (forall_setParty (P := fun _ p => p.node.Unused x) left (fun side => h.unused side x absent)) side

theorem Handshake.deliverInvitee (h : Handshake inviter invitee s g) {g' : Progress}
    (use : g'.use = g.use) {rest : List Message} {p : Party} (kept : Kept p (g.use .invitee))
    (unused : ∀ x, (s.party .invitee).node.Unused x → p.node.Unused x)
    (token : g'.phase ≠ .idle → g'.token ∈ s.used ∧ g'.token ≠ invitee)
    (inviterState : InviterState inviter invitee ((s.party .inviter).withInFlight rest).core.controller g')
    (inviteeState : InviteeState inviter invitee p.core.controller g')
    (joined : Joined inviter invitee ((s.party .inviter).withInFlight rest) p s.offers g')
    (toInvitee : control rest =
      (if g'.phase = .invited then [.acceptInvitee ⟨g'.token,inviter⟩] else []) ++ g'.opened.map Join.response)
    (toInviter : control p.inFlight =
      (if g'.phase = .greeted then [.acceptInvitation ⟨g'.token,invitee⟩] else []) ++
        if g'.phase.connected then g'.waiting.map Request.message else []) :
    Handshake inviter invitee (delivered s .inviter rest p) g' where
  kept side := by
    rw [use]
    exact h.keptDelivered .inviter kept side
  unused := h.unusedDelivered .inviter unused
  ends := ⟨h.ends.1,token⟩
  inviterState := inviterState
  inviteeState := inviteeState
  joined := joined
  toInvitee := (congrArg control (withInFlight_inFlight _ rest)).trans toInvitee
  toInviter := toInviter

theorem Handshake.deliverInviter (h : Handshake inviter invitee s g) {g' : Progress}
    (use : g'.use = g.use) {rest : List Message} {p : Party} (kept : Kept p (g.use .inviter))
    (unused : ∀ x, (s.party .inviter).node.Unused x → p.node.Unused x)
    (token : g'.phase ≠ .idle → g'.token ∈ s.used ∧ g'.token ≠ invitee)
    (inviterState : InviterState inviter invitee p.core.controller g')
    (inviteeState : InviteeState inviter invitee ((s.party .invitee).withInFlight rest).core.controller g')
    (joined : Joined inviter invitee p ((s.party .invitee).withInFlight rest) s.offers g')
    (toInvitee : control p.inFlight =
      (if g'.phase = .invited then [.acceptInvitee ⟨g'.token,inviter⟩] else []) ++ g'.opened.map Join.response)
    (toInviter : control rest =
      (if g'.phase = .greeted then [.acceptInvitation ⟨g'.token,invitee⟩] else []) ++
        if g'.phase.connected then g'.waiting.map Request.message else []) :
    Handshake inviter invitee (delivered s .invitee rest p) g' where
  kept side := by
    rw [use]
    exact h.keptDelivered .invitee kept side
  unused := h.unusedDelivered .invitee unused
  ends := ⟨h.ends.1,token⟩
  inviterState := inviterState
  inviteeState := inviteeState
  joined := joined
  toInvitee := toInvitee
  toInviter := (congrArg control (withInFlight_inFlight _ rest)).trans toInviter

theorem users_append (messages messages' : List Message) :
    users (messages ++ messages') = users messages ++ users messages' := List.filterMap_append

theorem users_requests (requests : List Request) : users (requests.map Request.message) = [] := by
  rw [users,List.filterMap_eq_nil_iff]
  intro m member
  obtain ⟨r,_,rfl⟩ := List.mem_map.mp member
  rfl

theorem Handshake.greet (h : Handshake inviter invitee s g) (phase : g.phase = .invited)
    {rest : List Message} (quiet : control rest = [])
    (made : 0 < (s.party .invitee).core.controller.created) {p : Party}
    (ran : (s.party .invitee).receive (.acceptInvitee ⟨g.token,inviter⟩) = some p) :
    Handshake inviter invitee (delivered s .inviter rest p) { g with phase := .greeted } ∧
      Quiet (s.party .invitee) p (g.use .invitee) := by
  have state := h.inviteeState
  have peers := state.peers inviter
  have merges := state.merges
  have flight := h.toInviter
  obtain ⟨served,settled,opened⟩ := h.joined.early (by rw [phase]; simp)
  rw [phase] at merges flight
  simp only [phase,Phase.connected] at peers
  have channel := state.channel.resolve_left (by omega)
  have effect := NodeController.onAcceptInvitee_effect channel.2 peers (state.pending inviter) g.token
  obtain ⟨c,handled,same⟩ := Option.bind_eq_some_iff.mp ran
  cases same
  cases handled.symm.trans effect
  refine ⟨h.deliverInvitee (by rfl) (by exact (h.kept .invitee).congr rfl rfl rfl rfl rfl)
    (by exact fun _ unused => unused) (fun _ => h.ends.2 (by rw [phase]; simp)) ?_ ?_ ?_ ?_ ?_,
    rfl,rfl,?_,fun _ => .inl rfl⟩
  · have old := h.inviterState.withInFlight rest
    refine ⟨old.name,old.node,old.inviterName,?_,?_,?_,old.pending,fun _ => old.invited (.inl phase),
      fun same => (by cases same),?_⟩
    · simpa [phase] using old.created
    · simpa [phase,Progress.contact] using old.remote
    · simpa [phase] using old.peers
    · simpa [phase,Progress.contact] using old.reserved
  · refine ⟨state.name,state.node,rfl,.inr channel,fun _ => channel.1,?_,?_,state.pending,rfl⟩
    · intro _
      simp only [Party.withController,Function.update_self]
    · intro x
      change (AList.insert inviter 0 _).lookup x = _
      rw [Table.lookup_insert]
      simp only [Phase.connected,true_and]
      split
      · rfl
      · next other =>
        have none_else := state.peers x
        rw [if_neg (fun all => other all.2)] at none_else
        exact none_else
  · have old := h.joined
    refine ⟨fun _ => ⟨served,settled,opened⟩,old.requests,old.distinct,?_,old.reserved,old.matched,
      old.once,old.inviterPeer,old.inviteePeer,old.inviterOnly,old.inviteeOnly⟩
    intro name handle offer
    obtain ⟨_,front,behind,state⟩ := old.offered name handle offer
    have contact : ({ g with phase := .greeted } : Progress).contact invitee = g.contact invitee := by
      simp [Progress.contact,phase]
    rw [contact]
    exact ⟨by simp,front,behind,state⟩
  · rw [quiet,opened]
    rfl
  · simp only [Party.inFlight,Party.withController,Function.update_self]
    rw [merges,state.name]
    rw [Party.inFlight] at flight
    rw [control_append,flight]
    have requests : control (g.waiting.map Request.message) = g.waiting.map Request.message := by
      rw [control,List.filter_eq_self]
      intro m member
      obtain ⟨r,_,rfl⟩ := List.mem_map.mp member
      rfl
    exact congrArg (Message.acceptInvitation ⟨g.token,invitee⟩ :: ·) requests
  · simp only [Party.inFlight,Party.withController,Function.update_self]
    rw [merges,users_append]
    exact (congrArg (_ ++ ·) (users_requests g.waiting)).trans (List.append_nil _)

/-- The reservations of the token are those of the invitee from now on. -/
theorem Joined.admit {a a' b : Party} {offers : List UInt8 → Option MojoHandle}
    (old : Joined inviter invitee a b offers g) (phase : g.phase = .greeted) (node : a'.node = a.node)
    (ports : ∀ h, a'.portOf h = a.portOf h)
    (reservation : ∀ x name, a'.core.controller.reservation x name =
      if x = invitee then a.core.controller.reservation g.token name else none) :
    Joined inviter invitee a' b offers { g with phase := .accepted } := by
  have contact : g.contact invitee = g.token := by simp [Progress.contact,phase]
  refine ⟨fun early => absurd rfl early,old.requests,old.distinct,?_,?_,?_,old.once,?_,old.inviteePeer,?_,
    old.inviteeOnly⟩
  · intro name handle offer
    obtain ⟨_,front,behind,state⟩ := old.offered name handle offer
    refine ⟨by simp,front,(ports _).trans behind,state.imp (fun held => ?_) id⟩
    obtain ⟨unserved,ref,reserved⟩ := held
    refine ⟨unserved,ref,?_⟩
    rw [reservation,if_pos (by simp [Progress.contact]),← contact]
    exact reserved
  · intro x name ref reserved
    rw [reservation] at reserved
    split at reserved
    · obtain ⟨held,used,unserved,handle,front,offer,behind,peer⟩ := old.reserved g.token name ref reserved
      rw [node]
      exact ⟨held,used,unserved,handle,front,offer,(ports _).trans behind,peer⟩
    · contradiction
  · intro j member
    obtain ⟨r,handle,front,first,port,offer,behind,same⟩ := old.matched j member
    exact ⟨r,handle,front,first,port,offer,(ports _).trans behind,same⟩
  · rw [node]
    exact old.inviterPeer
  · rw [node]
    exact old.inviterOnly

theorem Handshake.admit (h : Handshake inviter invitee s g) (phase : g.phase = .greeted)
    {rest : List Message} (requests : control rest = g.waiting.map Request.message) {p : Party}
    (ran : (s.party .inviter).receive (.acceptInvitation ⟨g.token,invitee⟩) = some p) :
    Handshake inviter invitee (delivered s .invitee rest p) { g with phase := .accepted } ∧
      Quiet (s.party .inviter) p (g.use .inviter) := by
  have state := h.inviterState
  have sent : g.phase ≠ .idle := by rw [phase]; simp
  obtain ⟨_,stranger⟩ := h.ends.2 sent
  obtain ⟨served,settled,opened⟩ := h.joined.early (by rw [phase]; simp)
  have contact : g.contact invitee = g.token := by simp [Progress.contact,phase]
  have unknown : (s.party .inviter).core.controller.peers.lookup invitee = none := by
    rw [state.peers,phase]
    exact if_neg (by simp)
  have effect := NodeController.onAcceptInvitation_effect (state.invited (.inr phase)) unknown
    (state.pending invitee)
  obtain ⟨c,handled,same⟩ := Option.bind_eq_some_iff.mp ran
  cases same
  rw [state.remote sent,contact] at handled
  cases handled.symm.trans effect
  have renamed := NodeController.renameReserved_lookup g.token
    (state.reserved invitee (.inr (by rw [contact]; exact stranger.symm)))
  have elsewhere (x : NodeName) (other : x ≠ g.token) :
      (s.party .inviter).core.controller.reservedPorts.lookup x = none :=
    state.reserved x (.inr (by rw [contact]; exact other))
  refine ⟨h.deliverInviter (by rfl) (by exact (h.kept .inviter).congr rfl rfl rfl rfl rfl)
    (by exact fun _ unused => unused) (fun _ => h.ends.2 sent) ?_ ?_ ?_ ?_ ?_,
    rfl,rfl,?_,fun _ => .inl rfl⟩
  · refine ⟨state.name,state.node,state.inviterName,?_,?_,?_,state.pending,?_,fun same => (by cases same),?_⟩
    · have created := state.created
      rw [phase] at created
      exact created
    · intro _
      simp only [Party.withController,Function.update_self,Progress.contact,if_true]
    · intro x
      change (AList.insert invitee 0 _).lookup x = _
      rw [Table.lookup_insert]
      simp only [true_and]
      split
      · rfl
      · rw [state.peers,phase]
        exact if_neg (by simp)
    · intro early
      simp at early
    · intro x other
      have other' : x ≠ invitee := other.resolve_left (by simp)
      change (NodeController.renameReserved _ g.token invitee).lookup x = none
      rw [renamed,if_neg other']
      split
      · rfl
      · next other => exact elsewhere x other
  · have old := h.inviteeState.withInFlight rest
    refine ⟨old.name,old.node,?_,old.channel,?_,?_,?_,old.pending,?_⟩
    · simpa [phase,Phase.connected] using old.inviterName
    · intro _
      exact old.met (by rw [phase]; rfl)
    · intro _
      exact old.remote (by rw [phase]; rfl)
    · simpa [phase,Phase.connected] using old.peers
    · simpa [phase,Phase.connected] using old.merges
  · have sent : Joined inviter invitee (s.party .inviter) ((s.party .invitee).withInFlight rest) s.offers g :=
      h.joined.congrInvitee rfl rfl
    refine sent.admit phase rfl (fun _ => rfl) fun x name => ?_
    unfold NodeController.reservation
    change ((NodeController.renameReserved _ g.token invitee).lookup x).bind _ = _
    rw [renamed]
    by_cases here : x = invitee
    · rw [if_pos here,here,if_neg stranger.symm,if_pos rfl]
      rfl
    · rw [if_neg here,if_neg here]
      split
      · rfl
      · next other =>
        rw [elsewhere x other]
        rfl
  · simp only [Party.inFlight,Party.withController,Function.update_self]
    have flight := h.toInvitee
    rw [opened,phase] at flight
    rw [opened]
    exact flight
  · exact requests
  · simp only [Party.inFlight,Party.withController,Function.update_self]

theorem rejoins_quiet {n t : Node} {p0 p1 port : PortName} {ptr0 : PortPtr} {node : NodeName}
    {use : PortName → Use} (effect : Node.Rejoins n t p0 ptr0 p1 node port) (hidden : use p1 ≠ .front)
    (x : PortName) : t.queueOf x = n.queueOf x ∨ (t.queueOf x = [] ∧ use x ≠ .front) := by
  rw [effect.queueOf]
  split
  · next gone => exact .inr ⟨rfl,gone ▸ hidden⟩
  · exact .inl rfl

/-- The port that the first response is for has not been joined before, so its mate is still
there, and no settled join is of either. -/
theorem Joined.homely {a b : Party} {offers : List UInt8 → Option MojoHandle}
    (old : Joined inviter invitee a b offers g) (kept : Kept b (g.use .invitee)) (name : b.node.name = invitee)
    (distinct : inviter ≠ invitee) {j : Join} {rest : List Join} (opened : g.opened = j::rest) :
    ∃ q, b.node.peerOf j.invitee = some (b.node.name,q) ∧ g.use .invitee q = .asked ∧
      ∀ j' ∈ g.settled, j'.invitee ≠ q ∧ j'.invitee ≠ j.invitee := by
  have member : j ∈ g.joins := by simp [Progress.joins,opened]
  obtain ⟨r,handle,front,first,port,_⟩ := old.matched j member
  have served : r ∈ g.served := List.mem_of_find?_eq_some first
  obtain ⟨used,_,⟨⟨node,q⟩,live⟩,asked⟩ := kept.requests r (by
    rw [old.requests]
    exact List.mem_append_left _ served)
  rw [port] at live asked
  have here : node = invitee := by
    refine (old.inviteeOnly _ node q live).resolve_right ?_
    intro both
    have before := both.2
    have once := old.once
    rw [Progress.joins,opened,List.map_append,List.nodup_append] at once
    exact once.2.2 _ (List.mem_map_of_mem before) _ (List.mem_map_of_mem List.mem_cons_self) rfl
  have homely : b.node.peerOf j.invitee = some (b.node.name,q) := by rw [live,here,name]
  have back := kept.wired.mutual homely
  refine ⟨q,homely,asked q homely,fun j' before => ?_⟩
  have peer := old.inviteePeer j' before
  constructor
  · intro same
    rw [same,back,name] at peer
    exact distinct (congrArg Prod.fst (Option.some.inj peer)).symm
  · intro same
    rw [same,homely,name] at peer
    exact distinct (congrArg Prod.fst (Option.some.inj peer)).symm

theorem Joined.settle {a b b' : Party} {offers : List UInt8 → Option MojoHandle}
    (old : Joined inviter invitee a b offers g) (phase : g.phase = .accepted) (wired : b.node.Wired)
    {j : Join} {rest : List Join} (opened : g.opened = j::rest) {q : PortName} {ptr ptr' : PortPtr}
    (mates : Node.Mates b.node j.invitee ptr q ptr')
    (effect : Node.Rejoins b.node b'.node j.invitee ptr q inviter j.inviter)
    (others : ∀ j' ∈ g.settled, j'.invitee ≠ q ∧ j'.invitee ≠ j.invitee) (requests : b'.requests = b.requests) :
    Joined inviter invitee a b' offers { g with settled := g.settled ++ [j], opened := rest } := by
  have joins : ({ g with settled := g.settled ++ [j], opened := rest } : Progress).joins = g.joins := by
    simp [Progress.joins,opened]
  have peers := effect.peerOf wired mates
  refine ⟨fun early => absurd phase early,requests.trans old.requests,old.distinct,?_,old.reserved,?_,?_,?_,
    ?_,?_,?_⟩
  · rw [joins]
    exact old.offered
  · rw [joins]
    exact old.matched
  · rw [joins]
    exact old.once
  · rw [joins]
    exact old.inviterPeer
  · intro j' member
    obtain before | now := List.mem_append.mp member
    · obtain ⟨notMate,notSelf⟩ := others j' before
      rw [peers,if_neg notMate,if_neg notSelf]
      exact old.inviteePeer j' before
    · cases List.mem_singleton.mp now
      rw [peers,if_neg mates.distinct,if_pos rfl]
  · rw [joins]
    exact old.inviterOnly
  · intro p x q' peer
    rw [peers] at peer
    split at peer
    · contradiction
    · split at peer
      · next self =>
        cases peer
        subst self
        exact .inr ⟨rfl,List.mem_append_right _ List.mem_cons_self⟩
      · exact (old.inviteeOnly p x q' peer).imp id (And.imp_right (List.mem_append_left _))

theorem Handshake.settle (h : Handshake inviter invitee s g) (distinct : inviter ≠ invitee)
    (phase : g.phase = .accepted) {j : Join} {rest' : List Join} (opened : g.opened = j::rest')
    {rest : List Message} (responses : control rest = rest'.map Join.response) {p : Party}
    (ran : (s.party .invitee).receive j.response = some p) :
    Handshake inviter invitee (delivered s .inviter rest p)
        { g with settled := g.settled ++ [j], opened := rest' } ∧
      Quiet (s.party .invitee) p (g.use .invitee) := by
  have state := h.inviteeState
  have kept := h.kept .invitee
  have met : g.phase.connected = true := by rw [phase]; rfl
  have name : (s.party .invitee).node.name = invitee := state.node
  obtain ⟨q,homely,mateUse,others⟩ := h.joined.homely kept name distinct opened
  obtain ⟨ptr,ptr',mates⟩ := kept.wired.mates homely
  have remote : inviter ≠ (s.party .invitee).node.name := name.symm ▸ distinct
  obtain ⟨t,merged,effect⟩ := Node.mergePortsResponse_rejoins mates remote j.inviter
  obtain ⟨c,handled,same⟩ := Option.bind_eq_some_iff.mp ran
  cases same
  rw [state.remote met] at handled
  have merges : (s.party .invitee).core.controller.onMessage inviter j.response =
      some { (s.party .invitee).core.controller with node := t } := by
    change ((s.party .invitee).node.mergePortsResponse j.invitee inviter j.inviter).bind _ = _
    rw [merged]
    rfl
  cases handled.symm.trans merges
  refine ⟨h.deliverInvitee (by rfl)
    (kept.rejoin mates effect remote (by rw [mateUse]; simp) (by rw [mateUse]; simp))
    (fun x unused => effect.unused unused) h.ends.2 ?_ ?_ ?_ ?_ ?_,rfl,rfl,rfl,?_⟩
  · have old := h.inviterState.withInFlight rest
    exact ⟨old.name,old.node,old.inviterName,old.created,old.remote,old.peers,old.pending,old.invited,
      old.uninvited,old.reserved⟩
  · exact ⟨state.name,effect.name.trans state.node,state.inviterName,state.channel,state.met,state.remote,
      state.peers,state.pending,state.merges⟩
  · have sent : Joined inviter invitee ((s.party .inviter).withInFlight rest) (s.party .invitee) s.offers g :=
      h.joined.congrInviter rfl (fun _ => rfl) rfl
    refine sent.settle phase kept.wired opened mates ?_ others rfl
    exact effect
  · rw [responses,phase]
    rfl
  · exact h.toInviter
  · exact rejoins_quiet effect (by rw [mateUse]; simp)

theorem firstFor_append (served : List Request) (r : Request) (name : List UInt8) :
    firstFor (served ++ [r]) name = (firstFor served name).or (if r.name = name then some r else none) := by
  unfold firstFor
  rw [List.find?_append,List.find?_singleton]
  congr 1
  by_cases same : r.name = name <;> simp [same]

theorem firstFor_append_some {served : List Request} {r' : Request} {name : List UInt8}
    (first : firstFor served name = some r') (r : Request) : firstFor (served ++ [r]) name = some r' := by
  rw [firstFor_append,first]
  rfl

theorem firstFor_append_none {served : List Request} {name : List UInt8}
    (unserved : firstFor served name = none) {r : Request} (other : r.name ≠ name) :
    firstFor (served ++ [r]) name = none := by
  rw [firstFor_append,unserved,if_neg other]
  rfl

theorem InviterState.elsewhere {c : NodeController} (state : InviterState inviter invitee c g)
    {x : NodeName} {name : List UInt8} {ref : PortRef} (found : c.reservation x name = some ref) :
    x = g.contact invitee := by
  by_contra other
  unfold NodeController.reservation NodeController.reservedFor at found
  rw [state.reserved x (.inr other)] at found
  contradiction

/-- A request for a name that is not reserved any more, or never was, changes no port. -/
theorem Handshake.ignore (h : Handshake inviter invitee s g) (phase : g.phase = .accepted) {r : Request}
    {later : List Request} (waiting : g.waiting = r::later) {rest : List Message}
    (requests : control rest = later.map Request.message) {p : Party}
    (ran : (s.party .inviter).receive r.message = some p)
    (nothing : (s.party .inviter).core.controller.reservation invitee r.name = none) :
    Handshake inviter invitee (delivered s .invitee rest p)
        { g with served := g.served ++ [r], waiting := later } ∧
      Quiet (s.party .inviter) p (g.use .inviter) := by
  have state := h.inviterState
  have old := h.joined
  have contact : g.contact invitee = invitee := by simp [Progress.contact,phase]
  obtain ⟨c,handled,same⟩ := Option.bind_eq_some_iff.mp ran
  cases same
  rw [state.remote (by rw [phase]; simp),contact] at handled
  have ignored : (s.party .inviter).core.controller.onMessage invitee r.message =
      some (s.party .inviter).core.controller := by
    change (s.party .inviter).core.controller.onRequestPortMerge invitee r.port r.name = _
    unfold NodeController.onRequestPortMerge
    rw [NodeController.takeReserved_none.mpr nothing]
  cases handled.symm.trans ignored
  have others (name : List UInt8) (ref : PortRef)
      (found : (s.party .inviter).core.controller.reservation invitee name = some ref) : r.name ≠ name := by
    intro same
    rw [← same,nothing] at found
    contradiction
  refine ⟨h.deliverInviter (by rfl) (by exact h.kept .inviter) (by exact fun _ unused => unused) h.ends.2
    ?_ ?_ ?_ ?_ ?_,rfl,rfl,rfl,fun _ => .inl rfl⟩
  · exact ⟨state.name,state.node,state.inviterName,state.created,state.remote,state.peers,state.pending,
      state.invited,state.uninvited,state.reserved⟩
  · have old := h.inviteeState.withInFlight rest
    have merges := old.merges
    rw [phase] at merges
    exact ⟨old.name,old.node,old.inviterName,old.channel,old.met,old.remote,old.peers,old.pending,
      by rw [phase]; exact merges⟩
  · have split : (g.served ++ [r]) ++ later = g.served ++ g.waiting := by
      rw [List.append_assoc,waiting]
      rfl
    refine ⟨fun early => absurd phase early,?_,?_,?_,?_,?_,old.once,old.inviterPeer,old.inviteePeer,
      old.inviterOnly,old.inviteeOnly⟩
    · exact old.requests.trans split.symm
    · dsimp only
      rw [split]
      exact old.distinct
    · intro name handle offer
      obtain ⟨sent,front,behind,⟨unserved,ref,reserved⟩ | ⟨r',first,join⟩⟩ := old.offered name handle offer
      · refine ⟨sent,front,behind,.inl ⟨firstFor_append_none unserved ?_,ref,reserved⟩⟩
        exact others name ref (contact ▸ reserved)
      · exact ⟨sent,front,behind,.inr ⟨r',firstFor_append_some first r,join⟩⟩
    · intro x name ref reserved
      obtain ⟨held,used,unserved,more⟩ := old.reserved x name ref reserved
      have here := state.elsewhere reserved
      rw [contact] at here
      exact ⟨held,used,firstFor_append_none unserved (others name ref (here ▸ reserved)),more⟩
    · intro j member
      obtain ⟨r',handle,front,first,more⟩ := old.matched j member
      exact ⟨r',handle,front,firstFor_append_some first r,more⟩
  · exact h.toInvitee
  · rw [requests,phase]
    rfl

/-- A waiting request is from a port that no join has yet. -/
theorem Joined.unjoined {a b : Party} {offers : List UInt8 → Option MojoHandle}
    (joined : Joined inviter invitee a b offers g) {r : Request} (member : r ∈ g.waiting) :
    r.port ∉ g.joins.map Join.invitee := by
  intro known
  obtain ⟨j,earlier,same⟩ := List.mem_map.mp known
  obtain ⟨r',_,_,first,port,_⟩ := joined.matched j earlier
  have served : r' ∈ g.served := List.mem_of_find?_eq_some first
  have apart := joined.distinct
  rw [List.map_append,List.nodup_append] at apart
  exact apart.2.2 r'.port (List.mem_map_of_mem served) r.port (List.mem_map_of_mem member) (port.trans same)

/-- The first request waiting is for the port of `ref`, whose mate `front` is behind the handle
offered under its name, and `a'` is `a` with the two joined. -/
structure Serving (inviter invitee : NodeName) (a a' : Party) (offers : List UInt8 → Option MojoHandle)
    (g : Progress) (r : Request) (later : List Request) (ref front : PortRef) (handle : MojoHandle)
    (ptr0 ptr1 : PortPtr) : Prop where
  name : a.node.name = inviter
  distinct : inviter ≠ invitee
  kept : Kept a (g.use .inviter)
  waiting : g.waiting = r::later
  used : g.use .inviter ref.name = .reserved r.name
  unserved : firstFor g.served r.name = none
  offer : offers r.name = some handle
  behind : a.portOf handle = some front
  mates : Node.Mates a.node front.name ptr0 ref.name ptr1
  effect : Node.Rejoins a.node a'.node front.name ptr0 ref.name invitee r.port
  ports : ∀ h, a'.portOf h = a.portOf h
  reservation : ∀ x name, a'.core.controller.reservation x name =
    if x = invitee ∧ name = r.name then none else a.core.controller.reservation x name
  elsewhere : ∀ x name ref, a.core.controller.reservation x name = some ref → x = invitee

namespace Serving
variable {a a' b : Party} {offers : List UInt8 → Option MojoHandle} {r : Request} {later : List Request}
  {ref front : PortRef} {handle : MojoHandle} {ptr0 ptr1 : PortPtr}

theorem peers (serving : Serving inviter invitee a a' offers g r later ref front handle ptr0 ptr1)
    (p : PortName) : a'.node.peerOf p =
      if p = ref.name then none else if p = front.name then some (invitee,r.port) else a.node.peerOf p :=
  serving.effect.peerOf serving.kept.wired serving.mates p

theorem served (serving : Serving inviter invitee a a' offers g r later ref front handle ptr0 ptr1) :
    firstFor (g.served ++ [r]) r.name = some r := by
  rw [firstFor_append,serving.unserved,if_pos rfl]
  rfl

/-- The two ports had each other as peers, so neither has been joined before. -/
theorem before (serving : Serving inviter invitee a a' offers g r later ref front handle ptr0 ptr1)
    (old : Joined inviter invitee a b offers g) {j : Join} (member : j ∈ g.joins) :
    j.inviter ≠ ref.name ∧ j.inviter ≠ front.name := by
  have joined := old.inviterPeer j member
  constructor
  · intro same
    rw [same,serving.mates.symm.peer,serving.name] at joined
    exact serving.distinct (congrArg Prod.fst (Option.some.inj joined))
  · intro same
    rw [same,serving.mates.peer,serving.name] at joined
    exact serving.distinct (congrArg Prod.fst (Option.some.inj joined))

/-- The name that is served now gets its join, and the others keep what they have. -/
theorem offered (serving : Serving inviter invitee a a' offers g r later ref front handle ptr0 ptr1)
    (old : Joined inviter invitee a b offers g) (name : List UInt8) (h : MojoHandle)
    (offer : offers name = some h) :
    g.phase ≠ .idle ∧ ∃ front', a'.portOf h = some front' ∧
      ((firstFor (g.served ++ [r]) name = none ∧
          ∃ ref', a'.core.controller.reservation (g.contact invitee) name = some ref') ∨
        ∃ r', firstFor (g.served ++ [r]) name = some r' ∧
          ⟨front'.name,r'.port⟩ ∈ g.joins ++ [⟨front.name,r.port⟩]) := by
  obtain ⟨sent,front',behind,⟨unserved,ref',reserved⟩ | ⟨r',first,join⟩⟩ := old.offered name h offer
  · refine ⟨sent,front',(serving.ports _).trans behind,?_⟩
    by_cases same : r.name = name
    · subst same
      cases serving.offer.symm.trans offer
      cases serving.behind.symm.trans behind
      exact .inr ⟨r,serving.served,List.mem_append_right _ List.mem_cons_self⟩
    · refine .inl ⟨firstFor_append_none unserved same,ref',?_⟩
      rw [serving.reservation,if_neg (fun all => same all.2.symm)]
      exact reserved
  · exact ⟨sent,front',(serving.ports _).trans behind,.inr ⟨r',firstFor_append_some first r,
      List.mem_append_left _ join⟩⟩

/-- What is still reserved is neither of the two ports. -/
theorem reserved (serving : Serving inviter invitee a a' offers g r later ref front handle ptr0 ptr1)
    (old : Joined inviter invitee a b offers g) (x : NodeName) (name : List UInt8) (ref' : PortRef)
    (found : a'.core.controller.reservation x name = some ref') :
    a'.node.Holds ref' ∧ g.use .inviter ref'.name = .reserved name ∧
      firstFor (g.served ++ [r]) name = none ∧
      ∃ h front', offers name = some h ∧ a'.portOf h = some front' ∧
        a'.node.peerOf ref'.name = some (inviter,front'.name) := by
  rw [serving.reservation] at found
  split at found
  · contradiction
  · next other =>
    obtain ⟨held,used,unserved,h,front',offer,behind,peer⟩ := old.reserved x name ref' found
    have differs : r.name ≠ name := fun same => other ⟨serving.elsewhere x name ref' found,same.symm⟩
    have notBack : ref'.name ≠ ref.name := by
      intro same
      rw [same,serving.used] at used
      exact differs (Use.reserved.inj used)
    have notFront : ref'.name ≠ front.name := by
      intro same
      rw [same,(serving.kept.pipes handle front serving.behind).2] at used
      contradiction
    refine ⟨serving.effect.holds held notBack,used,firstFor_append_none unserved differs,h,front',offer,
      (serving.ports _).trans behind,?_⟩
    rw [serving.peers,if_neg notBack,if_neg notFront,peer]

theorem matched (serving : Serving inviter invitee a a' offers g r later ref front handle ptr0 ptr1)
    (old : Joined inviter invitee a b offers g) {j : Join} (member : j ∈ g.joins ++ [⟨front.name,r.port⟩]) :
    ∃ r' h front', firstFor (g.served ++ [r]) r'.name = some r' ∧ r'.port = j.invitee ∧
      offers r'.name = some h ∧ a'.portOf h = some front' ∧ front'.name = j.inviter := by
  obtain earlier | now := List.mem_append.mp member
  · obtain ⟨r',h,front',first,port,offer,behind,same⟩ := old.matched j earlier
    exact ⟨r',h,front',firstFor_append_some first r,port,offer,(serving.ports _).trans behind,same⟩
  · cases List.mem_singleton.mp now
    exact ⟨r,handle,front,serving.served,rfl,serving.offer,(serving.ports _).trans serving.behind,rfl⟩

theorem inviterPeer (serving : Serving inviter invitee a a' offers g r later ref front handle ptr0 ptr1)
    (old : Joined inviter invitee a b offers g) {j : Join} (member : j ∈ g.joins ++ [⟨front.name,r.port⟩]) :
    a'.node.peerOf j.inviter = some (invitee,j.invitee) := by
  obtain earlier | now := List.mem_append.mp member
  · obtain ⟨notBack,notFront⟩ := serving.before old earlier
    rw [serving.peers,if_neg notBack,if_neg notFront]
    exact old.inviterPeer j earlier
  · cases List.mem_singleton.mp now
    rw [serving.peers,if_neg serving.mates.distinct,if_pos rfl]

theorem inviterOnly (serving : Serving inviter invitee a a' offers g r later ref front handle ptr0 ptr1)
    (old : Joined inviter invitee a b offers g) {p q : PortName} {x : NodeName}
    (peer : a'.node.peerOf p = some (x,q)) :
    x = inviter ∨ (x = invitee ∧ ⟨p,q⟩ ∈ g.joins ++ [⟨front.name,r.port⟩]) := by
  rw [serving.peers] at peer
  split at peer
  · contradiction
  · split at peer
    · next self =>
      cases peer
      subst self
      exact .inr ⟨rfl,List.mem_append_right _ List.mem_cons_self⟩
    · exact (old.inviterOnly p x q peer).imp id (And.imp_right (List.mem_append_left _))

end Serving

theorem Joined.serve {a a' b : Party} {offers : List UInt8 → Option MojoHandle}
    (old : Joined inviter invitee a b offers g) (phase : g.phase = .accepted) {r : Request}
    {later : List Request} {ref front : PortRef} {handle : MojoHandle} {ptr0 ptr1 : PortPtr}
    (serving : Serving inviter invitee a a' offers g r later ref front handle ptr0 ptr1) :
    Joined inviter invitee a' b offers { g with
      served := g.served ++ [r]
      waiting := later
      opened := g.opened ++ [⟨front.name,r.port⟩] } := by
  have joins : ({ g with
      served := g.served ++ [r]
      waiting := later
      opened := g.opened ++ [⟨front.name,r.port⟩] } : Progress).joins =
        g.joins ++ [⟨front.name,r.port⟩] := (List.append_assoc ..).symm
  have split : (g.served ++ [r]) ++ later = g.served ++ g.waiting := by
    rw [List.append_assoc,serving.waiting]
    rfl
  refine ⟨fun early => absurd phase early,old.requests.trans split.symm,?_,?_,serving.reserved old,?_,?_,?_,
    old.inviteePeer,?_,old.inviteeOnly⟩
  · dsimp only
    rw [split]
    exact old.distinct
  · rw [joins]
    exact serving.offered old
  · rw [joins]
    exact fun j => serving.matched old
  · rw [joins,List.map_append,List.nodup_append]
    refine ⟨old.once,List.nodup_singleton _,?_⟩
    intro port member port' member' same
    rw [List.map_singleton,List.mem_singleton] at member'
    refine old.unjoined (r := r) (by rw [serving.waiting]; exact List.mem_cons_self) ?_
    have here : port = r.port := same.trans member'
    exact here ▸ member
  · rw [joins]
    exact fun j => serving.inviterPeer old
  · rw [joins]
    exact fun p x q => serving.inviterOnly old

/-- The first request for a name joins the port that is reserved under it. -/
theorem Handshake.serve (h : Handshake inviter invitee s g) (distinct : inviter ≠ invitee)
    (phase : g.phase = .accepted) {r : Request} {later : List Request} (waiting : g.waiting = r::later)
    {rest : List Message} (requests : control rest = later.map Request.message) {p : Party}
    (ran : (s.party .inviter).receive r.message = some p) {ref : PortRef} {left : Table NodeName PortMap}
    (taken : NodeController.takeReserved (s.party .inviter).core.controller.reservedPorts invitee r.name =
      some (ref,left)) :
    ∃ j, Handshake inviter invitee (delivered s .invitee rest p)
        { g with served := g.served ++ [r], waiting := later, opened := g.opened ++ [j] } ∧
      Quiet (s.party .inviter) p (g.use .inviter) := by
  have state := h.inviterState
  have old := h.joined
  have kept := h.kept .inviter
  have name : (s.party .inviter).node.name = inviter := state.node
  have contact : g.contact invitee = invitee := by simp [Progress.contact,phase]
  obtain ⟨held,used,unserved,handle,front,offer,behind,peer⟩ :=
    old.reserved invitee r.name ref (NodeController.takeReserved_some taken)
  rw [← name] at peer
  obtain ⟨ptr1,ptr0,mates⟩ := kept.wired.mates peer
  have remote : invitee ≠ (s.party .inviter).node.name := by
    rw [name]
    exact distinct.symm
  obtain ⟨t,merged,effect⟩ := Node.mergePorts_rejoins mates.symm remote r.port
  have whole : ref = ⟨ref.name,some ptr1⟩ := by
    obtain ⟨ptr,real,live⟩ := held
    rw [mates.live0] at live
    cases live
    rw [← real]
  rw [← whole] at merged
  have known : (s.party .inviter).core.controller.peers.lookup invitee = some 0 := by
    rw [state.peers,if_pos ⟨phase,rfl⟩]
  have handles := NodeController.onRequestPortMerge_effect taken merged known
  obtain ⟨c,handled,same⟩ := Option.bind_eq_some_iff.mp ran
  cases same
  rw [state.remote (by rw [phase]; simp),contact] at handled
  cases handled.symm.trans handles
  obtain ⟨reservation,lookups⟩ := NodeController.takeReserved_rest taken
  have keptJoin := kept.rejoin mates.symm effect remote (by rw [used]; simp) (by rw [used]; simp)
  refine ⟨⟨front.name,r.port⟩,h.deliverInviter (by rfl) (by exact keptJoin.congr rfl rfl rfl rfl rfl)
    (by exact fun x unused => effect.unused unused) h.ends.2 ?_ ?_ ?_ ?_ ?_,rfl,rfl,?_,
    rejoins_quiet effect (by rw [used]; simp)⟩
  · refine ⟨state.name,effect.name.trans state.node,state.inviterName,state.created,?_,state.peers,
      state.pending,state.invited,state.uninvited,?_⟩
    · intro sent
      simp only [Party.withController,NodeController.sendChannelMessage,Function.update_self]
      exact state.remote sent
    · intro x elsewhere
      have other : x ≠ invitee := by
        have other := elsewhere.resolve_left (by rw [phase]; simp)
        rw [Progress.contact,phase] at other
        exact other
      refine (lookups x other).trans (state.reserved x (.inr ?_))
      rw [contact]
      exact other
  · have old := h.inviteeState.withInFlight rest
    have merges := old.merges
    rw [phase] at merges
    exact ⟨old.name,old.node,old.inviterName,old.channel,old.met,old.remote,old.peers,old.pending,
      by rw [phase]; exact merges⟩
  · have sent : Joined inviter invitee (s.party .inviter) ((s.party .invitee).withInFlight rest) s.offers g :=
      old.congrInvitee rfl rfl
    exact sent.serve phase ⟨name,distinct,kept,waiting,used,unserved,offer,behind,mates.symm,effect,fun _ => rfl,
      reservation,fun x name ref found => (state.elsewhere found).trans contact⟩
  · have flight := h.toInvitee
    simp only [Party.inFlight,Party.withController,NodeController.sendChannelMessage,Function.update_self,
      control_append]
    rw [Party.inFlight] at flight
    rw [flight,phase,List.map_append]
    rfl
  · rw [requests,phase]
    rfl
  · simp only [Party.inFlight,Party.withController,NodeController.sendChannelMessage,Function.update_self,
      users_append]
    exact List.append_nil _

structure Progress.Below (g g' : Progress) : Prop where
  settled : ∀ j ∈ g.settled, j ∈ g'.settled
  joins : ∀ j ∈ g.joins, j ∈ g'.joins

theorem Progress.SameJoins.below {g g' : Progress} (same : g.SameJoins g') : g.Below g' where
  settled j member := by
    rw [same.1]
    exact member
  joins j member := by
    rw [Progress.joins,same.1,same.2]
    exact member

theorem Handshake.pop (h : Handshake inviter invitee s g) {side : Side} {message : UserMessage}
    {rest : List Message} (flight : (s.party side).inFlight = .userMessage message::rest) :
    Handshake inviter invitee (s.setParty side ((s.party side).withInFlight rest)) g := by
  have kept : Kept ((s.party side).withInFlight rest) (g.use side) :=
    (h.kept side).congr rfl rfl rfl rfl rfl
  have left : control ((s.party side).withInFlight rest).inFlight = control (s.party side).inFlight := by
    rw [withInFlight_inFlight,flight]
    rfl
  cases side with
  | inviter =>
    exact ⟨h.keptSet kept,h.unusedSet rfl,h.ends,h.inviterState.withInFlight rest,h.inviteeState,
      h.joined.congrInviter rfl (fun _ => rfl) rfl,left.trans h.toInvitee,h.toInviter⟩
  | invitee =>
    exact ⟨h.keptSet kept,h.unusedSet rfl,h.ends,h.inviterState,h.inviteeState.withInFlight rest,
      h.joined.congrInvitee rfl rfl,h.toInvitee,left.trans h.toInviter⟩

/-- What the party that a user message reached does with it. -/
def Accepts (p t : Party) (message : UserMessage) : Prop :=
  ∃ ptr, p.node.ports.lookup message.toPortName = some (some ptr) ∧
    t = p.withController { p.core.controller with
      node := p.node.setQueue ptr ((p.node.objects ptr).messageQueue.acceptMessage message).1 }

theorem Handshake.deliverUser (h : Handshake inviter invitee s g) {sender : Side} {message : UserMessage}
    {rest : List Message} (flight : (s.party sender).inFlight = .userMessage message::rest) {p : Party}
    (ran : (s.party sender.other).receive (.userMessage message) = some p) :
    ∃ g', Handshake inviter invitee (delivered s sender rest p) g' ∧ g.SameJoins g' ∧
      Accepts (s.party sender.other) p message := by
  obtain ⟨c,handled,same⟩ := Option.bind_eq_some_iff.mp ran
  cases same
  obtain ⟨node,accepted,same⟩ := Option.bind_eq_some_iff.mp handled
  cases same
  obtain ⟨ptr,live,rfl⟩ := Node.onUserMessage_some accepted
  have popped := h.pop flight
  have other : (s.setParty sender ((s.party sender).withInFlight rest)).party sender.other =
      s.party sender.other := by
    cases sender <;> rfl
  have kept := popped.kept sender.other
  rw [other] at kept
  obtain ⟨keptQueue,growsQueue⟩ := kept.setQueue ptr
    (((s.party sender.other).node.objects ptr).messageQueue.acceptMessage message).1
  rw [← other] at growsQueue keptQueue
  obtain ⟨g',next,joins⟩ := popped.growSame keptQueue growsQueue rfl
    (fun x unused => unused.setQueue _ _) rfl rfl rfl
  rw [other] at next
  exact ⟨g',next,joins,ptr,live,rfl⟩

/-- A control message for the invitee is the invitation, or the response to the first join that
is not settled. -/
theorem Handshake.controlsInvitee (h : Handshake inviter invitee s g) (distinct : inviter ≠ invitee)
    {message : Message} {rest : List Message} (first : control (s.party .inviter).inFlight = message::control rest)
    (made : 0 < (s.party .invitee).core.controller.created) {p : Party}
    (received : (s.party .invitee).receive message = some p) :
    ∃ g', Handshake inviter invitee (delivered s .inviter rest p) g' ∧ g.Below g' ∧
      Quiet (s.party .invitee) p (g.use .invitee) := by
  have early := h.joined.early
  have expected := h.toInvitee
  rw [first] at expected
  by_cases phase : g.phase = .invited
  · obtain ⟨_,_,opened⟩ := early (by rw [phase]; simp)
    rw [if_pos phase,opened] at expected
    obtain ⟨rfl,quiet⟩ := List.cons.inj expected
    obtain ⟨next,calm⟩ := h.greet phase quiet made received
    exact ⟨_,next,Progress.SameJoins.below ⟨rfl,rfl⟩,calm⟩
  · rw [if_neg phase,List.nil_append] at expected
    cases opened : g.opened with
    | nil =>
      rw [opened] at expected
      contradiction
    | cons j later =>
      rw [opened] at expected
      obtain ⟨rfl,responses⟩ := List.cons.inj expected
      have accepted : g.phase = .accepted := by
        by_contra other
        rw [(early other).2.2] at opened
        contradiction
      obtain ⟨next,calm⟩ := h.settle distinct accepted opened responses received
      refine ⟨_,next,⟨fun _ before => List.mem_append_left _ before,?_⟩,calm⟩
      intro j' member
      simpa [Progress.joins,opened] using member

/-- A control message for the inviter is the answer to the invitation, or the first request
that waits. -/
theorem Handshake.controlsInviter (h : Handshake inviter invitee s g) (distinct : inviter ≠ invitee)
    {message : Message} {rest : List Message} (first : control (s.party .invitee).inFlight = message::control rest)
    {p : Party} (received : (s.party .inviter).receive message = some p) :
    ∃ g', Handshake inviter invitee (delivered s .invitee rest p) g' ∧ g.Below g' ∧
      Quiet (s.party .inviter) p (g.use .inviter) := by
  have expected := h.toInviter
  rw [first] at expected
  cases phase : g.phase with
  | idle =>
    rw [phase] at expected
    contradiction
  | invited =>
    rw [phase] at expected
    contradiction
  | greeted =>
    rw [phase] at expected
    obtain ⟨rfl,requests⟩ := List.cons.inj expected
    obtain ⟨next,calm⟩ := h.admit phase requests received
    exact ⟨_,next,Progress.SameJoins.below ⟨rfl,rfl⟩,calm⟩
  | accepted =>
    rw [phase] at expected
    cases waiting : g.waiting with
    | nil =>
      rw [waiting] at expected
      contradiction
    | cons r later =>
      rw [waiting] at expected
      obtain ⟨rfl,requests⟩ := List.cons.inj expected
      cases taken : NodeController.takeReserved (s.party .inviter).core.controller.reservedPorts invitee r.name with
      | none =>
        obtain ⟨next,calm⟩ := h.ignore phase waiting requests received
          (NodeController.takeReserved_none.mp taken)
        exact ⟨_,next,Progress.SameJoins.below ⟨rfl,rfl⟩,calm⟩
      | some pair =>
        obtain ⟨j,next,calm⟩ := h.serve distinct phase waiting requests received taken
        refine ⟨_,next,⟨fun _ before => before,?_⟩,calm⟩
        intro j' member
        rw [Progress.joins,← List.append_assoc]
        exact List.mem_append_left _ member

theorem Handshake.deliver (h : Handshake inviter invitee s g) (distinct : inviter ≠ invitee)
    {sender : Side} {t : System} (ran : s.stepDeliver sender = some t) :
    ∃ message rest p g', (s.party sender).inFlight = message::rest ∧ t = delivered s sender rest p ∧
      Handshake inviter invitee t g' ∧ g.Below g' ∧
      ((isControl message = true ∧ Quiet (s.party sender.other) p (g.use sender.other)) ∨
        ∃ m, message = .userMessage m ∧ Accepts (s.party sender.other) p m) := by
  unfold System.stepDeliver at ran
  split at ran
  · contradiction
  · next message rest flight =>
    split at ran
    · next made =>
      obtain ⟨p,received,same⟩ := Option.bind_eq_some_iff.mp ran
      cases same
      by_cases ctl : isControl message = true
      · have first : control (s.party sender).inFlight = message::control rest := by
          rw [flight,control,List.filter_cons_of_pos ctl]
          rfl
        cases sender with
        | inviter =>
          obtain ⟨g',next,below,calm⟩ := h.controlsInvitee distinct first made received
          exact ⟨_,rest,p,g',flight,rfl,next,below,.inl ⟨ctl,calm⟩⟩
        | invitee =>
          obtain ⟨g',next,below,calm⟩ := h.controlsInviter distinct first received
          exact ⟨_,rest,p,g',flight,rfl,next,below,.inl ⟨ctl,calm⟩⟩
      · cases message with
        | userMessage m =>
          obtain ⟨g',next,joins,accepts⟩ := h.deliverUser flight received
          exact ⟨_,rest,p,g',flight,rfl,next,joins.below,.inr ⟨m,rfl,accepts⟩⟩
        | _ => exact absurd rfl ctl
    · contradiction

theorem Handshake.step (h : Handshake inviter invitee s g) (distinct : inviter ≠ invitee)
    (valid : invitee ≠ kInvalidNodeName) {action : Action} {t : System} (ran : s.step action = some t) :
    ∃ g', Handshake inviter invitee t g' ∧ g.Below g' := by
  cases action with
  | call side call =>
    obtain ⟨g',next,joins⟩ := h.call valid ran
    exact ⟨g',next,joins.below⟩
  | sendInvitation invitation tempNodeName =>
    obtain ⟨g',next,joins⟩ := h.sendInvitation ran
    exact ⟨g',next,joins.below⟩
  | acceptInvitation =>
    obtain ⟨g',next,joins⟩ := h.acceptInvitation ran
    exact ⟨g',next,joins.below⟩
  | deliver sender =>
    obtain ⟨_,_,_,g',_,_,next,below,_⟩ := h.deliver distinct ran
    exact ⟨g',next,below⟩

theorem reachable_handshake (distinct : inviter ≠ invitee) (valid : invitee ≠ kInvalidNodeName)
    {allowed : System → Action → Prop} (reached : Reachable inviter invitee allowed s) :
    ∃ g, Handshake inviter invitee s g := by
  induction reached with
  | start => exact ⟨_,handshake_start inviter invitee⟩
  | step s t action before may ran ih =>
    obtain ⟨g,h⟩ := ih
    obtain ⟨g',next,_⟩ := h.step distinct valid ran
    exact ⟨g',next⟩

end Delivering

end MojoImpl.Invitation
