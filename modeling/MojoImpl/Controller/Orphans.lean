import MojoImpl.Controller.Registry

/-! Reservations belong to somebody: a name that ports are reserved for is one that an
invitation is pending under or that a peer has, so dropping the name drops them. -/
namespace MojoImpl.NodeController
open Foundation MojoImpl.Ports

/-- A whole step of a controller. A message may be from any name. -/
inductive Act
  | call (call : Call)
  | message (fromNode : NodeName) (message : Message)
  | addPeer (name : NodeName) (channel : ChannelPtr)
  | dropPeer (name : NodeName)

def act (s : NodeController) : Act → Option NodeController
  | .call call => s.call call
  | .message fromNode message => s.onMessage fromNode message
  | .addPeer name channel => some (s.addPeer name channel)
  | .dropPeer name => s.dropPeer name

/-- The states that a new controller gets into by steps that return. -/
inductive Acted : NodeController → Prop
  | create (name : NodeName) : Acted (create name)
  | act (s t : NodeController) (act : Act) (before : Acted s) (ran : s.act act = some t) : Acted t

namespace Registry

def Anchored (r : Registry) : Prop := ∀ node ∈ r.reservedPorts, node ∈ r.pendingInvitations ∨ node ∈ r.peers

variable {r : Registry}

theorem Anchored.enter (anchored : r.Anchored) (name : NodeName) (c : ChannelPtr) : (r.enter name c).Anchored := by
  intro node reserved
  rcases anchored node reserved with pending | peer
  · exact .inl pending
  · exact .inr ((Table.mem_emplace _ _ _ _).mpr (.inr peer))

theorem Anchored.drop (anchored : r.Anchored) (name : NodeName) : (r.drop name).Anchored := by
  intro node reserved
  obtain ⟨other,before⟩ := AList.mem_erase.mp reserved
  rcases anchored node before with pending | peer
  · exact .inl (AList.mem_erase.mpr ⟨other,pending⟩)
  · exact .inr (AList.mem_erase.mpr ⟨other,peer⟩)

theorem Anchored.invite (anchored : r.Anchored) (tempNodeName : NodeName)
    (attachedPorts : List (List UInt8 × PortRef)) : (r.invite tempNodeName attachedPorts).Anchored := by
  intro node reserved
  rcases (AList.mem_insert _).mp reserved with rfl | before
  · exact .inl ((Table.mem_emplace _ _ _ _).mpr (.inl rfl))
  · rcases anchored node before with pending | peer
    · exact .inl ((Table.mem_emplace _ _ _ _).mpr (.inr pending))
    · exact .inr peer

theorem mem_renameReserved {reserved : Table NodeName PortMap} {fromNode inviteeName node : NodeName}
    (after : node ∈ renameReserved reserved fromNode inviteeName) :
    node = inviteeName ∨ node ≠ fromNode ∧ node ∈ reserved := by
  unfold renameReserved at after
  cases found : reserved.lookup fromNode with
  | none =>
    rw [found] at after
    exact .inr ⟨fun same => AList.lookup_eq_none.mp found (same ▸ after),after⟩
  | some portMap =>
    rw [found] at after
    obtain ⟨other,placed⟩ := AList.mem_erase.mp after
    exact ((Table.mem_emplace _ _ _ _).mp placed).imp_right fun before => ⟨other,before⟩

/-- Whatever name the invitee gives itself, it is a peer's name afterwards; the reservations of
any other name were there before and are not the ones that moved. -/
theorem Anchored.accepted (anchored : r.Anchored) (fromNode inviteeName : NodeName) (c : ChannelPtr) :
    (r.accepted fromNode inviteeName c).Anchored := by
  intro node reserved
  rcases mem_renameReserved reserved with rfl | ⟨other,before⟩
  · exact .inr ((Table.mem_emplace _ _ _ _).mpr (.inl rfl))
  · rcases anchored node before with pending | peer
    · exact .inl (AList.mem_erase.mpr ⟨other,pending⟩)
    · exact .inr ((Table.mem_emplace _ _ _ _).mpr (.inr peer))

theorem Anchored.take (anchored : r.Anchored) (node : NodeName) (name : List UInt8) : (r.take node name).Anchored := by
  unfold Registry.take
  cases taken : takeReserved r.reservedPorts node name with
  | none => exact anchored
  | some pair =>
    obtain ⟨portMap,found,rest⟩ := Option.bind_eq_some_iff.mp taken
    obtain ⟨port,_,same⟩ := Option.bind_eq_some_iff.mp rest
    cases same
    intro other reserved
    change other ∈ (if _ then _ else _) at reserved
    split at reserved
    · exact anchored other (AList.mem_erase.mp reserved).2
    · rcases (AList.mem_insert _).mp reserved with rfl | before
      · exact anchored other (AList.lookup_isSome.mp (by rw [found]; rfl))
      · exact anchored other before

theorem Anchored.message (anchored : r.Anchored) (fromNode : NodeName) (message : Message) :
    (r.message fromNode message).Anchored := by
  cases message with
  | acceptInvitee data =>
    rw [Registry.message]
    split
    · exact anchored
    · exact anchored.enter _ _
  | acceptInvitation data =>
    rw [Registry.message,accept]
    split
    · exact anchored.drop fromNode
    · split
      · exact anchored.drop fromNode
      · exact anchored.accepted fromNode _ _
  | requestPortMerge data => exact anchored.take fromNode _
  | _ => exact anchored

theorem Anchored.call (anchored : r.Anchored) (call : Call) : (r.event (.call call)).Anchored := by
  cases call with
  | sendInvitation tempNodeName attachedPorts => exact anchored.invite tempNodeName attachedPorts
  | _ => exact anchored

end Registry

section Runs
variable {s : NodeController}

theorem acted_anchored (acted : Acted s) : s.registry.Anchored := by
  induction acted with
  | create name => exact fun node reserved => absurd reserved (AList.notMem_empty node)
  | act s t act before ran ih =>
    cases act with
    | call call => exact registry_call ran ▸ ih.call call
    | message fromNode message => exact registry_onMessage ran ▸ ih.message fromNode message
    | addPeer name channel =>
      cases ran
      exact registry_addPeer s name channel ▸ ih.enter name channel
    | dropPeer name => exact registry_dropPeer ran ▸ ih.drop name

/-- After any steps, every name with reserved ports has an invitation pending or is a peer's,
and dropping a name leaves nothing that could be claimed under it. -/
theorem acted_noOrphans (acted : Acted s) :
    (∀ node ∈ s.reservedPorts, node ∈ s.pendingInvitations ∨ node ∈ s.peers) ∧
      ∀ name t, s.dropPeer name = some t →
        name ∉ t.reservedPorts ∧ ∀ messagePipeName, takeReserved t.reservedPorts name messagePipeName = none := by
  refine ⟨acted_anchored acted,?_⟩
  intro name t dropped
  have gone : name ∉ t.reservedPorts := by
    have reserved : t.reservedPorts = s.reservedPorts.erase name :=
      congrArg Registry.reservedPorts (registry_dropPeer dropped)
    rw [reserved,AList.mem_erase]
    exact fun both => both.1 rfl
  refine ⟨gone,fun messagePipeName => ?_⟩
  rw [takeReserved,AList.lookup_eq_none.mpr gone]
  rfl

/-- An invitee that takes the token of another pending invitation for its name. -/
theorem acted_noOrphans_token : ∃ s, Acted s ∧ s.reservedPorts.keys = [⟨7,7⟩] ∧
    (∀ node ∈ s.reservedPorts, node ∈ s.pendingInvitations ∨ node ∈ s.peers) := by
  have invited : Acted _ := .act _ _ (.call (.sendInvitation ⟨5,5⟩ [([1],⟨⟨8,8⟩,some 0⟩)])) (.create ⟨1,1⟩) rfl
  have again : Acted _ := .act _ _ (.call (.sendInvitation ⟨7,7⟩ [([1],⟨⟨9,9⟩,some 1⟩)])) invited rfl
  have accepted : Acted _ := .act _ _ (.message ⟨5,5⟩ (.acceptInvitation ⟨⟨5,5⟩,⟨7,7⟩⟩)) again rfl
  exact ⟨_,accepted,rfl,(acted_noOrphans accepted).1⟩

end Runs

end MojoImpl.NodeController
