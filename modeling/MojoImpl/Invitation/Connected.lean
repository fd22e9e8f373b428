import MojoImpl.Invitation.Steps

/-! What an invitation connects. Once nothing is in flight, each attached name has joined
the port behind the inviter's handle to the port of the first request for the name, and
every other request has been left with the two ports it made. -/
namespace MojoImpl.Invitation
open Foundation MojoImpl.Ports

def Behind (p : Party) (handle : MojoHandle) (port : PortName) : Prop :=
  ∃ ref, p.portOf handle = some ref ∧ ref.name = port ∧ p.node.Holds ref

structure Connects (inviter invitee : NodeName) (s : System) : Prop where
  joined : ∀ name handle r, s.offers name = some handle →
    firstFor (s.party .invitee).requests name = some r →
    ∃ p, Behind (s.party .inviter) handle p ∧
      (r.handle ≠ MOJO_HANDLE_INVALID → Behind (s.party .invitee) r.handle r.port) ∧
      (s.party .inviter).node.peerOf p = some (invitee,r.port) ∧
      (s.party .invitee).node.peerOf r.port = some (inviter,p)
  apart : ∀ r ∈ (s.party .invitee).requests,
    s.offers r.name = none ∨ firstFor (s.party .invitee).requests r.name ≠ some r →
    ∃ mate, (s.party .invitee).node.peerOf r.port = some (invitee,mate) ∧
      (s.party .invitee).node.peerOf mate = some (invitee,r.port)

variable {inviter invitee : NodeName} {s : System} {g : Progress}

theorem Handshake.done (h : Handshake inviter invitee s g) (valid : inviter ≠ kInvalidNodeName)
    (quiet : ∀ side, (s.party side).inFlight = [])
    (met : (s.party .invitee).core.controller.inviterName = inviter) : g.waiting = [] ∧ g.opened = [] := by
  have connected : g.phase.connected = true := by
    by_contra unconnected
    have name := h.inviteeState.inviterName
    rw [met,if_neg unconnected] at name
    exact valid name
  have toInviter := h.toInviter
  have toInvitee := h.toInvitee
  rw [quiet .invitee,connected] at toInviter
  rw [quiet .inviter] at toInvitee
  have waiting := (List.append_eq_nil_iff.mp toInviter.symm).2
  have opened := (List.append_eq_nil_iff.mp toInvitee.symm).2
  exact ⟨List.map_eq_nil_iff.mp waiting,List.map_eq_nil_iff.mp opened⟩

theorem Handshake.connects (h : Handshake inviter invitee s g) (waiting : g.waiting = [])
    (opened : g.opened = []) : Connects inviter invitee s := by
  have joined := h.joined
  have requests : (s.party .invitee).requests = g.served := by
    rw [joined.requests,waiting,List.append_nil]
  have joins : g.joins = g.settled := by rw [Progress.joins,opened,List.append_nil]
  have name : (s.party .invitee).node.name = invitee := h.inviteeState.node
  constructor
  · intro name handle r offer first
    rw [requests] at first
    obtain ⟨_,front,behind,⟨unserved,_⟩ | ⟨r',first',join⟩⟩ := joined.offered name handle offer
    · rw [unserved] at first
      contradiction
    · rw [first] at first'
      cases first'
      refine ⟨front.name,⟨front,behind,rfl,((h.kept .inviter).pipes handle front behind).1⟩,?_,
        joined.inviterPeer _ join,joined.inviteePeer _ (joins ▸ join)⟩
      intro given
      obtain ⟨_,handle,_⟩ := (h.kept .invitee).requests r (requests ▸ List.mem_of_find?_eq_some first)
      obtain ⟨ref,behind,same⟩ := handle.resolve_left given
      exact ⟨ref,behind,same,((h.kept .invitee).pipes r.handle ref behind).1⟩
  · intro r member reason
    obtain ⟨_,_,⟨⟨x,q⟩,live⟩,_⟩ := (h.kept .invitee).requests r member
    obtain rfl | ⟨rfl,join⟩ := joined.inviteeOnly r.port x q live
    · have back := (h.kept .invitee).wired.mutual (name.symm ▸ live)
      rw [name] at back
      exact ⟨q,live,back⟩
    · -- a joined port is that of the first request for an attached name
      obtain ⟨r',handle,front,first,port,offer,_⟩ := joined.matched _ (List.mem_append_left _ join)
      have served : r' ∈ g.served ++ g.waiting :=
        List.mem_append_left _ (List.mem_of_find?_eq_some first)
      have same : r' = r := List.inj_on_of_nodup_map joined.distinct served
        (joined.requests ▸ member) port
      subst same
      rw [requests] at reason
      obtain unattached | later := reason
      · rw [offer] at unattached
        contradiction
      · exact absurd first later

/-- In every reachable state with nothing in flight and the first message handled, the
invitation connects exactly the ports it should. -/
theorem reachable_connects (distinct : inviter ≠ invitee) (validInviter : inviter ≠ kInvalidNodeName)
    (validInvitee : invitee ≠ kInvalidNodeName) {allowed : System → Action → Prop}
    (reached : Reachable inviter invitee allowed s) (quiet : ∀ side, (s.party side).inFlight = [])
    (met : (s.party .invitee).core.controller.inviterName = inviter) : Connects inviter invitee s := by
  obtain ⟨g,h⟩ := reachable_handshake distinct validInvitee reached
  obtain ⟨waiting,opened⟩ := h.done validInviter quiet met
  exact h.connects waiting opened

/-- One name, extracted before the invitation is sent. -/
def onePipe : List Action :=
  [.call .inviter .createInvitation,
    .call .inviter (.attach 1 [7] ⟨3,3⟩ ⟨4,4⟩),
    .acceptInvitation,
    .call .invitee (.extract 1 [7] ⟨5,5⟩ ⟨6,6⟩),
    .sendInvitation 1 ⟨9,9⟩,
    .deliver .inviter,
    .deliver .invitee,
    .deliver .invitee,
    .deliver .inviter]

theorem reachable_connects_onePipe : ∃ s, (System.start ⟨1,1⟩ ⟨2,2⟩).run onePipe = some s ∧
    s.offers [7] = some 2 ∧ firstFor (s.party .invitee).requests [7] = some ⟨[7],⟨5,5⟩,2⟩ ∧
    Connects ⟨1,1⟩ ⟨2,2⟩ s := by
  obtain ⟨s,ran⟩ := Option.isSome_iff_exists.mp
    (show ((System.start ⟨1,1⟩ ⟨2,2⟩).run onePipe).isSome by rfl)
  refine ⟨s,ran,?_,?_,?_⟩
  · exact run_fact ran (fun s => s.offers [7]) (by rfl)
  · exact run_fact ran (fun s => firstFor (s.party .invitee).requests [7]) (by rfl)
  · have reached : Reachable ⟨1,1⟩ ⟨2,2⟩ (fun _ _ => True) s := reachable_run (fun _ _ _ => trivial) .start ran
    apply reachable_connects (by decide) (by decide) (by decide) reached
    · intro side
      cases side with
      | inviter => exact run_fact ran (fun s => (s.party .inviter).inFlight) (by rfl)
      | invitee => exact run_fact ran (fun s => (s.party .invitee).inFlight) (by rfl)
    · exact run_fact ran (fun s => (s.party .invitee).core.controller.inviterName) (by rfl)

end MojoImpl.Invitation
