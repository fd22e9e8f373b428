import MojoImpl.Controller.Reservations
import MojoImpl.Invitation.System

/-! No call and no handler reads what its channel has been given to send before: with more
messages waiting there, each does the same and adds the same messages behind them. -/
namespace MojoImpl
open Foundation MojoImpl.Ports

theorem foldlM_commutes {σ α : Type} {f : σ → α → Option σ} {h : σ → σ}
    (commutes : ∀ s a, f (h s) a = (f s a).map h) (s : σ) (labels : List α) :
    labels.foldlM f (h s) = (labels.foldlM f s).map h := by
  induction labels generalizing s with
  | nil => rfl
  | cons a labels ih =>
    rw [List.foldlM_cons,List.foldlM_cons,commutes]
    cases f s a with
    | none => rfl
    | some t => exact ih t

namespace NodeController

/-- The controller with messages waiting on its first channel before those it has written. -/
def behind (queued : List Message) (s : NodeController) : NodeController :=
  { s with
    channels := Function.update s.channels 0
      { s.channels 0 with written := queued ++ (s.channels 0).written } }

section Channels
variable (queued : List Message) (s : NodeController) (c : ChannelPtr)

theorem sendAll_behind (messages : List Message) :
    (s.behind queued).sendAll c messages = (s.sendAll c messages).behind queued := by
  by_cases first : c = 0
  · subst first
    simp only [behind,sendAll,Function.update_self,Function.update_idem,List.append_assoc]
  · simp only [behind,sendAll,Function.update_of_ne first,Function.update_of_ne (Ne.symm first),
      Function.update_comm first]

theorem sendChannelMessage_behind (message : Message) :
    (s.behind queued).sendChannelMessage c message = (s.sendChannelMessage c message).behind queued :=
  sendAll_behind queued s c [message]

theorem setRemoteNodeName_behind (name : NodeName) :
    (s.behind queued).setRemoteNodeName c name = (s.setRemoteNodeName c name).behind queued := by
  by_cases first : c = 0
  · subst first
    simp only [behind,setRemoteNodeName,Function.update_self,Function.update_idem]
  · simp only [behind,setRemoteNodeName,Function.update_of_ne first,Function.update_of_ne (Ne.symm first),
      Function.update_comm first]

theorem addPeer_known {name : NodeName} {known : ChannelPtr} (found : s.peers.lookup name = some known) :
    s.addPeer name c = s.setRemoteNodeName c name := by
  simp only [addPeer,setRemoteNodeName,found]

theorem addPeer_pending {name : NodeName} (unknown : s.peers.lookup name = none) {messages : List Message}
    (waiting : s.pendingPeerMessages.lookup name = some messages) : s.addPeer name c =
      { s.setRemoteNodeName c name with
        peers := s.peers.insert name c
        pendingPeerMessages := s.pendingPeerMessages.erase name }.sendAll c messages := by
  rw [← foldl_sendChannelMessage]
  simp only [addPeer,setRemoteNodeName,unknown,waiting]

theorem addPeer_behind (name : NodeName) : (s.behind queued).addPeer name c = (s.addPeer name c).behind queued := by
  have renamed := setRemoteNodeName_behind queued s c name
  cases found : s.peers.lookup name with
  | some known => rw [addPeer_known s c found,addPeer_known (s.behind queued) c found,renamed]
  | none =>
    cases waiting : s.pendingPeerMessages.lookup name with
    | none =>
      rw [addPeer_new s found waiting,addPeer_new (s.behind queued) found waiting,renamed]
      rfl
    | some messages =>
      rw [addPeer_pending s c found waiting,addPeer_pending (s.behind queued) c found waiting,renamed,
        ← sendAll_behind]
      rfl

theorem requestPendingMerge_behind (request : List UInt8 × PortRef) :
    (s.behind queued).requestPendingMerge request = (s.requestPendingMerge request).map (behind queued) := by
  unfold requestPendingMerge
  change s.getInviterChannel.bind _ = _
  cases s.getInviterChannel with
  | none => rfl
  | some inviter => exact congrArg some (sendChannelMessage_behind queued s inviter _)

theorem handlePendingMergePort_behind :
    (s.behind queued).handlePendingMergePort = s.handlePendingMergePort.map (behind queued) :=
  foldlM_commutes (requestPendingMerge_behind queued) { s with pendingPortMerges := [] } s.pendingPortMerges

theorem mergePortIntoInviter_behind (name : List UInt8) (port : PortRef) :
    (s.behind queued).mergePortIntoInviter name port = (s.mergePortIntoInviter name port).behind queued := by
  have same : (s.behind queued).getInviterChannel = s.getInviterChannel := rfl
  unfold mergePortIntoInviter
  rw [same]
  cases s.getInviterChannel with
  | none => rfl
  | some inviter => exact sendChannelMessage_behind queued s inviter _

theorem forwardEvent_behind (node : NodeName) (message : UserMessage) :
    (s.behind queued).forwardEvent node message = (s.forwardEvent node message).behind queued := by
  have same : (s.behind queued).getPeerChannel node = s.getPeerChannel node := rfl
  have name : (s.behind queued).name = s.name := rfl
  unfold forwardEvent sendPeerEvent
  rw [same,name]
  split
  · rfl
  · cases s.getPeerChannel node with
    | none => rfl
    | some channel => exact sendChannelMessage_behind queued s channel _

theorem release_behind (channel : Option ChannelPtr) :
    (s.behind queued).release channel = (s.release channel).map (behind queued) := by
  have owners : (s.behind queued).owners = s.owners := rfl
  unfold release
  rw [owners]
  cases channel with
  | none => rfl
  | some c =>
    dsimp only
    split <;> rfl

theorem closeReserved_behind (name : NodeName) :
    (s.behind queued).closeReserved name = (s.closeReserved name).map (behind queued) := by
  have reserved : (s.behind queued).reservedPorts = s.reservedPorts := rfl
  have node : (s.behind queued).node = s.node := rfl
  rw [closeReserved_eq,closeReserved_eq s,reserved,node]
  cases (reservedRefs s.reservedPorts name).foldlM Node.closePort s.node with
  | none => rfl
  | some node => rfl

theorem dropPeer_behind (name : NodeName) :
    (s.behind queued).dropPeer name = (s.dropPeer name).map (behind queued) := by
  have opened (t : NodeController) : t.dropPeer name =
      ((({ t with peers := t.peers.erase name } : NodeController).release (t.peers.lookup name)).bind fun t =>
        ((({ t with
          pendingPeerMessages := t.pendingPeerMessages.erase name
          pendingInvitations := t.pendingInvitations.erase name } : NodeController).release
            (t.pendingInvitations.lookup name)).bind fun t => t.closeReserved name)) := rfl
  have first := release_behind queued { s with peers := s.peers.erase name } (s.peers.lookup name)
  rw [opened,opened s]
  change ((behind queued { s with peers := s.peers.erase name }).release (s.peers.lookup name)).bind _ = _
  rw [first]
  cases ({ s with peers := s.peers.erase name } : NodeController).release (s.peers.lookup name) with
  | none => rfl
  | some t =>
    have second := release_behind queued { t with
      pendingPeerMessages := t.pendingPeerMessages.erase name
      pendingInvitations := t.pendingInvitations.erase name } (t.pendingInvitations.lookup name)
    simp only [Option.map_some,Option.bind_some]
    change ((behind queued { t with
      pendingPeerMessages := t.pendingPeerMessages.erase name
      pendingInvitations := t.pendingInvitations.erase name }).release (t.pendingInvitations.lookup name)).bind _ = _
    rw [second]
    cases ({ t with
      pendingPeerMessages := t.pendingPeerMessages.erase name
      pendingInvitations := t.pendingInvitations.erase name } : NodeController).release
        (t.pendingInvitations.lookup name) with
    | none => rfl
    | some u => exact closeReserved_behind queued u name

end Channels

section Handlers
variable (queued : List Message) (s : NodeController) (fromNode : NodeName)

theorem onAcceptInvitee_behind (inviterName token : NodeName) :
    (s.behind queued).onAcceptInvitee inviterName token =
      (s.onAcceptInvitee inviterName token).map (behind queued) := by
  have opened (t : NodeController) : t.onAcceptInvitee inviterName token = t.inviterChannel.bind fun c =>
      (((({ t with inviterName } : NodeController).setRemoteNodeName c inviterName).sendChannelMessage c
        (.acceptInvitation ⟨token,t.name⟩)).addPeer inviterName c).handlePendingMergePort := rfl
  have same : (s.behind queued).inviterChannel = s.inviterChannel := rfl
  rw [opened,opened s,same]
  cases s.inviterChannel with
  | none => rfl
  | some c =>
    rw [Option.bind_some,Option.bind_some,← handlePendingMergePort_behind,← addPeer_behind,
      ← sendChannelMessage_behind,← setRemoteNodeName_behind]
    rfl

theorem onAcceptInvitation_behind (token inviteeName : NodeName) :
    (s.behind queued).onAcceptInvitation fromNode token inviteeName =
      (s.onAcceptInvitation fromNode token inviteeName).map (behind queued) := by
  have pending : (s.behind queued).pendingInvitations = s.pendingInvitations := rfl
  unfold onAcceptInvitation
  rw [pending]
  cases s.pendingInvitations.lookup fromNode with
  | none => exact dropPeer_behind queued s fromNode
  | some channel =>
    dsimp only
    split
    · exact dropPeer_behind queued s fromNode
    · have added := addPeer_behind queued { s with
        reservedPorts := renameReserved s.reservedPorts fromNode inviteeName
        pendingInvitations := s.pendingInvitations.erase fromNode } channel inviteeName
      rw [← release_behind,← added]
      rfl

theorem onRequestPortMerge_behind (connectorPortName : PortName) (messagePipeName : List UInt8) :
    (s.behind queued).onRequestPortMerge fromNode connectorPortName messagePipeName =
      (s.onRequestPortMerge fromNode connectorPortName messagePipeName).map (behind queued) := by
  have reserved : (s.behind queued).reservedPorts = s.reservedPorts := rfl
  unfold onRequestPortMerge
  rw [reserved]
  cases takeReserved s.reservedPorts fromNode messagePipeName with
  | none => rfl
  | some pair =>
    obtain ⟨localPort,reservedPorts⟩ := pair
    change ((s.node.mergePorts localPort fromNode connectorPortName).bind _).bind _ =
      Option.map _ (((s.node.mergePorts localPort fromNode connectorPortName).bind _).bind _)
    cases merged : s.node.mergePorts localPort fromNode connectorPortName with
    | none => rfl
    | some result =>
      obtain ⟨r,localPortName,node⟩ := result
      change (s.getPeerChannel fromNode).bind _ = Option.map _ ((s.getPeerChannel fromNode).bind _)
      cases s.getPeerChannel fromNode with
      | none => rfl
      | some channel =>
        exact congrArg some (sendChannelMessage_behind queued { s with
          reservedPorts
          node
          handed := s.handed ++ [Handed.mergePorts localPort] } channel _)

theorem onMessage_behind (message : Message) :
    (s.behind queued).onMessage fromNode message = (s.onMessage fromNode message).map (behind queued) := by
  cases message with
  | acceptInvitee data => exact onAcceptInvitee_behind queued s data.inviterName data.token
  | acceptInvitation data => exact onAcceptInvitation_behind queued s fromNode data.token data.inviteeName
  | requestPortMerge data =>
    exact onRequestPortMerge_behind queued s fromNode data.connectorPortName data.messagePipeName
  | responsePortMerge data =>
    change (s.node.mergePortsResponse data.connectorPortName fromNode data.portName).bind _ =
      Option.map _ ((s.node.mergePortsResponse data.connectorPortName fromNode data.portName).bind _)
    cases s.node.mergePortsResponse data.connectorPortName fromNode data.portName with
    | none => rfl
    | some result => rfl
  | userMessage data =>
    change (s.node.onUserMessage data).bind _ = Option.map _ ((s.node.onUserMessage data).bind _)
    cases s.node.onUserMessage data with
    | none => rfl
    | some node => rfl
  | acceptPeer data => rfl

end Handlers

end NodeController

namespace Core

def behind (queued : List Message) (s : Core) : Core := { s with controller := s.controller.behind queued }

variable (queued : List Message) (s : Core)

theorem addDispatcher_behind (dispatcher : Dispatcher) : (s.behind queued).addDispatcher dispatcher =
    ((s.addDispatcher dispatcher).1,(s.addDispatcher dispatcher).2.behind queued) := by
  have next : (s.behind queued).nextAvailableHandle = s.nextAvailableHandle := rfl
  have handles : (s.behind queued).handles = s.handles := rfl
  unfold addDispatcher
  rw [next]
  split
  · rfl
  · dsimp only
    rw [handles]
    cases s.handles.lookup s.nextAvailableHandle with
    | none => rfl
    | some known => rfl

theorem createPartialMessagePipe_behind (name0 name1 : PortName) :
    (s.behind queued).createPartialMessagePipe name0 name1 =
      (s.createPartialMessagePipe name0 name1).map fun made => (made.1,made.2.1,made.2.2.behind queued) := by
  have opened (t : Core) : t.createPartialMessagePipe name0 name1 =
      (t.controller.node.createPortPair name0 name1).bind fun pair =>
        some (((t.withNode pair.2.2.2).addDispatcher (.messagePipe pair.2.1)).1,pair.2.2.1,
          ((t.withNode pair.2.2.2).addDispatcher (.messagePipe pair.2.1)).2) := rfl
  have node : (s.behind queued).controller.node = s.controller.node := rfl
  rw [opened,opened s,node]
  cases s.controller.node.createPortPair name0 name1 with
  | none => rfl
  | some pair =>
    have added := addDispatcher_behind queued (s.withNode pair.2.2.2) (.messagePipe pair.2.1)
    have same : (s.behind queued).withNode pair.2.2.2 = (s.withNode pair.2.2.2).behind queued := rfl
    rw [Option.bind_some,Option.bind_some,same,added]
    rfl

theorem attachMessagePipeToInvitation_behind (invitation : MojoHandle) (name : List UInt8)
    (name0 name1 : PortName) : (s.behind queued).attachMessagePipeToInvitation invitation name name0 name1 =
      (s.attachMessagePipeToInvitation invitation name name0 name1).map fun made =>
        (made.1,made.2.1,made.2.2.behind queued) := by
  have same : (s.behind queued).getDispatcher invitation = s.getDispatcher invitation := rfl
  unfold attachMessagePipeToInvitation
  rw [same,createPartialMessagePipe_behind]
  split
  · next attachedPorts found =>
    cases s.createPartialMessagePipe name0 name1 with
    | none => rfl
    | some made =>
      obtain ⟨localHandle,remotePeerPort,t⟩ := made
      simp only [Option.map_some,Option.bind_eq_bind,Option.bind_some]
      split
      · rfl
      · cases attachMessagePipe attachedPorts name remotePeerPort with
        | mk r ports => cases r <;> rfl
  · rfl

theorem extractMessagePipe_behind (invitation : MojoHandle) (attachedPorts : PortMap) (name : List UInt8) :
    (s.behind queued).extractMessagePipe invitation attachedPorts name =
      ((s.extractMessagePipe invitation attachedPorts name).1,
        (s.extractMessagePipe invitation attachedPorts name).2.1,
        (s.extractMessagePipe invitation attachedPorts name).2.2.behind queued) := by
  unfold extractMessagePipe
  cases attachedPorts.lookup name with
  | none => rfl
  | some remotePeerPort =>
    have added := addDispatcher_behind queued (s.setAttachedPorts invitation (attachedPorts.erase name))
      (.messagePipe remotePeerPort)
    have same : (s.behind queued).setAttachedPorts invitation (attachedPorts.erase name) =
        (s.setAttachedPorts invitation (attachedPorts.erase name)).behind queued := rfl
    dsimp only
    rw [same,added]

theorem extractMessagePipeFromInviter_behind (name : List UInt8) (name0 name1 : PortName) :
    (s.behind queued).extractMessagePipeFromInviter name name0 name1 =
      (s.extractMessagePipeFromInviter name name0 name1).map fun made => (made.1,made.2.behind queued) := by
  have opened (t : Core) : t.extractMessagePipeFromInviter name name0 name1 =
      (t.controller.node.createPortPair name0 name1).bind fun pair =>
        some (((t.withNode pair.2.2.2).addDispatcher (.messagePipe pair.2.1)).1,
          { ((t.withNode pair.2.2.2).addDispatcher (.messagePipe pair.2.1)).2 with
            controller := ((t.withNode pair.2.2.2).addDispatcher
              (.messagePipe pair.2.1)).2.controller.mergePortIntoInviter name pair.2.1 }) := rfl
  have node : (s.behind queued).controller.node = s.controller.node := rfl
  rw [opened,opened s,node]
  cases s.controller.node.createPortPair name0 name1 with
  | none => rfl
  | some pair =>
    have added := addDispatcher_behind queued (s.withNode pair.2.2.2) (.messagePipe pair.2.1)
    have same : (s.behind queued).withNode pair.2.2.2 = (s.withNode pair.2.2.2).behind queued := rfl
    have merged := NodeController.mergePortIntoInviter_behind queued
      ((s.withNode pair.2.2.2).addDispatcher (.messagePipe pair.2.1)).2.controller name pair.2.1
    rw [Option.bind_some,Option.bind_some,same,added]
    refine congrArg some (Prod.ext rfl ?_)
    dsimp only [Core.behind]
    rw [merged]

theorem extractMessagePipeFromInvitation_behind (invitation : MojoHandle) (name : List UInt8)
    (name0 name1 : PortName) : (s.behind queued).extractMessagePipeFromInvitation invitation name name0 name1 =
      (s.extractMessagePipeFromInvitation invitation name name0 name1).map fun made =>
        (made.1,made.2.1,made.2.2.behind queued) := by
  have same : (s.behind queued).getDispatcher invitation = s.getDispatcher invitation := rfl
  unfold extractMessagePipeFromInvitation
  rw [same]
  split
  · next attachedPorts found =>
    rw [extractMessagePipe_behind]
    cases s.extractMessagePipe invitation attachedPorts name with
    | mk r rest =>
      obtain ⟨handle,t⟩ := rest
      have asked := extractMessagePipeFromInviter_behind queued t name name0 name1
      cases r with
      | ok => rfl
      | _ =>
        dsimp only
        rw [asked]
        cases t.extractMessagePipeFromInviter name name0 name1 with
        | none => rfl
        | some made => rfl
  · rfl

theorem writeMessage_behind (handle : MojoHandle) (data : List UInt8) :
    (s.behind queued).writeMessage handle data =
      (s.writeMessage handle data).map fun made => (made.1,made.2.behind queued) := by
  have same : (s.behind queued).getDispatcher handle = s.getDispatcher handle := rfl
  unfold writeMessage
  rw [same]
  split
  · next port found =>
    have opened (t : NodeController) : t.sendUserMessage port { UserMessage.create with data } =
        (t.node.sendUserMessage port { UserMessage.create with data }).bind fun pair =>
          some (t.forwardEvent pair.1 pair.2) := rfl
    have node : (s.behind queued).controller.node = s.controller.node := rfl
    rw [opened,opened s.controller,node]
    cases s.controller.node.sendUserMessage port { UserMessage.create with data } with
    | none => rfl
    | some pair =>
      have forwarded := NodeController.forwardEvent_behind queued s.controller pair.1 pair.2
      refine congrArg some (Prod.ext rfl ?_)
      dsimp only [Core.behind]
      rw [forwarded]
  · rfl

theorem readMessage_behind (handle : MojoHandle) : (s.behind queued).readMessage handle =
    (s.readMessage handle).map fun made => (made.1,made.2.1,made.2.2.behind queued) := by
  have same : (s.behind queued).getDispatcher handle = s.getDispatcher handle := rfl
  unfold readMessage
  rw [same]
  split
  · next port found =>
    have opened (t : NodeController) : t.getUserMessage port = (t.node.getMessage port).bind fun pair =>
        some (pair.1,{ t with node := pair.2 }) := rfl
    have node : (s.behind queued).controller.node = s.controller.node := rfl
    rw [opened,opened s.controller,node]
    cases s.controller.node.getMessage port with
    | none => rfl
    | some pair => rfl
  · rfl

end Core

namespace Invitation.Party

def behind (queued : List Message) (p : Party) : Party := { p with core := p.core.behind queued }

variable (queued : List Message) (p : Party)

theorem behind_inFlight : (p.behind queued).inFlight = queued ++ p.inFlight := by
  simp only [inFlight,behind,Core.behind,NodeController.behind,Function.update_self]

theorem behind_nil : p.behind [] = p := by
  simp only [behind,Core.behind,NodeController.behind,List.nil_append,Function.update_eq_self]

theorem asks_behind (invitation : MojoHandle) (name : List UInt8) :
    (p.behind queued).asks invitation name = p.asks invitation name := by
  have same : (p.behind queued).core.getDispatcher invitation = p.core.getDispatcher invitation := rfl
  unfold asks
  rw [same]
  split
  · next attachedPorts found =>
    have extracted := Core.extractMessagePipe_behind queued p.core invitation attachedPorts name
    have core : (p.behind queued).core = p.core.behind queued := rfl
    rw [core,extracted]
  · rfl

/-- A call does the same behind messages that wait, and adds the same messages. -/
theorem call_behind (c : Call) : (p.behind queued).call c = (p.call c).map (behind queued) := by
  have core : (p.behind queued).core = p.core.behind queued := rfl
  cases c with
  | createInvitation =>
    have added := Core.addDispatcher_behind queued p.core (.invitation ∅)
    refine congrArg some ?_
    unfold Core.createInvitation
    rw [core]
    dsimp only
    rw [added]
    rfl
  | attach invitation name name0 name1 =>
    have opened (t : Party) : t.call (.attach invitation name name0 name1) =
        (t.core.attachMessagePipeToInvitation invitation name name0 name1).bind fun made =>
          some { t with core := made.2.2, attached := record t.attached invitation name made.2.1 } := rfl
    rw [opened,opened p,core,Core.attachMessagePipeToInvitation_behind]
    cases p.core.attachMessagePipeToInvitation invitation name name0 name1 with
    | none => rfl
    | some made => rfl
  | extract invitation name name0 name1 =>
    have opened (t : Party) : t.call (.extract invitation name name0 name1) =
        (t.core.extractMessagePipeFromInvitation invitation name name0 name1).bind fun made =>
          some { t with
            core := made.2.2
            requests := if t.asks invitation name then t.requests ++ [⟨name,name0,made.2.1⟩] else t.requests } := rfl
    rw [opened,opened p,core,Core.extractMessagePipeFromInvitation_behind,asks_behind]
    cases p.core.extractMessagePipeFromInvitation invitation name name0 name1 with
    | none => rfl
    | some made => rfl
  | write handle data =>
    have opened (t : Party) : t.call (.write handle data) = (t.core.writeMessage handle data).bind fun made =>
        some { t with core := made.2, written := t.written ++ ((t.addressed handle data).map Prod.snd).toList } := rfl
    have addressed : (p.behind queued).addressed handle data = p.addressed handle data := rfl
    rw [opened,opened p,core,Core.writeMessage_behind,addressed]
    cases p.core.writeMessage handle data with
    | none => rfl
    | some made => rfl
  | read handle =>
    have opened (t : Party) : t.call (.read handle) = (t.core.readMessage handle).bind fun made =>
        some { t with
          core := made.2.2
          read := t.read ++ made.2.1.toList.map (((t.portOf handle).map PortRef.name).getD kInvalidPortName,·) } := rfl
    have port : (p.behind queued).portOf handle = p.portOf handle := rfl
    rw [opened,opened p,core,Core.readMessage_behind,port]
    cases p.core.readMessage handle with
    | none => rfl
    | some made => rfl

/-- So does the handler of a message. -/
theorem receive_behind (message : Message) :
    (p.behind queued).receive message = (p.receive message).map (behind queued) := by
  have name : ((p.behind queued).core.controller.channels 0).remoteNodeName =
      (p.core.controller.channels 0).remoteNodeName := by
    simp only [behind,Core.behind,NodeController.behind,Function.update_self]
  have controller : (p.behind queued).core.controller = p.core.controller.behind queued := rfl
  unfold receive
  rw [name,controller,NodeController.onMessage_behind]
  cases p.core.controller.onMessage (p.core.controller.channels 0).remoteNodeName message with
  | none => rfl
  | some c => rfl

end Invitation.Party

end MojoImpl
