import MojoImpl.NodeController
import MojoImpl.Foundation.Threads

/-! Calls of SendPeerEvent and AddPeer on several threads. What a call does under one lock
is one step of it. The protocols are objects of any type, so that two of them with the same
contents stay apart; with messages for them a call that runs alone is the one of the
controller. -/
namespace MojoImpl.Concurrency
open Foundation Threads

structure Shared (π : Type) where
  peers : Table NodeName ChannelPtr
  pendingPeerMessages : Table NodeName (List π)
  remoteNodeName : ChannelPtr → NodeName
  written : ChannelPtr → List π

namespace Shared
variable {π : Type}

def setRemoteNodeName (s : Shared π) (c : ChannelPtr) (name : NodeName) : Shared π :=
  { s with remoteNodeName := Function.update s.remoteNodeName c name }

def sendChannelMessage (s : Shared π) (c : ChannelPtr) (protocol : π) : Shared π :=
  { s with written := Function.update s.written c (s.written c ++ [protocol]) }

def queuePeerMessage (s : Shared π) (node : NodeName) (protocol : π) : Shared π :=
  { s with pendingPeerMessages := Table.modify s.pendingPeerMessages node [] (· ++ [protocol]) }

/-- `pending_peer_messages_[node]`, where no entry counts as an empty one. -/
def pending (s : Shared π) (node : NodeName) : List π := (s.pendingPeerMessages.lookup node).getD []

theorem pending_queuePeerMessage (s : Shared π) (node : NodeName) (protocol : π) :
    (s.queuePeerMessage node protocol).pending node = s.pending node ++ [protocol] := by
  rw [pending,queuePeerMessage,Table.lookup_modify,if_pos rfl]
  rfl

/-- The peer is in the table and what was queued for it has been taken out. -/
def enter (s : Shared π) (name : NodeName) (channel : ChannelPtr) : Shared π := { s with
  peers := s.peers.insert name channel
  pendingPeerMessages := s.pendingPeerMessages.erase name }

theorem pending_enter (s : Shared π) (name : NodeName) (channel : ChannelPtr) :
    (s.enter name channel).pending name = [] := by
  rw [pending,enter,AList.lookup_erase]
  rfl

end Shared

/-- Where a call of SendPeerEvent is: it has made its protocol, it has a channel from
`GetPeerChannel` or none, or it has returned. -/
inductive SendPeerEvent (π : Type)
  | start (node : NodeName) (protocol : π)
  | found (peerChannel : ChannelPtr) (protocol : π)
  | absent (node : NodeName) (protocol : π)
  | returned (protocol : π)

/-- Where a call of AddPeer is. It returns from `ignored`, and when nothing is left to drain. -/
inductive AddPeer (π : Type)
  | start (name : NodeName) (channel : ChannelPtr)
  | named (name : NodeName) (channel : ChannelPtr)
  | ignored
  | draining (channel : ChannelPtr) (pendingMessages : List π)

variable {π : Type}

def SendPeerEvent.step (s : Shared π) : SendPeerEvent π → Option (Shared π × SendPeerEvent π)
  | start node protocol =>
    match s.peers.lookup node with
    | some peerChannel => some (s,found peerChannel protocol)
    | none => some (s,absent node protocol)
  | found peerChannel protocol => some (s.sendChannelMessage peerChannel protocol,returned protocol)
  -- the second lookup and what follows from it are under the lock
  | absent node protocol =>
    match s.peers.lookup node with
    | none => some (s.queuePeerMessage node protocol,returned protocol)
    | some peerChannel => some (s.sendChannelMessage peerChannel protocol,returned protocol)
  | returned _ => none

def AddPeer.step (s : Shared π) : AddPeer π → Option (Shared π × AddPeer π)
  | start name channel => some (s.setRemoteNodeName channel name,named name channel)
  | named name channel =>
    match s.peers.lookup name with
    | some _ => some (s,ignored)
    | none =>
      match s.pendingPeerMessages.lookup name with
      | none => some ({ s with peers := s.peers.insert name channel },draining channel [])
      | some pendingMessages => some (s.enter name channel,draining channel pendingMessages)
  | ignored => none
  | draining _ [] => none
  | draining channel (protocol :: pendingMessages) =>
    some (s.sendChannelMessage channel protocol,draining channel pendingMessages)

inductive Thread (π : Type)
  | sendPeerEvent (call : SendPeerEvent π)
  | addPeer (call : AddPeer π)

def step (s : Shared π) : Thread π → Option (Shared π × Thread π)
  | .sendPeerEvent call => do
    let (s,call) ← call.step s
    return (s,.sendPeerEvent call)
  | .addPeer call => do
    let (s,call) ← call.step s
    return (s,.addPeer call)

inductive Effect (s : Shared π) : Thread π → Shared π → Thread π → Prop
  | find (node : NodeName) (c : ChannelPtr) (p : π) (known : s.peers.lookup node = some c) :
    Effect s (.sendPeerEvent (.start node p)) s (.sendPeerEvent (.found c p))
  | miss (node : NodeName) (p : π) (unknown : s.peers.lookup node = none) :
    Effect s (.sendPeerEvent (.start node p)) s (.sendPeerEvent (.absent node p))
  | send (c : ChannelPtr) (p : π) :
    Effect s (.sendPeerEvent (.found c p)) (s.sendChannelMessage c p) (.sendPeerEvent (.returned p))
  | queue (node : NodeName) (p : π) (unknown : s.peers.lookup node = none) :
    Effect s (.sendPeerEvent (.absent node p)) (s.queuePeerMessage node p) (.sendPeerEvent (.returned p))
  | sendLate (node : NodeName) (c : ChannelPtr) (p : π) (known : s.peers.lookup node = some c) :
    Effect s (.sendPeerEvent (.absent node p)) (s.sendChannelMessage c p) (.sendPeerEvent (.returned p))
  | name (name : NodeName) (c : ChannelPtr) :
    Effect s (.addPeer (.start name c)) (s.setRemoteNodeName c name) (.addPeer (.named name c))
  | ignore (name : NodeName) (c d : ChannelPtr) (known : s.peers.lookup name = some d) :
    Effect s (.addPeer (.named name c)) s (.addPeer .ignored)
  | enter (name : NodeName) (c : ChannelPtr) (unknown : s.peers.lookup name = none) :
    Effect s (.addPeer (.named name c)) (s.enter name c) (.addPeer (.draining c (s.pending name)))
  | drain (c : ChannelPtr) (p : π) (rest : List π) :
    Effect s (.addPeer (.draining c (p :: rest))) (s.sendChannelMessage c p) (.addPeer (.draining c rest))

theorem step_effect {s t : Shared π} {thread next : Thread π} (ran : step s thread = some (t,next)) :
    Effect s thread t next := by
  cases thread with
  | sendPeerEvent call =>
    obtain ⟨⟨u,after⟩,one,same⟩ := Option.bind_eq_some_iff.mp ran
    cases same
    cases call with
    | start node p =>
      simp only [SendPeerEvent.step] at one
      split at one <;> cases one
      · exact .find node _ p ‹_›
      · exact .miss node p ‹_›
    | found c p =>
      cases one
      exact .send c p
    | absent node p =>
      simp only [SendPeerEvent.step] at one
      split at one <;> cases one
      · exact .queue node p ‹_›
      · exact .sendLate node _ p ‹_›
    | returned p => contradiction
  | addPeer call =>
    obtain ⟨⟨u,after⟩,one,same⟩ := Option.bind_eq_some_iff.mp ran
    cases same
    cases call with
    | start name c =>
      cases one
      exact .name name c
    | named name c =>
      simp only [AddPeer.step] at one
      split at one
      · cases one
        exact .ignore name c _ ‹_›
      · next unknown =>
        have entered := Effect.enter name c unknown
        split at one <;> cases one
        · next none =>
          rwa [Shared.enter,Table.erase_unknown none,Shared.pending,none] at entered
        · next pendingMessages some =>
          rwa [Shared.pending,some] at entered
    | ignored => contradiction
    | draining c pendingMessages =>
      cases pendingMessages with
      | nil => contradiction
      | cons p rest =>
        cases one
        exact .drain c p rest

section Sequential

/-- The members as a controller has them, by the contents of the protocols. -/
structure Represents (contents : π → Message) (k : Shared π) (s : NodeController) : Prop where
  peers : k.peers = s.peers
  pending : ∀ name, (k.pendingPeerMessages.lookup name).map (List.map contents) = s.pendingPeerMessages.lookup name
  remote : ∀ c, k.remoteNodeName c = (s.channels c).remoteNodeName
  written : ∀ c, (k.written c).map contents = (s.channels c).written

namespace Represents
variable {contents : π → Message} {k : Shared π} {s : NodeController}

theorem setRemoteNodeName (same : Represents contents k s) (c : ChannelPtr) (name : NodeName) :
    Represents contents (k.setRemoteNodeName c name) (s.setRemoteNodeName c name) where
  peers := same.peers
  pending := same.pending
  remote d := by
    dsimp only [Shared.setRemoteNodeName,NodeController.setRemoteNodeName]
    by_cases here : d = c
    · subst here
      rw [Function.update_self,Function.update_self]
    · rw [Function.update_of_ne here,Function.update_of_ne here,same.remote]
  written d := by
    dsimp only [Shared.setRemoteNodeName,NodeController.setRemoteNodeName]
    by_cases here : d = c
    · subst here
      rw [Function.update_self,same.written]
    · rw [Function.update_of_ne here,same.written]

theorem sendChannelMessage (same : Represents contents k s) (c : ChannelPtr) (p : π) :
    Represents contents (k.sendChannelMessage c p) (s.sendChannelMessage c (contents p)) where
  peers := same.peers
  pending := same.pending
  remote d := by
    dsimp only [Shared.sendChannelMessage,NodeController.sendChannelMessage]
    by_cases here : d = c
    · subst here
      rw [Function.update_self,same.remote]
    · rw [Function.update_of_ne here,same.remote]
  written d := by
    dsimp only [Shared.sendChannelMessage,NodeController.sendChannelMessage]
    by_cases here : d = c
    · subst here
      rw [Function.update_self,Function.update_self,List.map_append,same.written]
      rfl
    · rw [Function.update_of_ne here,Function.update_of_ne here,same.written]

theorem insertPeer (same : Represents contents k s) (name : NodeName) (c : ChannelPtr) :
    Represents contents { k with peers := k.peers.insert name c } { s with peers := s.peers.insert name c } where
  peers := congrArg (AList.insert name c) same.peers
  pending := same.pending
  remote := same.remote
  written := same.written

theorem enter (same : Represents contents k s) (name : NodeName) (c : ChannelPtr) :
    Represents contents (k.enter name c) { s with
      peers := s.peers.insert name c
      pendingPeerMessages := s.pendingPeerMessages.erase name } where
  peers := by
    dsimp only [Shared.enter]
    rw [same.peers]
  pending other := by
    dsimp only [Shared.enter]
    rw [Table.lookup_erase,Table.lookup_erase,← same.pending other]
    split <;> rfl
  remote := same.remote
  written := same.written

theorem queuePeerMessage (same : Represents contents k s) (node : NodeName) (p : π) :
    Represents contents (k.queuePeerMessage node p) { s with
      pendingPeerMessages := Table.modify s.pendingPeerMessages node [] (· ++ [contents p]) } where
  peers := same.peers
  pending name := by
    dsimp only [Shared.queuePeerMessage]
    rw [Table.lookup_modify,Table.lookup_modify,← same.pending name,← same.pending node]
    split
    · cases k.pendingPeerMessages.lookup node <;> simp
    · rfl
  remote := same.remote
  written := same.written

/-- A call that is not interrupted is the one of the controller. -/
theorem sendPeerEvent_alone (same : Represents contents k s) (node : NodeName) {p : π}
    {message : UserMessage} (made : contents p = .userMessage message) :
    ∃ t, Alone SendPeerEvent.step k (.start node p) t (.returned p) ∧
      Represents contents t (s.sendPeerEvent node message) := by
  unfold NodeController.sendPeerEvent NodeController.getPeerChannel
  rw [← made]
  cases known : s.peers.lookup node with
  | some c =>
    have found : SendPeerEvent.step k (.start node p) = some (k,.found c p) := by
      simp only [SendPeerEvent.step,same.peers,known]
    exact ⟨k.sendChannelMessage c p,.step _ _ _ _ _ _ found (.one rfl),same.sendChannelMessage c p⟩
  | none =>
    have absent : SendPeerEvent.step k (.start node p) = some (k,.absent node p) := by
      simp only [SendPeerEvent.step,same.peers,known]
    have queued : SendPeerEvent.step k (.absent node p) = some (k.queuePeerMessage node p,.returned p) := by
      simp only [SendPeerEvent.step,same.peers,known]
    exact ⟨k.queuePeerMessage node p,.step _ _ _ _ _ _ absent (.one queued),same.queuePeerMessage node p⟩

theorem draining_alone (same : Represents contents k s) (c : ChannelPtr) (pendingMessages : List π) :
    ∃ t, Alone AddPeer.step k (.draining c pendingMessages) t (.draining c []) ∧
      Represents contents t
        ((pendingMessages.map contents).foldl (fun s message => s.sendChannelMessage c message) s) := by
  induction pendingMessages generalizing k s with
  | nil => exact ⟨k,.stop _ _,same⟩
  | cons p rest ih =>
    obtain ⟨t,sent,same'⟩ := ih (same.sendChannelMessage c p)
    exact ⟨t,.step _ _ _ _ _ _ rfl sent,same'⟩

theorem addPeer_alone (same : Represents contents k s) (name : NodeName) (c : ChannelPtr) :
    ∃ t last, AddPeer.step t last = none ∧ Alone AddPeer.step k (.start name c) t last ∧
      Represents contents t (s.addPeer name c) := by
  have named := same.setRemoteNodeName c name
  have first : AddPeer.step k (.start name c) = some (k.setRemoteNodeName c name,.named name c) := rfl
  unfold NodeController.addPeer
  dsimp only
  generalize k.setRemoteNodeName c name = k' at named first
  generalize s.setRemoteNodeName c name = s' at named ⊢
  have queued := named.pending name
  cases known : s'.peers.lookup name with
  | some d =>
    have ignored : AddPeer.step k' (.named name c) = some (k',.ignored) := by
      simp only [AddPeer.step,named.peers,known]
    exact ⟨k',.ignored,rfl,.step _ _ _ _ _ _ first (.one ignored),named⟩
  | none =>
    cases found : k'.pendingPeerMessages.lookup name with
    | none =>
      rw [found,Option.map_none] at queued
      rw [← queued]
      have entered : AddPeer.step k' (.named name c) =
          some ({ k' with peers := k'.peers.insert name c },.draining c []) := by
        simp only [AddPeer.step,named.peers,known,found]
      exact ⟨_,.draining c [],rfl,.step _ _ _ _ _ _ first (.one entered),named.insertPeer name c⟩
    | some pendingMessages =>
      rw [found,Option.map_some] at queued
      rw [← queued]
      have entered : AddPeer.step k' (.named name c) = some (k'.enter name c,.draining c pendingMessages) := by
        simp only [AddPeer.step,named.peers,known,found]
      obtain ⟨t,drained,same'⟩ := (named.enter name c).draining_alone c pendingMessages
      exact ⟨t,.draining c [],rfl,.step _ _ _ _ _ _ first (.step _ _ _ _ _ _ entered drained),same'⟩

end Represents

end Sequential

end MojoImpl.Concurrency
