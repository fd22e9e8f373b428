import MojoImpl.Foundation.Locking
import MojoImpl.NodeController

/-! The locks of one process. Each function is the locks it takes and the calls it makes, in
turn; where the source branches on data either way is open, so the threads below can do what
the threads of the program can, and more. -/
namespace MojoImpl.Locks
open Foundation Foundation.Locking

/-- Invitations and channels have locks of their own. -/
inductive Lock
  | nodeController
  | handleTable
  | invitation (dispatcher : Nat)
  | pendingPortMerges
  | inviter
  | peers
  | reservedPorts
  | ports
  | nameGenerator
  | channel (c : ChannelPtr)
  | writingProtocol (c : ChannelPtr)
  deriving DecidableEq

section MutexLock
variable {ι : Type} [DecidableEq ι]

/-- `MutexLock::Lock` assigns the holder when it has the mutex, and `MutexLock::UnLock`
unassigns it before it gives the mutex back. No holder is the id 0. -/
def mutexLock : Bracket ι Lock (Lock → Option ι) where
  enter t l holder := Function.update holder l (some t)
  leave _ l holder := Function.update holder l none

def isLockedByThisThread (holder : Lock → Option ι) (currentId : ι) (l : Lock) : Bool := holder l = some currentId

end MutexLock

/-- What is somewhere used with a lock taken. -/
inductive Field
  | nodeController
  | handles
  | attachedPorts (dispatcher : Nat)
  | pendingPortMerges
  | inviterName
  | inviterChannel
  | peers
  | pendingPeerMessages
  | pendingInvitations
  | reservedPorts
  | ports
  | peerPortMaps
  | cache
  | channel (c : ChannelPtr)
  | writingProtocol (c : ChannelPtr)
  deriving DecidableEq

abbrev Code := Locking.Code Lock Field

def either (first second : Code) : Code := .pick fun n => if n = 0 then first else second

/-- What follows a call unless that fails. -/
def checked (first second : Code) : Code := .seq first (either .skip second)

namespace Node

def generateRandomPortName : Code := .locked .nameGenerator (.act .cache)

def updatePortPeerAddress : Code := either .skip (.act .peerPortMaps)

def addPortWithName : Code := .locked .ports (.seq (either .skip (.act .peerPortMaps)) (.act .ports))

def initializePort : Code := .locked .ports (either .skip updatePortPeerAddress)

def createUninitializedPort : Code := .seq generateRandomPortName addPortWithName

def createPortPair : Code :=
  checked createUninitializedPort (checked createUninitializedPort (checked initializePort initializePort))

def erasePort : Code := .locked .ports (.act .ports)

def closePort : Code := erasePort

/-- The index of the peers is changed without a lock. -/
def mergePorts : Code :=
  .seq erasePort (checked (.locked .ports (.act .ports)) (.seq (.act .peerPortMaps) updatePortPeerAddress))

def mergePortsResponse : Code := checked (.locked .ports (.act .ports)) (.seq (.act .peerPortMaps) mergePorts)

/-- The port is looked up, and made if it is unknown, without a lock. -/
def onUserMessage : Code := .act .ports

def getMessage : Code := .skip

end Node

namespace ChannelPosix
variable (c : ChannelPtr)

def start : Code := .skip

def write : Code := .locked (.writingProtocol c) (.act (.writingProtocol c))

def onFdWriteable : Code := .locked (.writingProtocol c) (.act (.writingProtocol c))

end ChannelPosix

namespace NodeChannel
variable (c : ChannelPtr)

def start : Code := .locked (.channel c) (.seq (.act (.channel c)) (either .skip ChannelPosix.start))

def shutdown : Code := .locked (.channel c) (.act (.channel c))

def writeChannelMessage : Code :=
  .locked (.channel c) (.seq (.act (.channel c)) (either .skip (ChannelPosix.write c)))

def sendChannelMessage : Code := writeChannelMessage c

def requestPortMerge : Code := sendChannelMessage c

def acceptInvitee : Code := sendChannelMessage c

def acceptInvitation : Code := sendChannelMessage c

def responsePortMerge : Code := sendChannelMessage c

end NodeChannel

namespace NodeController

def getPeerChannel : Code := .locked .peers (.act .peers)

def getInviterChannel : Code := .seq (.locked .inviter (.act .inviterName)) getPeerChannel

/-- The inviter's channel is looked up with the lock of the pending merges. -/
def mergePortIntoInviter : Code :=
  checked (.locked .pendingPortMerges (.seq getInviterChannel (either .skip (.act .pendingPortMerges))))
    (.pick NodeChannel.requestPortMerge)

def addPeer (c : ChannelPtr) : Code :=
  checked (.locked .peers (checked (.act .peers) (checked (.act .peers) (.act .pendingPeerMessages))))
    (.seq (either .skip (NodeChannel.start c)) (.many (NodeChannel.sendChannelMessage c)))

def dropPeer : Code :=
  .seq (.locked .peers (.seq (.act .peers) (.seq (.act .pendingPeerMessages) (.act .pendingInvitations))))
    (.seq (.locked .reservedPorts (.act .reservedPorts)) (.many Node.closePort))

def sendInvitation : Code :=
  .seq (.locked .reservedPorts (.act .reservedPorts)) (.seq (.act .pendingInvitations)
    (.pick fun c => .seq (NodeChannel.start c) (NodeChannel.acceptInvitee c)))

def acceptInvitation : Code :=
  .seq (.locked .inviter (.seq (.act .inviterName) (.act .inviterChannel)))
    (.seq (.act .inviterChannel) (.pick NodeChannel.start))

def onRequestPortMerge : Code :=
  checked (.locked .reservedPorts (.act .reservedPorts))
    (.seq Node.mergePorts (.seq getPeerChannel (.pick NodeChannel.responsePortMerge)))

def handlePendingMergePort : Code :=
  .seq (.locked .pendingPortMerges (.act .pendingPortMerges))
    (.many (.seq getInviterChannel (.pick NodeChannel.requestPortMerge)))

def onAcceptInvitee : Code :=
  .seq (.locked .inviter (.act .inviterName)) (.seq (.act .inviterChannel)
    (.pick fun c => .seq (NodeChannel.acceptInvitation c) (.seq (addPeer c) handlePendingMergePort)))

def onAcceptInvitation : Code :=
  .seq (.act .pendingInvitations) (either dropPeer (.seq (.locked .reservedPorts (.act .reservedPorts))
    (.seq (.act .pendingInvitations) (.pick addPeer))))

def onResponsePortMerge : Code := Node.mergePortsResponse

/-- A message to a peer that has appeared in between is sent with the lock of the peers. -/
def sendPeerEvent : Code :=
  either .skip (.seq getPeerChannel (.pick fun c => either (NodeChannel.sendChannelMessage c)
    (.locked .peers (.seq (.act .peers) (either (.act .pendingPeerMessages) (NodeChannel.sendChannelMessage c))))))

def forwardEvent : Code := either .skip sendPeerEvent

def sendUserMessage : Code := forwardEvent

def getUserMessage : Code := Node.getMessage

def onUserMessage : Code := Node.onUserMessage

end NodeController

namespace NodeChannel

/-- One of the handlers of the delegate. That of a peer or an error only logs. -/
def onChannelMessage : Code := .pick fun n =>
  match n with
  | 0 => NodeController.onAcceptInvitee
  | 1 => NodeController.onAcceptInvitation
  | 2 => NodeController.onRequestPortMerge
  | 3 => NodeController.onResponsePortMerge
  | 4 => NodeController.onUserMessage
  | _ => .skip

def onChannelError (c : ChannelPtr) : Code := shutdown c

end NodeChannel

def ChannelPosix.onFdReadable : Code := NodeChannel.onChannelMessage

namespace Core

def setIOTaskRunner : Code := .act .nodeController

def getNodeController : Code := .locked .nodeController (.act .nodeController)

def getDispatcher : Code := .locked .handleTable (.act .handles)

def addDispatcher : Code := .locked .handleTable (.act .handles)

def createInvitation : Code := addDispatcher

def createPartialMessagePipe : Code :=
  .seq getNodeController (.seq Node.createPortPair (.seq getNodeController addDispatcher))

def createPartialMessagePipeOf : Code := .seq getNodeController addDispatcher

end Core

namespace InvitationDispatcher
variable (d : Nat)

def attachMessagePipe : Code := .locked (.invitation d) (.act (.attachedPorts d))

def extractMessagePipe : Code :=
  checked (.locked (.invitation d) (.act (.attachedPorts d))) Core.createPartialMessagePipeOf

def takeAttachPorts : Code := .locked (.invitation d) (.act (.attachedPorts d))

end InvitationDispatcher

namespace Core

def attachMessagePipeToInvitation : Code :=
  checked getDispatcher (checked createPartialMessagePipe (.pick InvitationDispatcher.attachMessagePipe))

def extractMessagePipeFromInviter : Code :=
  .seq getNodeController (.seq Node.createPortPair (.seq getNodeController (.seq addDispatcher
    (.seq getNodeController NodeController.mergePortIntoInviter))))

def extractMessagePipeFromInvitation : Code :=
  checked getDispatcher (.pick fun d => checked (InvitationDispatcher.extractMessagePipe d) extractMessagePipeFromInviter)

def sendInvitation : Code :=
  checked getDispatcher (.pick fun d => .seq (InvitationDispatcher.takeAttachPorts d)
    (.seq (InvitationDispatcher.takeAttachPorts d) (.seq getNodeController NodeController.sendInvitation)))

def acceptInvitation : Code := checked addDispatcher (.seq getNodeController NodeController.acceptInvitation)

def writeMessage : Code := checked getDispatcher NodeController.sendUserMessage

def readMessage : Code := checked getDispatcher NodeController.getUserMessage

end Core

/-- A thread makes any calls of the core, or those of the event loop, one after the other. -/
def calls : Code := .many (.pick fun n =>
  match n with
  | 0 => Core.createInvitation
  | 1 => Core.attachMessagePipeToInvitation
  | 2 => Core.extractMessagePipeFromInvitation
  | 3 => Core.sendInvitation
  | 4 => Core.acceptInvitation
  | 5 => Core.writeMessage
  | 6 => Core.readMessage
  | 7 => ChannelPosix.onFdReadable
  | 8 => .pick ChannelPosix.onFdWriteable
  | 9 => .pick NodeChannel.onChannelError
  | 10 => Core.setIOTaskRunner
  | _ => .skip)

section Rules

/-- What is always used with one and the same lock. The other fields are used without one
in some function. -/
def guard : Field → Option Lock
  | .handles => some .handleTable
  | .attachedPorts d => some (.invitation d)
  | .pendingPortMerges => some .pendingPortMerges
  | .inviterName => some .inviter
  | .peers => some .peers
  | .pendingPeerMessages => some .peers
  | .reservedPorts => some .reservedPorts
  | .cache => some .nameGenerator
  | .channel c => some (.channel c)
  | .writingProtocol c => some (.writingProtocol c)
  | .nodeController => none
  | .inviterChannel => none
  | .pendingInvitations => none
  | .ports => none
  | .peerPortMaps => none

/-- Locks taken with others held rank above those. -/
def rank : Lock → Nat
  | .inviter => 1
  | .peers => 2
  | .channel _ => 3
  | .writingProtocol _ => 4
  | _ => 0

def rule : Rule Lock Field := ⟨rank,guard⟩

theorem rule_rank : rule.rank = rank := rfl

theorem rule_guard : rule.guard = guard := rfl

theorem rank_lt (l : Lock) : rule.rank l < 5 := by
  cases l <;> simp [rule_rank,rank]

variable {locks : List Lock} {first second : Code}

theorem obeys_free {f : Field} (free : guard f = none) : (Locking.Code.act f : Code).Obeys rule locks := by
  intro l guarded
  rw [rule_guard,free] at guarded
  contradiction

theorem obeys_own {f : Field} {l : Lock} (own : guard f = some l) (taken : l ∈ locks) :
    (Locking.Code.act f : Code).Obeys rule locks := by
  intro l' guarded
  rw [rule_guard,own] at guarded
  cases guarded
  exact taken

theorem obeys_first {l : Lock} (obeys : first.Obeys rule [l]) : (Locking.Code.locked l first).Obeys rule [] :=
  ⟨fun _ member => absurd member List.not_mem_nil,obeys⟩

/-- What is used by itself with its lock. -/
theorem obeys_guarded {f : Field} {l : Lock} (own : guard f = some l) :
    (Locking.Code.locked l (.act f) : Code).Obeys rule [] :=
  obeys_first (obeys_own own List.mem_cons_self)

theorem obeys_either : (either first second).Obeys rule locks ↔ first.Obeys rule locks ∧ second.Obeys rule locks := by
  constructor
  · intro obeys
    exact ⟨obeys 0,obeys 1⟩
  · intro obeys k
    dsimp only
    split
    · exact obeys.1
    · exact obeys.2

theorem obeys_checked : (checked first second).Obeys rule locks ↔ first.Obeys rule locks ∧ second.Obeys rule locks :=
  and_congr_right fun _ => obeys_either.trans (and_iff_right trivial)

/-- A message can be sent with any of the locks that rank below those of channels. -/
theorem obeys_sendChannelMessage (low : ∀ l ∈ locks, rank l < 3) (c : ChannelPtr) :
    (NodeChannel.sendChannelMessage c).Obeys rule locks := by
  have lower (l : Lock) (member : l ∈ .channel c::locks) : rank l < 4 := by
    obtain rfl | before := List.mem_cons.mp member
    · exact Nat.lt_succ_self 3
    · exact Nat.lt_succ_of_lt (low l before)
  have write : (ChannelPosix.write c).Obeys rule (.channel c::locks) := ⟨lower,obeys_own rfl List.mem_cons_self⟩
  exact ⟨low,obeys_own rfl List.mem_cons_self,obeys_either.mpr ⟨trivial,write⟩⟩

theorem obeys_sends (c : ChannelPtr) : (NodeChannel.sendChannelMessage c).Obeys rule [] :=
  obeys_sendChannelMessage (fun _ member => absurd member List.not_mem_nil) c

theorem obeys_start (c : ChannelPtr) : (NodeChannel.start c).Obeys rule [] :=
  obeys_first ⟨obeys_own rfl List.mem_cons_self,obeys_either.mpr ⟨trivial,trivial⟩⟩

theorem obeys_getInviterChannel (low : ∀ l ∈ locks, rank l < 1) : NodeController.getInviterChannel.Obeys rule locks := by
  have lower (l : Lock) (member : l ∈ locks) : rank l < 2 := Nat.lt_succ_of_lt (low l member)
  have name : (Locking.Code.locked .inviter (.act .inviterName) : Code).Obeys rule locks :=
    ⟨low,obeys_own rfl List.mem_cons_self⟩
  have peer : NodeController.getPeerChannel.Obeys rule locks := ⟨lower,obeys_own rfl List.mem_cons_self⟩
  exact ⟨name,peer⟩

theorem obeys_mergePortIntoInviter : NodeController.mergePortIntoInviter.Obeys rule [] := by
  refine obeys_checked.mpr ⟨obeys_first ⟨obeys_getInviterChannel ?_,?_⟩,obeys_sends⟩
  · intro l member
    cases List.mem_singleton.mp member
    exact Nat.zero_lt_one
  · exact obeys_either.mpr ⟨trivial,obeys_own rfl List.mem_cons_self⟩

theorem obeys_sendPeerEvent : NodeController.sendPeerEvent.Obeys rule [] := by
  have queued (c : ChannelPtr) : (either (.act .pendingPeerMessages) (NodeChannel.sendChannelMessage c)).Obeys rule [.peers] := by
    refine obeys_either.mpr ⟨obeys_own rfl List.mem_cons_self,obeys_sendChannelMessage ?_ c⟩
    intro l member
    cases List.mem_singleton.mp member
    exact Nat.lt_succ_self 2
  refine obeys_either.mpr ⟨trivial,obeys_guarded rfl,fun c => obeys_either.mpr ⟨obeys_sends c,?_⟩⟩
  exact obeys_first ⟨obeys_own rfl List.mem_cons_self,queued c⟩

theorem obeys_addPeer (c : ChannelPtr) : (NodeController.addPeer c).Obeys rule [] := by
  have peers : (Locking.Code.act .peers : Code).Obeys rule [.peers] := obeys_own rfl List.mem_cons_self
  have pending : (Locking.Code.act .pendingPeerMessages : Code).Obeys rule [.peers] := obeys_own rfl List.mem_cons_self
  have entered := obeys_first (obeys_checked.mpr ⟨peers,obeys_checked.mpr ⟨peers,pending⟩⟩)
  exact obeys_checked.mpr ⟨entered,obeys_either.mpr ⟨trivial,obeys_start c⟩,obeys_sends c⟩

theorem obeys_updatePortPeerAddress : Node.updatePortPeerAddress.Obeys rule locks :=
  obeys_either.mpr ⟨trivial,obeys_free rfl⟩

/-- The tables of ports are used with their lock and without it. -/
theorem obeys_ports : (Locking.Code.locked .ports (.act .ports) : Code).Obeys rule [] := obeys_first (obeys_free rfl)

theorem obeys_createPortPair : Node.createPortPair.Obeys rule [] := by
  have add : Node.addPortWithName.Obeys rule [] :=
    obeys_first ⟨obeys_either.mpr ⟨trivial,obeys_free rfl⟩,obeys_free rfl⟩
  have create : Node.createUninitializedPort.Obeys rule [] := ⟨obeys_guarded rfl,add⟩
  have initialized : Node.initializePort.Obeys rule [] :=
    obeys_first (obeys_either.mpr ⟨trivial,obeys_updatePortPeerAddress⟩)
  exact obeys_checked.mpr ⟨create,obeys_checked.mpr ⟨create,obeys_checked.mpr ⟨initialized,initialized⟩⟩⟩

theorem obeys_mergePorts : Node.mergePorts.Obeys rule [] :=
  ⟨obeys_ports,obeys_checked.mpr ⟨obeys_ports,obeys_free rfl,obeys_updatePortPeerAddress⟩⟩

theorem obeys_onAcceptInvitee : NodeController.onAcceptInvitee.Obeys rule [] := by
  refine ⟨obeys_guarded rfl,obeys_free rfl,fun c => ⟨obeys_sends c,obeys_addPeer c,obeys_guarded rfl,?_,obeys_sends⟩⟩
  exact obeys_getInviterChannel fun _ member => absurd member List.not_mem_nil

theorem obeys_dropPeer : NodeController.dropPeer.Obeys rule [] := by
  have peers : (Locking.Code.act .peers : Code).Obeys rule [.peers] := obeys_own rfl List.mem_cons_self
  have pending : (Locking.Code.act .pendingPeerMessages : Code).Obeys rule [.peers] := obeys_own rfl List.mem_cons_self
  exact ⟨obeys_first ⟨peers,pending,obeys_free rfl⟩,obeys_guarded rfl,obeys_ports⟩

theorem obeys_onAcceptInvitation : NodeController.onAcceptInvitation.Obeys rule [] :=
  ⟨obeys_free rfl,obeys_either.mpr ⟨obeys_dropPeer,obeys_guarded rfl,obeys_free rfl,obeys_addPeer⟩⟩

theorem obeys_onChannelMessage : NodeChannel.onChannelMessage.Obeys rule [] := by
  intro n
  dsimp only
  split
  · exact obeys_onAcceptInvitee
  · exact obeys_onAcceptInvitation
  · exact obeys_checked.mpr ⟨obeys_guarded rfl,obeys_mergePorts,obeys_guarded rfl,obeys_sends⟩
  · exact obeys_checked.mpr ⟨obeys_ports,obeys_free rfl,obeys_mergePorts⟩
  · exact obeys_free rfl
  · trivial

theorem obeys_getNodeController : Core.getNodeController.Obeys rule [] := obeys_first (obeys_free rfl)

theorem obeys_getDispatcher : Core.getDispatcher.Obeys rule [] := obeys_guarded rfl

/-- What uses the attached ports and no more. -/
theorem obeys_attachedPorts (d : Nat) :
    (Locking.Code.locked (.invitation d) (.act (.attachedPorts d)) : Code).Obeys rule [] := obeys_guarded rfl

theorem obeys_createPartialMessagePipe : Core.createPartialMessagePipe.Obeys rule [] :=
  ⟨obeys_getNodeController,obeys_createPortPair,obeys_getNodeController,obeys_getDispatcher⟩

theorem obeys_extractMessagePipeFromInvitation : Core.extractMessagePipeFromInvitation.Obeys rule [] := by
  refine obeys_checked.mpr ⟨obeys_getDispatcher,fun d => obeys_checked.mpr ⟨?_,?_⟩⟩
  · exact obeys_checked.mpr ⟨obeys_attachedPorts d,obeys_getNodeController,obeys_getDispatcher⟩
  · exact ⟨obeys_getNodeController,obeys_createPortPair,obeys_getNodeController,obeys_getDispatcher,
      obeys_getNodeController,obeys_mergePortIntoInviter⟩

theorem obeys_sendInvitation : Core.sendInvitation.Obeys rule [] := by
  have send : NodeController.sendInvitation.Obeys rule [] :=
    ⟨obeys_guarded rfl,obeys_free rfl,fun c => ⟨obeys_start c,obeys_sends c⟩⟩
  exact obeys_checked.mpr ⟨obeys_getDispatcher,fun d =>
    ⟨obeys_attachedPorts d,obeys_attachedPorts d,obeys_getNodeController,send⟩⟩

theorem obeys_acceptInvitation : Core.acceptInvitation.Obeys rule [] := by
  have inviter : (Locking.Code.act .inviterName : Code).Obeys rule [.inviter] := obeys_own rfl List.mem_cons_self
  exact obeys_checked.mpr ⟨obeys_getDispatcher,obeys_getNodeController,obeys_first ⟨inviter,obeys_free rfl⟩,
    obeys_free rfl,obeys_start⟩

theorem obeys_calls : calls.Obeys rule [] := by
  intro n
  dsimp only
  split
  · exact obeys_getDispatcher
  · exact obeys_checked.mpr ⟨obeys_getDispatcher,obeys_checked.mpr ⟨obeys_createPartialMessagePipe,obeys_attachedPorts⟩⟩
  · exact obeys_extractMessagePipeFromInvitation
  · exact obeys_sendInvitation
  · exact obeys_acceptInvitation
  · exact obeys_checked.mpr ⟨obeys_getDispatcher,obeys_either.mpr ⟨trivial,obeys_sendPeerEvent⟩⟩
  · exact obeys_checked.mpr ⟨obeys_getDispatcher,trivial⟩
  · exact obeys_onChannelMessage
  · exact fun c => obeys_guarded rfl
  · exact fun c => obeys_guarded rfl
  · exact obeys_free rfl
  · trivial

end Rules

/-- The memory has the holder of each lock. -/
abbrev State (ι : Type) := Locking.State ι Lock Field (Lock → Option ι)

section Runs
variable {ι : Type} [DecidableEq ι] {s s' : State ι} {t : ι}

/-- Any number of threads, none of which has a lock yet. -/
def threads (ι : Type) : State ι := start (fun _ => calls) fun _ => none

theorem run_sound {labels : List (ι × Nat)}
    (path : Path (step mutexLock) (fun _ _ => True) (threads ι) labels s) : Sound rule s :=
  path.invariant (fun sound _ ran => sound.stepped ran) (sound_start (fun _ => obeys_calls) _)

/-- However the calls of threads interleave, no thread waits for locks in a circle: it can go
on, or waits, perhaps through others, for one that can. -/
theorem run_never_deadlocks {labels : List (ι × Nat)}
    (path : Path (step mutexLock) (fun _ _ => True) (threads ι) labels s) (t : ι) (unfinished : s.thread t ≠ []) :
    ∃ u, Relation.ReflTransGen (Waits s) t u ∧ CanStep mutexLock s u :=
  (run_sound path).no_deadlock mutexLock rank_lt unfinished

/-- Two threads write messages. One looks for the channel with the lock that the other has
taken to queue its message. -/
def twoWriters : List (Bool × Nat) :=
  ([1,5,0,0,0,0,0,0,1,1,1,0,0,0,0,0,0,7,1,0].map fun n => (false,n)) ++
    [1,5,0,0,0,0,0,0,1,1,1,0].map fun n => (true,n)

theorem run_never_deadlocks_twoWriters : ∃ s : State Bool,
    s.owner .peers = some (false,1) ∧ (step mutexLock s (true,0)).isNone ∧
    ∃ u, Relation.ReflTransGen (Waits s) true u ∧ CanStep mutexLock s u := by
  obtain ⟨s,ran,seen⟩ := Option.map_eq_some_iff.mp (show (twoWriters.foldlM (step mutexLock) (threads Bool)).map
    (fun s => (s.owner .peers,(step mutexLock s (true,0)).isNone,(s.thread true).isEmpty)) =
      some (some (false,1),true,false) by decide +kernel)
  obtain ⟨owned,rest⟩ := Prod.mk.inj seen
  obtain ⟨waits,going⟩ := Prod.mk.inj rest
  refine ⟨s,owned,waits,run_never_deadlocks (Path.of_run (fun _ _ _ => trivial) ran) true ?_⟩
  intro finished
  rw [finished] at going
  contradiction

/-- The holder of a lock is the thread that is inside of a block of it. -/
def Holds (s : State ι) : Prop := ∀ l t, s.memory l = some t ↔ .leave l ∈ s.thread t

theorem Holds.moves (holds : Holds s) (sound : Sound rule s) (moved : Moves mutexLock s t s') : Holds s' := by
  have fits := sound.fits t
  cases moved with
  | goes c rest more now same leaves stays =>
    intro l
    apply forall_goes (P := fun u rest => s.memory l = some u ↔ .leave l ∈ rest) s
    · rw [holds l t,now,leaves]
      simp
    · exact fun u _ => holds l u
  | acquires l body rest owner now acquired =>
    intro l'
    apply forall_goes (P := fun u rest => s.memory l' = some u ↔ .leave l' ∈ rest) s
    · rw [holds l' t,now]
      simp
    · exact fun u _ => holds l' u
  | enters l body rest now =>
    rw [now] at fits
    obtain ⟨⟨outer,rfl⟩,_⟩ := fits
    intro l'
    apply forall_goes (P := fun u rest => Function.update s.memory l (some t) l' = some u ↔ .leave l' ∈ rest) s
    · by_cases same : l' = l
      · subst same
        simp
      · rw [Function.update_of_ne same,holds l' t,now]
        simp [same]
    · intro u apart
      by_cases same : l' = l
      · subst same
        have outside := sound.not_entered (l := l') (by rw [now]; exact List.mem_cons_self) apart
        simp [outside,Ne.symm apart]
      · rw [Function.update_of_ne same]
        exact holds l' u
  | leaves l rest now =>
    rw [now] at fits
    obtain ⟨⟨outer,rfl⟩,higher,fits⟩ := fits
    intro l'
    apply forall_goes (P := fun u rest => Function.update s.memory l none l' = some u ↔ .leave l' ∈ rest) s
    · by_cases same : l' = l
      · subst same
        have outside : .leave l' ∉ outer := fun entered => not_held higher (fits.held_of_leave entered)
        simp [outside]
      · rw [Function.update_of_ne same,holds l' t,now]
        simp [same]
    · intro u apart
      by_cases same : l' = l
      · subst same
        have outside := sound.not_entered (l := l') (by rw [now]; exact List.mem_cons_self) apart
        simp [outside]
      · rw [Function.update_of_ne same]
        exact holds l' u
  | releases l rest owner now released =>
    intro l'
    apply forall_goes (P := fun u rest => s.memory l' = some u ↔ .leave l' ∈ rest) s
    · rw [holds l' t,now]
      simp
    · exact fun u _ => holds l' u

structure Exact (s : State ι) : Prop where
  sound : Sound rule s
  holds : Holds s

theorem Exact.step (exact : Exact s) {label : ι × Nat} (ran : Locking.step mutexLock s label = some s') : Exact s' :=
  ⟨exact.sound.stepped ran,exact.holds.moves exact.sound (step_moves ran)⟩

/-- A lock says it is locked by this thread exactly between `Lock` and `UnLock`, when the
thread has the mutex, and has it once. With no thread left it has no holder. -/
theorem run_holders {labels : List (ι × Nat)}
    (path : Path (step mutexLock) (fun _ _ => True) (threads ι) labels s) :
    (∀ l t, isLockedByThisThread s.memory t l ↔ .leave l ∈ s.thread t) ∧
    (∀ l t, isLockedByThisThread s.memory t l → s.owner l = some (t,1)) ∧
    ((∀ t, s.thread t = []) → ∀ l, s.memory l = none ∧ s.owner l = none) := by
  have first : Exact (threads ι) := by
    refine ⟨sound_start (fun _ => obeys_calls) _,?_⟩
    intro l t
    simp [threads,start]
  obtain ⟨sound,holds⟩ := path.invariant (fun exact _ ran => exact.step ran) first
  have inside (l : Lock) (t : ι) : isLockedByThisThread s.memory t l ↔ .leave l ∈ s.thread t := by
    rw [isLockedByThisThread,decide_eq_true_iff]
    exact holds l t
  refine ⟨inside,?_,?_⟩
  · intro l t locked
    exact (sound.owned l t).mpr ((sound.fits t).held_of_leave ((inside l t).mp locked))
  · intro finished l
    constructor
    · rw [Option.eq_none_iff_forall_ne_some]
      intro t held
      have entered := (holds l t).mp held
      rw [finished t] at entered
      exact List.not_mem_nil entered
    · rw [Option.eq_none_iff_forall_ne_some]
      intro owner owned
      obtain ⟨t,n⟩ := owner
      cases sound.once l t n owned
      exact sound.unfinished owned (finished t)

theorem run_holders_twoWriters : ∃ s : State Bool, s.memory .peers = some false ∧
    (∀ l t, isLockedByThisThread s.memory t l ↔ .leave l ∈ s.thread t) ∧
    (∀ l t, isLockedByThisThread s.memory t l → s.owner l = some (t,1)) ∧
    ((∀ t, s.thread t = []) → ∀ l, s.memory l = none ∧ s.owner l = none) := by
  obtain ⟨s,ran,held⟩ := Option.map_eq_some_iff.mp (show
    ((twoWriters ++ [(false,0)]).foldlM (step mutexLock) (threads Bool)).map
      (fun s : State Bool => s.memory .peers) = some (some false) by decide +kernel)
  exact ⟨s,held,run_holders (Path.of_run (fun _ _ _ => trivial) ran)⟩

/-- The field that a thread is about to use. -/
def usedBy : List (Instr Lock Field) → Option Field
  | .code (.act f)::_ => some f
  | _ => none

theorem using_some {rest : List (Instr Lock Field)} {f : Field} (uses : usedBy rest = some f) :
    ∃ more, rest = .code (.act f)::more := by
  unfold usedBy at uses
  split at uses
  · cases uses
    exact ⟨_,rfl⟩
  · contradiction

/-- What a lock guards is used by the thread that has the lock, and by no other thread at
the same time. -/
theorem run_guards {labels : List (ι × Nat)}
    (path : Path (step mutexLock) (fun _ _ => True) (threads ι) labels s) {f : Field} {l : Lock}
    (guarded : guard f = some l) (uses : usedBy (s.thread t) = some f) :
    s.owner l = some (t,1) ∧ ∀ u g, guard g = some l → usedBy (s.thread u) = some g → u = t := by
  have sound := run_sound path
  obtain ⟨rest,now⟩ := using_some uses
  have owned := sound.acts now guarded
  refine ⟨owned,?_⟩
  intro u g guarded' uses'
  obtain ⟨more,now'⟩ := using_some uses'
  rw [sound.acts now' guarded'] at owned
  exact (Prod.mk.inj (Option.some.inj owned)).1

theorem run_guards_twoWriters : ∃ s : State Bool, usedBy (s.thread false) = some .peers ∧
    s.owner .peers = some (false,1) ∧
    ∀ u g, guard g = some .peers → usedBy (s.thread u) = some g → u = false := by
  obtain ⟨s,ran,uses⟩ := Option.map_eq_some_iff.mp (show
    ((twoWriters ++ [(false,0),(false,0)]).foldlM (step mutexLock) (threads Bool)).map
      (fun s : State Bool => usedBy (s.thread false)) = some (some .peers) by decide +kernel)
  exact ⟨s,uses,run_guards (Path.of_run (fun _ _ _ => trivial) ran) rfl uses⟩

end Runs

end MojoImpl.Locks
