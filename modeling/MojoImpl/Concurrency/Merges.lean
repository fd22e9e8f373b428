import MojoImpl.Concurrency.Peers

/-! Calls of MergePortIntoInviter next to OnAcceptInvitee. A call keeps
`pending_port_merges_lock_` while it looks for the inviter, which takes two other locks one
after the other, so that lock is a part of the state. -/
namespace MojoImpl.Concurrency
open Foundation Threads

/-- What is written to a channel. A request is written as the call that makes it. -/
inductive Sent (ρ : Type)
  | message (message : Message)
  | requestPortMerge (request : ρ)

structure Invitee (ρ : Type) where
  shared : Shared (Sent ρ)
  inviterName : NodeName
  pendingPortMerges : List ρ
  pendingPortMergesLocked : Bool

/-- Where a call of MergePortIntoInviter is. From `locked` to `found` it has the lock; in
between `GetInviterChannel` has the inviter's name, and then its channel or none. -/
inductive MergePortIntoInviter (ρ : Type)
  | start (request : ρ)
  | locked (request : ρ)
  | named (request : ρ) (inviterName : NodeName)
  | absent (request : ρ)
  | found (request : ρ) (inviter : ChannelPtr)
  | sending (request : ρ) (inviter : ChannelPtr)
  | returned (request : ρ)

/-- Where OnAcceptInvitee is: from `requesting` on in the loop over the requests that were
pending. At `null` it has dereferenced a null pointer. -/
inductive OnAcceptInvitee (ρ : Type)
  | start (inviterName token : NodeName)
  | named (inviterName token : NodeName)
  | renamed (inviterName token : NodeName)
  | adding (call : AddPeer (Sent ρ))
  | requesting (pendingPortMerges : List ρ)
  | asking (request : ρ) (rest : List ρ) (inviterName : NodeName)
  | sending (request : ρ) (rest : List ρ) (inviter : ChannelPtr)
  | null

variable {ρ : Type}

namespace Invitee

def sendChannelMessage (s : Invitee ρ) (c : ChannelPtr) (sent : Sent ρ) : Invitee ρ :=
  { s with shared := s.shared.sendChannelMessage c sent }

end Invitee

def MergePortIntoInviter.step (s : Invitee ρ) :
    MergePortIntoInviter ρ → Option (Invitee ρ × MergePortIntoInviter ρ)
  | start request =>
    if s.pendingPortMergesLocked then none
    else some ({ s with pendingPortMergesLocked := true },locked request)
  | locked request => some (s,named request s.inviterName)
  | named request inviterName =>
    match s.shared.peers.lookup inviterName with
    | none => some (s,absent request)
    | some inviter => some (s,found request inviter)
  | absent request =>
    some ({ s with
      pendingPortMerges := s.pendingPortMerges ++ [request]
      pendingPortMergesLocked := false },returned request)
  | found request inviter => some ({ s with pendingPortMergesLocked := false },sending request inviter)
  | sending request inviter => some (s.sendChannelMessage inviter (.requestPortMerge request),returned request)
  | returned _ => none

/-- `name` and `inviterChannel` are the members that no call changes. -/
def OnAcceptInvitee.step (name : NodeName) (inviterChannel : ChannelPtr) (s : Invitee ρ) :
    OnAcceptInvitee ρ → Option (Invitee ρ × OnAcceptInvitee ρ)
  | start inviterName token => some ({ s with inviterName },named inviterName token)
  | named inviterName token =>
    some ({ s with shared := s.shared.setRemoteNodeName inviterChannel inviterName },renamed inviterName token)
  | renamed inviterName token =>
    some (s.sendChannelMessage inviterChannel (.message (.acceptInvitation ⟨token,name⟩)),
      adding (.start inviterName inviterChannel))
  | adding call =>
    match call.step s.shared with
    | some (shared,call) => some ({ s with shared },adding call)
    -- AddPeer never waits, so it has returned
    | none =>
      if s.pendingPortMergesLocked then none
      else some ({ s with pendingPortMerges := [] },requesting s.pendingPortMerges)
  | requesting [] => none
  | requesting (request :: rest) => some (s,asking request rest s.inviterName)
  | asking request rest inviterName =>
    match s.shared.peers.lookup inviterName with
    | none => some (s,null)
    | some inviter => some (s,sending request rest inviter)
  | sending request rest inviter =>
    some (s.sendChannelMessage inviter (.requestPortMerge request),requesting rest)
  | null => none

namespace MergePortIntoInviter

inductive Effect (s : Invitee ρ) : MergePortIntoInviter ρ → Invitee ρ → MergePortIntoInviter ρ → Prop
  | lock (r : ρ) (free : s.pendingPortMergesLocked = false) :
    Effect s (.start r) { s with pendingPortMergesLocked := true } (.locked r)
  | ask (r : ρ) : Effect s (.locked r) s (.named r s.inviterName)
  | miss (r : ρ) (m : NodeName) (unknown : s.shared.peers.lookup m = none) : Effect s (.named r m) s (.absent r)
  | find (r : ρ) (m : NodeName) (c : ChannelPtr) (known : s.shared.peers.lookup m = some c) :
    Effect s (.named r m) s (.found r c)
  | push (r : ρ) : Effect s (.absent r) { s with
      pendingPortMerges := s.pendingPortMerges ++ [r]
      pendingPortMergesLocked := false } (.returned r)
  | unlock (r : ρ) (c : ChannelPtr) :
    Effect s (.found r c) { s with pendingPortMergesLocked := false } (.sending r c)
  | send (r : ρ) (c : ChannelPtr) :
    Effect s (.sending r c) (s.sendChannelMessage c (.requestPortMerge r)) (.returned r)

theorem step_effect {s t : Invitee ρ} {call next : MergePortIntoInviter ρ}
    (ran : call.step s = some (t,next)) : Effect s call t next := by
  cases call with
  | start r =>
    simp only [step] at ran
    split at ran <;> cases ran
    exact .lock r (Bool.eq_false_iff.mpr ‹_›)
  | locked r =>
    cases ran
    exact .ask r
  | named r m =>
    simp only [step] at ran
    split at ran <;> cases ran
    · exact .miss r m ‹_›
    · exact .find r m _ ‹_›
  | absent r =>
    cases ran
    exact .push r
  | found r c =>
    cases ran
    exact .unlock r c
  | sending r c =>
    cases ran
    exact .send r c
  | returned r => contradiction

end MergePortIntoInviter

namespace OnAcceptInvitee

inductive Effect (name : NodeName) (c : ChannelPtr) (s : Invitee ρ) :
    OnAcceptInvitee ρ → Invitee ρ → OnAcceptInvitee ρ → Prop
  | name (n token : NodeName) : Effect name c s (.start n token) { s with inviterName := n } (.named n token)
  | rename (n token : NodeName) : Effect name c s (.named n token)
      { s with shared := s.shared.setRemoteNodeName c n } (.renamed n token)
  | accept (n token : NodeName) : Effect name c s (.renamed n token)
      (s.sendChannelMessage c (.message (.acceptInvitation ⟨token,name⟩))) (.adding (.start n c))
  | add (call next : AddPeer (Sent ρ)) (shared : Shared (Sent ρ))
    (one : Concurrency.Effect s.shared (.addPeer call) shared (.addPeer next)) :
    Effect name c s (.adding call) { s with shared } (.adding next)
  | swap (call : AddPeer (Sent ρ)) (done : call.step s.shared = none) (free : s.pendingPortMergesLocked = false) :
    Effect name c s (.adding call) { s with pendingPortMerges := [] } (.requesting s.pendingPortMerges)
  | ask (r : ρ) (rest : List ρ) : Effect name c s (.requesting (r :: rest)) s (.asking r rest s.inviterName)
  | crash (r : ρ) (rest : List ρ) (m : NodeName) (unknown : s.shared.peers.lookup m = none) :
    Effect name c s (.asking r rest m) s .null
  | find (r : ρ) (rest : List ρ) (m : NodeName) (d : ChannelPtr) (known : s.shared.peers.lookup m = some d) :
    Effect name c s (.asking r rest m) s (.sending r rest d)
  | send (r : ρ) (rest : List ρ) (d : ChannelPtr) : Effect name c s (.sending r rest d)
      (s.sendChannelMessage d (.requestPortMerge r)) (.requesting rest)

theorem step_effect {name : NodeName} {c : ChannelPtr} {s t : Invitee ρ} {handler next : OnAcceptInvitee ρ}
    (ran : handler.step name c s = some (t,next)) : Effect name c s handler t next := by
  cases handler with
  | start n token =>
    cases ran
    exact .name n token
  | named n token =>
    cases ran
    exact .rename n token
  | renamed n token =>
    cases ran
    exact .accept n token
  | adding call =>
    simp only [step] at ran
    split at ran
    · next shared call' one =>
      cases ran
      apply Effect.add
      apply Concurrency.step_effect
      rw [Concurrency.step,one]
      rfl
    · next done =>
      split at ran <;> cases ran
      exact .swap call done (Bool.eq_false_iff.mpr ‹_›)
  | requesting pendingPortMerges =>
    cases pendingPortMerges with
    | nil => contradiction
    | cons r rest =>
      cases ran
      exact .ask r rest
  | asking r rest m =>
    simp only [step] at ran
    split at ran <;> cases ran
    · exact .crash r rest m ‹_›
    · exact .find r rest m _ ‹_›
  | sending r rest d =>
    cases ran
    exact .send r rest d
  | null => contradiction

end OnAcceptInvitee

section Sequential

def Sent.contents (arguments : ρ → List UInt8 × Ports.PortRef) : Sent ρ → Message
  | .message contents => contents
  | .requestPortMerge request => NodeController.mergeRequest (arguments request)

/-- The members as a controller has them, by the arguments of the calls. -/
structure Invitee.Represents (arguments : ρ → List UInt8 × Ports.PortRef) (k : Invitee ρ) (s : NodeController) :
    Prop where
  shared : Concurrency.Represents (Sent.contents arguments) k.shared s
  inviterName : k.inviterName = s.inviterName
  merges : k.pendingPortMerges.map arguments = s.pendingPortMerges
  unlocked : k.pendingPortMergesLocked = false

namespace Invitee.Represents
variable {arguments : ρ → List UInt8 × Ports.PortRef} {k : Invitee ρ} {s : NodeController}

theorem sendRequest (same : Represents arguments k s) (c : ChannelPtr) (request : ρ) :
    Represents arguments (k.sendChannelMessage c (.requestPortMerge request))
      (s.sendChannelMessage c (NodeController.mergeRequest (arguments request))) where
  shared := by
    have sent := same.shared.sendChannelMessage c (.requestPortMerge request)
    exact sent
  inviterName := same.inviterName
  merges := same.merges
  unlocked := same.unlocked

theorem mergePortIntoInviter_alone (same : Represents arguments k s) (request : ρ) :
    ∃ t, Alone MergePortIntoInviter.step k (.start request) t (.returned request) ∧
      Represents arguments t (s.mergePortIntoInviter (arguments request).1 (arguments request).2) := by
  have locks : MergePortIntoInviter.step k (.start request) =
      some ({ k with pendingPortMergesLocked := true },.locked request) := by
    simp only [MergePortIntoInviter.step,same.unlocked]
    rfl
  unfold NodeController.mergePortIntoInviter NodeController.getInviterChannel NodeController.getPeerChannel
  have looked : s.peers.lookup s.inviterName = k.shared.peers.lookup k.inviterName := by
    rw [same.inviterName,same.shared.peers]
  rw [looked]
  cases known : k.shared.peers.lookup k.inviterName with
  | none =>
    have misses : MergePortIntoInviter.step { k with pendingPortMergesLocked := true }
        (.named request k.inviterName) = some ({ k with pendingPortMergesLocked := true },.absent request) := by
      simp only [MergePortIntoInviter.step,known]
    refine ⟨{ k with pendingPortMerges := k.pendingPortMerges ++ [request], pendingPortMergesLocked := false },
      .step _ _ _ _ _ _ locks (.step _ _ _ _ _ _ rfl (.step _ _ _ _ _ _ misses (.one rfl))),?_⟩
    refine ⟨⟨same.shared.peers,same.shared.pending,same.shared.remote,same.shared.written⟩,same.inviterName,?_,rfl⟩
    dsimp only
    rw [List.map_append,same.merges]
    rfl
  | some c =>
    have finds : MergePortIntoInviter.step { k with pendingPortMergesLocked := true }
        (.named request k.inviterName) = some ({ k with pendingPortMergesLocked := true },.found request c) := by
      simp only [MergePortIntoInviter.step,known]
    have unlocks : { k with pendingPortMergesLocked := false } = k := by
      rw [← same.unlocked]
    have unlocked : MergePortIntoInviter.step { k with pendingPortMergesLocked := true } (.found request c) =
        some (k,.sending request c) := congrArg (fun t => some (t,_)) unlocks
    exact ⟨_,.step _ _ _ _ _ _ locks (.step _ _ _ _ _ _ rfl (.step _ _ _ _ _ _ finds
      (.step _ _ _ _ _ _ unlocked (.one rfl)))),same.sendRequest c request⟩

theorem adding_alone (name : NodeName) (c : ChannelPtr) (k : Invitee ρ) {u t : Shared (Sent ρ)}
    {call last : AddPeer (Sent ρ)} (alone : Alone AddPeer.step u call t last) :
    Alone (OnAcceptInvitee.step name c) { k with shared := u } (.adding call)
      { k with shared := t } (.adding last) := by
  induction alone with
  | stop s call => exact .stop _ _
  | step s v t call next last ran rest ih =>
    apply Alone.step _ _ _ _ _ _ _ ih
    simp only [OnAcceptInvitee.step,ran]

theorem requesting_alone (same : Represents arguments k s) (name : NodeName) (c : ChannelPtr) (rest : List ρ)
    {u : NodeController} (ran : (rest.map arguments).foldlM NodeController.requestPendingMerge s = some u) :
    ∃ t, Alone (OnAcceptInvitee.step name c) k (.requesting rest) t (.requesting []) ∧ Represents arguments t u := by
  induction rest generalizing k s with
  | nil =>
    cases ran
    exact ⟨k,.stop _ _,same⟩
  | cons request rest ih =>
    rw [List.map_cons,List.foldlM_cons] at ran
    obtain ⟨v,one,more⟩ := Option.bind_eq_some_iff.mp ran
    obtain ⟨inviter,known,sent⟩ := Option.bind_eq_some_iff.mp one
    cases sent
    obtain ⟨t,alone,last⟩ := ih (same.sendRequest inviter request) more
    have finds : OnAcceptInvitee.step name c k (.asking request rest k.inviterName) =
        some (k,.sending request rest inviter) := by
      have found : k.shared.peers.lookup k.inviterName = some inviter := by
        rw [same.inviterName,same.shared.peers]
        exact known
      simp only [OnAcceptInvitee.step,found]
    exact ⟨t,.step _ _ _ _ _ _ rfl (.step _ _ _ _ _ _ finds (.step _ _ _ _ _ _ rfl alone)),last⟩

theorem onAcceptInvitee_alone (same : Represents arguments k s) {c : ChannelPtr} (set : s.inviterChannel = some c)
    (inviterName token : NodeName) {u : NodeController} (ran : s.onAcceptInvitee inviterName token = some u) :
    ∃ t, Alone (OnAcceptInvitee.step s.name c) k (.start inviterName token) t (.requesting []) ∧
      Represents arguments t u := by
  rw [NodeController.onAcceptInvitee_some set] at ran
  have named : Concurrency.Represents (Sent.contents arguments) k.shared { s with inviterName := inviterName } :=
    ⟨same.shared.peers,same.shared.pending,same.shared.remote,same.shared.written⟩
  have accepted := (named.setRemoteNodeName c inviterName).sendChannelMessage c
    (.message (.acceptInvitation ⟨token,s.name⟩))
  generalize written : ({ s with inviterName := inviterName }.setRemoteNodeName c inviterName).sendChannelMessage c
    (.acceptInvitation ⟨token,s.name⟩) = v at ran
  have accepted' : Concurrency.Represents (Sent.contents arguments) _ v := written ▸ accepted
  obtain ⟨shared,last,stops,adds,entered⟩ := accepted'.addPeer_alone inviterName c
  obtain ⟨peers,pending,channels,shape,_⟩ := v.addPeer_shape inviterName c
  have swaps : OnAcceptInvitee.step s.name c { k with shared, inviterName } (.adding last) =
      some ({ k with shared, inviterName, pendingPortMerges := [] },.requesting k.pendingPortMerges) := by
    simp only [OnAcceptInvitee.step,stops,same.unlocked]
    rfl
  have merges : (v.addPeer inviterName c).pendingPortMerges = k.pendingPortMerges.map arguments := by
    rw [shape,same.merges,← written]
    rfl
  have swapped : Represents arguments { k with shared, inviterName, pendingPortMerges := [] }
      { v.addPeer inviterName c with pendingPortMerges := [] } := by
    refine ⟨⟨entered.peers,entered.pending,entered.remote,entered.written⟩,?_,rfl,same.unlocked⟩
    dsimp only
    rw [shape,← written]
    rfl
  unfold NodeController.handlePendingMergePort at ran
  rw [merges] at ran
  obtain ⟨t,requests,final⟩ := swapped.requesting_alone s.name c k.pendingPortMerges ran
  have whole := adding_alone s.name c { k with inviterName } adds
  exact ⟨t,.step _ _ _ _ _ _ rfl (.step _ _ _ _ _ _ rfl (.step _ _ _ _ _ _ rfl
    (whole.trans (.step _ _ _ _ _ _ swaps requests)))),final⟩

end Invitee.Represents

end Sequential

end MojoImpl.Concurrency
