import MojoImpl.Concurrency.Delivery
import MojoImpl.Concurrency.Merges
import Mathlib.Algebra.Order.Group.Multiset
import Mathlib.Tactic.Abel

/-! The requests of calls of MergePortIntoInviter while the inviter is being entered: none
is lost or doubled, and none is written before the acceptance. -/
namespace MojoImpl.Concurrency
open Foundation Threads
variable {ρ : Type}

namespace Sent

def requests : Sent ρ → List ρ
  | .message _ => []
  | .requestPortMerge r => [r]

end Sent

namespace MergePortIntoInviter

def request : MergePortIntoInviter ρ → ρ
  | start r | locked r | named r _ | absent r | found r _ | sending r _ | returned r => r

/-- The request, while the call has not found out whether there is an inviter. -/
def undecided : MergePortIntoInviter ρ → Multiset ρ
  | start r | locked r | named r _ | absent r => {r}
  | _ => 0

def toSend : MergePortIntoInviter ρ → Multiset ρ
  | found r _ | sending r _ => {r}
  | _ => 0

def holds : MergePortIntoInviter ρ → Nat
  | locked _ | named _ _ | absent _ | found _ _ => 1
  | _ => 0

def Finished : MergePortIntoInviter ρ → Prop
  | returned _ => True
  | _ => False

end MergePortIntoInviter

namespace OnAcceptInvitee

def toSend : OnAcceptInvitee ρ → List ρ
  | requesting rest => rest
  | asking r rest _ => r :: rest
  | sending r rest _ => r :: rest
  | _ => []

def Finished : OnAcceptInvitee ρ → Prop
  | requesting [] => True
  | _ => False

def Accepted : OnAcceptInvitee ρ → Prop
  | start _ _ | named _ _ | renamed _ _ => False
  | _ => True

def Connected : OnAcceptInvitee ρ → Prop
  | start _ _ | named _ _ | renamed _ _ => False
  | adding (.draining _ _) => True
  | adding _ => False
  | _ => True

def Swapped : OnAcceptInvitee ρ → Prop
  | requesting _ | asking _ _ _ | sending _ _ _ | null => True
  | _ => False

def Named : OnAcceptInvitee ρ → Prop
  | start _ _ => False
  | _ => True

/-- What the handler carries is about the inviter `n` and its channel `c`, and it drains no
requests. -/
def About (n : NodeName) (c : ChannelPtr) (token : NodeName) : OnAcceptInvitee ρ → Prop
  | start m t | named m t | renamed m t => m = n ∧ t = token
  | adding (.start m d) | adding (.named m d) => m = n ∧ d = c
  | adding .ignored => False
  | adding (.draining d rest) => d = c ∧ ∀ sent ∈ rest, sent.requests = []
  | requesting _ => True
  | asking _ _ m => m = n
  | sending _ _ d => d = c
  | null => False

theorem Swapped.connected {handler : OnAcceptInvitee ρ} (swapped : handler.Swapped) : handler.Connected := by
  cases handler <;> trivial

theorem Connected.accepted {handler : OnAcceptInvitee ρ} (connected : handler.Connected) : handler.Accepted := by
  cases handler <;> trivial

theorem Connected.named {handler : OnAcceptInvitee ρ} (connected : handler.Connected) : handler.Named := by
  cases handler <;> trivial

end OnAcceptInvitee

/-- What a call carries fits how far the handler is: a name read too early is not used after
the pending requests are out. -/
def MergePortIntoInviter.About (n : NodeName) (c : ChannelPtr) (handler : OnAcceptInvitee ρ) :
    MergePortIntoInviter ρ → Prop
  | named _ m => m = n ∨ m = kInvalidNodeName ∧ ¬ handler.Swapped
  | absent _ => ¬ handler.Swapped
  | found _ d | sending _ d => d = c ∧ handler.Connected
  | _ => True

/-- The state, the handler of the one AcceptInvitee, and the calls that were started. -/
structure Merging (ρ : Type) where
  invitee : Invitee ρ
  handler : OnAcceptInvitee ρ
  calls : List (MergePortIntoInviter ρ)

/-- The invitee after AcceptInvitation: it has no peers, and its new channel has been
written to by nobody. What is queued for peers are no requests. -/
structure Waiting (c : ChannelPtr) (s : Invitee ρ) : Prop where
  peers : s.shared.peers = ∅
  inviterName : s.inviterName = kInvalidNodeName
  distinct : s.pendingPortMerges.Nodup
  unlocked : s.pendingPortMergesLocked = false
  written : s.shared.written c = []
  queued : ∀ name, ∀ sent ∈ s.shared.pending name, sent.requests = []

/-- An invitee without peers that has called AcceptInvitation waits on its new channel. -/
theorem Waiting.acceptInvitation {arguments : ρ → List UInt8 × Ports.PortRef} {k : Invitee ρ} {s t : NodeController}
    (ran : s.acceptInvitation = some t) (same : k.Represents arguments t) (peers : s.peers = ∅)
    (distinct : k.pendingPortMerges.Nodup)
    (queued : ∀ name, ∀ sent ∈ k.shared.pending name, sent.requests = []) : Waiting s.created k := by
  cases NodeController.acceptInvitation_ran ran
  have written := same.shared.written s.created
  have new : (s.awaitInviter.channels s.created).written = [] := by
    change (Function.update s.channels s.created ⟨kInvalidNodeName,[]⟩ s.created).written = []
    rw [Function.update_self]
  rw [new] at written
  exact ⟨same.shared.peers.trans peers,same.inviterName,distinct,same.unlocked,List.map_eq_nil_iff.mp written,
    queued⟩

def Invitee.sent (s : Invitee ρ) (c : ChannelPtr) : Multiset ρ := ((s.shared.written c).flatMap Sent.requests : List ρ)

namespace Merging

def requests (k : Merging ρ) : Multiset ρ := (k.calls.map MergePortIntoInviter.request : List ρ)
def undecided (k : Merging ρ) : Multiset ρ := total MergePortIntoInviter.undecided k.calls
def toSend (k : Merging ρ) : Multiset ρ := total MergePortIntoInviter.toSend k.calls + k.handler.toSend

end Merging

inductive Merging.Run (name : NodeName) (c : ChannelPtr) (inviterName token : NodeName) (s₀ : Invitee ρ) :
    Merging ρ → Prop
  -- what is pending by now comes from calls that have returned
  | start : Run name c inviterName token s₀
      ⟨s₀,.start inviterName token,s₀.pendingPortMerges.map .returned⟩
  | call (k : Merging ρ) (r : ρ) (before : Run name c inviterName token s₀ k) (new : r ∉ k.requests) :
    Run name c inviterName token s₀ { k with calls := k.calls ++ [.start r] }
  | caller (k : Merging ρ) (s : Invitee ρ) (calls : List (MergePortIntoInviter ρ)) (call : MergePortIntoInviter ρ)
    (before : Run name c inviterName token s₀ k)
    (ran : Step MergePortIntoInviter.step call k.invitee k.calls s calls) :
    Run name c inviterName token s₀ { k with invitee := s, calls }
  | handler (k : Merging ρ) (s : Invitee ρ) (next : OnAcceptInvitee ρ)
    (before : Run name c inviterName token s₀ k) (ran : k.handler.step name c k.invitee = some (s,next)) :
    Run name c inviterName token s₀ { k with invitee := s, handler := next }

def AfterAcceptance (acceptance : Sent ρ) (written : List (Sent ρ)) : Prop :=
  ∀ before r after, written = before ++ .requestPortMerge r :: after → acceptance ∈ before

theorem AfterAcceptance.extend {acceptance x : Sent ρ} {written : List (Sent ρ)}
    (after : AfterAcceptance acceptance written) (met : ∀ r, x = .requestPortMerge r → acceptance ∈ written) :
    AfterAcceptance acceptance (written ++ [x]) := by
  intro before r rest split
  rcases List.eq_nil_or_concat rest with rfl | ⟨middle,last,rfl⟩
  · obtain ⟨same,single⟩ := List.append_inj' split rfl
    rw [← same]
    exact met r (List.singleton_inj.mp single)
  · rw [List.concat_eq_append,← List.cons_append,← List.append_assoc] at split
    exact after before r middle (List.append_inj' split rfl).1

/-- The peers are what the handler has made them. -/
structure Entering (n : NodeName) (c : ChannelPtr) (token : NodeName) (s : Invitee ρ)
    (handler : OnAcceptInvitee ρ) : Prop where
  unnamed : ¬ handler.Named → s.inviterName = kInvalidNodeName
  named : handler.Named → s.inviterName = n
  peers : ∀ m d, s.shared.peers.lookup m = some d → m = n ∧ d = c ∧ handler.Connected
  connected : handler.Connected → s.shared.peers.lookup n = some c
  about : handler.About n c token
  queued : ∀ sent ∈ s.shared.pending n, sent.requests = []

theorem Entering.unknown {n : NodeName} {c : ChannelPtr} {token : NodeName} {s : Invitee ρ}
    {handler : OnAcceptInvitee ρ} (entering : Entering n c token s handler) (before : ¬ handler.Connected) :
    s.shared.peers.lookup n = none := by
  cases found : s.shared.peers.lookup n with
  | none => rfl
  | some d => exact absurd (entering.peers n d found).2.2 before

theorem Entering.returned {n : NodeName} {c : ChannelPtr} {token : NodeName} {s : Invitee ρ}
    {call : AddPeer (Sent ρ)} (entering : Entering n c token s (.adding call)) (done : call.step s.shared = none) :
    (OnAcceptInvitee.adding call).Connected := by
  cases call with
  | start m d => contradiction
  | named m d =>
    simp only [AddPeer.step] at done
    split at done
    · contradiction
    · split at done <;> contradiction
  | ignored => exact entering.about
  | draining d rest => trivial

theorem Entering.add {n : NodeName} {c : ChannelPtr} {token : NodeName} {s : Invitee ρ}
    {call next : AddPeer (Sent ρ)} {shared : Shared (Sent ρ)} (entering : Entering n c token s (.adding call))
    (one : Effect s.shared (.addPeer call) shared (.addPeer next)) :
    Entering n c token { s with shared } (.adding next) := by
  have about := entering.about
  refine ⟨fun no => absurd trivial no,fun _ => entering.named trivial,?_,?_,?_,?_⟩
  · intro m d found
    cases one with
    | name m' d' => exact (entering.peers m d found).2.2.elim
    | ignore m' d' e known => exact (entering.peers m' e known).2.2.elim
    | enter m' d' unknown =>
      obtain ⟨rfl,rfl⟩ := about
      dsimp only [Shared.enter] at found
      rw [Table.lookup_insert] at found
      split at found
      · next here => exact ⟨here,(Option.some.inj found).symm,trivial⟩
      · exact (entering.peers m d found).2.2.elim
    | drain d' p rest => exact entering.peers m d found
  · intro connected
    cases one with
    | name m' d' => exact connected.elim
    | ignore m' d' e known => exact connected.elim
    | enter m' d' unknown =>
      obtain ⟨rfl,rfl⟩ := about
      exact AList.lookup_insert _
    | drain d' p rest => exact entering.connected trivial
  · cases one with
    | name m' d' => exact about
    | ignore m' d' e known => exact (entering.peers m' e known).2.2
    | enter m' d' unknown =>
      obtain ⟨rfl,rfl⟩ := about
      exact ⟨rfl,entering.queued⟩
    | drain d' p rest => exact ⟨about.1,fun sent member => about.2 sent (List.mem_cons_of_mem _ member)⟩
  · cases one with
    | name m' d' => exact entering.queued
    | ignore m' d' e known => exact entering.queued
    | enter m' d' unknown =>
      obtain ⟨rfl,rfl⟩ := about
      dsimp only
      rw [Shared.pending_enter]
      exact fun sent member => nomatch member
    | drain d' p rest => exact entering.queued

theorem Entering.step {n : NodeName} {c : ChannelPtr} {name token : NodeName} {s t : Invitee ρ}
    {handler next : OnAcceptInvitee ρ} (entering : Entering n c token s handler)
    (effect : OnAcceptInvitee.Effect name c s handler t next) : Entering n c token t next := by
  have about := entering.about
  cases effect with
  | name m token' =>
    exact ⟨fun no => absurd trivial no,fun _ => about.1,fun m d found => (entering.peers m d found).2.2.elim,
      nofun,about,entering.queued⟩
  | rename m token' =>
    exact ⟨fun no => absurd trivial no,fun _ => entering.named trivial,
      fun m d found => (entering.peers m d found).2.2.elim,nofun,about,entering.queued⟩
  | accept m token' =>
    exact ⟨fun no => absurd trivial no,fun _ => entering.named trivial,
      fun m d found => (entering.peers m d found).2.2.elim,nofun,⟨about.1,rfl⟩,entering.queued⟩
  | add call next shared one => exact entering.add one
  | swap call done free =>
    have connected := entering.returned done
    exact ⟨fun no => absurd trivial no,fun _ => entering.named trivial,
      fun m d found => (entering.peers m d found).imp_right fun rest => ⟨rest.1,trivial⟩,
      fun _ => entering.connected connected,trivial,entering.queued⟩
  | ask r rest =>
    exact ⟨fun no => absurd trivial no,fun _ => entering.named trivial,entering.peers,
      entering.connected,entering.named trivial,entering.queued⟩
  | crash r rest m unknown =>
    cases about
    exact absurd (entering.connected trivial) (by rw [unknown]; simp)
  | find r rest m d known =>
    exact ⟨fun no => absurd trivial no,fun _ => entering.named trivial,entering.peers,
      entering.connected,(entering.peers m d known).2.1,entering.queued⟩
  | send r rest d =>
    exact ⟨fun no => absurd trivial no,fun _ => entering.named trivial,entering.peers,
      entering.connected,trivial,entering.queued⟩

/-- Each request is in one place, and those that are written come after the acceptance. -/
structure Merging.Sound (name : NodeName) (c : ChannelPtr) (n token : NodeName) (k : Merging ρ) : Prop where
  entering : Entering n c token k.invitee k.handler
  calls : ∀ call ∈ k.calls, call.About n c k.handler
  lock : total MergePortIntoInviter.holds k.calls = if k.invitee.pendingPortMergesLocked then 1 else 0
  merges : k.handler.Swapped → k.invitee.pendingPortMerges = []
  distinct : k.requests.Nodup
  places : k.undecided + k.invitee.pendingPortMerges + k.toSend + k.invitee.sent c = k.requests
  accepted : k.handler.Accepted → .message (.acceptInvitation ⟨token,name⟩) ∈ k.invitee.shared.written c
  after : AfterAcceptance (.message (.acceptInvitation ⟨token,name⟩)) (k.invitee.shared.written c)

theorem sent_write (s : Invitee ρ) (c : ChannelPtr) (x : Sent ρ) :
    (s.sendChannelMessage c x).sent c = s.sent c + x.requests := by
  unfold Invitee.sent Invitee.sendChannelMessage Shared.sendChannelMessage
  dsimp only
  rw [Function.update_self,List.flatMap_append,List.flatMap_singleton,← Multiset.coe_add]

theorem mem_write (s : Invitee ρ) (c d : ChannelPtr) (x : Sent ρ) {y : Sent ρ} (there : y ∈ s.shared.written c) :
    y ∈ (s.sendChannelMessage d x).shared.written c := by
  unfold Invitee.sendChannelMessage Shared.sendChannelMessage
  dsimp only
  by_cases here : c = d
  · subst here
    rw [Function.update_self]
    exact List.mem_append_left _ there
  · rw [Function.update_of_ne here]
    exact there

namespace Merging.Sound
variable {name n token : NodeName} {c : ChannelPtr} {s t : Invitee ρ} {handler : OnAcceptInvitee ρ}
  {before after : List (MergePortIntoInviter ρ)} {call next : MergePortIntoInviter ρ}

theorem caller_of (sound : Sound name c n token ⟨s,handler,before ++ call :: after⟩)
    (peers : t.shared.peers = s.shared.peers)
    (queues : t.shared.pendingPeerMessages = s.shared.pendingPeerMessages) (inviterName : t.inviterName = s.inviterName)
    (request : next.request = call.request) (about : next.About n c handler)
    (lock : next.holds + (if s.pendingPortMergesLocked then 1 else 0) =
      call.holds + if t.pendingPortMergesLocked then 1 else 0)
    (merges : handler.Swapped → t.pendingPortMerges = [])
    (moved : next.undecided + t.pendingPortMerges + next.toSend + t.sent c =
      call.undecided + s.pendingPortMerges + call.toSend + s.sent c)
    (accepted : handler.Accepted → .message (.acceptInvitation ⟨token,name⟩) ∈ t.shared.written c)
    (ordered : AfterAcceptance (.message (.acceptInvitation ⟨token,name⟩)) (t.shared.written c)) :
    Sound name c n token ⟨t,handler,before ++ next :: after⟩ := by
  have same : requests ⟨t,handler,before ++ next :: after⟩ = requests ⟨s,handler,before ++ call :: after⟩ := by
    unfold requests
    rw [List.map_append,List.map_append,List.map_cons,List.map_cons,request]
  constructor
  · obtain ⟨unnamed,named,known,connected,about,queued⟩ := sound.entering
    constructor
    · exact fun no => inviterName.trans (unnamed no)
    · exact fun yes => inviterName.trans (named yes)
    · dsimp only
      rw [peers]
      exact known
    · dsimp only
      rw [peers]
      exact connected
    · exact about
    · dsimp only
      rw [Shared.pending,queues]
      exact queued
  · exact (all_split _ _ _ _).mpr ⟨about,((all_split _ _ _ _).mp sound.calls).2⟩
  · have count := sound.lock
    dsimp only at count ⊢
    rw [total_split] at count ⊢
    omega
  · exact merges
  · rw [same]
    exact sound.distinct
  · have places := sound.places
    unfold undecided toSend at places ⊢
    dsimp only at places ⊢
    rw [total_split,total_split] at places ⊢
    rw [same,← places]
    generalize total MergePortIntoInviter.undecided (before ++ after) = others
    generalize total MergePortIntoInviter.toSend (before ++ after) = others'
    calc
      _ = next.undecided + t.pendingPortMerges + next.toSend + t.sent c + (others + others' + handler.toSend) := by abel
      _ = _ := by
        rw [moved]
        abel
  · exact accepted
  · exact ordered

theorem caller (sound : Sound name c n token ⟨s,handler,before ++ call :: after⟩) (valid : n ≠ kInvalidNodeName)
    (effect : MergePortIntoInviter.Effect s call t next) : Sound name c n token ⟨t,handler,before ++ next :: after⟩ := by
  have about := ((all_split _ _ _ _).mp sound.calls).1
  have entering := sound.entering
  have locked (holds : call.holds = 1) : s.pendingPortMergesLocked = true := by
    have count := sound.lock
    dsimp only at count
    rw [total_split,holds] at count
    split at count
    · assumption
    · omega
  dsimp only at about entering
  cases effect with
  | lock r free =>
    refine sound.caller_of rfl rfl rfl rfl trivial ?_ sound.merges rfl sound.accepted sound.after
    simp [MergePortIntoInviter.holds,free]
  | ask r =>
    refine sound.caller_of rfl rfl rfl rfl ?_ rfl sound.merges rfl sound.accepted sound.after
    by_cases set : handler.Named
    · exact .inl (entering.named set)
    · exact .inr ⟨entering.unnamed set,fun swapped => set swapped.connected.named⟩
  | miss r m unknown =>
    refine sound.caller_of rfl rfl rfl rfl ?_ rfl sound.merges rfl sound.accepted sound.after
    rcases about with rfl | ⟨_,early⟩
    · exact fun swapped => nomatch unknown.symm.trans (entering.connected swapped.connected)
    · exact early
  | find r m d known =>
    have peer := entering.peers m d known
    refine sound.caller_of rfl rfl rfl rfl ⟨peer.2.1,peer.2.2⟩ rfl sound.merges ?_ sound.accepted sound.after
    simp only [MergePortIntoInviter.undecided,MergePortIntoInviter.toSend]
    abel
  | push r =>
    refine sound.caller_of rfl rfl rfl rfl trivial ?_ (fun swapped => absurd swapped about) ?_ sound.accepted sound.after
    · simp [MergePortIntoInviter.holds,locked rfl]
    · have same : Invitee.sent { s with
          pendingPortMerges := s.pendingPortMerges ++ [r]
          pendingPortMergesLocked := false } c = s.sent c := rfl
      rw [same,← Multiset.coe_add,Multiset.coe_singleton]
      simp only [MergePortIntoInviter.undecided,MergePortIntoInviter.toSend]
      abel
  | unlock r d =>
    refine sound.caller_of rfl rfl rfl rfl about ?_ sound.merges rfl sound.accepted sound.after
    simp [MergePortIntoInviter.holds,locked rfl]
  | send r d =>
    obtain ⟨rfl,connected⟩ := about
    have there := sound.accepted connected.accepted
    refine sound.caller_of rfl rfl rfl rfl trivial rfl sound.merges ?_ (fun _ => mem_write s d d _ there) ?_
    · rw [sent_write]
      simp only [MergePortIntoInviter.undecided,MergePortIntoInviter.toSend,Sent.requests,Multiset.coe_singleton]
      change _ + (s.pendingPortMerges : Multiset ρ) + _ + _ = _
      abel
    · have written : (s.sendChannelMessage d (.requestPortMerge r)).shared.written d =
          s.shared.written d ++ [.requestPortMerge r] := Function.update_self ..
      rw [written]
      exact sound.after.extend fun _ _ => there

theorem handler_of {calls : List (MergePortIntoInviter ρ)} {next : OnAcceptInvitee ρ}
    (sound : Sound name c n token ⟨s,handler,calls⟩) (entering : Entering n c token t next)
    (about : ∀ call ∈ calls, call.About n c next) (locked : t.pendingPortMergesLocked = s.pendingPortMergesLocked)
    (merges : next.Swapped → t.pendingPortMerges = [])
    (moved : (t.pendingPortMerges : Multiset ρ) + next.toSend + t.sent c =
      s.pendingPortMerges + (handler.toSend : Multiset ρ) + s.sent c)
    (accepted : next.Accepted → .message (.acceptInvitation ⟨token,name⟩) ∈ t.shared.written c)
    (ordered : AfterAcceptance (.message (.acceptInvitation ⟨token,name⟩)) (t.shared.written c)) :
    Sound name c n token ⟨t,next,calls⟩ where
  entering := entering
  calls := about
  lock := by
    dsimp only
    rw [locked]
    exact sound.lock
  merges := merges
  distinct := sound.distinct
  places := by
    have places := sound.places
    unfold undecided toSend at places ⊢
    dsimp only at places ⊢
    generalize total MergePortIntoInviter.undecided calls = others at places ⊢
    generalize total MergePortIntoInviter.toSend calls = others' at places ⊢
    calc
      _ = others + others' + ((t.pendingPortMerges : Multiset ρ) + next.toSend + t.sent c) := by abel
      _ = _ := by
        rw [moved]
        abel
      _ = _ := places
  accepted := accepted
  after := ordered

theorem about_handler {call : MergePortIntoInviter ρ} {next : OnAcceptInvitee ρ} (about : call.About n c handler)
    (connected : handler.Connected → next.Connected) (swapped : next.Swapped → handler.Swapped) :
    call.About n c next := by
  cases call with
  | named r m => exact about.imp_right fun early => ⟨early.1,fun late => early.2 (swapped late)⟩
  | absent r => exact fun late => about (swapped late)
  | found r d => exact ⟨about.1,connected about.2⟩
  | sending r d => exact ⟨about.1,connected about.2⟩
  | _ => trivial

/-- When the lock is free no call is between it and the list. -/
theorem about_free {calls : List (MergePortIntoInviter ρ)} (sound : Sound name c n token ⟨s,handler,calls⟩)
    (free : s.pendingPortMergesLocked = false) {next : OnAcceptInvitee ρ} (connected : next.Connected)
    (call : MergePortIntoInviter ρ) (member : call ∈ calls) : call.About n c next := by
  have count := sound.lock
  dsimp only at count
  rw [free] at count
  have none : call.holds = 0 := List.sum_eq_zero_iff_forall_eq_nat.mp count _ (List.mem_map_of_mem member)
  have about := sound.calls call member
  cases call with
  | named r m => contradiction
  | absent r => contradiction
  | found r d => contradiction
  | sending r d => exact ⟨about.1,connected⟩
  | _ => trivial

theorem add {calls : List (MergePortIntoInviter ρ)} {call next : AddPeer (Sent ρ)} {shared : Shared (Sent ρ)}
    (sound : Sound name c n token ⟨s,.adding call,calls⟩)
    (entering : Entering n c token { s with shared } (.adding next))
    (one : Effect s.shared (.addPeer call) shared (.addPeer next)) :
    Sound name c n token ⟨{ s with shared },.adding next,calls⟩ := by
  have about := sound.entering.about
  have calls' (connected : (OnAcceptInvitee.adding call).Connected → (OnAcceptInvitee.adding next).Connected) :
      ∀ other ∈ calls, other.About n c (OnAcceptInvitee.adding next) :=
    fun other member => about_handler (sound.calls other member) connected nofun
  dsimp only at about
  cases one with
  | name m d =>
    exact sound.handler_of entering (calls' nofun) rfl nofun rfl (fun _ => sound.accepted trivial) sound.after
  | ignore m d e known => exact entering.about.elim
  | enter m d unknown =>
    exact sound.handler_of entering (calls' nofun) rfl nofun rfl (fun _ => sound.accepted trivial) sound.after
  | drain d x rest =>
    obtain ⟨rfl,silent⟩ := about
    have none : x.requests = [] := silent x List.mem_cons_self
    have written : (s.sendChannelMessage d x).shared.written d = s.shared.written d ++ [x] :=
      Function.update_self ..
    refine sound.handler_of entering (calls' id) rfl nofun ?_ (fun _ => mem_write s d d _ (sound.accepted trivial)) ?_
    · change _ + _ + (s.sendChannelMessage d x).sent d = _
      rw [sent_write,none,Multiset.coe_nil,add_zero]
      rfl
    · change AfterAcceptance _ ((s.sendChannelMessage d x).shared.written d)
      rw [written]
      apply sound.after.extend
      rintro r rfl
      cases none

theorem handler_step {calls : List (MergePortIntoInviter ρ)} {next : OnAcceptInvitee ρ}
    (sound : Sound name c n token ⟨s,handler,calls⟩) (effect : OnAcceptInvitee.Effect name c s handler t next) :
    Sound name c n token ⟨t,next,calls⟩ := by
  have entering := sound.entering.step effect
  have about := sound.entering.about
  have calls' (connected : handler.Connected → next.Connected) (swapped : next.Swapped → handler.Swapped) :
      ∀ call ∈ calls, call.About n c next :=
    fun call member => about_handler (sound.calls call member) connected swapped
  dsimp only at about
  cases effect with
  | name m token' => exact sound.handler_of entering (calls' nofun nofun) rfl nofun rfl nofun sound.after
  | rename m token' => exact sound.handler_of entering (calls' nofun nofun) rfl nofun rfl nofun sound.after
  | accept m token' =>
    obtain ⟨rfl,rfl⟩ := about
    have written : (s.sendChannelMessage c (.message (.acceptInvitation ⟨token',name⟩))).shared.written c =
        s.shared.written c ++ [.message (.acceptInvitation ⟨token',name⟩)] := Function.update_self ..
    refine sound.handler_of entering (calls' nofun nofun) rfl nofun ?_ (fun _ => ?_) ?_
    · rw [sent_write,Sent.requests,Multiset.coe_nil,add_zero]
      rfl
    · rw [written]
      exact List.mem_append_right _ List.mem_cons_self
    · rw [written]
      exact sound.after.extend nofun
  | add call next shared one => exact sound.add entering one
  | swap call done free =>
    have connected := sound.entering.returned done
    refine sound.handler_of entering (sound.about_free free trivial) rfl (fun _ => rfl) ?_
      (fun _ => sound.accepted trivial) sound.after
    have same : Invitee.sent { s with pendingPortMerges := [] } c = s.sent c := rfl
    rw [same]
    simp only [OnAcceptInvitee.toSend,Multiset.coe_nil]
    abel
  | ask r rest =>
    exact sound.handler_of entering (calls' id id) rfl (fun _ => sound.merges trivial) rfl
      (fun _ => sound.accepted trivial) sound.after
  | crash r rest m unknown => exact entering.about.elim
  | find r rest m d known =>
    exact sound.handler_of entering (calls' id id) rfl (fun _ => sound.merges trivial) rfl
      (fun _ => sound.accepted trivial) sound.after
  | send r rest d =>
    obtain rfl := about
    have there := sound.accepted trivial
    have written : (s.sendChannelMessage d (.requestPortMerge r)).shared.written d =
        s.shared.written d ++ [.requestPortMerge r] := Function.update_self ..
    refine sound.handler_of entering (calls' id id) rfl (fun _ => sound.merges trivial) ?_
      (fun _ => mem_write s d d _ there) ?_
    · rw [sent_write,Sent.requests,Multiset.coe_singleton]
      simp only [OnAcceptInvitee.toSend,← Multiset.cons_coe,← Multiset.singleton_add]
      change (s.pendingPortMerges : Multiset ρ) + _ + _ = _
      abel
    · rw [written]
      exact sound.after.extend fun _ _ => there

theorem start {s₀ : Invitee ρ} (waiting : Waiting c s₀) :
    Sound name c n token ⟨s₀,.start n token,s₀.pendingPortMerges.map .returned⟩ := by
  have all : requests ⟨s₀,.start n token,s₀.pendingPortMerges.map .returned⟩ = s₀.pendingPortMerges := by
    unfold requests
    rw [List.map_map]
    exact congrArg _ (List.map_id _)
  have returned (call : MergePortIntoInviter ρ) (member : call ∈ s₀.pendingPortMerges.map .returned) :
      ∃ r, call = .returned r := (List.mem_map.mp member).imp fun _ found => found.2.symm
  constructor
  · refine ⟨fun _ => waiting.inviterName,nofun,?_,nofun,⟨rfl,rfl⟩,waiting.queued n⟩
    intro m d found
    dsimp only at found
    rw [waiting.peers] at found
    contradiction
  · intro call member
    obtain ⟨r,rfl⟩ := returned call member
    trivial
  · dsimp only
    rw [waiting.unlocked]
    apply total_zero
    intro call member
    obtain ⟨r,rfl⟩ := returned call member
    rfl
  · exact nofun
  · rw [all]
    exact waiting.distinct
  · have undecided : total MergePortIntoInviter.undecided (s₀.pendingPortMerges.map .returned) = 0 := by
      apply total_zero
      intro call member
      obtain ⟨r,rfl⟩ := returned call member
      rfl
    have toSend : total MergePortIntoInviter.toSend (s₀.pendingPortMerges.map .returned) = 0 := by
      apply total_zero
      intro call member
      obtain ⟨r,rfl⟩ := returned call member
      rfl
    rw [all]
    unfold Merging.undecided Merging.toSend Invitee.sent
    dsimp only
    rw [undecided,toSend,waiting.written]
    simp [OnAcceptInvitee.toSend]
  · exact nofun
  · dsimp only
    rw [waiting.written]
    intro before r after split
    cases before <;> contradiction

theorem called {calls : List (MergePortIntoInviter ρ)} (sound : Sound name c n token ⟨s,handler,calls⟩) {r : ρ}
    (new : r ∉ requests ⟨s,handler,calls⟩) : Sound name c n token ⟨s,handler,calls ++ [.start r]⟩ := by
  have all : requests ⟨s,handler,calls ++ [.start r]⟩ = requests ⟨s,handler,calls⟩ + {r} := by
    unfold requests
    rw [List.map_append,← Multiset.coe_add]
    rfl
  constructor
  · exact sound.entering
  · intro call member
    rcases List.mem_append.mp member with old | started
    · exact sound.calls call old
    · cases List.mem_singleton.mp started
      trivial
  · have count := sound.lock
    dsimp only at count ⊢
    rw [total_started,count]
    rfl
  · exact sound.merges
  · rw [all,add_comm,Multiset.singleton_add]
    exact Multiset.nodup_cons.mpr ⟨new,sound.distinct⟩
  · have places := sound.places
    rw [all,← places]
    unfold undecided toSend
    dsimp only
    rw [total_started,total_started]
    simp only [MergePortIntoInviter.undecided,MergePortIntoInviter.toSend]
    abel
  · exact sound.accepted
  · exact sound.after

end Merging.Sound

theorem run_sound {name n token : NodeName} {c : ChannelPtr} {s₀ : Invitee ρ} {k : Merging ρ}
    (valid : n ≠ kInvalidNodeName) (waiting : Waiting c s₀) (run : Merging.Run name c n token s₀ k) :
    k.Sound name c n token := by
  induction run with
  | start => exact .start waiting
  | call k r before new sound => exact sound.called new
  | caller k s calls call before ran sound =>
    obtain ⟨invitee,handler,calls'⟩ := k
    cases ran with
    | step t front rest next ran => exact sound.caller valid (MergePortIntoInviter.step_effect ran)
  | handler k s next before ran sound => exact sound.handler_step (OnAcceptInvitee.step_effect ran)

theorem Merging.Sound.finished {name n token : NodeName} {c : ChannelPtr} {k : Merging ρ}
    (sound : k.Sound name c n token) (handler : k.handler.Finished) (calls : ∀ call ∈ k.calls, call.Finished) :
    k.invitee.sent c = k.requests ∧ k.invitee.pendingPortMerges = [] := by
  obtain ⟨s,h,list⟩ := k
  have places := sound.places
  have done : h = .requesting [] := by
    cases h with
    | requesting rest =>
      cases rest with
      | nil => rfl
      | cons r rest => contradiction
    | _ => contradiction
  have swapped : h.Swapped := by rw [done]; trivial
  have merges := sound.merges swapped
  dsimp only at merges calls
  have undecided : total MergePortIntoInviter.undecided list = 0 := by
    apply total_zero
    intro call member
    have finished := calls call member
    cases call <;> first | rfl | contradiction
  have toSend : total MergePortIntoInviter.toSend list = 0 := by
    apply total_zero
    intro call member
    have finished := calls call member
    cases call <;> first | rfl | contradiction
  unfold Merging.undecided Merging.toSend at places
  dsimp only at places
  rw [undecided,toSend,merges,done,OnAcceptInvitee.toSend,Multiset.coe_nil,add_zero,add_zero,zero_add] at places
  exact ⟨places,merges⟩

theorem holds_steps (s : Invitee ρ) {call : MergePortIntoInviter ρ} (holds : call.holds ≠ 0) :
    call.step s ≠ none := by
  cases call with
  | named r m =>
    simp only [MergePortIntoInviter.step]
    split <;> exact Option.some_ne_none _
  | locked r => exact Option.some_ne_none _
  | absent r => exact Option.some_ne_none _
  | found r d => exact Option.some_ne_none _
  | _ => contradiction

theorem MergePortIntoInviter.finished_of_stuck {s : Invitee ρ} (free : s.pendingPortMergesLocked = false)
    {call : MergePortIntoInviter ρ} (stuck : call.step s = none) : call.Finished := by
  cases call with
  | start r =>
    simp only [step,free] at stuck
    contradiction
  | named r m =>
    simp only [step] at stuck
    split at stuck <;> contradiction
  | returned r => trivial
  | _ => contradiction

theorem OnAcceptInvitee.finished_of_stuck {name n token : NodeName} {c : ChannelPtr} {s : Invitee ρ}
    (free : s.pendingPortMergesLocked = false) {handler : OnAcceptInvitee ρ} (about : handler.About n c token)
    (stuck : handler.step name c s = none) : handler.Finished := by
  cases handler with
  | adding call =>
    simp only [step] at stuck
    split at stuck
    · contradiction
    · rw [free] at stuck
      contradiction
  | requesting rest =>
    cases rest with
    | nil => trivial
    | cons r rest => contradiction
  | asking r rest m =>
    simp only [step] at stuck
    split at stuck <;> contradiction
  | null => exact about.elim
  | _ => contradiction

/-- As long as something has not finished, something has a step: the locks do not deadlock. -/
theorem Merging.Sound.progress {name n token : NodeName} {c : ChannelPtr} {k : Merging ρ}
    (sound : k.Sound name c n token) : (k.handler.Finished ∧ ∀ call ∈ k.calls, call.Finished) ∨
      k.handler.step name c k.invitee ≠ none ∨ ∃ call ∈ k.calls, call.step k.invitee ≠ none := by
  by_cases waits : ∃ call ∈ k.calls, call.step k.invitee ≠ none
  · exact .inr (.inr waits)
  have stuck (call : MergePortIntoInviter ρ) (member : call ∈ k.calls) : call.step k.invitee = none := by
    by_contra steps
    exact waits ⟨call,member,steps⟩
  have free : k.invitee.pendingPortMergesLocked = false := by
    have count := sound.lock
    rw [total_zero fun call member => by_contra fun holds => holds_steps k.invitee holds (stuck call member)] at count
    cases locked : k.invitee.pendingPortMergesLocked with
    | false => rfl
    | true =>
      rw [locked] at count
      contradiction
  by_cases steps : k.handler.step name c k.invitee = none
  · refine .inl ⟨OnAcceptInvitee.finished_of_stuck free sound.entering.about steps,?_⟩
    exact fun call member => MergePortIntoInviter.finished_of_stuck free (stuck call member)
  · exact .inr (.inl steps)

/-- At every moment each request is in one place, requests are written after the acceptance,
and in the end each has been written once. -/
theorem run_requests {name n token : NodeName} {c : ChannelPtr} {s₀ : Invitee ρ} {k : Merging ρ}
    (valid : n ≠ kInvalidNodeName) (waiting : Waiting c s₀) (run : Merging.Run name c n token s₀ k) :
    (k.requests.Nodup ∧ k.undecided + k.invitee.pendingPortMerges + k.toSend + k.invitee.sent c = k.requests) ∧
      AfterAcceptance (.message (.acceptInvitation ⟨token,name⟩)) (k.invitee.shared.written c) ∧
      k.handler ≠ .null ∧
      (k.handler.Finished → (∀ call ∈ k.calls, call.Finished) →
        k.invitee.sent c = k.requests ∧ k.invitee.pendingPortMerges = []) := by
  have sound := run_sound valid waiting run
  refine ⟨⟨sound.distinct,sound.places⟩,sound.after,?_,sound.finished⟩
  intro null
  have about := sound.entering.about
  rw [null] at about
  exact about

/-- Steps that are left of a call, with those of the handler if its request gets pending. -/
def MergePortIntoInviter.work : MergePortIntoInviter ρ → Nat
  | start _ => 7
  | locked _ => 6
  | named _ _ => 5
  | absent _ => 4
  | found _ _ => 2
  | sending _ _ => 1
  | returned _ => 0

def OnAcceptInvitee.work : OnAcceptInvitee ρ → Nat
  | start _ _ => 6
  | named _ _ => 5
  | renamed _ _ => 4
  | adding call => call.work+1
  | requesting rest => 3*rest.length
  | asking _ rest _ => 3*rest.length+2
  | sending _ rest _ => 3*rest.length+1
  | null => 0

namespace Merging

def work (n : NodeName) (k : Merging ρ) : Nat :=
  k.handler.work + total MergePortIntoInviter.work k.calls + 3*k.invitee.pendingPortMerges.length +
    (k.invitee.shared.pending n).length

/-- The handler takes its step, or the call with a number. -/
def turn (name : NodeName) (c : ChannelPtr) (k : Merging ρ) : Option Nat → Option (Merging ρ)
  | none => do
    let (invitee,handler) ← k.handler.step name c k.invitee
    return { k with invitee, handler }
  | some i => do
    let (invitee,calls) ← Threads.turn MergePortIntoInviter.step k.invitee k.calls i
    return { k with invitee, calls }

variable {name n token : NodeName} {c : ChannelPtr} {s₀ : Invitee ρ} {k l : Merging ρ}

theorem caller_works {s t : Invitee ρ} {call next : MergePortIntoInviter ρ}
    (effect : MergePortIntoInviter.Effect s call t next) :
    next.work + 3*t.pendingPortMerges.length + (t.shared.pending n).length <
      call.work + 3*s.pendingPortMerges.length + (s.shared.pending n).length := by
  have written (d : ChannelPtr) (sent : Sent ρ) : (s.sendChannelMessage d sent).shared.pending n = s.shared.pending n := rfl
  cases effect with
  | lock | ask | miss | find | unlock =>
    simp only [MergePortIntoInviter.work]
    omega
  | push =>
    simp only [MergePortIntoInviter.work,List.length_append,List.length_singleton]
    omega
  | send =>
    rw [written]
    simp only [MergePortIntoInviter.work,Invitee.sendChannelMessage]
    omega

theorem handler_works {s t : Invitee ρ} {handler next : OnAcceptInvitee ρ} (about : handler.About n c token)
    (effect : OnAcceptInvitee.Effect name c s handler t next) :
    next.work + 3*t.pendingPortMerges.length + (t.shared.pending n).length <
      handler.work + 3*s.pendingPortMerges.length + (s.shared.pending n).length := by
  have written (d : ChannelPtr) (sent : Sent ρ) : (s.sendChannelMessage d sent).shared.pending n = s.shared.pending n := rfl
  have renamed (m : NodeName) : (s.shared.setRemoteNodeName c m).pending n = s.shared.pending n := rfl
  cases effect with
  | name | ask | crash | find =>
    simp only [OnAcceptInvitee.work,List.length_cons]
    omega
  | rename =>
    rw [renamed]
    simp only [OnAcceptInvitee.work]
    omega
  | accept =>
    rw [written]
    simp only [OnAcceptInvitee.work,AddPeer.work,Invitee.sendChannelMessage]
    omega
  | add call next shared one =>
    have entered : ∃ channel, (Thread.addPeer call).About n channel := by
      cases call with
      | start m d => exact ⟨none,about.1⟩
      | named m d => exact ⟨none,about.1⟩
      | ignored => exact about.elim
      | draining d rest => exact ⟨some d,rfl⟩
    obtain ⟨channel,about⟩ := entered
    have less := one.works about
    simp only [OnAcceptInvitee.work,Thread.work] at less ⊢
    omega
  | swap =>
    simp only [OnAcceptInvitee.work,List.length_nil]
    omega
  | send =>
    rw [written]
    simp only [OnAcceptInvitee.work,Invitee.sendChannelMessage]
    omega

theorem turn_ran {label : Option Nat} (sound : k.Sound name c n token) (run : Run name c n token s₀ k)
    (ran : k.turn name c label = some l) : Run name c n token s₀ l ∧ l.work n < k.work n := by
  obtain ⟨s,handler,calls⟩ := k
  cases label with
  | none =>
    obtain ⟨⟨t,next⟩,stepped,same⟩ := Option.bind_eq_some_iff.mp ran
    cases same
    have less := handler_works sound.entering.about (OnAcceptInvitee.step_effect stepped)
    refine ⟨.handler _ _ _ run stepped,?_⟩
    unfold work
    dsimp only at less ⊢
    omega
  | some i =>
    obtain ⟨⟨t,calls'⟩,turned,same⟩ := Option.bind_eq_some_iff.mp ran
    cases same
    obtain ⟨call,one⟩ := Threads.turn_ran turned
    refine ⟨.caller _ _ _ call run one,?_⟩
    cases one with
    | step t before after next stepped =>
      have less := caller_works (n := n) (MergePortIntoInviter.step_effect stepped)
      unfold work
      simp only [List.append_eq,total_split]
      dsimp only at less
      omega

end Merging

/-- However the handler and the calls take turns, there are no more of them than `work`, and as
long as one of them has not returned some of them has one. -/
theorem run_requests_return {name n token : NodeName} {c : ChannelPtr} {s₀ : Invitee ρ} {k k' : Merging ρ}
    {turns : List (Option Nat)} (valid : n ≠ kInvalidNodeName) (waiting : Waiting c s₀)
    (run : Merging.Run name c n token s₀ k) (path : Path (Merging.turn name c) (fun _ _ => True) k turns k') :
    Merging.Run name c n token s₀ k' ∧ turns.length + k'.work n ≤ k.work n ∧
      ((k'.handler.Finished ∧ ∀ call ∈ k'.calls, call.Finished) ∨ ∃ label, k'.turn name c label ≠ none) := by
  have shrinks {k l : Merging ρ} {label : Option Nat} (run : Merging.Run name c n token s₀ k) (_ : True)
      (ran : k.turn name c label = some l) : Merging.Run name c n token s₀ l ∧ l.work n < k.work n :=
    Merging.turn_ran (run_sound valid waiting run) run ran
  obtain ⟨run',bound⟩ := path.bounded (Merging.work n) shrinks run
  refine ⟨run',bound,?_⟩
  rcases (run_sound valid waiting run').progress with done | steps | ⟨call,member,steps⟩
  · exact .inl done
  · obtain ⟨⟨s,next⟩,ran⟩ := Option.ne_none_iff_exists'.mp steps
    refine .inr ⟨none,?_⟩
    rw [Merging.turn,ran]
    exact Option.some_ne_none _
  · obtain ⟨i,goes⟩ := turn_of_step member steps
    obtain ⟨next,ran⟩ := Option.ne_none_iff_exists'.mp goes
    refine .inr ⟨some i,?_⟩
    rw [Merging.turn,ran]
    exact Option.some_ne_none _

/-- A request that is pending when the inviter is entered, and one that is sent to it directly. -/
theorem run_requests_pending : ∃ k : Merging Nat,
    Merging.Run ⟨6,7⟩ 5 ⟨1,2⟩ ⟨3,4⟩ ⟨⟨∅,∅,fun _ => ⟨0,0⟩,fun _ => []⟩,⟨0,0⟩,[],false⟩ k ∧
      k.invitee.shared.written 5 =
        [.message (.acceptInvitation ⟨⟨3,4⟩,⟨6,7⟩⟩),.requestPortMerge 8,.requestPortMerge 9] ∧
      k.invitee.sent 5 = k.requests := by
  have called : Merging.Run ⟨6,7⟩ 5 ⟨1,2⟩ ⟨3,4⟩ ⟨⟨∅,∅,fun _ => ⟨0,0⟩,fun _ => []⟩,⟨0,0⟩,[],false⟩ _ :=
    .call _ 8 .start (Multiset.notMem_zero 8)
  have locked := Merging.Run.caller _ _ _ _ called (.step _ _ [] [] _ rfl)
  have asked := Merging.Run.caller _ _ _ _ locked (.step _ _ [] [] _ rfl)
  have named := Merging.Run.handler _ _ _ asked rfl
  have renamed := Merging.Run.handler _ _ _ named rfl
  have accepted := Merging.Run.handler _ _ _ renamed rfl
  have adding := Merging.Run.handler _ _ _ accepted rfl
  have entered := Merging.Run.handler _ _ _ adding rfl
  have missed := Merging.Run.caller _ _ _ _ entered (.step _ _ [] [] _ rfl)
  have pushed := Merging.Run.caller _ _ _ _ missed (.step _ _ [] [] _ rfl)
  have swapped := Merging.Run.handler _ _ _ pushed rfl
  have asking := Merging.Run.handler _ _ _ swapped rfl
  have found := Merging.Run.handler _ _ _ asking rfl
  have sent := Merging.Run.handler _ _ _ found rfl
  -- the second call finds the inviter
  have again := Merging.Run.call _ 9 sent (by decide)
  have locked' := Merging.Run.caller _ _ _ _ again (.step _ _ [MergePortIntoInviter.returned 8] [] _ rfl)
  have asked' := Merging.Run.caller _ _ _ _ locked' (.step _ _ [MergePortIntoInviter.returned 8] [] _ rfl)
  have found' := Merging.Run.caller _ _ _ _ asked' (.step _ _ [MergePortIntoInviter.returned 8] [] _ rfl)
  have unlocked := Merging.Run.caller _ _ _ _ found' (.step _ _ [MergePortIntoInviter.returned 8] [] _ rfl)
  have direct := Merging.Run.caller _ _ _ _ unlocked (.step _ _ [MergePortIntoInviter.returned 8] [] _ rfl)
  have waiting : Waiting 5 (⟨⟨∅,∅,fun _ => ⟨0,0⟩,fun _ => []⟩,⟨0,0⟩,[],false⟩ : Invitee Nat) :=
    ⟨rfl,rfl,List.nodup_nil,rfl,rfl,fun _ _ member => nomatch member⟩
  refine ⟨_,direct,rfl,((run_requests (by decide) waiting direct).2.2.2 trivial ?_).1⟩
  intro call member
  simp only [List.mem_append,List.mem_cons,List.not_mem_nil,or_false] at member
  rcases member with rfl | rfl <;> trivial

end MojoImpl.Concurrency
