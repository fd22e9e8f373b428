import MojoImpl.Concurrency.Peers
import MojoImpl.Foundation.Simulation
import Mathlib.Algebra.Order.Group.Multiset
import Mathlib.Tactic.Abel

/-! Events for a node that may not be a peer yet, through any interleaving of the calls that
send them and the calls that add the peer. -/
namespace MojoImpl.Concurrency
open Foundation Threads
variable {π : Type}

namespace Thread

def hands : Thread π → Multiset π
  | .sendPeerEvent (.start _ p) => {p}
  | .sendPeerEvent (.found _ p) => {p}
  | .sendPeerEvent (.absent _ p) => {p}
  | _ => 0

def returned : Thread π → Multiset π
  | .sendPeerEvent (.returned p) => {p}
  | _ => 0

def protocols (thread : Thread π) : Multiset π := thread.hands + thread.returned

/-- What is left of the queue that AddPeer took out. -/
def draining : Thread π → List π
  | .addPeer (.draining _ pendingMessages) => pendingMessages
  | _ => []

def added : Thread π → Nat
  | .addPeer (.draining _ _) => 1
  | _ => 0

def Finished : Thread π → Prop
  | .sendPeerEvent (.returned _) => True
  | .addPeer .ignored => True
  | .addPeer (.draining _ []) => True
  | _ => False

/-- The call is about the node `n`, and a channel that it has found or added is `channel`. -/
def About (n : NodeName) (channel : Option ChannelPtr) : Thread π → Prop
  | .sendPeerEvent (.start node _) => node = n
  | .sendPeerEvent (.found c _) => channel = some c
  | .sendPeerEvent (.absent node _) => node = n
  | .sendPeerEvent (.returned _) => True
  | .addPeer (.start name _) => name = n
  | .addPeer (.named name _) => name = n
  | .addPeer .ignored => True
  | .addPeer (.draining c _) => channel = some c

end Thread

/-- The state, the calls that were started, and as a history which of them had returned when
another was started. -/
structure Config (π : Type) where
  shared : Shared π
  threads : List (Thread π)
  order : Multiset (π × π)

namespace Config

def hands (k : Config π) : Multiset π := total Thread.hands k.threads
def returned (k : Config π) : Multiset π := total Thread.returned k.threads
def protocols (k : Config π) : Multiset π := total Thread.protocols k.threads
def draining (k : Config π) : Multiset π := total (fun thread => (thread.draining : Multiset π)) k.threads

/-- What has been written since `s₀` to the channel of the peer `n`. -/
def sent (n : NodeName) (s₀ : Shared π) (k : Config π) : List π :=
  match k.shared.peers.lookup n with
  | none => []
  | some c => (k.shared.written c).drop (s₀.written c).length

end Config

/-- The node is not a peer, and nothing is queued for it. -/
def Unknown (n : NodeName) (s : Shared π) : Prop :=
  s.peers.lookup n = none ∧ s.pendingPeerMessages.lookup n = none

/-- Runs of calls for one node in which each step is allowed. A call of SendPeerEvent makes
a protocol of its own. -/
inductive Run (n : NodeName) (s₀ : Shared π) (allowed : Config π → Thread π → Prop) : Config π → Prop
  | start : Run n s₀ allowed ⟨s₀,[],0⟩
  | sendPeerEvent (k : Config π) (p : π) (before : Run n s₀ allowed k) (new : p ∉ k.protocols) :
    Run n s₀ allowed ⟨k.shared,k.threads ++ [.sendPeerEvent (.start n p)],k.order + k.returned.map (·,p)⟩
  | addPeer (k : Config π) (c : ChannelPtr) (before : Run n s₀ allowed k) :
    Run n s₀ allowed ⟨k.shared,k.threads ++ [.addPeer (.start n c)],k.order⟩
  | step (k : Config π) (s : Shared π) (threads : List (Thread π)) (thread : Thread π)
    (before : Run n s₀ allowed k) (met : allowed k thread)
    (ran : Step step thread k.shared k.threads s threads) : Run n s₀ allowed ⟨s,threads,k.order⟩

/-- Each protocol is in one place: with its sender, queued for the peer, in the queue that
the one successful AddPeer drains, or written to the channel of that call. -/
structure Placed (n : NodeName) (s₀ : Shared π) (k : Config π) : Prop where
  distinct : k.protocols.Nodup
  places : k.hands + k.shared.pending n + k.draining + k.sent n s₀ = k.protocols
  written : ∀ c, k.shared.peers.lookup n = some c → k.shared.written c = s₀.written c ++ k.sent n s₀
  silent : ∀ c, k.shared.peers.lookup n ≠ some c → k.shared.written c = s₀.written c
  about : ∀ thread ∈ k.threads, thread.About n (k.shared.peers.lookup n)
  added : total Thread.added k.threads = if k.shared.peers.lookup n = none then 0 else 1
  queued : k.shared.peers.lookup n ≠ none → k.shared.pendingPeerMessages.lookup n = none

theorem protocols_eq (k : Config π) : k.protocols = k.hands + k.returned := total_add ..

section Splits
variable (s : Shared π) (before after : List (Thread π)) (thread : Thread π) (order : Multiset (π × π))

theorem hands_split : Config.hands ⟨s,before ++ thread :: after,order⟩ =
    thread.hands + total Thread.hands (before ++ after) := total_split ..

theorem protocols_split : Config.protocols ⟨s,before ++ thread :: after,order⟩ =
    thread.protocols + total Thread.protocols (before ++ after) := total_split ..

theorem draining_split : Config.draining ⟨s,before ++ thread :: after,order⟩ =
    thread.draining + total (fun thread => (thread.draining : Multiset π)) (before ++ after) := total_split ..

end Splits

theorem Effect.protocols {s t : Shared π} {thread next : Thread π} (effect : Effect s thread t next) :
    next.protocols = thread.protocols := by
  cases effect <;> simp [Thread.protocols,Thread.hands,Thread.returned]

theorem Thread.About.entered {n : NodeName} {thread : Thread π} (about : thread.About n none)
    (channel : Option ChannelPtr) : thread.About n channel := by
  rcases thread with (call | call) <;> cases call <;> first | exact about | contradiction

namespace Placed
variable {n : NodeName} {s₀ s : Shared π} {before after : List (Thread π)} {thread next : Thread π}
  {order : Multiset (π × π)}

theorem quiet (placed : Placed n s₀ ⟨s,before ++ thread :: after,order⟩) {t : Shared π}
    (effect : Effect s thread t next) (peers : t.peers = s.peers)
    (queues : t.pendingPeerMessages = s.pendingPeerMessages) (written : t.written = s.written)
    (hands : next.hands = thread.hands) (draining : next.draining = thread.draining)
    (added : next.added = thread.added) (about : next.About n (s.peers.lookup n)) :
    Placed n s₀ ⟨t,before ++ next :: after,order⟩ where
  distinct := by
    rw [protocols_split,effect.protocols,← protocols_split s]
    exact placed.distinct
  places := by
    have places := placed.places
    rw [hands_split,draining_split,protocols_split] at places
    rw [hands_split,draining_split,protocols_split,effect.protocols,hands,draining,Shared.pending,queues]
    unfold Config.sent at places ⊢
    dsimp only at places ⊢
    rw [peers,written]
    exact places
  written c := by
    have same := placed.written c
    unfold Config.sent at same ⊢
    dsimp only at same ⊢
    rw [peers,written]
    exact same
  silent c := by
    have same := placed.silent c
    dsimp only at same ⊢
    rw [peers,written]
    exact same
  about := by
    have all := (all_split _ _ _ _).mp placed.about
    dsimp only at all ⊢
    rw [peers]
    exact (all_split _ _ _ _).mpr ⟨about,all.2⟩
  added := by
    have count := placed.added
    dsimp only at count ⊢
    rw [total_split] at count ⊢
    rw [added,peers]
    exact count
  queued := by
    have queued := placed.queued
    dsimp only at queued ⊢
    rw [peers,queues]
    exact queued

theorem sent_known {k : Config π} {c : ChannelPtr} (known : k.shared.peers.lookup n = some c) :
    k.sent n s₀ = (k.shared.written c).drop (s₀.written c).length := by
  unfold Config.sent
  rw [known]

theorem sent_unknown {k : Config π} (unknown : k.shared.peers.lookup n = none) : k.sent n s₀ = [] := by
  unfold Config.sent
  rw [unknown]

/-- A protocol written to the channel of the peer comes after what was written before. -/
theorem sent_write {k : Config π} (placed : Placed n s₀ k) {c : ChannelPtr}
    (known : k.shared.peers.lookup n = some c) (p : π) (threads : List (Thread π)) :
    Config.sent n s₀ ⟨k.shared.sendChannelMessage c p,threads,k.order⟩ = k.sent n s₀ ++ [p] := by
  have long : (s₀.written c).length ≤ (k.shared.written c).length := by
    rw [placed.written c known,List.length_append]
    exact Nat.le_add_right _ _
  rw [sent_known known,sent_known (k := ⟨k.shared.sendChannelMessage c p,threads,k.order⟩) known]
  dsimp only [Shared.sendChannelMessage]
  rw [Function.update_self,List.drop_append_of_le_length long]

theorem writes (placed : Placed n s₀ ⟨s,before ++ thread :: after,order⟩) {c : ChannelPtr} {p : π}
    (effect : Effect s thread (s.sendChannelMessage c p) next) (known : s.peers.lookup n = some c)
    (moved : thread.hands + thread.draining = next.hands + (next.draining : Multiset π) + {p})
    (added : next.added = thread.added) (about : next.About n (s.peers.lookup n)) :
    Placed n s₀ ⟨s.sendChannelMessage c p,before ++ next :: after,order⟩ where
  distinct := by
    rw [protocols_split,effect.protocols,← protocols_split s]
    exact placed.distinct
  places := by
    have places := placed.places
    rw [hands_split,draining_split,protocols_split] at places
    rw [hands_split,draining_split,protocols_split,effect.protocols]
    rw [placed.sent_write known p,← places,← Multiset.coe_add,Multiset.coe_singleton]
    have kept : (s.sendChannelMessage c p).pending n = s.pending n := rfl
    dsimp only
    rw [kept]
    generalize total Thread.hands (before ++ after) = others
    generalize total (fun thread => (thread.draining : Multiset π)) (before ++ after) = queues
    calc
      _ = next.hands + (next.draining : Multiset π) + {p} +
          (others + s.pending n + queues + Config.sent n s₀ ⟨s,before ++ thread :: after,order⟩) := by abel
      _ = _ := by
        rw [← moved]
        abel
  written d found := by
    have same : d = c := Option.some.inj (found.symm.trans known)
    subst same
    rw [placed.sent_write known p,← List.append_assoc,← placed.written d known]
    exact Function.update_self ..
  silent d other := by
    have apart : d ≠ c := fun same => other (same ▸ known)
    rw [← placed.silent d other]
    exact Function.update_of_ne apart ..
  about := (all_split _ _ _ _).mpr ⟨about,((all_split _ _ _ _).mp placed.about).2⟩
  added := by
    have count := placed.added
    dsimp only at count ⊢
    rw [total_split] at count ⊢
    rw [added]
    exact count
  queued := placed.queued

theorem queues (placed : Placed n s₀ ⟨s,before ++ thread :: after,order⟩) {p : π}
    (effect : Effect s thread (s.queuePeerMessage n p) next) (unknown : s.peers.lookup n = none)
    (hands : thread.hands = next.hands + {p}) (draining : next.draining = thread.draining)
    (added : next.added = thread.added) (about : next.About n (s.peers.lookup n)) :
    Placed n s₀ ⟨s.queuePeerMessage n p,before ++ next :: after,order⟩ where
  distinct := by
    rw [protocols_split,effect.protocols,← protocols_split s]
    exact placed.distinct
  places := by
    have places := placed.places
    rw [hands_split,draining_split,protocols_split,sent_unknown unknown] at places
    rw [hands_split,draining_split,protocols_split,effect.protocols,sent_unknown unknown]
    rw [← places,draining,hands]
    dsimp only
    rw [Shared.pending_queuePeerMessage,← Multiset.coe_add,Multiset.coe_singleton]
    abel
  written c known := nomatch unknown.symm.trans known
  silent := placed.silent
  about := (all_split _ _ _ _).mpr ⟨about,((all_split _ _ _ _).mp placed.about).2⟩
  added := by
    have count := placed.added
    dsimp only at count ⊢
    rw [total_split] at count ⊢
    rw [added]
    exact count
  queued known := absurd unknown known

theorem sent_enter {k : Config π} (placed : Placed n s₀ k) (unknown : k.shared.peers.lookup n = none)
    (c : ChannelPtr) (threads : List (Thread π)) :
    Config.sent n s₀ ⟨k.shared.enter n c,threads,k.order⟩ = [] := by
  have entered : (k.shared.enter n c).peers.lookup n = some c := AList.lookup_insert _
  have silent := placed.silent c (by rw [unknown]; simp)
  rw [sent_known entered]
  change (k.shared.written c).drop _ = []
  rw [silent,List.drop_length]

theorem enters {c : ChannelPtr} (placed : Placed n s₀ ⟨s,before ++ .addPeer (.named n c) :: after,order⟩)
    (unknown : s.peers.lookup n = none) :
    Placed n s₀ ⟨s.enter n c,before ++ .addPeer (.draining c (s.pending n)) :: after,order⟩ := by
  have entered : (s.enter n c).peers.lookup n = some c := AList.lookup_insert _
  have taken : (s.enter n c).pendingPeerMessages.lookup n = none := AList.lookup_erase _ _
  have silent := placed.silent
  dsimp only at silent
  rw [unknown] at silent
  have nothing := placed.sent_enter unknown c (before ++ .addPeer (.draining c (s.pending n)) :: after)
  constructor
  · rw [protocols_split,(Effect.enter n c unknown).protocols,← protocols_split s]
    exact placed.distinct
  · have places := placed.places
    rw [hands_split,draining_split,protocols_split,sent_unknown unknown] at places
    rw [hands_split,draining_split,protocols_split,(Effect.enter n c unknown).protocols,nothing,← places]
    dsimp only [Thread.hands,Thread.draining]
    rw [Shared.pending_enter,Multiset.coe_nil]
    abel
  · intro d found
    have same : d = c := Option.some.inj (found.symm.trans entered)
    rw [nothing,List.append_nil]
    exact silent d (by simp)
  · intro d _
    exact silent d (by simp)
  · have all := (all_split _ _ _ _).mp placed.about
    apply (all_split (Thread.About n ((s.enter n c).peers.lookup n)) _ _ _).mpr
    refine ⟨entered,?_⟩
    intro thread member
    have about := all.2 thread member
    dsimp only at about
    rw [unknown] at about
    exact about.entered _
  · have count := placed.added
    dsimp only at count ⊢
    rw [total_split,unknown] at count
    rw [total_split,entered]
    dsimp only [Thread.added] at count ⊢
    simp only [if_true,zero_add] at count
    rw [count]
    rfl
  · intro _
    exact taken

theorem effect {t : Shared π} (placed : Placed n s₀ ⟨s,before ++ thread :: after,order⟩)
    (effect : Effect s thread t next) : Placed n s₀ ⟨t,before ++ next :: after,order⟩ := by
  have about := ((all_split _ _ _ _).mp placed.about).1
  dsimp only at about
  cases effect with
  | find node c p known =>
    cases about
    exact placed.quiet (.find n c p known) rfl rfl rfl rfl rfl rfl known
  | miss node p unknown => exact placed.quiet (.miss node p unknown) rfl rfl rfl rfl rfl rfl about
  | send c p =>
    exact placed.writes (.send c p) about (by simp [Thread.hands,Thread.draining]) rfl trivial
  | queue node p unknown =>
    cases about
    exact placed.queues (.queue n p unknown) unknown (by simp [Thread.hands]) rfl rfl trivial
  | sendLate node c p known =>
    cases about
    exact placed.writes (.sendLate n c p known) known (by simp [Thread.hands,Thread.draining]) rfl trivial
  | name name c => exact placed.quiet (.name name c) rfl rfl rfl rfl rfl rfl about
  | ignore name c d known => exact placed.quiet (.ignore name c d known) rfl rfl rfl rfl rfl rfl trivial
  | enter name c unknown =>
    cases about
    exact placed.enters unknown
  | drain c p rest =>
    apply placed.writes (.drain c p rest) about _ rfl about
    simp only [Thread.hands,Thread.draining,← Multiset.cons_coe,← Multiset.singleton_add]
    abel

theorem start (unknown : Unknown n s₀) : Placed n s₀ ⟨s₀,[],0⟩ where
  distinct := Multiset.nodup_zero
  places := by
    rw [sent_unknown unknown.1,Shared.pending,unknown.2]
    rfl
  written c known := nomatch unknown.1.symm.trans known
  silent _ _ := rfl
  about _ member := nomatch member
  added := by
    dsimp only
    rw [if_pos unknown.1]
    rfl
  queued _ := unknown.2

theorem started {threads : List (Thread π)} {order' : Multiset (π × π)} (placed : Placed n s₀ ⟨s,threads,order⟩)
    (distinct : (total Thread.protocols threads + thread.protocols).Nodup) (returned : thread.returned = 0)
    (draining : thread.draining = []) (added : thread.added = 0) (about : thread.About n none) :
    Placed n s₀ ⟨s,threads ++ [thread],order'⟩ where
  distinct := by
    rw [Config.protocols,total_started]
    exact distinct
  places := by
    have places := placed.places
    unfold Config.hands Config.draining Config.protocols at places ⊢
    dsimp only at places ⊢
    rw [total_started,total_started,total_started,draining,Thread.protocols,returned,← places]
    have same : Config.sent n s₀ ⟨s,threads ++ [thread],order'⟩ = Config.sent n s₀ ⟨s,threads,order⟩ := rfl
    rw [same,Multiset.coe_nil]
    abel
  written := placed.written
  silent := placed.silent
  about := by
    intro x member
    rcases List.mem_append.mp member with old | new
    · exact placed.about x old
    · cases List.mem_singleton.mp new
      exact about.entered _
  added := by
    have count := placed.added
    dsimp only at count ⊢
    rw [total_started,added,add_zero]
    exact count
  queued := placed.queued

end Placed

theorem run_placed {n : NodeName} {s₀ : Shared π} {allowed : Config π → Thread π → Prop} {k : Config π}
    (unknown : Unknown n s₀) (run : Run n s₀ allowed k) : Placed n s₀ k := by
  induction run with
  | start => exact Placed.start unknown
  | sendPeerEvent k p before new placed =>
    have about : (Thread.sendPeerEvent (.start n p)).About n none := rfl
    apply placed.started _ rfl rfl rfl about
    have one : (Thread.sendPeerEvent (.start n p)).protocols = {p} := add_zero {p}
    rw [one,add_comm,Multiset.singleton_add]
    exact Multiset.nodup_cons.mpr ⟨new,placed.distinct⟩
  | addPeer k c before placed =>
    have about : (Thread.addPeer (.start n c) : Thread π).About n none := rfl
    apply placed.started _ rfl rfl rfl about
    have zero : (Thread.addPeer (.start n c) : Thread π).protocols = 0 := add_zero 0
    rw [zero,add_zero]
    exact placed.distinct
  | step k s threads thread before met ran placed =>
    obtain ⟨shared,threads',order⟩ := k
    cases ran with
    | step t front rest next ran => exact placed.effect (step_effect ran)

/-- The calls that have finished are those with no step, and none ever waits. -/
theorem finished_iff (s : Shared π) (thread : Thread π) : thread.Finished ↔ step s thread = none := by
  rcases thread with (call | call)
  · cases call with
    | start node p =>
      simp only [step,SendPeerEvent.step]
      split <;> exact iff_of_false id (Option.some_ne_none _)
    | found c p => exact iff_of_false id (Option.some_ne_none _)
    | absent node p =>
      simp only [step,SendPeerEvent.step]
      split <;> exact iff_of_false id (Option.some_ne_none _)
    | returned p => exact ⟨fun _ => rfl,fun _ => trivial⟩
  · cases call with
    | start name c => exact iff_of_false id (Option.some_ne_none _)
    | named name c =>
      simp only [step,AddPeer.step]
      split
      · exact iff_of_false id (Option.some_ne_none _)
      · split <;> exact iff_of_false id (Option.some_ne_none _)
    | ignored => exact ⟨fun _ => rfl,fun _ => trivial⟩
    | draining c pendingMessages =>
      cases pendingMessages with
      | nil => exact ⟨fun _ => rfl,fun _ => trivial⟩
      | cons p rest => exact iff_of_false id (Option.some_ne_none _)

theorem Placed.delivered {n : NodeName} {s₀ : Shared π} {k : Config π} (placed : Placed n s₀ k)
    (finished : ∀ thread ∈ k.threads, thread.Finished) (known : k.shared.peers.lookup n ≠ none) :
    (k.sent n s₀ : Multiset π) = k.protocols ∧ k.shared.pendingPeerMessages.lookup n = none := by
  have empty := placed.queued known
  refine ⟨?_,empty⟩
  have hands : k.hands = 0 := by
    apply total_zero
    intro thread member
    have done := finished thread member
    cases thread with
    | sendPeerEvent call =>
      cases call with
      | returned p => rfl
      | _ => contradiction
    | addPeer call => rfl
  have draining : k.draining = 0 := by
    apply total_zero
    intro thread member
    have done := finished thread member
    cases thread with
    | sendPeerEvent call => rfl
    | addPeer call =>
      cases call with
      | draining c pendingMessages =>
        cases pendingMessages with
        | nil => rfl
        | cons p rest => contradiction
      | _ => rfl
  have places := placed.places
  rwa [hands,draining,Shared.pending,empty,Option.getD_none,Multiset.coe_nil,zero_add,zero_add,zero_add] at places

/-- In every interleaving each protocol is in one place, and in the end written once to the
channel of the peer. -/
theorem run_delivers {n : NodeName} {s₀ : Shared π} {k : Config π} (unknown : Unknown n s₀)
    (run : Run n s₀ (fun _ _ => True) k) :
    Placed n s₀ k ∧ ((∀ thread ∈ k.threads, thread.Finished) → k.shared.peers.lookup n ≠ none →
      (k.sent n s₀ : Multiset π) = k.protocols ∧ k.shared.pendingPeerMessages.lookup n = none) := by
  have placed := run_placed unknown run
  exact ⟨placed,placed.delivered⟩

def AddPeer.work : AddPeer π → Nat
  | start _ _ => 2
  | named _ _ => 1
  | ignored => 0
  | draining _ pendingMessages => pendingMessages.length

/-- Steps that are left of a call, if its protocol goes through the queue. -/
def Thread.work : Thread π → Nat
  | .sendPeerEvent (.start _ _) => 3
  | .sendPeerEvent (.found _ _) => 1
  | .sendPeerEvent (.absent _ _) => 2
  | .sendPeerEvent (.returned _) => 0
  | .addPeer call => call.work

namespace Config

def work (n : NodeName) (k : Config π) : Nat := total Thread.work k.threads + (k.shared.pending n).length

def turn (k : Config π) (i : Nat) : Option (Config π) := do
  let (shared,threads) ← Threads.turn step k.shared k.threads i
  return ⟨shared,threads,k.order⟩

end Config

theorem Effect.works {n : NodeName} {channel : Option ChannelPtr} {s t : Shared π} {thread next : Thread π}
    (about : thread.About n channel) (effect : Effect s thread t next) :
    next.work + (t.pending n).length < thread.work + (s.pending n).length := by
  have written (c : ChannelPtr) (p : π) : (s.sendChannelMessage c p).pending n = s.pending n := rfl
  cases effect with
  | find | miss | ignore =>
    simp only [Thread.work,AddPeer.work]
    omega
  | send | sendLate =>
    rw [written]
    simp only [Thread.work]
    omega
  | queue node p unknown =>
    -- the protocol is drained later on
    cases about
    rw [Shared.pending_queuePeerMessage,List.length_append]
    simp only [Thread.work,List.length_singleton]
    omega
  | name name c =>
    change 1 + (s.pending n).length < 2 + (s.pending n).length
    omega
  | enter name c unknown =>
    cases about
    rw [Shared.pending_enter]
    simp only [Thread.work,AddPeer.work,List.length_nil]
    omega
  | drain =>
    rw [written]
    simp only [Thread.work,AddPeer.work,List.length_cons]
    omega

theorem Placed.works {n : NodeName} {s₀ s t : Shared π} {before after : List (Thread π)} {thread next : Thread π}
    {order : Multiset (π × π)} (placed : Placed n s₀ ⟨s,before ++ thread :: after,order⟩)
    (effect : Effect s thread t next) : Config.work n ⟨t,before ++ next :: after,order⟩ <
      Config.work n ⟨s,before ++ thread :: after,order⟩ := by
  have less := effect.works ((all_split _ _ _ _).mp placed.about).1
  unfold Config.work
  dsimp only
  rw [total_split,total_split]
  omega

/-- However the calls take turns, there are no more of them than `work`, and as long as a call
has not returned it has one. -/
theorem run_returns {n : NodeName} {s₀ : Shared π} {k k' : Config π} {turns : List Nat} (unknown : Unknown n s₀)
    (run : Run n s₀ (fun _ _ => True) k) (path : Path Config.turn (fun _ _ => True) k turns k') :
    Run n s₀ (fun _ _ => True) k' ∧ turns.length + k'.work n ≤ k.work n ∧
      ∀ thread ∈ k'.threads, thread.Finished ∨ ∃ i, k'.turn i ≠ none := by
  have shrinks {k l : Config π} {i : Nat} (run : Run n s₀ (fun _ _ => True) k) (_ : True) (ran : k.turn i = some l) :
      Run n s₀ (fun _ _ => True) l ∧ l.work n < k.work n := by
    obtain ⟨shared,threads,order⟩ := k
    obtain ⟨⟨shared',threads'⟩,turned,same⟩ := Option.bind_eq_some_iff.mp ran
    cases same
    obtain ⟨thread,one⟩ := turn_ran turned
    refine ⟨.step _ _ _ thread run trivial one,?_⟩
    cases one with
    | step t before after next stepped => exact (run_placed unknown run).works (step_effect stepped)
  obtain ⟨run',bound⟩ := path.bounded (Config.work n) shrinks run
  refine ⟨run',bound,fun thread member => ?_⟩
  by_cases done : step k'.shared thread = none
  · exact .inl ((finished_iff _ _).mpr done)
  · obtain ⟨i,goes⟩ := turn_of_step member done
    obtain ⟨next,ran⟩ := Option.ne_none_iff_exists'.mp goes
    refine .inr ⟨i,?_⟩
    rw [Config.turn,ran]
    exact Option.some_ne_none _

/-- An event that is queued before its peer is added and drained afterwards, and one that is sent
to the peer directly. -/
theorem run_delivers_queued : ∃ k : Config Nat, Run ⟨1,2⟩ ⟨∅,∅,fun _ => ⟨0,0⟩,fun _ => []⟩ (fun _ _ => True) k ∧
    k.shared.written 5 = [7,8] ∧
    (k.sent ⟨1,2⟩ ⟨∅,∅,fun _ => ⟨0,0⟩,fun _ => []⟩ : Multiset Nat) = k.protocols := by
  have called : Run ⟨1,2⟩ ⟨∅,∅,fun _ => ⟨0,0⟩,fun _ => []⟩ (fun _ _ => True) _ :=
    .sendPeerEvent _ 7 .start (Multiset.notMem_zero 7)
  have missed := Run.step _ _ _ _ called trivial (.step _ _ [] [] _ rfl)
  have queued := Run.step _ _ _ _ missed trivial (.step _ _ [] [] _ rfl)
  have named := Run.step _ _ _ _ (.addPeer _ 5 queued) trivial (.step _ _ [Thread.sendPeerEvent (.returned 7)] [] _ rfl)
  have entered := Run.step _ _ _ _ named trivial (.step _ _ [Thread.sendPeerEvent (.returned 7)] [] _ rfl)
  have drained := Run.step _ _ _ _ entered trivial (.step _ _ [Thread.sendPeerEvent (.returned 7)] [] _ rfl)
  have again := Run.sendPeerEvent _ 8 drained (by decide)
  have found := Run.step _ _ _ _ again trivial
    (.step _ _ [Thread.sendPeerEvent (.returned 7),.addPeer (.draining 5 [])] [] _ rfl)
  have sent := Run.step _ _ _ _ found trivial
    (.step _ _ [Thread.sendPeerEvent (.returned 7),.addPeer (.draining 5 [])] [] _ rfl)
  refine ⟨_,sent,rfl,((run_delivers ⟨rfl,rfl⟩ sent).2 ?_ nofun).1⟩
  intro thread member
  simp only [List.mem_append,List.mem_cons,List.not_mem_nil,or_false] at member
  rcases member with (rfl | rfl) | rfl <;> trivial

end MojoImpl.Concurrency
