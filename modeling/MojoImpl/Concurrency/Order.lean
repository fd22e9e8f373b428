import MojoImpl.Concurrency.Delivery

/-! The order of the events for a peer. What is queued stays in order, also while it is
drained; a call that finds the peer meanwhile does not wait for what is left. -/
namespace MojoImpl.Concurrency
open Foundation Threads
variable {π : Type}

/-- The protocol that the next step of a call writes without queueing it. -/
def Thread.direct (s : Shared π) : Thread π → Option π
  | .sendPeerEvent (.found _ p) => some p
  | .sendPeerEvent (.absent node p) => (s.peers.lookup node).map fun _ => p
  | _ => none

/-- A protocol is not written directly while one of a call that had returned before is still
being drained. -/
def Unhurried (k : Config π) (thread : Thread π) : Prop :=
  ∀ p, thread.direct k.shared = some p → ∀ x ∈ k.order, x.2 = p → x.1 ∉ k.draining

/-- What a call sends has been written after what the calls that had returned before have sent. -/
def Ordered (n : NodeName) (s₀ : Shared π) (k : Config π) : Prop :=
  ∀ x ∈ k.order, x.2 ∈ k.sent n s₀ → [x.1,x.2].Sublist (k.sent n s₀)

def queue (threads : List (Thread π)) : List π := threads.flatMap Thread.draining

namespace Config

/-- The protocols on their way to the peer, the first ones first. -/
def line (n : NodeName) (s₀ : Shared π) (k : Config π) : List π := k.sent n s₀ ++ queue k.threads ++ k.shared.pending n

theorem draining_queue (k : Config π) : k.draining = (queue k.threads : Multiset π) :=
  total_lists Thread.draining k.threads

end Config

namespace Placed
variable {n : NodeName} {s₀ s : Shared π} {before after : List (Thread π)} {thread next : Thread π}
  {order : Multiset (π × π)} {k : Config π}

theorem line_returned (placed : Placed n s₀ k) : (k.line n s₀ : Multiset π) = k.returned := by
  have places := placed.places
  rw [protocols_eq,k.draining_queue,add_assoc,add_assoc,add_right_inj] at places
  rw [← places,Config.line,← Multiset.coe_add,← Multiset.coe_add]
  abel

theorem line_nodup (placed : Placed n s₀ k) : (k.line n s₀).Nodup := by
  have all := placed.distinct
  rw [protocols_eq,← placed.line_returned] at all
  exact Multiset.coe_nodup.mp (Multiset.nodup_of_le (Multiset.le_add_left _ _) all)

theorem mem_line (placed : Placed n s₀ k) (p : π) : p ∈ k.line n s₀ ↔ p ∈ k.returned := by
  rw [← placed.line_returned]
  exact Multiset.mem_coe.symm

theorem queue_unknown (placed : Placed n s₀ k) (unknown : k.shared.peers.lookup n = none) : queue k.threads = [] := by
  apply List.flatMap_eq_nil_iff.mpr
  intro thread member
  have about := placed.about thread member
  rw [unknown] at about
  cases thread with
  | sendPeerEvent call => rfl
  | addPeer call =>
    cases call with
    | draining c pendingMessages => contradiction
    | _ => rfl

theorem queue_alone (placed : Placed n s₀ ⟨s,before ++ thread :: after,order⟩) (added : thread.added = 1) :
    queue (before ++ thread :: after) = thread.draining := by
  have count := placed.added
  dsimp only at count
  rw [total_split,added] at count
  have none : total Thread.added (before ++ after) = 0 := by
    split at count <;> omega
  have others : (before ++ after).flatMap Thread.draining = [] := by
    apply List.flatMap_eq_nil_iff.mpr
    intro other member
    have zero : other.added = 0 := List.sum_eq_zero_iff_forall_eq_nat.mp none _ (List.mem_map_of_mem member)
    cases other with
    | sendPeerEvent call => rfl
    | addPeer call =>
      cases call with
      | draining c pendingMessages => contradiction
      | _ => rfl
  rw [List.flatMap_append,List.append_eq_nil_iff] at others
  rw [queue,List.flatMap_append,List.flatMap_cons,others.1,others.2,List.nil_append,List.append_nil]

end Placed

theorem queue_same {before after : List (Thread π)} {thread next : Thread π}
    (same : next.draining = thread.draining) : queue (before ++ next :: after) = queue (before ++ thread :: after) := by
  unfold queue
  rw [List.flatMap_append,List.flatMap_append,List.flatMap_cons,List.flatMap_cons,same]

inductive Moves (n : NodeName) (s₀ : Shared π) (k : Config π) (thread : Thread π) (t : Config π) : Prop
  | stays (quiet : thread.direct k.shared = none) (same : t.line n s₀ = k.line n s₀)
  | joins (p : π) (quiet : thread.direct k.shared = none) (last : t.line n s₀ = k.line n s₀ ++ [p])
  | overtakes (p : π) (direct : thread.direct k.shared = some p) (written : t.sent n s₀ = k.sent n s₀ ++ [p])
    (left : k.line n s₀ = k.sent n s₀ ++ queue k.threads) (line : t.line n s₀ = k.sent n s₀ ++ [p] ++ queue k.threads)

section Moving
variable {n : NodeName} {s₀ s t : Shared π} {before after : List (Thread π)} {thread next : Thread π}
  {order : Multiset (π × π)}

theorem pending_known {k : Config π} (placed : Placed n s₀ k) {c : ChannelPtr}
    (known : k.shared.peers.lookup n = some c) : k.shared.pending n = [] := by
  have empty : k.shared.pendingPeerMessages.lookup n = none := placed.queued (by rw [known]; simp)
  rw [Shared.pending,empty]
  rfl

theorem direct_moves (placed : Placed n s₀ ⟨s,before ++ thread :: after,order⟩) {c : ChannelPtr} {p : π}
    (known : s.peers.lookup n = some c) (direct : thread.direct s = some p)
    (draining : next.draining = thread.draining) :
    Moves n s₀ ⟨s,before ++ thread :: after,order⟩ thread
      ⟨s.sendChannelMessage c p,before ++ next :: after,order⟩ := by
  have none := pending_known placed known
  apply Moves.overtakes p direct (placed.sent_write known p _)
  · rw [Config.line,none,List.append_nil]
  · have none' : (s.sendChannelMessage c p).pending n = [] := none
    rw [Config.line,placed.sent_write known p,queue_same draining,none',List.append_nil]

theorem queue_moves {p : π} (unknown : s.peers.lookup n = none) (quiet : thread.direct s = none)
    (draining : next.draining = thread.draining) :
    Moves n s₀ ⟨s,before ++ thread :: after,order⟩ thread
      ⟨s.queuePeerMessage n p,before ++ next :: after,order⟩ := by
  apply Moves.joins p quiet
  unfold Config.line
  rw [queue_same draining,Placed.sent_unknown unknown,Placed.sent_unknown unknown]
  dsimp only
  rw [Shared.pending_queuePeerMessage,List.append_assoc _ (s.pending n)]

theorem enter_moves {c : ChannelPtr} (placed : Placed n s₀ ⟨s,before ++ .addPeer (.named n c) :: after,order⟩)
    (unknown : s.peers.lookup n = none) :
    Moves n s₀ ⟨s,before ++ .addPeer (.named n c) :: after,order⟩ (.addPeer (.named n c))
      ⟨s.enter n c,before ++ .addPeer (.draining c (s.pending n)) :: after,order⟩ := by
  have drains := (placed.enters unknown).queue_alone rfl
  apply Moves.stays rfl
  unfold Config.line
  rw [placed.sent_enter unknown c,drains,Placed.sent_unknown unknown,placed.queue_unknown unknown]
  dsimp only
  rw [Shared.pending_enter,List.append_nil]
  rfl

theorem drain_moves {c : ChannelPtr} {p : π} {rest : List π}
    (placed : Placed n s₀ ⟨s,before ++ .addPeer (.draining c (p :: rest)) :: after,order⟩)
    (known : s.peers.lookup n = some c) :
    Moves n s₀ ⟨s,before ++ .addPeer (.draining c (p :: rest)) :: after,order⟩ (.addPeer (.draining c (p :: rest)))
      ⟨s.sendChannelMessage c p,before ++ .addPeer (.draining c rest) :: after,order⟩ := by
  have first := placed.queue_alone rfl
  have drains := (placed.effect (.drain c p rest)).queue_alone rfl
  apply Moves.stays rfl
  unfold Config.line
  rw [placed.sent_write known p,drains,first,List.append_assoc (Config.sent ..)]
  rfl

theorem effect_moves (placed : Placed n s₀ ⟨s,before ++ thread :: after,order⟩)
    (effect : Effect s thread t next) :
    Moves n s₀ ⟨s,before ++ thread :: after,order⟩ thread ⟨t,before ++ next :: after,order⟩ := by
  have about := ((all_split _ _ _ _).mp placed.about).1
  have still (draining : next.draining = thread.draining) :
      queue (before ++ next :: after) = queue (before ++ thread :: after) := queue_same draining
  dsimp only at about
  cases effect with
  | find node c p known => exact .stays rfl (by rw [Config.line,still rfl]; rfl)
  | miss node p unknown => exact .stays rfl (by rw [Config.line,still rfl]; rfl)
  | send c p => exact direct_moves placed about rfl rfl
  | queue node p unknown =>
    cases about
    exact queue_moves unknown (by rw [Thread.direct,unknown]; rfl) rfl
  | sendLate node c p known =>
    cases about
    exact direct_moves placed known (by rw [Thread.direct,known]; rfl) rfl
  | name name c => exact .stays rfl (by rw [Config.line,still rfl]; rfl)
  | ignore name c d known => exact .stays rfl (by rw [Config.line,still rfl]; rfl)
  | enter name c unknown =>
    cases about
    exact enter_moves placed unknown
  | drain c p rest => exact drain_moves placed about

end Moving

/-- A call that had returned when another started is before it in the line. -/
structure Lined (n : NodeName) (s₀ : Shared π) (k : Config π) : Prop where
  early : ∀ x ∈ k.order, x.1 ∈ k.line n s₀
  before : ∀ x ∈ k.order, x.2 ∈ k.line n s₀ → [x.1,x.2].Sublist (k.line n s₀)

theorem sublist_of_append {first last : List π} {x y : π} (distinct : (first ++ last).Nodup)
    (here : y ∈ first) (both : [x,y].Sublist (first ++ last)) : [x,y].Sublist first := by
  obtain ⟨front,rest,split,inFirst,inLast⟩ := List.sublist_append_iff.mp both
  cases rest with
  | nil => rwa [split,List.append_nil]
  | cons z rest =>
    have there : y ∈ z :: rest := by
      have final := congrArg List.getLast? split
      rw [List.getLast?_append_cons] at final
      exact List.mem_of_getLast? final.symm
    exact absurd rfl ((List.nodup_append.mp distinct).2.2 y here y (inLast.subset there))

theorem Lined.ordered {n : NodeName} {s₀ : Shared π} {k : Config π} (lined : Lined n s₀ k)
    (placed : Placed n s₀ k) : Ordered n s₀ k := by
  intro x member sent
  have distinct := placed.line_nodup
  have both := lined.before x member
  unfold Config.line at distinct both
  rw [List.append_assoc] at distinct both
  exact sublist_of_append distinct sent (both (List.mem_append_left _ sent))

theorem Lined.moves {n : NodeName} {s₀ t : Shared π} {k : Config π} {thread : Thread π}
    {threads : List (Thread π)} (lined : Lined n s₀ k) (met : Unhurried k thread)
    (moves : Moves n s₀ k thread ⟨t,threads,k.order⟩) : Lined n s₀ ⟨t,threads,k.order⟩ := by
  cases moves with
  | stays quiet same =>
    constructor
    · intro x member
      rw [same]
      exact lined.early x member
    · rw [same]
      exact lined.before
  | joins p quiet last =>
    constructor
    · intro x member
      rw [last]
      exact List.mem_append_left _ (lined.early x member)
    · intro x member there
      rw [last] at there ⊢
      rcases List.mem_append.mp there with old | new
      · exact (lined.before x member old).trans (List.sublist_append_left _ _)
      · cases List.mem_singleton.mp new
        exact (List.singleton_sublist.mpr (lined.early x member)).append (List.Sublist.refl [x.2])
  | overtakes p direct written left line =>
    have longer : (k.line n s₀).Sublist (k.sent n s₀ ++ [p] ++ queue k.threads) := by
      rw [left]
      exact (List.sublist_append_left _ [p]).append (List.Sublist.refl _)
    constructor
    · intro x member
      rw [line]
      exact longer.subset (lined.early x member)
    · intro x member there
      rw [line] at there ⊢
      by_cases own : x.2 = p
      · -- what is before it is not in the queue any more
        have first := lined.early x member
        rw [left] at first
        have waits := met p direct x member own
        rw [k.draining_queue,Multiset.mem_coe] at waits
        have sent : x.1 ∈ k.sent n s₀ := (List.mem_append.mp first).resolve_right waits
        rw [own]
        exact ((List.singleton_sublist.mpr sent).append (List.Sublist.refl [p])).trans (List.sublist_append_left _ _)
      · have old : x.2 ∈ k.line n s₀ := by
          rw [left]
          simp only [List.mem_append,List.mem_singleton,own,or_false] at there
          exact List.mem_append.mpr there
        exact (lined.before x member old).trans longer

theorem line_started (n : NodeName) (s₀ : Shared π) (k : Config π) (thread : Thread π)
    (empty : thread.draining = []) (order : Multiset (π × π)) :
    Config.line n s₀ ⟨k.shared,k.threads ++ [thread],order⟩ = k.line n s₀ := by
  unfold Config.line
  dsimp only
  rw [queue,List.flatMap_append,List.flatMap_singleton,empty,List.append_nil]
  rfl

theorem run_lined {n : NodeName} {s₀ : Shared π} {k : Config π} (unknown : Unknown n s₀)
    (run : Run n s₀ Unhurried k) : Lined n s₀ k := by
  induction run with
  | start =>
    constructor
    · exact fun x member => absurd member (Multiset.notMem_zero x)
    · exact fun x member => absurd member (Multiset.notMem_zero x)
  | sendPeerEvent k p before new lined =>
    have placed := run_placed unknown before
    have same := line_started n s₀ k (.sendPeerEvent (.start n p)) rfl (k.order + k.returned.map (·,p))
    constructor
    · intro x member
      rw [same]
      rcases Multiset.mem_add.mp member with old | added
      · exact lined.early x old
      · obtain ⟨q,returned,rfl⟩ := Multiset.mem_map.mp added
        exact (placed.mem_line q).mpr returned
    · intro x member there
      rw [same] at there ⊢
      rcases Multiset.mem_add.mp member with old | added
      · exact lined.before x old there
      · obtain ⟨q,_,rfl⟩ := Multiset.mem_map.mp added
        have known := (placed.mem_line p).mp there
        rw [protocols_eq] at new
        exact absurd (Multiset.mem_add.mpr (.inr known)) new
  | addPeer k c before lined =>
    have same := line_started n s₀ k (.addPeer (.start n c)) rfl k.order
    constructor
    · rw [same]
      exact lined.early
    · rw [same]
      exact lined.before
  | step k s threads thread before met ran lined =>
    obtain ⟨shared,threads',order⟩ := k
    cases ran with
    | step t front rest next ran =>
      exact lined.moves met (effect_moves (run_placed unknown before) (step_effect ran))

theorem hurried_unordered {n : NodeName} {s₀ t : Shared π} {k : Config π} {thread : Thread π}
    {threads : List (Thread π)} (moves : Moves n s₀ k thread ⟨t,threads,k.order⟩)
    (after : Placed n s₀ ⟨t,threads,k.order⟩) (ordered : Ordered n s₀ ⟨t,threads,k.order⟩) : Unhurried k thread := by
  intro p direct x member own waits
  cases moves with
  | stays quiet same => cases quiet.symm.trans direct
  | joins q quiet last => cases quiet.symm.trans direct
  | overtakes q direct' written left line =>
    cases direct.symm.trans direct'
    have sent : x.2 ∈ Config.sent n s₀ ⟨t,threads,k.order⟩ := by
      rw [written,own]
      exact List.mem_append_right _ List.mem_cons_self
    have both := ordered x member sent
    have first : x.1 ∈ Config.sent n s₀ ⟨t,threads,k.order⟩ := both.subset List.mem_cons_self
    have distinct := after.line_nodup
    rw [line,← written] at distinct
    rw [k.draining_queue,Multiset.mem_coe] at waits
    exact (List.nodup_append.mp distinct).2.2 x.1 first x.1 waits rfl

/-- The events of calls that follow one another keep their order in every run without a
hurried step, and the step that is hurried breaks it. -/
theorem run_ordered {n : NodeName} {s₀ : Shared π} {k : Config π} (unknown : Unknown n s₀)
    (run : Run n s₀ Unhurried k) :
    Ordered n s₀ k ∧ ∀ thread s threads, Step step thread k.shared k.threads s threads →
      (Ordered n s₀ ⟨s,threads,k.order⟩ ↔ Unhurried k thread) := by
  have placed := run_placed unknown run
  refine ⟨(run_lined unknown run).ordered placed,?_⟩
  intro thread s threads ran
  constructor
  · intro ordered
    obtain ⟨shared,threads',order⟩ := k
    cases ran with
    | step t front rest next ran =>
      have effect := step_effect ran
      exact hurried_unordered (effect_moves placed effect) (placed.effect effect) ordered
  · intro met
    have longer := Run.step k s threads thread run met ran
    exact (run_lined unknown longer).ordered (run_placed unknown longer)

/-- An event that is drained before the next one is sent. -/
theorem run_ordered_drained : ∃ k : Config Nat, Run ⟨1,2⟩ ⟨∅,∅,fun _ => ⟨0,0⟩,fun _ => []⟩ Unhurried k ∧
    k.order = {(7,8)} ∧ k.shared.written 5 = [7,8] ∧ Ordered ⟨1,2⟩ ⟨∅,∅,fun _ => ⟨0,0⟩,fun _ => []⟩ k := by
  have called : Run ⟨1,2⟩ ⟨∅,∅,fun _ => ⟨0,0⟩,fun _ => []⟩ Unhurried _ :=
    .sendPeerEvent _ 7 .start (Multiset.notMem_zero 7)
  have missed := Run.step _ _ _ _ called nofun (.step _ _ [] [] _ rfl)
  have queued := Run.step _ _ _ _ missed nofun (.step _ _ [] [] _ rfl)
  have named := Run.step _ _ _ _ (.addPeer _ 5 queued) nofun (.step _ _ [Thread.sendPeerEvent (.returned 7)] [] _ rfl)
  have entered := Run.step _ _ _ _ named nofun (.step _ _ [Thread.sendPeerEvent (.returned 7)] [] _ rfl)
  have drained := Run.step _ _ _ _ entered nofun (.step _ _ [Thread.sendPeerEvent (.returned 7)] [] _ rfl)
  have again := Run.sendPeerEvent _ 8 drained (by decide)
  have found := Run.step _ _ _ _ again nofun
    (.step _ _ [Thread.sendPeerEvent (.returned 7),Thread.addPeer (.draining 5 [])] [] _ rfl)
  have sent := Run.step _ _ _ _ found (fun _ _ x _ _ => Multiset.notMem_zero x.1)
    (.step _ _ [Thread.sendPeerEvent (.returned 7),Thread.addPeer (.draining 5 [])] [] _ rfl)
  exact ⟨_,sent,rfl,rfl,(run_ordered ⟨rfl,rfl⟩ sent).1⟩

/-- An event sent while the one before it waits to be drained. -/
theorem not_ordered : ¬ ∀ (n : NodeName) (s₀ : Shared Nat) (k : Config Nat), Unknown n s₀ →
    Run n s₀ (fun _ _ => True) k → Ordered n s₀ k := by
  intro ordered
  have called : Run ⟨1,2⟩ ⟨∅,∅,fun _ => ⟨0,0⟩,fun _ => []⟩ (fun _ _ => True) _ :=
    .sendPeerEvent _ 7 .start (Multiset.notMem_zero 7)
  have missed := Run.step _ _ _ _ called trivial (.step _ _ [] [] _ rfl)
  have queued := Run.step _ _ _ _ missed trivial (.step _ _ [] [] _ rfl)
  have named := Run.step _ _ _ _ (.addPeer _ 5 queued) trivial (.step _ _ [Thread.sendPeerEvent (.returned 7)] [] _ rfl)
  have entered := Run.step _ _ _ _ named trivial (.step _ _ [Thread.sendPeerEvent (.returned 7)] [] _ rfl)
  have again := Run.sendPeerEvent _ 8 entered (by decide)
  have found := Run.step _ _ _ _ again trivial
    (.step _ _ [Thread.sendPeerEvent (.returned 7),Thread.addPeer (.draining 5 [7])] [] _ rfl)
  have sent := Run.step _ _ _ _ found trivial
    (.step _ _ [Thread.sendPeerEvent (.returned 7),Thread.addPeer (.draining 5 [7])] [] _ rfl)
  have both := ordered _ _ _ ⟨rfl,rfl⟩ sent (7,8) (by decide) (by decide)
  exact absurd both (by decide)

end MojoImpl.Concurrency
