import MojoImpl.Controller.Registry

/-! Runs of an inviter with a record of its invitations, and what a token is good for: the
channel of an invitation gets in among the peers once at most, by the answer to it. -/
namespace MojoImpl.NodeController
open Foundation MojoImpl.Ports

/-- An invitation that was sent, and the channel made for it. -/
structure Invited where
  token : NodeName
  channel : ChannelPtr
  attachedPorts : List (List UInt8 × PortRef)

/-- A channel that got in among the peers, with the event and the state that it came in. -/
structure Entered where
  channel : ChannelPtr
  before : NodeController
  event : Event

/-- A port that was handed to `MergePorts`, for a request on a channel. -/
structure Merged where
  channel : ChannelPtr
  name : List UInt8
  port : PortRef

structure History where
  controller : NodeController
  invitations : List Invited
  entered : List Entered
  merged : List Merged

/-- The entries that are new. -/
def newPeers (old new : Table NodeName ChannelPtr) : List (Sigma fun _ : NodeName => ChannelPtr) :=
  new.entries.filter fun entry => old.lookup entry.1 ≠ some entry.2

namespace History

def start (name : NodeName) : History := ⟨create name,[],[],[]⟩

/-- The invitation that an event sends, on the channel made next. -/
def invitedBy (channel : ChannelPtr) : Event → List Invited
  | .call (.sendInvitation tempNodeName attachedPorts) => [⟨tempNodeName,channel,attachedPorts⟩]
  | _ => []

/-- The ports that `MergePorts` has been called with since `s`, if that was for a request. -/
def mergedBy (s t : NodeController) : Event → List Merged
  | .message channel (.requestPortMerge data) =>
    ((t.handed.drop s.handed.length).filterMap Handed.merged).map fun port =>
      ⟨channel,data.messagePipeName,port⟩
  | _ => []

def step (h : History) (e : Event) : Option History := do
  let t ← h.controller.event e
  return {
    controller := t
    invitations := h.invitations ++ invitedBy h.controller.created e
    entered := h.entered ++ (newPeers h.controller.peers t.peers).map fun entry =>
      ⟨entry.2,h.controller,e⟩
    merged := h.merged ++ mergedBy h.controller t e }

/-- Runs of a controller, each event allowed where it happens. -/
inductive Run (allowed : History → Event → Prop) : History → Prop
  | start (name : NodeName) : Run allowed (start name)
  | step (h g : History) (e : Event) (before : Run allowed h) (may : allowed h e)
      (ran : h.step e = some g) : Run allowed g

/-- `g` comes after `h`, or is it. -/
inductive Later (allowed : History → Event → Prop) (h : History) : History → Prop
  | refl : Later allowed h h
  | step (g k : History) (e : Event) (before : Later allowed h g) (may : allowed g e)
      (ran : g.step e = some k) : Later allowed h k

/-- The name generated for an invitation is none of those before. -/
def Fresh (h : History) : Event → Prop
  | .call (.sendInvitation tempNodeName _) => ∀ i ∈ h.invitations, i.token ≠ tempNodeName
  | _ => True

/-- The answer to the invitation, on the channel that still has its token for a name. -/
def Answers (e : Entered) (i : Invited) : Prop :=
  ∃ channel data, e.event = .message channel (.acceptInvitation data) ∧ data.token = i.token ∧
    e.before.remoteNames channel = i.token

end History

section Entering

theorem newPeers_same (peers : Table NodeName ChannelPtr) : newPeers peers peers = [] := by
  apply List.filter_eq_nil_iff.mpr
  intro entry member
  simpa using AList.mem_lookup_iff.mpr member

theorem newPeers_erase (peers : Table NodeName ChannelPtr) (name : NodeName) :
    newPeers peers (peers.erase name) = [] := by
  apply List.filter_eq_nil_iff.mpr
  intro entry member
  have kept : entry ∈ peers.entries := (List.kerase_sublist name peers.entries).subset member
  simpa using AList.mem_lookup_iff.mpr kept

theorem newPeers_emplace (peers : Table NodeName ChannelPtr) (name : NodeName) (c : ChannelPtr) :
    newPeers peers (Table.emplace peers name c) =
      if peers.lookup name = none then [⟨name,c⟩] else [] := by
  cases known : peers.lookup name with
  | some d =>
    rw [Table.emplace,known,if_neg (Option.some_ne_none d)]
    exact newPeers_same peers
  | none =>
    have same : peers.erase name = peers := Table.erase_unknown known
    have others : peers.entries.filter (fun entry => peers.lookup entry.1 ≠ some entry.2) = [] :=
      newPeers_same peers
    rw [Table.emplace,known,if_pos rfl,newPeers,Table.entries_insert,same,List.filter_cons,others,
      if_pos (by simp [known])]

theorem newPeers_enter {r u : Registry} (same : u.peers = r.peers) (name : NodeName) (c : ChannelPtr) :
    newPeers r.peers (u.enter name c).peers = [] ∨ newPeers r.peers (u.enter name c).peers = [⟨name,c⟩] := by
  rw [Registry.enter,same,newPeers_emplace]
  split
  · exact .inr rfl
  · exact .inl rfl

theorem newPeers_effect {r t : Registry} {e : Event} (effect : r.Effect e t) :
    newPeers r.peers t.peers = [] ∨ ∃ name c, newPeers r.peers t.peers = [⟨name,c⟩] ∧
      (r.inviterChannel = some c ∨ ∃ channel data, e = .message channel (.acceptInvitation data) ∧
        r.pendingInvitations.lookup (r.remoteNames channel) = some c ∧
        data.token = r.remoteNames channel) := by
  cases effect with
  | none => exact .inl (newPeers_same r.peers)
  | invite => exact .inl (newPeers_same r.peers)
  | awaitInviter => exact .inl (newPeers_same r.peers)
  | enter channel c data set =>
    rcases newPeers_enter (r := r) rfl data.inviterName c with none | one
    · exact .inl none
    · exact .inr ⟨_,c,one,.inl set⟩
  | drop => exact .inl (newPeers_erase r.peers _)
  | accepted channel c data pending matching =>
    rcases newPeers_enter (r := r) (by rfl) data.inviteeName c with none | one
    · exact .inl none
    · exact .inr ⟨_,c,one,.inr ⟨channel,data,rfl,pending,matching⟩⟩
  | take => exact .inl (newPeers_same r.peers)

theorem pending_effect {r t : Registry} {e : Event} (effect : r.Effect e t) {name : NodeName}
    {c : ChannelPtr} (pending : t.pendingInvitations.lookup name = some c) :
    (r.pendingInvitations.lookup name = some c ∧ ∀ channel data,
        e = .message channel (.acceptInvitation data) → r.remoteNames channel ≠ name) ∨
      (c = r.created ∧ ∃ attachedPorts, e = .call (.sendInvitation name attachedPorts)) := by
  have erased (sender : NodeName) (rest : (r.pendingInvitations.erase sender).lookup name = some c) :
      r.pendingInvitations.lookup name = some c ∧ sender ≠ name := by
    rw [Table.lookup_erase] at rest
    split at rest
    · contradiction
    · next other => exact ⟨rest,Ne.symm other⟩
  cases effect with
  | none _ silent => exact .inl ⟨pending,fun channel data same => (silent channel data same).elim⟩
  | invite tempNodeName attachedPorts =>
    change (Table.emplace r.pendingInvitations tempNodeName r.created).lookup name = some c at pending
    rw [Table.lookup_emplace] at pending
    split at pending
    · next same =>
      subst same
      cases before : r.pendingInvitations.lookup name with
      | some d =>
        rw [before] at pending
        exact .inl ⟨pending,fun _ _ message => nomatch message⟩
      | none =>
        rw [before] at pending
        exact .inr ⟨(Option.some.inj pending).symm,attachedPorts,rfl⟩
    · exact .inl ⟨pending,fun _ _ message => nomatch message⟩
  | awaitInviter => exact .inl ⟨pending,fun _ _ message => nomatch message⟩
  | enter => exact .inl ⟨pending,fun _ _ message => nomatch message⟩
  | drop channel data =>
    obtain ⟨before,other⟩ := erased _ pending
    refine .inl ⟨before,fun _ _ message => ?_⟩
    cases message
    exact other
  | accepted channel d data =>
    obtain ⟨before,other⟩ := erased _ pending
    refine .inl ⟨before,fun _ _ message => ?_⟩
    cases message
    exact other
  | take => exact .inl ⟨pending,fun _ _ message => nomatch message⟩

theorem inviter_effect {r t : Registry} {e : Event} (effect : r.Effect e t) {c : ChannelPtr}
    (set : t.inviterChannel = some c) :
    r.inviterChannel = some c ∨ (c = r.created ∧ r.created < t.created) := by
  cases effect with
  | awaitInviter => exact .inr ⟨(Option.some.inj set).symm,Nat.lt_succ_self _⟩
  | _ => exact .inl set

theorem created_effect {r t : Registry} {e : Event} (effect : r.Effect e t) : r.created ≤ t.created := by
  cases effect with
  | invite => exact Nat.le_succ _
  | awaitInviter => exact Nat.le_succ _
  | _ => exact Nat.le_refl _

end Entering

namespace History

/-- How the invitations, what is pending and what has entered fit together. -/
structure Tracked (h : History) : Prop where
  tokens : (h.invitations.map Invited.token).Nodup
  channels : (h.invitations.map Invited.channel).Nodup
  made : ∀ i ∈ h.invitations, i.channel < h.controller.created
  pending : ∀ name c, h.controller.pendingInvitations.lookup name = some c →
    ∃ i ∈ h.invitations, i.token = name ∧ i.channel = c
  inviter : ∀ c, h.controller.inviterChannel = some c → c < h.controller.created ∧
    ∀ i ∈ h.invitations, i.channel ≠ c
  old : ∀ e ∈ h.entered, e.channel < h.controller.created
  answered : ∀ e ∈ h.entered, ∀ i ∈ h.invitations, e.channel = i.channel → Answers e i
  once : ∀ i ∈ h.invitations, (h.entered.map Entered.channel).count i.channel ≤ 1
  waiting : ∀ i ∈ h.invitations, h.controller.pendingInvitations.lookup i.token = some i.channel →
    i.channel ∉ h.entered.map Entered.channel

section Steps
variable {h g : History} {e : Event}

theorem tracked_start (name : NodeName) : (start name).Tracked where
  tokens := List.nodup_nil
  channels := List.nodup_nil
  made _ member := nomatch member
  pending _ _ found := nomatch found
  inviter _ set := nomatch set
  old _ member := nomatch member
  answered _ member := nomatch member
  once _ member := nomatch member
  waiting _ member := nomatch member

theorem invitedBy_other (unsent : ∀ name ports, e ≠ .call (.sendInvitation name ports)) {c : ChannelPtr} :
    invitedBy c e = [] := by
  unfold invitedBy
  split
  · exact (unsent _ _ rfl).elim
  · rfl

theorem step_some (ran : h.step e = some g) :
    h.controller.registry.Effect e g.controller.registry ∧
      g.invitations = h.invitations ++ invitedBy h.controller.created e ∧
      g.entered = h.entered ++ (newPeers h.controller.peers g.controller.peers).map
        (fun entry => ⟨entry.2,h.controller,e⟩) ∧
      g.merged = h.merged ++ mergedBy h.controller g.controller e := by
  obtain ⟨t,happened,same⟩ := Option.bind_eq_some_iff.mp ran
  cases same
  refine ⟨?_,rfl,rfl,rfl⟩
  have effect := h.controller.registry.event_effect e
  rwa [← registry_event happened] at effect

theorem nodup_map_append {α β : Type} {f : α → β} {xs : List α} {x : α} (apart : (xs.map f).Nodup)
    (new : ∀ y ∈ xs, f y ≠ f x) : ((xs ++ [x]).map f).Nodup := by
  rw [List.map_append]
  apply List.nodup_append.mpr
  refine ⟨apart,List.nodup_singleton _,?_⟩
  intro a inside b last same
  obtain ⟨y,member,rfl⟩ := List.mem_map.mp inside
  cases List.mem_singleton.mp last
  exact new y member same

theorem Tracked.invite (tracked : h.Tracked) {name : NodeName} {ports : List (List UInt8 × PortRef)}
    (fresh : ∀ i ∈ h.invitations, i.token ≠ name) (ran : h.step (.call (.sendInvitation name ports)) = some g) :
    g.Tracked := by
  obtain ⟨t,sent,same⟩ := Option.bind_eq_some_iff.mp ran
  cases same
  cases sendInvitation_ran sent
  have nothing : newPeers h.controller.peers (h.controller.invite name ports).peers = [] := newPeers_same _
  have entered : h.entered ++ (newPeers h.controller.peers (h.controller.invite name ports).peers).map
      (fun entry => (⟨entry.2,h.controller,.call (.sendInvitation name ports)⟩ : Entered)) = h.entered := by
    rw [nothing,List.map_nil,List.append_nil]
  have members {i : Invited} (member : i ∈ h.invitations ++ [⟨name,h.controller.created,ports⟩]) :
      i ∈ h.invitations ∨ i = ⟨name,h.controller.created,ports⟩ :=
    (List.mem_append.mp member).imp_right List.mem_singleton.mp
  have unseen : h.controller.created ∉ h.entered.map Entered.channel := by
    intro member
    obtain ⟨e,inside,same⟩ := List.mem_map.mp member
    exact absurd same (Nat.ne_of_lt (tracked.old e inside))
  have pending (token : NodeName) :
      (h.controller.invite name ports).pendingInvitations.lookup token =
        if token = name then some ((h.controller.pendingInvitations.lookup name).getD h.controller.created)
        else h.controller.pendingInvitations.lookup token := Table.lookup_emplace _ _ _ _
  have unknown : h.controller.pendingInvitations.lookup name = none := by
    by_contra known
    obtain ⟨c,found⟩ := Option.ne_none_iff_exists'.mp known
    obtain ⟨i,member,token,_⟩ := tracked.pending name c found
    exact fresh i member token
  constructor
  · exact nodup_map_append tracked.tokens fresh
  · exact nodup_map_append tracked.channels fun i member => Nat.ne_of_lt (tracked.made i member)
  · intro i member
    change i.channel < h.controller.created+1
    rcases members member with old | rfl
    · exact Nat.lt_succ_of_lt (tracked.made i old)
    · exact Nat.lt_succ_self _
  · intro token c found
    have found' := (pending token).symm.trans found
    split at found'
    · next same =>
      rw [unknown] at found'
      exact ⟨⟨name,h.controller.created,ports⟩,List.mem_append_right _ (List.mem_singleton_self _),
        same.symm,Option.some.inj found'⟩
    · obtain ⟨i,member,both⟩ := tracked.pending token c found'
      exact ⟨i,List.mem_append_left _ member,both⟩
  · intro c set
    obtain ⟨below,apart⟩ := tracked.inviter c set
    refine ⟨Nat.lt_succ_of_lt below,?_⟩
    intro i member
    rcases members member with old | rfl
    · exact apart i old
    · exact (Nat.ne_of_lt below).symm
  · intro e member
    exact Nat.lt_succ_of_lt (tracked.old e (entered ▸ member))
  · intro e member i invited same
    have inside : e ∈ h.entered := entered ▸ member
    rcases members invited with old | rfl
    · exact tracked.answered e inside i old same
    · exact absurd same (Nat.ne_of_lt (tracked.old e inside))
  · intro i member
    change (List.map _ (h.entered ++ _)).count _ ≤ 1
    rw [entered]
    rcases members member with old | rfl
    · exact tracked.once i old
    · rw [List.count_eq_zero_of_not_mem unseen]
      exact Nat.zero_le 1
  · intro i member waits
    change i.channel ∉ List.map _ (h.entered ++ _)
    rw [entered]
    rcases members member with old | rfl
    · apply tracked.waiting i old
      have waits' := (pending i.token).symm.trans waits
      rwa [if_neg (fresh i old)] at waits'
    · exact unseen

/-- At most one channel enters in a step, one made before; when it is an invitation's, it is for
the answer to that. -/
theorem Tracked.entering (tracked : h.Tracked)
    (effect : h.controller.registry.Effect e g.controller.registry) :
    ∀ entry ∈ newPeers h.controller.peers g.controller.peers,
      entry.2 < h.controller.created ∧ ∀ i ∈ h.invitations, entry.2 = i.channel →
        Answers ⟨entry.2,h.controller,e⟩ i ∧ h.controller.pendingInvitations.lookup i.token = some i.channel ∧
        ∃ channel data, e = .message channel (.acceptInvitation data) ∧
          h.controller.remoteNames channel = i.token := by
  intro entry member
  rcases newPeers_effect effect with none | ⟨name,c,one,reason⟩
  · have none' : newPeers h.controller.peers g.controller.peers = [] := none
    rw [none'] at member
    contradiction
  · have one' : newPeers h.controller.peers g.controller.peers = [⟨name,c⟩] := one
    rw [one'] at member
    cases List.mem_singleton.mp member
    rcases reason with set | ⟨channel,data,message,pending,matching⟩
    · obtain ⟨below,apart⟩ := tracked.inviter c set
      exact ⟨below,fun i invited same => (apart i invited same.symm).elim⟩
    · obtain ⟨j,invited,token,same⟩ := tracked.pending _ c pending
      refine ⟨same ▸ tracked.made j invited,?_⟩
      intro i member same'
      cases List.inj_on_of_nodup_map tracked.channels invited member (same.trans same')
      exact ⟨⟨channel,data,message,matching.trans token.symm,token.symm⟩,
        by rw [token,same]; exact pending,channel,data,message,token.symm⟩

theorem Tracked.other (tracked : h.Tracked) (ran : h.step e = some g)
    (unsent : ∀ name ports, e ≠ .call (.sendInvitation name ports)) : g.Tracked := by
  obtain ⟨effect,invitations,entered,_⟩ := step_some ran
  have kept : g.invitations = h.invitations := by
    rw [invitations,invitedBy_other unsent,List.append_nil]
  have grown : h.controller.created ≤ g.controller.created := created_effect effect
  have before {name : NodeName} {c : ChannelPtr}
      (pending : g.controller.pendingInvitations.lookup name = some c) :
      h.controller.pendingInvitations.lookup name = some c ∧ ∀ channel data,
        e = .message channel (.acceptInvitation data) → h.controller.remoteNames channel ≠ name := by
    rcases pending_effect effect pending with old | ⟨_,ports,sent⟩
    · exact old
    · exact (unsent name ports sent).elim
  have entering := tracked.entering effect
  constructor
  · rw [kept]
    exact tracked.tokens
  · rw [kept]
    exact tracked.channels
  · rw [kept]
    exact fun i member => Nat.lt_of_lt_of_le (tracked.made i member) grown
  · rw [kept]
    exact fun name c pending => tracked.pending name c (before pending).1
  · rw [kept]
    intro c set
    rcases inviter_effect effect set with old | ⟨rfl,more⟩
    · obtain ⟨below,apart⟩ := tracked.inviter c old
      exact ⟨Nat.lt_of_lt_of_le below grown,apart⟩
    · exact ⟨more,fun i member => Nat.ne_of_lt (tracked.made i member)⟩
  · intro e' member
    rw [entered] at member
    rcases List.mem_append.mp member with old | new
    · exact Nat.lt_of_lt_of_le (tracked.old e' old) grown
    · obtain ⟨entry,inside,rfl⟩ := List.mem_map.mp new
      exact Nat.lt_of_lt_of_le (entering entry inside).1 grown
  · rw [kept]
    intro e' member i invited same
    rw [entered] at member
    rcases List.mem_append.mp member with old | new
    · exact tracked.answered e' old i invited same
    · obtain ⟨entry,inside,rfl⟩ := List.mem_map.mp new
      exact ((entering entry inside).2 i invited same).1
  · rw [kept]
    intro i invited
    rw [entered,List.map_append,List.count_append]
    rcases newPeers_effect effect with none | ⟨name,c,one,_⟩
    · have none' : newPeers h.controller.peers g.controller.peers = [] := none
      rw [none']
      exact tracked.once i invited
    · have one' : newPeers h.controller.peers g.controller.peers = [⟨name,c⟩] := one
      by_cases same : c = i.channel
      · have pending := ((entering ⟨name,c⟩ (by rw [one']; simp)).2 i invited same).2.1
        rw [List.count_eq_zero_of_not_mem (tracked.waiting i invited pending),Nat.zero_add,one']
        exact List.count_le_length
      · have absent : i.channel ∉ [c] := fun member => same (List.mem_singleton.mp member).symm
        rw [one']
        change _ + [c].count i.channel ≤ 1
        rw [List.count_eq_zero_of_not_mem absent]
        exact tracked.once i invited
  · rw [kept]
    intro i invited waits
    obtain ⟨pending,unanswered⟩ := before waits
    rw [entered,List.map_append,List.mem_append]
    rintro (old | new)
    · exact tracked.waiting i invited pending old
    · obtain ⟨e',inside',same⟩ := List.mem_map.mp new
      obtain ⟨entry,inside,rfl⟩ := List.mem_map.mp inside'
      obtain ⟨_,_,channel,data,message,sender⟩ := (entering entry inside).2 i invited same
      exact unanswered channel data message sender

theorem run_tracked (run : Run Fresh h) : h.Tracked := by
  induction run with
  | start name => exact tracked_start name
  | step h g e before may ran tracked =>
    by_cases sent : ∃ name ports, e = .call (.sendInvitation name ports)
    · obtain ⟨name,ports,rfl⟩ := sent
      exact tracked.invite may ran
    · exact tracked.other ran (fun name ports same => sent ⟨name,ports,same⟩)

theorem later_spent (later : Later Fresh h g) {i : Invited} (invited : i ∈ h.invitations)
    (spent : h.controller.pendingInvitations.lookup i.token = none) :
    i ∈ g.invitations ∧ g.controller.pendingInvitations.lookup i.token = none := by
  induction later with
  | refl => exact ⟨invited,spent⟩
  | step g k e before may ran ih =>
    obtain ⟨invited,spent⟩ := ih
    obtain ⟨effect,invitations,_⟩ := step_some ran
    refine ⟨invitations ▸ List.mem_append_left _ invited,?_⟩
    by_contra known
    obtain ⟨c,pending⟩ := Option.ne_none_iff_exists'.mp known
    rcases pending_effect effect pending with ⟨old,_⟩ | ⟨_,ports,sent⟩
    · cases spent.symm.trans old
    · subst sent
      exact may i invited rfl

/-- The answer to an invitation that is not pending adds no peer. -/
theorem accepts_nothing {s t : NodeController} {channel : ChannelPtr} {data : AcceptInvitationProtocol}
    (spent : s.pendingInvitations.lookup data.token = none)
    (ran : s.event (.message channel (.acceptInvitation data)) = some t) {name : NodeName} {c : ChannelPtr}
    (peer : t.peers.lookup name = some c) : s.peers.lookup name = some c := by
  have effect := s.registry.event_effect (.message channel (.acceptInvitation data))
  rw [← registry_event ran] at effect
  have peer' : t.registry.peers.lookup name = some c := peer
  generalize t.registry = r at effect peer'
  cases effect with
  | none _ silent => exact (silent channel data rfl).elim
  | drop =>
    change (s.peers.erase _).lookup name = some c at peer'
    rw [Table.lookup_erase] at peer'
    split at peer'
    · contradiction
    · exact peer'
  | accepted _ d _ pending matching =>
    rw [matching] at spent
    cases spent.symm.trans pending

/-- The channel of an invitation enters among the peers at most once, by the answer to the
invitation, and a token that is not pending any more lets nobody in. -/
structure SingleUse (h : History) : Prop where
  once : ∀ i ∈ h.invitations, (h.entered.map Entered.channel).count i.channel ≤ 1
  answered : ∀ e ∈ h.entered, ∀ i ∈ h.invitations, e.channel = i.channel → Answers e i
  spent : ∀ i ∈ h.invitations, h.controller.pendingInvitations.lookup i.token = none →
    ∀ g, Later Fresh h g → ∀ channel data t, data.token = i.token →
      g.controller.event (.message channel (.acceptInvitation data)) = some t →
        ∀ name c, t.peers.lookup name = some c → g.controller.peers.lookup name = some c

theorem run_singleUse (run : Run Fresh h) : h.SingleUse where
  once := (run_tracked run).once
  answered := (run_tracked run).answered
  spent _ invited spent _ later _ _ _ matching ran _ _ peer :=
    accepts_nothing (matching ▸ (later_spent later invited spent).2) ran peer

/-- An invitation that is answered. -/
theorem run_singleUse_answered : ∃ h, Run Fresh h ∧ h.invitations.map Invited.channel = [0] ∧
    h.entered.map Entered.channel = [0] ∧ h.SingleUse := by
  have first : Run Fresh _ := .step (start ⟨1,1⟩) _ (.call (.sendInvitation ⟨3,3⟩ [])) (.start _)
    (fun _ member => nomatch member) rfl
  have second : Run Fresh _ := .step _ _ (.message 0 (.acceptInvitation ⟨⟨3,3⟩,⟨4,4⟩⟩)) first trivial rfl
  exact ⟨_,second,rfl,rfl,run_singleUse second⟩

end Steps

end History

end MojoImpl.NodeController
