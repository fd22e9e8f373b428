import MojoImpl.Controller.Tokens

/-! Which requests get the ports of an invitation. A request is known by the name that its
channel goes by, so an invitee is kept from the ports of others as long as no two channels
share a name that ports are reserved for. -/
namespace MojoImpl.NodeController
open Foundation MojoImpl.Ports

namespace Registry

def Reserves (r : Registry) (node : NodeName) : Prop := ∃ name port, r.reservation node name = some port

/-- No channel but `c` goes by the name. -/
def Only (r : Registry) (c : ChannelPtr) (name : NodeName) : Prop :=
  ∀ d < r.created, r.remoteNames d = name → d = c

/-- A name that ports are or get reserved for is given to no second channel. -/
def Separate (r : Registry) : Event → Prop
  | .call (.sendInvitation name ports) => ports ≠ [] ∨ r.Reserves name →
      ∀ d < r.created, r.remoteNames d ≠ name
  | .call .acceptInvitation => ¬r.Reserves kInvalidNodeName
  | .message _ (.acceptInvitee data) => ¬r.Reserves data.inviterName
  | .message channel (.acceptInvitation data) =>
      ∀ c, r.pendingInvitations.lookup (r.remoteNames channel) = some c →
        data.token = r.remoteNames channel →
          (r.Reserves data.inviteeName ∨ (r.Reserves (r.remoteNames channel) ∧
            r.reservedPorts.lookup data.inviteeName = none)) → r.Only c data.inviteeName
  | _ => True

end Registry

namespace History

/-- Each port handed to `MergePorts` was attached, under the name asked for, to the
invitation of the channel that the request came on. -/
def Isolates (h : History) : Prop :=
  ∀ m ∈ h.merged, ∃ i ∈ h.invitations, i.channel = m.channel ∧ (m.name,m.port) ∈ i.attachedPorts

/-- A reserved port is attached to the invitation of the one channel of its node name. -/
structure Separated (r : Registry) (invitations : List Invited) : Prop where
  made : ∀ i ∈ invitations, i.channel < r.created
  pending : ∀ name c, r.pendingInvitations.lookup name = some c →
    r.remoteNames c = name ∧ ∃ i ∈ invitations, i.channel = c
  inviter : ∀ c, r.inviterChannel = some c → c < r.created ∧ ∀ i ∈ invitations, i.channel ≠ c
  reserved : ∀ node name port, r.reservation node name = some port →
    ∃ i ∈ invitations, (name,port) ∈ i.attachedPorts ∧ r.remoteNames i.channel = node ∧
      r.Only i.channel node

section Steps
variable {r t : Registry} {e : Event} {invitations : List Invited}

theorem reserve_mem {attachedPorts : List (List UInt8 × PortRef)} {portMap : PortMap} {name : List UInt8}
    {port : PortRef} (found : (reserve attachedPorts portMap).lookup name = some port) :
    portMap.lookup name = some port ∨ (name,port) ∈ attachedPorts := by
  induction attachedPorts generalizing portMap with
  | nil => exact .inl found
  | cons entry rest ih =>
    rw [reserve,List.foldl_cons] at found
    rcases ih found with earlier | later
    · rw [Table.lookup_emplace] at earlier
      split at earlier
      · next same =>
        subst same
        cases before : portMap.lookup entry.1 with
        | some other =>
          rw [before] at earlier
          exact .inl earlier
        | none =>
          rw [before] at earlier
          cases earlier
          exact .inr (by simp)
      · exact .inl earlier
    · exact .inr (List.mem_cons_of_mem _ later)

/-- What is reserved after a rename: nothing for the old name, for the new one what was, or
where nothing was there what the old one had. -/
theorem renameReserved_reservation {fromNode inviteeName node : NodeName} {name : List UInt8} {port : PortRef}
    (found : { r with reservedPorts := renameReserved r.reservedPorts fromNode inviteeName }.reservation
      node name = some port) :
    node ≠ fromNode ∧ (r.reservation node name = some port ∨
      (node = inviteeName ∧ r.reservedPorts.lookup inviteeName = none ∧
        r.reservation fromNode name = some port)) := by
  obtain ⟨portMap,looked,held⟩ := Option.bind_eq_some_iff.mp found
  change (renameReserved r.reservedPorts fromNode inviteeName).lookup node = some portMap at looked
  have reserves (node : NodeName) (had : r.reservedPorts.lookup node = some portMap) :
      r.reservation node name = some port := by
    rw [Registry.reservation,reservedFor,had]
    exact held
  unfold renameReserved at looked
  split at looked
  · next absent =>
    refine ⟨?_,.inl (reserves node looked)⟩
    rintro rfl
    rw [absent] at looked
    contradiction
  · next moved had =>
    rw [Table.lookup_erase] at looked
    split at looked
    · contradiction
    · next other =>
      refine ⟨other,?_⟩
      rw [Table.lookup_emplace] at looked
      split at looked
      · next same =>
        cases target : r.reservedPorts.lookup inviteeName with
        | some kept =>
          rw [target] at looked
          cases looked
          exact .inl (reserves node (same ▸ target))
        | none =>
          rw [target] at looked
          cases looked
          exact .inr ⟨same,rfl,reserves fromNode had⟩
      · exact .inl (reserves node looked)

/-- What is reserved after an invitation was reserved before or is attached to it. -/
theorem invite_reservation {name node : NodeName} {ports : List (List UInt8 × PortRef)} {pipe : List UInt8}
    {port : PortRef} (found : (r.invite name ports).reservation node pipe = some port) :
    r.reservation node pipe = some port ∨ (node = name ∧ (pipe,port) ∈ ports) := by
  obtain ⟨portMap,looked,held⟩ := Option.bind_eq_some_iff.mp found
  change (Table.modify r.reservedPorts name ∅ (reserve ports)).lookup node = some portMap at looked
  rw [Table.lookup_modify] at looked
  split at looked
  · next same =>
    cases looked
    rcases reserve_mem held with before | new
    · left
      rw [Registry.reservation,reservedFor,same]
      cases had : r.reservedPorts.lookup name with
      | none =>
        rw [had] at before
        contradiction
      | some portMap =>
        rw [had] at before
        exact before
    · exact .inr ⟨same,new⟩
  · left
    rw [Registry.reservation,reservedFor,looked]
    exact held

theorem Separated.invite (separated : Separated r invitations) {name : NodeName}
    {ports : List (List UInt8 × PortRef)} (may : r.Separate (.call (.sendInvitation name ports))) :
    Separated (r.invite name ports) (invitations ++ [⟨name,r.created,ports⟩]) := by
  have named (c : ChannelPtr) (other : c ≠ r.created) : (r.invite name ports).remoteNames c = r.remoteNames c :=
    Function.update_of_ne other _ _
  have last : (r.invite name ports).remoteNames r.created = name := Function.update_self ..
  constructor
  · intro i member
    rcases List.mem_append.mp member with old | new
    · exact Nat.lt_succ_of_lt (separated.made i old)
    · cases List.mem_singleton.mp new
      exact Nat.lt_succ_self _
  · intro token c found
    change (Table.emplace r.pendingInvitations name r.created).lookup token = some c at found
    have old (before : r.pendingInvitations.lookup token = some c) :
        (r.invite name ports).remoteNames c = token ∧
          ∃ i ∈ invitations ++ [⟨name,r.created,ports⟩], i.channel = c := by
      obtain ⟨goes,i,member,same⟩ := separated.pending token c before
      have below := separated.made i member
      rw [named c (same ▸ Nat.ne_of_lt below)]
      exact ⟨goes,i,List.mem_append_left _ member,same⟩
    rw [Table.lookup_emplace] at found
    split at found
    · next same =>
      subst same
      cases before : r.pendingInvitations.lookup token with
      | some d =>
        rw [before] at found
        cases found
        exact old before
      | none =>
        rw [before] at found
        cases found
        exact ⟨last,_,List.mem_append_right _ (List.mem_singleton_self _),rfl⟩
    · exact old found
  · intro c set
    obtain ⟨below,apart⟩ := separated.inviter c set
    refine ⟨Nat.lt_succ_of_lt below,?_⟩
    intro i member
    rcases List.mem_append.mp member with old | new
    · exact apart i old
    · cases List.mem_singleton.mp new
      exact (Nat.ne_of_lt below).symm
  · intro node pipe port found
    have unnamed (reserves : r.Reserves name ∨ ports ≠ []) (d : ChannelPtr) (below : d < r.created) :
        r.remoteNames d ≠ name := may reserves.symm d below
    rcases invite_reservation found with before | ⟨same,new⟩
    · obtain ⟨i,member,attached,goes,only⟩ := separated.reserved node pipe port before
      have below := separated.made i member
      refine ⟨i,List.mem_append_left _ member,attached,by rw [named _ (Nat.ne_of_lt below)]; exact goes,?_⟩
      intro d within goes'
      have old : d ≠ r.created := by
        intro made
        have same : name = node := last.symm.trans (made ▸ goes')
        subst same
        exact unnamed (.inl ⟨pipe,port,before⟩) i.channel below goes
      rw [named d old] at goes'
      exact only d (Nat.lt_of_le_of_ne (Nat.lt_succ_iff.mp within) old) goes'
    · refine ⟨_,List.mem_append_right _ (List.mem_singleton_self _),new,last.trans same.symm,?_⟩
      intro d below goes
      by_contra other
      rw [named d other] at goes
      have below' : d < r.created := Nat.lt_of_le_of_ne (Nat.lt_succ_iff.mp below) other
      exact unnamed (.inr (List.ne_nil_of_mem new)) d below' (goes.trans same)

theorem Separated.awaitInviter (separated : Separated r invitations)
    (may : ¬r.Reserves kInvalidNodeName) : Separated r.awaitInviter invitations := by
  have named (c : ChannelPtr) (other : c ≠ r.created) : r.awaitInviter.remoteNames c = r.remoteNames c :=
    Function.update_of_ne other _ _
  have last : r.awaitInviter.remoteNames r.created = kInvalidNodeName := Function.update_self ..
  constructor
  · exact fun i member => Nat.lt_succ_of_lt (separated.made i member)
  · intro token c found
    obtain ⟨goes,i,member,same⟩ := separated.pending token c found
    have below := separated.made i member
    rw [named c (same ▸ Nat.ne_of_lt below)]
    exact ⟨goes,i,member,same⟩
  · intro c set
    cases set
    exact ⟨Nat.lt_succ_self _,fun i member => Nat.ne_of_lt (separated.made i member)⟩
  · intro node pipe port found
    obtain ⟨i,member,attached,goes,only⟩ := separated.reserved node pipe port found
    have below := separated.made i member
    refine ⟨i,member,attached,by rw [named _ (Nat.ne_of_lt below)]; exact goes,?_⟩
    intro d within goes'
    have old : d ≠ r.created := by
      rintro rfl
      have zero : node = kInvalidNodeName := goes'.symm.trans last
      exact may ⟨pipe,port,zero ▸ found⟩
    rw [named d old] at goes'
    exact only d (Nat.lt_of_le_of_ne (Nat.lt_succ_iff.mp within) old) goes'

theorem Separated.enter (separated : Separated r invitations) {c : ChannelPtr} {name : NodeName}
    (set : r.inviterChannel = some c) (may : ¬r.Reserves name) : Separated (r.enter name c) invitations := by
  obtain ⟨_,apart⟩ := separated.inviter c set
  have named (d : ChannelPtr) (other : d ≠ c) : (r.enter name c).remoteNames d = r.remoteNames d :=
    Function.update_of_ne other _ _
  constructor
  · exact separated.made
  · intro token d found
    obtain ⟨goes,i,member,same⟩ := separated.pending token d found
    rw [named d (same ▸ apart i member)]
    exact ⟨goes,i,member,same⟩
  · exact separated.inviter
  · intro node pipe port found
    obtain ⟨i,member,attached,goes,only⟩ := separated.reserved node pipe port found
    refine ⟨i,member,attached,by rw [named _ (apart i member)]; exact goes,?_⟩
    intro d within goes'
    have other : d ≠ c := by
      rintro rfl
      have here : node = name := goes'.symm.trans (Function.update_self ..)
      exact may ⟨pipe,port,here ▸ found⟩
    rw [named d other] at goes'
    exact only d within goes'

theorem Separated.drop (separated : Separated r invitations) (name : NodeName) :
    Separated (r.drop name) invitations where
  made := separated.made
  pending token c found := by
    change (r.pendingInvitations.erase name).lookup token = some c at found
    rw [Table.lookup_erase] at found
    split at found
    · contradiction
    · exact separated.pending token c found
  inviter := separated.inviter
  reserved node pipe port found := by
    obtain ⟨portMap,looked,held⟩ := Option.bind_eq_some_iff.mp found
    change (r.reservedPorts.erase name).lookup node = some portMap at looked
    rw [Table.lookup_erase] at looked
    split at looked
    · contradiction
    · exact separated.reserved node pipe port (by rw [Registry.reservation,reservedFor,looked]; exact held)

theorem Separated.accepted (separated : Separated r invitations) {fromNode inviteeName : NodeName}
    {c : ChannelPtr} (pending : r.pendingInvitations.lookup fromNode = some c)
    (may : (r.Reserves inviteeName ∨ (r.Reserves fromNode ∧ r.reservedPorts.lookup inviteeName = none)) →
      r.Only c inviteeName) : Separated (r.accepted fromNode inviteeName c) invitations := by
  have named (d : ChannelPtr) (other : d ≠ c) :
      (r.accepted fromNode inviteeName c).remoteNames d = r.remoteNames d := Function.update_of_ne other _ _
  have renamed : (r.accepted fromNode inviteeName c).remoteNames c = inviteeName := Function.update_self ..
  obtain ⟨sender,_,member,same⟩ := separated.pending fromNode c pending
  have below : c < r.created := same ▸ separated.made _ member
  constructor
  · exact separated.made
  · intro token d found
    change (r.pendingInvitations.erase fromNode).lookup token = some d at found
    rw [Table.lookup_erase] at found
    split at found
    · contradiction
    · next other =>
      obtain ⟨goes,rest⟩ := separated.pending token d found
      have differs : d ≠ c := by
        rintro rfl
        exact other (goes.symm.trans sender)
      rw [named d differs]
      exact ⟨goes,rest⟩
  · exact separated.inviter
  · intro node pipe port found
    obtain ⟨other,before | ⟨here,free,moved⟩⟩ := renameReserved_reservation (r := r) found
    · obtain ⟨i,member,attached,goes,only⟩ := separated.reserved node pipe port before
      have differs : i.channel ≠ c := by
        intro owner
        rw [owner] at goes
        exact other (goes.symm.trans sender)
      refine ⟨i,member,attached,by rw [named _ differs]; exact goes,?_⟩
      intro d within goes'
      by_cases answering : d = c
      · subst answering
        have target : inviteeName = node := renamed.symm.trans goes'
        have unique := may (.inl ⟨pipe,port,target ▸ before⟩)
        exact (differs (unique i.channel (separated.made i member) (goes.trans target.symm))).elim
      · rw [named d answering] at goes'
        exact only d within goes'
    · -- the reservations of the token follow its channel
      obtain ⟨i,member,attached,_,only⟩ := separated.reserved fromNode pipe port moved
      have owner : c = i.channel := only c below sender
      refine ⟨i,member,attached,by rw [← owner,renamed]; exact here.symm,?_⟩
      intro d within goes'
      by_cases answering : d = c
      · exact answering.trans owner
      · rw [named d answering] at goes'
        have unique := may (.inr ⟨⟨pipe,port,moved⟩,free⟩)
        exact (unique d within (goes'.trans here)).trans owner

theorem Separated.effect (separated : Separated r invitations) (effect : r.Effect e t)
    (may : r.Separate e) : Separated t (invitations ++ invitedBy r.created e) := by
  cases effect with
  | none _ _ unsent =>
    rw [invitedBy_other unsent,List.append_nil]
    exact separated
  | invite name ports => exact separated.invite may
  | awaitInviter =>
    rw [invitedBy,List.append_nil]
    · exact separated.awaitInviter may
    · exact fun _ _ same => nomatch same
  | enter channel c data set =>
    rw [invitedBy,List.append_nil]
    · exact separated.enter set may
    · exact fun _ _ same => nomatch same
  | drop channel data =>
    rw [invitedBy,List.append_nil]
    · exact separated.drop _
    · exact fun _ _ same => nomatch same
  | accepted channel c data pending matching =>
    rw [invitedBy,List.append_nil]
    · exact separated.accepted pending (may c pending matching)
    · exact fun _ _ same => nomatch same
  | take channel data port rest taken =>
    rw [invitedBy,List.append_nil]
    · exact { separated with
        reserved := fun node pipe port' found =>
          separated.reserved node pipe port' (Registry.take_reservation taken found) }
    · exact fun _ _ same => nomatch same

theorem separated_start (name : NodeName) : Separated (create name).registry [] where
  made _ member := nomatch member
  pending _ _ found := nomatch found
  inviter _ set := nomatch set
  reserved _ _ _ found := nomatch found

variable {h g : History}

/-- A port that is handed to `MergePorts` for a request was reserved for the channel's name. -/
theorem mergedBy_some (ran : h.step e = some g) {m : Merged} (new : m ∈ mergedBy h.controller g.controller e) :
    ∃ channel data, e = .message channel (.requestPortMerge data) ∧ channel < h.controller.created ∧ ∃ port rest,
      takeReserved h.controller.reservedPorts (h.controller.remoteNames channel) data.messagePipeName =
        some (port,rest) ∧ m = ⟨channel,data.messagePipeName,port⟩ := by
  unfold mergedBy at new
  split at new
  · next channel data =>
    obtain ⟨port,called,rfl⟩ := List.mem_map.mp new
    obtain ⟨t,happened,same⟩ := Option.bind_eq_some_iff.mp ran
    cases same
    rw [NodeController.event] at happened
    split at happened
    · next below =>
      refine ⟨channel,data,rfl,below,?_⟩
      obtain ⟨_,rfl⟩ | ⟨port',rest,_,_,_,_,taken,_,_,rfl⟩ := onRequestPortMerge_cases happened
      · rw [List.drop_length] at called
        contradiction
      · have record : (h.controller.handed ++ [Handed.mergePorts port']).drop h.controller.handed.length =
            [Handed.mergePorts port'] := List.drop_left
        change port ∈ ((h.controller.handed ++ [Handed.mergePorts port']).drop _).filterMap Handed.merged at called
        rw [record] at called
        cases List.mem_singleton.mp called
        exact ⟨port,rest,taken,rfl⟩
    · contradiction
  · contradiction

theorem run_separated (run : Run (fun h e => h.controller.registry.Separate e) h) :
    Separated h.controller.registry h.invitations ∧ h.Isolates := by
  induction run with
  | start name => exact ⟨separated_start name,fun m member => nomatch member⟩
  | step h g e before may ran ih =>
    obtain ⟨separated,isolates⟩ := ih
    obtain ⟨effect,invitations,_,merged⟩ := step_some ran
    refine ⟨invitations ▸ separated.effect effect may,?_⟩
    intro m member
    rw [merged] at member
    rw [invitations]
    rcases List.mem_append.mp member with old | new
    · obtain ⟨i,inside,both⟩ := isolates m old
      exact ⟨i,List.mem_append_left _ inside,both⟩
    · obtain ⟨channel,data,rfl,below,port,rest,taken,rfl⟩ := mergedBy_some ran new
      obtain ⟨i,inside,attached,_,only⟩ := separated.reserved _ _ _ (takeReserved_some taken)
      exact ⟨i,List.mem_append_left _ inside,(only channel below rfl).symm,attached⟩

/-- Requests get ports of their own invitation only, in every run that gives no name
with reservations to a second channel. -/
theorem run_isolates (run : Run (fun h e => h.controller.registry.Separate e) h) : h.Isolates :=
  (run_separated run).2

/-- One invitation, answered and asked for its port. -/
theorem run_isolates_oneInvitation :
    ∃ h, Run (fun h e => h.controller.registry.Separate e) h ∧
      h.merged.map Merged.channel = [0] ∧ h.Isolates := by
  have first : Run (fun h e => h.controller.registry.Separate e) _ := .step (start ⟨1,1⟩) _
    (.call (.sendInvitation ⟨3,3⟩ [([97],⟨⟨2,2⟩,some 1⟩)])) (.start _) (fun _ _ below => nomatch below) rfl
  have second : Run (fun h e => h.controller.registry.Separate e) _ := .step _ _
    (.message 0 (.acceptInvitation ⟨⟨3,3⟩,⟨4,4⟩⟩)) first
    (fun c pending _ _ d below _ => by
      cases pending
      exact Nat.lt_one_iff.mp below) rfl
  have third : Run (fun h e => h.controller.registry.Separate e) _ := .step _ _
    (.message 0 (.requestPortMerge ⟨⟨5,5⟩,[97]⟩)) second trivial rfl
  exact ⟨_,third,rfl,run_isolates third⟩

/-- An invitee that answers under the token of another invitation gets the port of that one. -/
theorem run_not_isolates : ¬∀ h, Run (fun _ _ => True) h → h.Isolates := by
  intro all
  have first : Run (fun _ _ => True) _ := .step (start ⟨1,1⟩) _
    (.call (.sendInvitation ⟨3,3⟩ [([97],⟨⟨2,2⟩,some 1⟩)])) (.start _) trivial rfl
  have second : Run (fun _ _ => True) _ := .step _ _
    (.call (.sendInvitation ⟨5,5⟩ [([98],⟨⟨6,6⟩,some 2⟩)])) first trivial rfl
  have third : Run (fun _ _ => True) _ := .step _ _
    (.message 0 (.acceptInvitation ⟨⟨3,3⟩,⟨5,5⟩⟩)) second trivial rfl
  have fourth : Run (fun _ _ => True) _ := .step _ _
    (.message 0 (.requestPortMerge ⟨⟨7,7⟩,[98]⟩)) third trivial rfl
  obtain ⟨i,member,channel,attached⟩ := all _ fourth ⟨0,[98],⟨⟨6,6⟩,some 2⟩⟩ (List.mem_singleton_self _)
  rcases List.mem_cons.mp member with rfl | member
  · revert attached
    decide
  · cases List.mem_singleton.mp member
    contradiction

end Steps

end History

end MojoImpl.NodeController
