import MojoImpl.Controller.Reservations

/-! Where the ports passed to `SendInvitation` are. They stay reserved until they are merged
or closed, unless a map of them is moved to a name that has one. -/
namespace MojoImpl.NodeController
open Foundation MojoImpl.Ports

abbrev NamedPort := List UInt8 × PortRef

def ports (portMap : PortMap) : List NamedPort := portMap.entries.map fun port => (port.1,port.2)

def reservedList (reserved : Table NodeName PortMap) : List NamedPort :=
  reserved.entries.flatMap fun entry => ports entry.2

def reservedUnder (reserved : Table NodeName PortMap) (node : NodeName) : List NamedPort :=
  (reserved.lookup node).elim [] ports

/-- The calls on an inviter that its reservations go through. -/
inductive Move
  | sendInvitation (tempNodeName : NodeName) (attachedPorts : List NamedPort)
  | onAcceptInvitation (fromNode token inviteeName : NodeName)
  | onRequestPortMerge (fromNode : NodeName) (connectorPortName : PortName) (messagePipeName : List UInt8)
  | dropPeer (name : NodeName)

/-- A controller with the ports that were passed to `SendInvitation`. -/
structure Ledger where
  controller : NodeController
  passed : List NamedPort

namespace Ledger

/-- The record of the calls of the node begins here. -/
def start (s : NodeController) : Ledger := ⟨{ s with handed := [] },[]⟩

def step (h : Ledger) : Move → Option Ledger
  | .sendInvitation tempNodeName attachedPorts => do
    let controller ← h.controller.sendInvitation tempNodeName attachedPorts
    return ⟨controller,h.passed ++ attachedPorts⟩
  | .onAcceptInvitation fromNode token inviteeName => do
    let controller ← h.controller.onAcceptInvitation fromNode token inviteeName
    return { h with controller }
  | .onRequestPortMerge fromNode connectorPortName messagePipeName => do
    let controller ← h.controller.onRequestPortMerge fromNode connectorPortName messagePipeName
    return { h with controller }
  | .dropPeer name => do
    let controller ← h.controller.dropPeer name
    return { h with controller }

/-- The ports that `MergePorts` was called with. -/
def merged (h : Ledger) : List PortRef := h.controller.handed.filterMap Handed.merged

/-- The ports that `ClosePort` was called with. -/
def closed (h : Ledger) : List PortRef := h.controller.handed.filterMap Handed.closed

/-- Each port that was passed is reserved under its name or gone, and that as often as it was
passed; what is gone has been handed to `MergePorts` or to `ClosePort`, once each time. -/
def Conserved (h : Ledger) : Prop :=
  ∃ gone : List NamedPort, h.passed.Perm (reservedList h.controller.reservedPorts ++ gone) ∧
    (gone.map Prod.snd).Perm (h.merged ++ h.closed)

/-- Runs from a controller without reservations, each call allowed where it is made. -/
inductive Run (allowed : NodeController → Move → Prop) : Ledger → Prop
  | start (s : NodeController) (nothing : s.reservedPorts = ∅) : Run allowed (start s)
  | step (h g : Ledger) (move : Move) (before : Run allowed h) (may : allowed h.controller move)
      (ran : h.step move = some g) : Run allowed g

end Ledger

/-- No port is put where one is, and no map of ports is moved to a name that has one. -/
def Lossless (s : NodeController) : Move → Prop
  | .sendInvitation tempNodeName attachedPorts => (attachedPorts.map Prod.fst).Nodup ∧
      ∀ port ∈ attachedPorts, s.reservation tempNodeName port.1 = none
  | .onAcceptInvitation fromNode token inviteeName =>
      s.pendingInvitations.lookup fromNode ≠ none → token = fromNode →
        reservedUnder s.reservedPorts fromNode ≠ [] → s.reservedPorts.lookup inviteeName = none
  | .onRequestPortMerge _ _ _ => True
  | .dropPeer _ => True

section Reserved

theorem reservedList_perm (reserved : Table NodeName PortMap) (node : NodeName) :
    (reservedList reserved).Perm (reservedUnder reserved node ++ reservedList (reserved.erase node)) := by
  have split := (Table.entries_perm reserved node).flatMap_right (fun entry => ports entry.2)
  rw [List.flatMap_append] at split
  refine split.trans ?_
  rw [reservedUnder]
  cases reserved.lookup node with
  | none => exact List.Perm.refl _
  | some portMap =>
    simp only [Option.toList_some,List.map_cons,List.map_nil,List.flatMap_cons,List.flatMap_nil,
      List.append_nil,Option.elim_some]
    exact List.Perm.refl _

theorem reservedList_insert (reserved : Table NodeName PortMap) (node : NodeName) (portMap : PortMap) :
    reservedList (reserved.insert node portMap) = ports portMap ++ reservedList (reserved.erase node) := by
  rw [reservedList,Table.entries_insert,List.flatMap_cons]
  rfl

theorem ports_perm {portMap : PortMap} {name : List UInt8} {port : PortRef}
    (found : portMap.lookup name = some port) : (ports portMap).Perm ((name,port) :: ports (portMap.erase name)) := by
  have split := (Table.entries_perm portMap name).map (fun port => (port.1,port.2))
  rwa [found] at split

theorem reserve_perm {portMap : PortMap} {attachedPorts : List NamedPort}
    (apart : (attachedPorts.map Prod.fst).Nodup)
    (new : ∀ port ∈ attachedPorts, portMap.lookup port.1 = none) :
    (ports (reserve attachedPorts portMap)).Perm (ports portMap ++ attachedPorts) := by
  induction attachedPorts generalizing portMap with
  | nil =>
    rw [List.append_nil]
    exact List.Perm.refl _
  | cons port rest ih =>
    obtain ⟨distinct,apart⟩ := List.nodup_cons.mp apart
    have unknown := new port (by simp)
    have placed : Table.emplace portMap port.1 port.2 = portMap.insert port.1 port.2 := by
      rw [Table.emplace,unknown]
    have listed : ports (portMap.insert port.1 port.2) = port :: ports portMap := by
      have same : portMap.erase port.1 = portMap := Table.erase_unknown unknown
      rw [ports,Table.entries_insert,same]
      rfl
    have others : ∀ other ∈ rest, (portMap.insert port.1 port.2).lookup other.1 = none := by
      intro other member
      have differs : other.1 ≠ port.1 := fun same => distinct (same ▸ List.mem_map_of_mem member)
      rw [Table.lookup_insert,if_neg differs]
      exact new other (by simp [member])
    rw [reserve,List.foldl_cons]
    change (ports (reserve rest (Table.emplace portMap port.1 port.2))).Perm _
    rw [placed]
    apply (ih apart others).trans
    rw [listed]
    exact List.perm_middle.symm

theorem takeReserved_perm {reserved : Table NodeName PortMap} {node : NodeName} {name : List UInt8}
    {port : PortRef} {rest : Table NodeName PortMap} (taken : takeReserved reserved node name = some (port,rest)) :
    (reservedList reserved).Perm ((name,port) :: reservedList rest) := by
  obtain ⟨portMap,found,more⟩ := Option.bind_eq_some_iff.mp taken
  obtain ⟨port',found',same⟩ := Option.bind_eq_some_iff.mp more
  cases same
  apply (reservedList_perm reserved node).trans
  rw [reservedUnder,found,Option.elim_some]
  apply ((ports_perm found').append_right _).trans
  rw [List.cons_append]
  apply List.Perm.cons
  split
  · next empty =>
    have none_left : ports (portMap.erase name) = [] := by
      rw [ports,List.isEmpty_iff.mp empty]
      rfl
    rw [none_left,List.nil_append]
  · rw [reservedList_insert]

theorem reservedUnder_refs (reserved : Table NodeName PortMap) (node : NodeName) :
    (reservedUnder reserved node).map Prod.snd = reservedRefs reserved node := by
  rw [reservedUnder,reservedRefs]
  cases reserved.lookup node with
  | none => rfl
  | some portMap => exact List.map_map

/-- A map that is moved to a name without one stays, and so does nothing at all. -/
theorem renameReserved_perm {reserved : Table NodeName PortMap} (fromNode : NodeName) {inviteeName : NodeName}
    (free : reservedUnder reserved fromNode ≠ [] → reserved.lookup inviteeName = none) :
    (reservedList reserved).Perm (reservedList (renameReserved reserved fromNode inviteeName)) := by
  unfold renameReserved
  split
  · exact List.Perm.refl _
  · next portMap found =>
    have under : reservedUnder reserved fromNode = ports portMap := by
      rw [reservedUnder,found]
      rfl
    cases target : reserved.lookup inviteeName with
    | some other =>
      have nothing : ports portMap = [] := by
        by_contra some_port
        have absent := free (under ▸ some_port)
        rw [target] at absent
        contradiction
      have same : Table.emplace reserved inviteeName portMap = reserved := by
        rw [Table.emplace,target]
      have split := reservedList_perm reserved fromNode
      rw [under,nothing,List.nil_append] at split
      rwa [same]
    | none =>
      have placed : Table.emplace reserved inviteeName portMap = reserved.insert inviteeName portMap := by
        rw [Table.emplace,target]
      have same : reserved.erase inviteeName = reserved := Table.erase_unknown target
      have other : fromNode ≠ inviteeName := by
        rintro rfl
        rw [found] at target
        contradiction
      have again : reservedUnder (reserved.insert inviteeName portMap) fromNode = ports portMap := by
        rw [reservedUnder,Table.lookup_insert,if_neg other,found]
        rfl
      have moved := reservedList_perm (reserved.insert inviteeName portMap) fromNode
      rw [again,reservedList_insert,same] at moved
      rw [placed]
      exact (List.perm_append_left_iff _).mp moved

end Reserved

section Steps
variable {s t : NodeController}

theorem addPeer_reservedPorts (s : NodeController) (name : NodeName) (c : ChannelPtr) :
    (s.addPeer name c).reservedPorts = s.reservedPorts := by
  obtain ⟨peers,pending,channels,same,_⟩ := addPeer_shape s name c
  rw [same]

/-- The ports attached to an invitation are reserved beside those that were. -/
theorem invite_reservedList {s : NodeController} {tempNodeName : NodeName}
    {attachedPorts : List (List UInt8 × PortRef)} (apart : (attachedPorts.map Prod.fst).Nodup)
    (new : ∀ port ∈ attachedPorts, s.reservation tempNodeName port.1 = none) :
    (reservedList (s.invite tempNodeName attachedPorts).reservedPorts).Perm
      (reservedList s.reservedPorts ++ attachedPorts) := by
  have before := reservedList_perm s.reservedPorts tempNodeName
  have under : ports ((s.reservedPorts.lookup tempNodeName).getD ∅) =
      reservedUnder s.reservedPorts tempNodeName := by
    rw [reservedUnder]
    cases s.reservedPorts.lookup tempNodeName <;> rfl
  change (reservedList (Table.modify s.reservedPorts tempNodeName ∅ (reserve attachedPorts))).Perm _
  rw [Table.modify,reservedList_insert]
  apply ((reserve_perm apart ?_).append_right _).trans
  · rw [under]
    apply List.Perm.trans _ (before.symm.append_right attachedPorts)
    rw [List.append_assoc,List.append_assoc]
    exact List.perm_append_comm.append_left _
  · intro port member
    have absent := new port member
    rw [reservation,reservedFor] at absent
    cases found : s.reservedPorts.lookup tempNodeName with
    | none => rfl
    | some portMap => simpa [found] using absent

theorem addPeer_handed (s : NodeController) (name : NodeName) (c : ChannelPtr) :
    (s.addPeer name c).handed = s.handed := by
  obtain ⟨peers,pending,channels,same,_⟩ := addPeer_shape s name c
  rw [same]

end Steps

namespace Ledger
variable {h g : Ledger} {t : NodeController}

/-- No call of the node, and as many ports reserved. -/
theorem Conserved.kept (conserved : h.Conserved)
    (reserved : (reservedList h.controller.reservedPorts).Perm (reservedList t.reservedPorts))
    (silent : t.handed = h.controller.handed) : Conserved { h with controller := t } := by
  obtain ⟨gone,passed,handed⟩ := conserved
  refine ⟨gone,passed.trans (reserved.append_right gone),?_⟩
  rw [merged,closed,silent]
  exact handed

theorem Conserved.invite (conserved : h.Conserved) {tempNodeName : NodeName} {attachedPorts : List NamedPort}
    (apart : (attachedPorts.map Prod.fst).Nodup)
    (new : ∀ port ∈ attachedPorts, h.controller.reservation tempNodeName port.1 = none) :
    Conserved ⟨h.controller.invite tempNodeName attachedPorts,h.passed ++ attachedPorts⟩ := by
  obtain ⟨gone,passed,handed⟩ := conserved
  have reserved := invite_reservedList apart new
  refine ⟨gone,?_,handed⟩
  apply (passed.append_right attachedPorts).trans
  apply List.Perm.trans _ (reserved.symm.append_right gone)
  rw [List.append_assoc,List.append_assoc]
  exact List.perm_append_comm.append_left _

/-- The ports of a peer that is dropped are handed to `ClosePort`. -/
theorem Conserved.dropPeer (conserved : h.Conserved) {name : NodeName}
    (ran : h.controller.dropPeer name = some t) : Conserved { h with controller := t } := by
  obtain ⟨gone,passed,handed⟩ := conserved
  obtain ⟨node,_,rfl⟩ := dropPeer_ran ran
  refine ⟨gone ++ reservedUnder h.controller.reservedPorts name,?_,?_⟩
  · apply passed.trans
    apply ((reservedList_perm _ name).append_right gone).trans
    rw [List.append_assoc]
    apply List.perm_append_comm.trans
    rw [List.append_assoc]
  · have calls := reservedUnder_refs h.controller.reservedPorts name
    have closes (refs : List PortRef) : (refs.map Handed.closePort).filterMap Handed.merged = [] ∧
        (refs.map Handed.closePort).filterMap Handed.closed = refs := by
      constructor
      · simp [List.filterMap_map,Function.comp_def,Handed.merged]
      · simp [List.filterMap_map,Function.comp_def,Handed.closed]
    rw [merged,closed,List.filterMap_append,List.filterMap_append,(closes _).1,(closes _).2,List.append_nil,
      List.map_append,calls,← List.append_assoc]
    exact handed.append_right _

/-- A port that is requested is handed to `MergePorts`. -/
theorem Conserved.onRequestPortMerge (conserved : h.Conserved) {fromNode : NodeName}
    {connectorPortName : PortName} {messagePipeName : List UInt8}
    (ran : h.controller.onRequestPortMerge fromNode connectorPortName messagePipeName = some t) :
    Conserved { h with controller := t } := by
  obtain ⟨_,rfl⟩ | ⟨port,rest,r,localPortName,node,channel,taken,_,_,rfl⟩ := onRequestPortMerge_cases ran
  · exact conserved
  · obtain ⟨gone,passed,handed⟩ := conserved
    refine ⟨gone ++ [(messagePipeName,port)],?_,?_⟩
    · apply passed.trans
      apply ((takeReserved_perm taken).append_right gone).trans
      rw [List.cons_append,← List.append_assoc]
      exact (List.perm_append_singleton _ _).symm
    · have call : (h.controller.handed ++ [Handed.mergePorts port]).filterMap Handed.merged =
            h.merged ++ [port] ∧
          (h.controller.handed ++ [Handed.mergePorts port]).filterMap Handed.closed = h.closed :=
        ⟨List.filterMap_append,List.filterMap_append.trans (List.append_nil _)⟩
      change ((gone ++ [(messagePipeName,port)]).map Prod.snd).Perm
        ((h.controller.handed ++ [Handed.mergePorts port]).filterMap Handed.merged ++
          (h.controller.handed ++ [Handed.mergePorts port]).filterMap Handed.closed)
      rw [call.1,call.2,List.map_append,List.append_assoc]
      apply (handed.append_right [port]).trans
      rw [List.append_assoc]
      exact List.perm_append_comm.append_left _

theorem Conserved.step {move : Move} (conserved : h.Conserved) (lossless : h.controller.Lossless move)
    (ran : h.step move = some g) : g.Conserved := by
  cases move with
  | sendInvitation tempNodeName attachedPorts =>
    obtain ⟨t,sent,same⟩ := Option.bind_eq_some_iff.mp ran
    cases same
    cases sendInvitation_ran sent
    exact conserved.invite lossless.1 lossless.2
  | onAcceptInvitation fromNode token inviteeName =>
    obtain ⟨t,accepted,same⟩ := Option.bind_eq_some_iff.mp ran
    cases same
    obtain ⟨_,dropped⟩ | ⟨channel,pending,matching,rfl⟩ := onAcceptInvitation_cases accepted
    · exact conserved.dropPeer dropped
    · have known : h.controller.pendingInvitations.lookup fromNode ≠ none := by
        rw [pending]
        exact Option.some_ne_none _
      refine conserved.kept ?_ (addPeer_handed ..)
      rw [answered,addPeer_reservedPorts]
      exact renameReserved_perm fromNode (lossless known matching)
  | onRequestPortMerge fromNode connectorPortName messagePipeName =>
    obtain ⟨t,merged,same⟩ := Option.bind_eq_some_iff.mp ran
    cases same
    exact conserved.onRequestPortMerge merged
  | dropPeer name =>
    obtain ⟨t,dropped,same⟩ := Option.bind_eq_some_iff.mp ran
    cases same
    exact conserved.dropPeer dropped

/-- What is passed stays reserved or is merged once or closed, in every run that puts no
port where one is. -/
theorem run_conserved (run : Run Lossless h) : h.Conserved := by
  induction run with
  | start s nothing =>
    refine ⟨[],?_,List.Perm.refl _⟩
    change [].Perm (reservedList s.reservedPorts ++ [])
    rw [nothing]
    exact List.Perm.refl _
  | step h g move before may ran conserved => exact conserved.step may ran

/-- An invitation with a port, answered and asked for it. -/
theorem run_conserved_oneInvitation :
    ∃ h, Run Lossless h ∧ h.passed = [([97],⟨⟨2,2⟩,some 1⟩)] ∧ h.merged = [⟨⟨2,2⟩,some 1⟩] ∧
      h.Conserved := by
  have first : Run Lossless _ := .step (start (create ⟨1,1⟩)) _
    (.sendInvitation ⟨3,3⟩ [([97],⟨⟨2,2⟩,some 1⟩)]) (.start _ rfl) ⟨by simp,fun _ _ => rfl⟩ rfl
  have second : Run Lossless _ := .step _ _ (.onAcceptInvitation ⟨3,3⟩ ⟨3,3⟩ ⟨4,4⟩) first
    (fun _ _ _ => rfl) rfl
  have third : Run Lossless _ := .step _ _ (.onRequestPortMerge ⟨4,4⟩ ⟨5,5⟩ [97]) second trivial rfl
  exact ⟨_,third,rfl,rfl,run_conserved third⟩

/-- An invitation answered under its temporary name: the port is nowhere. -/
theorem run_loses : ¬∀ h, Run (fun _ _ => True) h → h.Conserved := by
  intro all
  have first : Run (fun _ _ => True) _ := .step (start (create ⟨1,1⟩)) _
    (.sendInvitation ⟨3,3⟩ [([97],⟨⟨2,2⟩,some 1⟩)]) (.start _ rfl) trivial rfl
  have second : Run (fun _ _ => True) _ := .step _ _ (.onAcceptInvitation ⟨3,3⟩ ⟨3,3⟩ ⟨3,3⟩) first
    trivial rfl
  obtain ⟨gone,passed,handed⟩ := all _ second
  have nothing : gone = [] := List.map_eq_nil_iff.mp handed.eq_nil
  subst nothing
  have count := passed.length_eq
  contradiction

end Ledger

end MojoImpl.NodeController
