import MojoImpl.Ports.Wired

/-! The index of ports by their peers. A pair of ports is entered for both; taking a port
out of `ports_` leaves its entry behind. -/
namespace MojoImpl.Ports
open Foundation

inductive NodeCall
  | createPortPair (name0 name1 : PortName)
  | mergePorts (portRef : PortRef) (destinationNodeName : NodeName) (destinationPortName : PortName)
  | mergePortsResponse (localPeerPortName : PortName) (destinationNodeName : NodeName)
      (destinationPortName : PortName)
  | closePort (portRef : PortRef)

def NodeCall.names : NodeCall → List PortName
  | .createPortPair name0 name1 => [name0,name1]
  | _ => []

namespace Node

def nodeCall (n : Node) : NodeCall → Option Node
  | .createPortPair name0 name1 => do
    let (_,_,_,n) ← n.createPortPair name0 name1
    return n
  | .mergePorts portRef destinationNodeName destinationPortName => do
    let (_,_,n) ← n.mergePorts portRef destinationNodeName destinationPortName
    return n
  | .mergePortsResponse localPeerPortName destinationNodeName destinationPortName => do
    let (_,n) ← n.mergePortsResponse localPeerPortName destinationNodeName destinationPortName
    return n
  | .closePort portRef => n.closePort portRef

/-- The nodes that calls make from an empty one, and the names generated on the way. Each
call is allowed where it is made, and what it generates is new. -/
inductive Built (name : NodeName) (allowed : Node → NodeCall → Prop) : List PortName → Node → Prop
  | create : Built name allowed [] (create name)
  | call (used : List PortName) (n t : Node) (call : NodeCall) (before : Built name allowed used n)
      (may : allowed n call)
      (new : call.names.Nodup ∧ ∀ x ∈ call.names, x ≠ kInvalidPortName ∧ x ∉ used)
      (ran : n.nodeCall call = some t) : Built name allowed (call.names ++ used) t

/-- A name is entered under a peer when it is a port with that peer, and the entry is a
reference to the port. -/
structure IndexAgrees (n : Node) : Prop where
  present : ∀ node port l, n.peerEntry node port l ≠ none ↔ n.peerOf l = some (node,port)
  refers : ∀ node port l ref, n.peerEntry node port l = some ref → ref.name = l ∧ n.Holds ref

/-- The call takes no port out of `ports_` and gives none there another peer. -/
def Undisturbed (n : Node) : NodeCall → Prop
  | .createPortPair _ _ => True
  | .mergePorts portRef _ _ => n.ports.lookup portRef.name = none ∧
      ∀ ptr, portRef.port = some ptr → n.ports.lookup (n.objects ptr).peerPortName = none
  | .mergePortsResponse localPeerPortName _ _ => n.ports.lookup localPeerPortName = none
  | .closePort portRef => n.ports.lookup portRef.name = none

section Calls
variable {n t : Node} {used : List PortName} {name : NodeName}

theorem erasePort_unknown {p : PortName} (unknown : n.ports.lookup p = none) : n.erasePort p = n := by
  rw [erasePort,Table.erase_unknown unknown]

theorem undisturbed_same {call : NodeCall} (calm : n.Undisturbed call) (ran : n.nodeCall call = some t) :
    (∃ name0 name1, call = .createPortPair name0 name1) ∨ t = n := by
  cases call with
  | createPortPair name0 name1 => exact .inl ⟨name0,name1,rfl⟩
  | mergePorts portRef node port =>
    obtain ⟨unknown,mateless⟩ := calm
    obtain ⟨⟨r,localPortName,t'⟩,merged,same⟩ := Option.bind_eq_some_iff.mp ran
    cases same
    obtain ⟨ptr,real,rfl,⟨_,_,rfl⟩ | ⟨localPort,there,_⟩⟩ := mergePorts_cases merged
    · exact .inr (erasePort_unknown unknown)
    · rw [erasePort_unknown unknown,mateless ptr real] at there
      contradiction
  | mergePortsResponse p node port =>
    obtain ⟨⟨r,t'⟩,merged,same⟩ := Option.bind_eq_some_iff.mp ran
    cases same
    obtain ⟨_,_,rfl⟩ | ⟨ptr,_,_,live,_⟩ := mergePortsResponse_cases merged
    · exact .inr rfl
    · rw [show n.ports.lookup p = none from calm] at live
      contradiction
  | closePort portRef =>
    obtain ⟨ptr,_,same⟩ := Option.bind_eq_some_iff.mp ran
    cases same
    exact .inr (erasePort_unknown calm)

/-- All ports have their peers at home, and the index shows them. -/
structure Indexed (used : List PortName) (n : Node) : Prop extends IndexAgrees n where
  wired : n.Wired
  known : ∀ x, x ∉ used → n.ports.lookup x = none
  home : ∀ l node port, n.peerOf l = some (node,port) → node = n.name

theorem Indexed.create (name : NodeName) : Indexed [] (create name) where
  present _ _ _ := ⟨fun there => absurd rfl there,fun peer => nomatch peer⟩
  refers _ _ _ _ entry := nomatch entry
  wired := Wired.create name
  known _ _ := rfl
  home _ _ _ peer := nomatch peer

theorem Indexed.unused (indexed : Indexed used n) {x : PortName} (new : x ∉ used) : n.Unused x where
  port := indexed.known x new
  entry l := by
    by_contra there
    have peer := (indexed.present n.name x l).mp there
    obtain ⟨ptr,live,_⟩ := peerOf_some.mp (indexed.wired.mutual peer)
    rw [indexed.known x new] at live
    contradiction

theorem Indexed.createPortPair (indexed : Indexed used n) {p0 p1 : PortName} (new0 : p0 ∉ used)
    (new1 : p1 ∉ used) (distinct : p0 ≠ p1) : Indexed ([p0,p1] ++ used) (n.withPair p0 p1) := by
  have unused0 := indexed.unused new0
  have unused1 := indexed.unused new1
  have effect := withPair_paired unused0 unused1 distinct
  have peers := effect.peerOf indexed.wired distinct
  have mates := effect.mates distinct
  have entries (port l : PortName) := effect.entries port l
  have absent (x : PortName) (unused : n.Unused x) : n.peerOf x = none := by
    rw [peerOf,getPort,unused.port]
    rfl
  constructor
  · constructor
    · intro node port l
      by_cases own : node = n.name
      · rw [own,entries,peers]
        by_cases first : l = p0
        · subst first
          rw [if_pos rfl]
          by_cases mate : port = p1
          · simp [mate]
          · have before := indexed.present n.name port l
            rw [absent l unused0] at before
            simpa [mate,distinct,Ne.symm mate] using before
        · rw [if_neg first]
          by_cases second : l = p1
          · subst second
            rw [if_pos rfl]
            by_cases mate : port = p0
            · simp [mate,distinct.symm]
            · have before := indexed.present n.name port l
              rw [absent l unused1] at before
              simpa [mate,distinct.symm,Ne.symm mate] using before
          · rw [if_neg second,if_neg (fun all => first all.2),if_neg (fun all => second all.2)]
            exact indexed.present n.name port l
      · rw [peerEntry_withPair n p0 p1 own]
        have before : n.peerEntry node port l = none := by
          by_contra there
          exact own (indexed.home l node port ((indexed.present node port l).mp there))
        constructor
        · intro there
          exact absurd before there
        · intro peer
          rw [peers] at peer
          split at peer
          · exact absurd (congrArg Prod.fst (Option.some.inj peer)).symm own
          · split at peer
            · exact absurd (congrArg Prod.fst (Option.some.inj peer)).symm own
            · exact absurd (indexed.home l node port peer) own
    · intro node port l ref entry
      by_cases own : node = n.name
      · rw [own,entries] at entry
        split at entry
        · next here =>
          cases entry
          exact ⟨here.2.symm,_,rfl,mates.live0⟩
        · split at entry
          · next here =>
            cases entry
            exact ⟨here.2.symm,_,rfl,mates.live1⟩
          · obtain ⟨same,held⟩ := indexed.refers n.name port l ref entry
            exact ⟨same,effect.holds indexed.wired unused0 unused1 held⟩
      · rw [peerEntry_withPair n p0 p1 own] at entry
        obtain ⟨same,held⟩ := indexed.refers node port l ref entry
        exact ⟨same,effect.holds indexed.wired unused0 unused1 held⟩
  · exact effect.wired indexed.wired unused0 unused1 distinct
  · intro x absent
    rw [List.mem_append,List.mem_cons,List.mem_singleton,not_or,not_or] at absent
    rw [effect.lookup_other absent.1.1 absent.1.2]
    exact indexed.known x absent.2
  · intro l node port peer
    rw [peers] at peer
    split at peer
    · exact (congrArg Prod.fst (Option.some.inj peer)).symm
    · split at peer
      · exact (congrArg Prod.fst (Option.some.inj peer)).symm
      · exact indexed.home l node port peer

theorem built_indexed (built : Built name Undisturbed used n) : Indexed used n := by
  induction built with
  | create => exact Indexed.create name
  | call used n t call before may new ran indexed =>
    obtain ⟨name0,name1,rfl⟩ | rfl := undisturbed_same may ran
    · obtain ⟨apart,each⟩ := new
      obtain ⟨valid0,new0⟩ := each name0 (by simp [NodeCall.names])
      obtain ⟨valid1,new1⟩ := each name1 (by simp [NodeCall.names])
      have distinct : name0 ≠ name1 := by simpa [NodeCall.names] using apart
      have made := createPortPair_some (indexed.known name0 new0) (indexed.known name1 new1) distinct
        valid0 valid1
      simp only [nodeCall,made] at ran
      cases ran
      exact indexed.createPortPair new0 new1 distinct
    · exact { indexed with
        known := fun x absent => indexed.known x (fun member => absent (List.mem_append_right _ member)) }

/-- The index agrees with the ports as long as none is taken out or given another peer. -/
theorem built_indexAgrees (built : Built name Undisturbed used n) : IndexAgrees n :=
  (built_indexed built).toIndexAgrees

theorem built_indexAgrees_pair : ∃ t, Node.nodeCall (Node.create ⟨7,7⟩) (.createPortPair ⟨1,1⟩ ⟨2,2⟩) = some t ∧
    t.peerEntry ⟨7,7⟩ ⟨2,2⟩ ⟨1,1⟩ = some ⟨⟨1,1⟩,some 0⟩ ∧ IndexAgrees t := by
  obtain ⟨t,ran⟩ := Option.isSome_iff_exists.mp
    (show (Node.nodeCall (Node.create ⟨7,7⟩) (.createPortPair ⟨1,1⟩ ⟨2,2⟩)).isSome by rfl)
  have entry : (Node.nodeCall (Node.create ⟨7,7⟩) (.createPortPair ⟨1,1⟩ ⟨2,2⟩)).map
      (fun t => t.peerEntry ⟨7,7⟩ ⟨2,2⟩ ⟨1,1⟩) = some (some ⟨⟨1,1⟩,some 0⟩) := rfl
  rw [ran] at entry
  have built : Built ⟨7,7⟩ Undisturbed [⟨1,1⟩,⟨2,2⟩] t :=
    .call [] _ _ (.createPortPair ⟨1,1⟩ ⟨2,2⟩) .create trivial (by decide) ran
  exact ⟨t,ran,Option.some.inj entry,built_indexAgrees built⟩

/-- A merge leaves the entry of the port that it takes out. -/
theorem merged_not_indexAgrees : ∃ used n, Built ⟨7,7⟩ (fun _ _ => True) used n ∧ ¬IndexAgrees n := by
  obtain ⟨t,ran⟩ := Option.isSome_iff_exists.mp
    (show (Node.nodeCall (Node.create ⟨7,7⟩) (.createPortPair ⟨1,1⟩ ⟨2,2⟩)).isSome by rfl)
  have pair : Built ⟨7,7⟩ (fun _ _ => True) [⟨1,1⟩,⟨2,2⟩] t :=
    .call [] _ _ (.createPortPair ⟨1,1⟩ ⟨2,2⟩) .create trivial (by decide) ran
  obtain ⟨u,merged⟩ := Option.isSome_iff_exists.mp
    (show ((Node.nodeCall (Node.create ⟨7,7⟩) (.createPortPair ⟨1,1⟩ ⟨2,2⟩)).bind
      (·.nodeCall (.mergePorts ⟨⟨2,2⟩,some 1⟩ ⟨9,9⟩ ⟨8,8⟩))).isSome by rfl)
  have seen : ((Node.nodeCall (Node.create ⟨7,7⟩) (.createPortPair ⟨1,1⟩ ⟨2,2⟩)).bind
      (·.nodeCall (.mergePorts ⟨⟨2,2⟩,some 1⟩ ⟨9,9⟩ ⟨8,8⟩))).map
        (fun u => (u.peerEntry ⟨7,7⟩ ⟨1,1⟩ ⟨2,2⟩,u.peerOf ⟨2,2⟩)) =
      some (some ⟨⟨2,2⟩,some 1⟩,none) := rfl
  rw [merged] at seen
  obtain ⟨entry,gone⟩ := Prod.mk.inj (Option.some.inj seen)
  rw [ran] at merged
  refine ⟨_,u,.call _ t u (.mergePorts ⟨⟨2,2⟩,some 1⟩ ⟨9,9⟩ ⟨8,8⟩) pair trivial (by decide) merged,?_⟩
  intro agrees
  have left := (agrees.present ⟨7,7⟩ ⟨1,1⟩ ⟨2,2⟩).mp (by rw [entry]; simp)
  rw [gone] at left
  contradiction

end Calls

end Node

end MojoImpl.Ports
