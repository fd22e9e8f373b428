import MojoImpl.Ports.Index
import MojoImpl.Ports.Atomic

/-! Peers on one node. A merge takes one port of a pair out of `ports_` and gives the other a
peer elsewhere, also through a reference to a port that was taken out long before. A port
keeps its mate for as long as that mate could still be found. -/
namespace MojoImpl.Ports
open Foundation

/-- A caller has only the references it was given, and merges with ports of other nodes, whose
names are `foreign`. -/
def NodeCall.Allowed (name : NodeName) (foreign : PortName → Prop) (obtained : List PortRef) : NodeCall → Prop
  | .createPortPair name0 name1 => ¬foreign name0 ∧ ¬foreign name1
  | .mergePorts portRef destinationNodeName destinationPortName =>
    portRef ∈ obtained ∧ destinationNodeName ≠ name ∧ foreign destinationPortName
  | .mergePortsResponse _ destinationNodeName destinationPortName =>
    destinationNodeName ≠ name ∧ foreign destinationPortName
  | .closePort portRef => portRef ∈ obtained

namespace Node

/-- The references stored through the out-parameters of a call. -/
def handedOut (n : Node) : NodeCall → List PortRef
  | .createPortPair name0 name1 =>
    match n.createPortPair name0 name1 with
    | some (_,port0,port1,_) => [port0,port1]
    | none => []
  | _ => []

/-- The nodes that calls make from an empty one, with the names generated and the references
obtained on the way. What a call generates is new. -/
inductive Served (name : NodeName) (foreign : PortName → Prop) : List PortName → List PortRef → Node → Prop
  | create : Served name foreign [] [] (create name)
  | call (used : List PortName) (obtained : List PortRef) (n t : Node) (call : NodeCall)
      (before : Served name foreign used obtained n) (may : call.Allowed name foreign obtained)
      (new : call.names.Nodup ∧ ∀ x ∈ call.names, x ≠ kInvalidPortName ∧ x ∉ used)
      (ran : n.nodeCall call = some t) :
      Served name foreign (call.names ++ used) (n.handedOut call ++ obtained) t

/-- Two new ports that are each other's mates. -/
def couple (mate : PortName → PortName) (p0 p1 : PortName) : PortName → PortName := fun x =>
  if x = p1 then p0 else if x = p0 then p1 else mate x

/-- Every obtained reference has a mate. Its port has the mate as its peer or, when the mate
is gone from `ports_`, a port of another node. -/
structure Coupled (name : NodeName) (foreign : PortName → Prop) (mate : PortName → PortName)
    (used : List PortName) (obtained : List PortRef) (n : Node) : Prop where
  self : n.name = name
  home : ∀ x ∈ used, ¬foreign x
  named : ∀ ref ∈ obtained, ref.name ∈ used
  real : ∀ ref ∈ obtained, ∃ ptr : Nat, ref.port = some ptr ∧ ptr < n.allocated
  apart : (obtained.map PortRef.port).Nodup
  mated : ∀ ref ∈ obtained, mate ref.name ∈ used ∧ mate (mate ref.name) = ref.name
  ports : ∀ p entry, n.ports.lookup p = some entry → ⟨p,entry⟩ ∈ obtained
  entries : ∀ node port l ref, n.peerEntry node port l = some ref →
    (ref.port = none ∨ ref ∈ obtained) ∧ (node = name → port ∈ used)
  peers : ∀ x ptr, ⟨x,some ptr⟩ ∈ obtained →
    ((n.objects ptr).peerNodeName = name ∧ (n.objects ptr).peerPortName = mate x) ∨
      ((n.objects ptr).peerNodeName ≠ name ∧ foreign (n.objects ptr).peerPortName ∧
        n.ports.lookup (mate x) = none)

namespace Coupled
variable {name : NodeName} {foreign : PortName → Prop} {mate : PortName → PortName}
  {used : List PortName} {obtained : List PortRef} {n t : Node}

theorem create (foreign : PortName → Prop) (name : NodeName) : Coupled name foreign id [] [] (create name) where
  self := rfl
  home _ member := nomatch member
  named _ member := nomatch member
  real _ member := nomatch member
  apart := List.nodup_nil
  mated _ member := nomatch member
  ports _ _ live := nomatch live
  entries _ _ _ _ entry := nomatch entry
  peers _ _ member := nomatch member

theorem known (coupled : Coupled name foreign mate used obtained n) {x : PortName} (new : x ∉ used) :
    n.ports.lookup x = none := by
  cases live : n.ports.lookup x with
  | none => rfl
  | some entry => exact absurd (coupled.named _ (coupled.ports x entry live)) new

theorem unused (coupled : Coupled name foreign mate used obtained n) {x : PortName} (new : x ∉ used) :
    n.Unused x where
  port := coupled.known new
  entry l := by
    cases entry : n.peerEntry n.name x l with
    | none => rfl
    | some ref => exact absurd ((coupled.entries _ _ _ _ entry).2 coupled.self) new

section Steps

theorem erasePort (coupled : Coupled name foreign mate used obtained n) (p : PortName) :
    Coupled name foreign mate used obtained (n.erasePort p) := by
  have fewer (x : PortName) (entry : Option PortPtr) (live : (n.erasePort p).ports.lookup x = some entry) :
      n.ports.lookup x = some entry := by
    rw [Node.erasePort,Table.lookup_erase] at live
    split at live
    · contradiction
    · exact live
  refine { coupled with ports := fun x entry live => coupled.ports x entry (fewer x entry live), peers := ?_ }
  intro x ptr member
  rcases coupled.peers x ptr member with own | ⟨away,other,gone⟩
  · exact .inl own
  · refine .inr ⟨away,other,?_⟩
    rw [Node.erasePort,Table.lookup_erase,gone,ite_self]

theorem erasePeer (coupled : Coupled name foreign mate used obtained n) (node : NodeName) (port : PortName) :
    Coupled name foreign mate used obtained (n.erasePeer node port) := by
  refine { coupled with entries := ?_ }
  intro node' port' l ref entry
  rw [peerEntry_erasePeer] at entry
  split at entry
  · contradiction
  · exact coupled.entries node' port' l ref entry

theorem peerSubscript (coupled : Coupled name foreign mate used obtained n) (node : NodeName) {port : PortName}
    (generated : port ∈ used) (l : PortName) :
    Coupled name foreign mate used obtained (n.peerSubscript node port l).2 := by
  refine { coupled with entries := ?_ }
  intro node' port' l' ref entry
  rw [peerEntry_peerSubscript] at entry
  split at entry
  · next here =>
    cases entry
    refine ⟨?_,fun _ => here.2.1 ▸ generated⟩
    cases old : n.peerEntry node port l with
    | none => exact .inl rfl
    | some ref => exact (coupled.entries node port l ref old).1
  · exact coupled.entries node' port' l' ref entry

/-- A port whose mate is gone may be given a peer elsewhere. -/
theorem updatePortPeerAddress (coupled : Coupled name foreign mate used obtained n) {x : PortName} {ptr : PortPtr}
    (member : ⟨x,some ptr⟩ ∈ obtained) (gone : n.ports.lookup (mate x) = none) {node : NodeName}
    (remote : node ≠ name) {port : PortName} (other : foreign port) :
    Coupled name foreign mate used obtained (n.updatePortPeerAddress x ptr node port) := by
  obtain ⟨self,ports,allocated,objects⟩ := updatePortPeerAddress_effect n x ptr node port
  refine { coupled with self := ?_, real := ?_, ports := ?_, entries := ?_, peers := ?_ }
  · exact self.trans coupled.self
  · rw [allocated]
    exact coupled.real
  · rw [ports]
    exact coupled.ports
  · intro node' port' l ref entry
    unfold Node.updatePortPeerAddress at entry
    split at entry
    · rw [peerEntry_emplacePeer] at entry
      split at entry
      · next here =>
        cases entry
        refine ⟨?_,fun own => absurd (here.1.symm.trans own) remote⟩
        change (Option.getD (n.peerEntry node port l) _).port = none ∨ Option.getD (n.peerEntry node port l) _ ∈ _
        cases old : n.peerEntry node port l with
        | none => exact .inr member
        | some ref => exact (coupled.entries node port l ref old).1
      · exact coupled.entries node' port' l ref entry
    · exact coupled.entries node' port' l ref entry
  · intro y ptr' member'
    rw [objects,ports]
    by_cases here : ptr' = ptr
    · subst here
      cases List.inj_on_of_nodup_map coupled.apart member' member rfl
      rw [Function.update_self]
      exact .inr ⟨remote,other,gone⟩
    · rw [Function.update_of_ne here]
      exact coupled.peers y ptr' member'

theorem closePort (coupled : Coupled name foreign mate used obtained n) {ref : PortRef}
    (ran : n.closePort ref = some t) : Coupled name foreign mate used obtained t := by
  obtain ⟨ptr,_,same⟩ := Option.bind_eq_some_iff.mp ran
  cases same
  exact coupled.erasePort ref.name

/-- Whatever peer the port of the reference has by now, one that is found is its mate. -/
theorem mergePorts (coupled : Coupled name foreign mate used obtained n) {ref : PortRef} (member : ref ∈ obtained)
    {node : NodeName} (remote : node ≠ name) {port : PortName} (other : foreign port) {r : Result}
    {localPortName : PortName} (ran : n.mergePorts ref node port = some (r,localPortName,t)) :
    Coupled name foreign mate used obtained t := by
  obtain ⟨x,object⟩ := ref
  have erased := coupled.erasePort x
  obtain ⟨ptr,rfl,rfl,⟨_,_,rfl⟩ | ⟨q,found,_,rfl⟩⟩ := mergePorts_cases ran
  · exact erased
  · have there := erased.ports _ _ found
    rcases coupled.peers x ptr member with ⟨_,peer⟩ | ⟨_,away,_⟩
    · refine (erased.erasePeer _ x).updatePortPeerAddress there ?_ remote other
      change (n.ports.erase x).lookup _ = none
      rw [peer,(coupled.mated _ member).2,Table.lookup_erase,if_pos rfl]
    · exact absurd away (coupled.home _ (coupled.named _ there))

theorem mergePortsResponse (coupled : Coupled name foreign mate used obtained n) {p : PortName} {node : NodeName}
    (remote : node ≠ name) {port : PortName} (other : foreign port) {r : Result}
    (ran : n.mergePortsResponse p node port = some (r,t)) : Coupled name foreign mate used obtained t := by
  obtain ⟨_,_,rfl⟩ | ⟨ptr,r',localPortName,live,_,merged⟩ := mergePortsResponse_cases ran
  · exact coupled
  · have generated := coupled.named _ (coupled.ports p _ live)
    have added := coupled.peerSubscript n.name generated (n.objects ptr).peerPortName
    -- the entry just read is a reference obtained before, or null and then the merge crashes
    have subscript : ((n.peerSubscript n.name p (n.objects ptr).peerPortName).1).port = none ∨
        (n.peerSubscript n.name p (n.objects ptr).peerPortName).1 ∈ obtained := by
      cases old : n.peerEntry n.name p (n.objects ptr).peerPortName with
      | none => exact .inl (by rw [Node.peerSubscript,old]; rfl)
      | some ref =>
        rw [Node.peerSubscript,old]
        exact (coupled.entries _ _ _ _ old).1
    rcases subscript with null | member
    · exact absurd (merged.symm.trans (mergePorts_null null node port)) (Option.some_ne_none _)
    · exact added.mergePorts member remote other merged

end Steps

section Creating
variable {p0 p1 : PortName}

/-- The references to the two ports that `n` makes next. -/
def pairRefs (n : Node) (p0 p1 : PortName) : List PortRef :=
  [⟨p0,some n.allocated⟩,⟨p1,some (n.allocated+1)⟩]

theorem withPair_lookup (effect : Paired n t p0 p1) {p : PortName} {entry : Option PortPtr}
    (live : t.ports.lookup p = some entry) : ⟨p,entry⟩ ∈ pairRefs n p0 p1 ∨ n.ports.lookup p = some entry := by
  rw [effect.ports] at live
  split at live
  · next second =>
    cases live
    exact .inl (by simp [pairRefs,second])
  · split at live
    · next first =>
      cases live
      exact .inl (by simp [pairRefs,first])
    · exact .inr live

theorem withPair_peerEntry (effect : Paired n (n.withPair p0 p1) p0 p1) {node : NodeName} {port l : PortName}
    {ref : PortRef} (entry : (n.withPair p0 p1).peerEntry node port l = some ref) :
    (ref ∈ pairRefs n p0 p1 ∧ port ∈ [p0,p1]) ∨ n.peerEntry node port l = some ref := by
  by_cases own : node = n.name
  · rw [own,effect.entries] at entry
    split at entry
    · next here =>
      cases entry
      exact .inl ⟨by simp [pairRefs],by simp [here.1]⟩
    · split at entry
      · next here =>
        cases entry
        exact .inl ⟨by simp [pairRefs],by simp [here.1]⟩
      · exact .inr (own ▸ entry)
  · rw [peerEntry_withPair n p0 p1 own] at entry
    exact .inr entry

theorem pairRefs_apart (coupled : Coupled name foreign mate used obtained n) (p0 p1 : PortName) :
    ((pairRefs n p0 p1 ++ obtained).map PortRef.port).Nodup := by
  have fresh (ptr : Nat) (above : n.allocated ≤ ptr) : some ptr ∉ obtained.map PortRef.port := by
    intro member
    obtain ⟨ref,old,same⟩ := List.mem_map.mp member
    obtain ⟨ptr',real,below⟩ := coupled.real ref old
    cases real.symm.trans same
    omega
  simp only [pairRefs,List.cons_append,List.nil_append,List.map_cons,List.nodup_cons,List.mem_cons,not_or]
  exact ⟨⟨by simp,fresh _ (le_refl _)⟩,fresh _ (by omega),coupled.apart⟩

theorem createPortPair (coupled : Coupled name foreign mate used obtained n) (new0 : p0 ∉ used)
    (new1 : p1 ∉ used) (distinct : p0 ≠ p1) (home0 : ¬foreign p0) (home1 : ¬foreign p1) :
    Coupled name foreign (couple mate p0 p1) ([p0,p1] ++ used) (pairRefs n p0 p1 ++ obtained)
      (n.withPair p0 p1) := by
  have effect := withPair_paired (coupled.unused new0) (coupled.unused new1) distinct
  have older {x : PortName} (member : x ∈ used) : x ≠ p0 ∧ x ≠ p1 :=
    ⟨fun same => new0 (same ▸ member),fun same => new1 (same ▸ member)⟩
  have kept {x : PortName} (member : x ∈ used) : couple mate p0 p1 x = mate x := by
    rw [couple,if_neg (older member).2,if_neg (older member).1]
  have mate0 : couple mate p0 p1 p0 = p1 := by rw [couple,if_neg distinct,if_pos rfl]
  have mate1 : couple mate p0 p1 p1 = p0 := by rw [couple,if_pos rfl]
  refine ⟨coupled.self,?_,?_,?_,coupled.pairRefs_apart p0 p1,?_,?_,?_,?_⟩
  · intro x member
    rcases List.mem_append.mp member with made | old
    · rcases List.mem_pair.mp made with rfl | rfl
      · exact home0
      · exact home1
    · exact coupled.home x old
  · intro ref member
    rcases List.mem_append.mp member with made | old
    · rcases List.mem_pair.mp made with rfl | rfl <;> simp
    · exact List.mem_append_right _ (coupled.named ref old)
  · intro ref member
    rw [effect.allocated]
    rcases List.mem_append.mp member with made | old
    · rcases List.mem_pair.mp made with rfl | rfl
      · exact ⟨_,rfl,by omega⟩
      · exact ⟨_,rfl,by omega⟩
    · obtain ⟨ptr,real,below⟩ := coupled.real ref old
      exact ⟨ptr,real,by omega⟩
  · intro ref member
    rcases List.mem_append.mp member with made | old
    · rcases List.mem_pair.mp made with rfl | rfl
      · rw [mate0,mate1]
        exact ⟨by simp,rfl⟩
      · rw [mate1,mate0]
        exact ⟨by simp,rfl⟩
    · obtain ⟨member,back⟩ := coupled.mated ref old
      rw [kept (coupled.named ref old),kept member]
      exact ⟨List.mem_append_right _ member,back⟩
  · intro p entry live
    rcases withPair_lookup effect live with made | old
    · exact List.mem_append_left _ made
    · exact List.mem_append_right _ (coupled.ports p entry old)
  · intro node port l ref entry
    rcases withPair_peerEntry effect entry with ⟨made,generated⟩ | old
    · exact ⟨.inr (List.mem_append_left _ made),fun _ => List.mem_append_left _ generated⟩
    · obtain ⟨known,generated⟩ := coupled.entries node port l ref old
      exact ⟨known.imp_right (List.mem_append_right _),fun own => List.mem_append_right _ (generated own)⟩
  · intro x ptr member
    rcases List.mem_append.mp member with made | old
    · rcases List.mem_pair.mp made with same | same
      · cases same
        rw [effect.object0,mate0]
        exact .inl ⟨coupled.self,rfl⟩
      · cases same
        rw [effect.object1,mate1]
        exact .inl ⟨coupled.self,rfl⟩
    · obtain ⟨ptr',real,below⟩ := coupled.real _ old
      cases real
      have mate_old := older (coupled.mated _ old).1
      rw [effect.older ptr below,kept (coupled.named _ old),effect.lookup_other mate_old.1 mate_old.2]
      exact coupled.peers x ptr old

end Creating

end Coupled

section Runs
variable {name : NodeName} {foreign : PortName → Prop} {used : List PortName} {obtained : List PortRef} {n : Node}

theorem served_coupled (served : Served name foreign used obtained n) :
    ∃ mate, Coupled name foreign mate used obtained n := by
  induction served with
  | create => exact ⟨id,Coupled.create foreign name⟩
  | call used obtained n t call before may new ran ih =>
    obtain ⟨mate,coupled⟩ := ih
    cases call with
    | createPortPair name0 name1 =>
      obtain ⟨apart,each⟩ := new
      obtain ⟨valid0,new0⟩ := each name0 (by simp [NodeCall.names])
      obtain ⟨valid1,new1⟩ := each name1 (by simp [NodeCall.names])
      have distinct : name0 ≠ name1 := by simpa [NodeCall.names] using apart
      have made := createPortPair_some (coupled.known new0) (coupled.known new1) distinct valid0 valid1
      simp only [nodeCall,made] at ran
      cases ran
      refine ⟨couple mate name0 name1,?_⟩
      rw [handedOut,made]
      exact coupled.createPortPair new0 new1 distinct may.1 may.2
    | mergePorts portRef node port =>
      obtain ⟨member,remote,other⟩ := may
      obtain ⟨⟨r,localPortName,t'⟩,merged,same⟩ := Option.bind_eq_some_iff.mp ran
      cases same
      exact ⟨mate,coupled.mergePorts member remote other merged⟩
    | mergePortsResponse p node port =>
      obtain ⟨remote,other⟩ := may
      obtain ⟨⟨r,t'⟩,merged,same⟩ := Option.bind_eq_some_iff.mp ran
      cases same
      exact ⟨mate,coupled.mergePortsResponse remote other merged⟩
    | closePort portRef => exact ⟨mate,coupled.closePort ran⟩

/-- A port of the node that another one has as its peer is its mate, and has not been given
another peer while that one was there. -/
theorem Coupled.symmetric {mate : PortName → PortName} (coupled : Coupled name foreign mate used obtained n)
    {p q : PortName} (live : n.ports.lookup q ≠ none) (peer : n.peerOf p = some (name,q)) :
    n.peerOf q = some (name,p) := by
  obtain ⟨ptr,first,address⟩ := peerOf_some.mp peer
  obtain ⟨here,port⟩ := Prod.mk.inj address
  have member := coupled.ports p _ first
  rcases coupled.peers p ptr member with ⟨_,own⟩ | ⟨away,_⟩
  · have mate_q : mate p = q := own.symm.trans port
    have back : mate q = p := mate_q ▸ (coupled.mated _ member).2
    obtain ⟨entry,second⟩ := Option.ne_none_iff_exists'.mp live
    obtain ⟨ptr',rfl,_⟩ := coupled.real _ (coupled.ports q entry second)
    rcases coupled.peers q ptr' (coupled.ports q _ second) with ⟨home,returned⟩ | ⟨_,_,gone⟩
    · rw [peerOf_live second,home,returned,back]
    · rw [back,first] at gone
      contradiction
  · exact absurd here away

/-- After any calls, two ports of the node of which one has the other as its peer are each
the peer of the other. -/
theorem served_symmetric (served : Served name foreign used obtained n) {p q : PortName}
    (live : n.ports.lookup q ≠ none) (peer : n.peerOf p = some (name,q)) : n.peerOf q = some (name,p) := by
  obtain ⟨mate,coupled⟩ := served_coupled served
  exact coupled.symmetric live peer

/-- One of two pairs is merged away, twice and through the same reference. -/
theorem served_symmetric_merged :
    ∃ used obtained n, Served ⟨7,7⟩ (· = ⟨9,9⟩) used obtained n ∧
      n.peerOf ⟨1,1⟩ = some (⟨8,8⟩,⟨9,9⟩) ∧ n.peerOf ⟨4,4⟩ = some (⟨7,7⟩,⟨3,3⟩) := by
  have one : Served ⟨7,7⟩ (· = ⟨9,9⟩) _ [⟨⟨1,1⟩,some 0⟩,⟨⟨2,2⟩,some 1⟩] _ :=
    .call _ _ _ _ (.createPortPair ⟨1,1⟩ ⟨2,2⟩) .create ⟨by decide,by decide⟩ (by decide) rfl
  have two : Served ⟨7,7⟩ (· = ⟨9,9⟩) _ [⟨⟨3,3⟩,some 2⟩,⟨⟨4,4⟩,some 3⟩,⟨⟨1,1⟩,some 0⟩,⟨⟨2,2⟩,some 1⟩] _ :=
    .call _ _ _ _ (.createPortPair ⟨3,3⟩ ⟨4,4⟩) one ⟨by decide,by decide⟩ (by decide) rfl
  have merged := Served.call _ _ _ _ (.mergePorts ⟨⟨2,2⟩,some 1⟩ ⟨6,6⟩ ⟨9,9⟩) two
    ⟨by simp,by decide,rfl⟩ (by decide) rfl
  have again := Served.call _ _ _ _ (.mergePorts ⟨⟨2,2⟩,some 1⟩ ⟨8,8⟩ ⟨9,9⟩) merged
    ⟨by simp [handedOut],by decide,rfl⟩ (by decide) rfl
  exact ⟨_,_,_,again,rfl,served_symmetric again (p := ⟨3,3⟩) (by decide) rfl⟩

end Runs

end Node

end MojoImpl.Ports
