import MojoImpl.Ports.Atomic
import MojoImpl.Foundation.Format
import MojoImpl.Foundation.Simulation
import MojoImpl.Foundation.Threads
import Mathlib.Tactic.Abel

/-! Calls of CreatePortPair on several threads. The names of their ports come from the one
generator of the process, which has 256 of them made at a time. -/
namespace MojoImpl.Ports
open Foundation

section Generating

def kRandomNameCacheSize : Nat := 256

/-- The `i`-th name of an array that has these bytes. -/
def nameAt (bytes : Nat → UInt8) (i : Nat) : PortName where
  v1 := UInt64.ofNat (ofLittleEndian ((List.range 8).map fun j => bytes (16*i+j)))
  v2 := UInt64.ofNat (ofLittleEndian ((List.range 8).map fun j => bytes (16*i+8+j)))

/-- `refills` is how often RandBytes has been called. -/
structure RandomNameGenerator where
  cache : List PortName
  cacheIndex : Nat
  refills : Nat

namespace RandomNameGenerator

def create : RandomNameGenerator where
  cache := List.replicate kRandomNameCacheSize kInvalidPortName
  cacheIndex := kRandomNameCacheSize
  refills := 0

/-- What the calls of RandBytes write, one after another. -/
abbrev RandBytes := Nat → Nat → UInt8

variable (randBytes : RandBytes)

def batch (k : Nat) : List PortName := (List.range kRandomNameCacheSize).map (nameAt (randBytes k))

/-- There is no result where the index is not in the cache. -/
def generateRandomPortName (g : RandomNameGenerator) : Option (PortName × RandomNameGenerator) := do
  let g := if g.cacheIndex = kRandomNameCacheSize then ⟨batch randBytes g.refills,0,g.refills+1⟩ else g
  let name ← g.cache[g.cacheIndex]?
  return (name,{ g with cacheIndex := g.cacheIndex+1 })

/-- All names that RandBytes makes, in order. -/
def stream (n : Nat) : PortName := nameAt (randBytes (n/kRandomNameCacheSize)) (n%kRandomNameCacheSize)

/-- `n` names have been taken. -/
structure Taken (g : RandomNameGenerator) (n : Nat) : Prop where
  inside : g.cacheIndex ≤ kRandomNameCacheSize
  count : kRandomNameCacheSize*g.refills + g.cacheIndex = n+kRandomNameCacheSize
  cache : 0 < g.refills → g.cache = batch randBytes (g.refills-1)

variable {randBytes}

theorem create_taken : Taken randBytes create 0 where
  inside := Nat.le_refl _
  count := rfl
  cache none := absurd none (Nat.lt_irrefl 0)

theorem batch_stream {k i : Nat} (inside : i < kRandomNameCacheSize) :
    (batch randBytes k)[i]? = some (stream randBytes (kRandomNameCacheSize*k+i)) := by
  have some_name : 0 < kRandomNameCacheSize := by decide
  rw [batch,List.getElem?_map,List.getElem?_range inside,Option.map_some,stream,Nat.mul_add_div some_name,
    Nat.div_eq_of_lt inside,Nat.mul_add_mod,Nat.mod_eq_of_lt inside,Nat.add_zero]

theorem Taken.next {g : RandomNameGenerator} {n : Nat} (taken : Taken randBytes g n) :
    ∃ g', g.generateRandomPortName randBytes = some (stream randBytes n,g') ∧ Taken randBytes g' (n+1) := by
  obtain ⟨inside,count,cache⟩ := taken
  by_cases used : g.cacheIndex = kRandomNameCacheSize
  · have whole : kRandomNameCacheSize*g.refills = n := by omega
    have first : (batch randBytes g.refills)[0]? = some (stream randBytes n) := by
      rw [batch_stream (by decide),whole,Nat.add_zero]
    refine ⟨⟨batch randBytes g.refills,1,g.refills+1⟩,?_,⟨Nat.le_of_ble_eq_true rfl,?_,fun _ => rfl⟩⟩
    · simp only [generateRandomPortName,used,if_true,first]
      rfl
    · change kRandomNameCacheSize*(g.refills+1)+1 = n+1+kRandomNameCacheSize
      rw [Nat.mul_add_one,whole]
      omega
  · have left : g.cacheIndex < kRandomNameCacheSize := Nat.lt_of_le_of_ne inside used
    have filled : 0 < g.refills := by
      rcases Nat.eq_zero_or_pos g.refills with none | some
      · rw [none] at count
        omega
      · exact some
    have place : kRandomNameCacheSize*(g.refills-1)+g.cacheIndex = n := by
      have split : kRandomNameCacheSize*g.refills = kRandomNameCacheSize*(g.refills-1)+kRandomNameCacheSize := by
        rw [← Nat.mul_add_one,Nat.sub_add_cancel filled]
      omega
    have found : g.cache[g.cacheIndex]? = some (stream randBytes n) := by rw [cache filled,batch_stream left,place]
    refine ⟨{ g with cacheIndex := g.cacheIndex+1 },?_,⟨left,?_,cache⟩⟩
    · simp only [generateRandomPortName,used,if_false,found]
      rfl
    · rw [← Nat.add_assoc,count]
      omega

end RandomNameGenerator

end Generating

end MojoImpl.Ports

namespace MojoImpl.Creation
open Foundation Threads Ports

/-- Where a call of CreatePortPair is. A step is what happens under one lock: a name is taken,
a port is put into the table under it, or a port is initialized. -/
inductive CreatePortPair
  | start
  | named0 (name0 : PortName)
  | made0 (port0 : PortRef)
  | named1 (port0 : PortRef) (name1 : PortName)
  | made1 (port0 port1 : PortRef)
  | initialized0 (port0 port1 : PortRef)
  | returned (r : Result) (port0 port1 : PortRef)
  deriving DecidableEq

/-- `drawn` is what has been taken from the generator. -/
structure Shared where
  generator : RandomNameGenerator
  node : Node
  drawn : List PortName

structure Config where
  shared : Shared
  calls : List CreatePortPair

def create (name : NodeName) : Config := ⟨⟨.create,.create name,[]⟩,[]⟩

variable (randBytes : RandomNameGenerator.RandBytes)

def Shared.draw (s : Shared) : Option (PortName × Shared) := do
  let (name,generator) ← s.generator.generateRandomPortName randBytes
  return (name,{ s with generator := generator, drawn := s.drawn ++ [name] })

namespace CreatePortPair

def step (s : Shared) : CreatePortPair → Option (Shared × CreatePortPair)
  | start => do
    let (name0,s) ← s.draw randBytes
    return (s,named0 name0)
  | named0 name0 =>
    match s.node.createUninitializedPort name0 with
    | (.ok,some port0,node) => some ({ s with node },made0 port0)
    | (r,_,node) => some ({ s with node },returned r .create .create)
  | made0 port0 => do
    let (name1,s) ← s.draw randBytes
    return (s,named1 port0 name1)
  | named1 port0 name1 =>
    match s.node.createUninitializedPort name1 with
    | (.ok,some port1,node) => some ({ s with node },made1 port0 port1)
    | (r,_,node) => some ({ s with node },returned r port0 .create)
  | made1 port0 port1 => do
    let (r,node) ← s.node.initializePort port0 s.node.name port1.name
    return ({ s with node },if r = .ok then initialized0 port0 port1 else returned r port0 port1)
  | initialized0 port0 port1 => do
    let (r,node) ← s.node.initializePort port1 s.node.name port0.name
    return ({ s with node },returned r port0 port1)
  | returned _ _ _ => none

inductive Effect (s : Shared) : CreatePortPair → Shared → CreatePortPair → Prop
  | draw0 (name : PortName) (g : RandomNameGenerator) (drew : s.generator.generateRandomPortName randBytes = some (name,g)) :
    Effect s .start ⟨g,s.node,s.drawn ++ [name]⟩ (.named0 name)
  | draw1 (port0 : PortRef) (name : PortName) (g : RandomNameGenerator)
    (drew : s.generator.generateRandomPortName randBytes = some (name,g)) :
    Effect s (.made0 port0) ⟨g,s.node,s.drawn ++ [name]⟩ (.named1 port0 name)
  | make0 (name : PortName) (unknown : s.node.ports.lookup name = none) :
    Effect s (.named0 name) ⟨s.generator,s.node.withPort name,s.drawn⟩ (.made0 ⟨name,some s.node.allocated⟩)
  | make1 (port0 : PortRef) (name : PortName) (unknown : s.node.ports.lookup name = none) :
    Effect s (.named1 port0 name) ⟨s.generator,s.node.withPort name,s.drawn⟩ (.made1 port0 ⟨name,some s.node.allocated⟩)
  | refuse0 (name : PortName) (known : s.node.ports.lookup name ≠ none) :
    Effect s (.named0 name) ⟨s.generator,s.node.spent,s.drawn⟩ (.returned .errorPortExists .create .create)
  | refuse1 (port0 : PortRef) (name : PortName) (known : s.node.ports.lookup name ≠ none) :
    Effect s (.named1 port0 name) ⟨s.generator,s.node.spent,s.drawn⟩ (.returned .errorPortExists port0 .create)
  | initialize0 (port0 port1 : PortRef) (r : Result) (node : Node)
    (ran : s.node.initializePort port0 s.node.name port1.name = some (r,node)) :
    Effect s (.made1 port0 port1) ⟨s.generator,node,s.drawn⟩
      (if r = .ok then .initialized0 port0 port1 else .returned r port0 port1)
  | initialize1 (port0 port1 : PortRef) (r : Result) (node : Node)
    (ran : s.node.initializePort port1 s.node.name port0.name = some (r,node)) :
    Effect s (.initialized0 port0 port1) ⟨s.generator,node,s.drawn⟩ (.returned r port0 port1)

variable {randBytes}

section Stepping
variable {s t : Shared} {name : PortName} {port0 : PortRef}

theorem step_start (drew : s.draw randBytes = some (name,t)) : start.step randBytes s = some (t,.named0 name) := by
  rw [step,drew]
  rfl

theorem step_made0 (drew : s.draw randBytes = some (name,t)) :
    (made0 port0).step randBytes s = some (t,.named1 port0 name) := by
  rw [step,drew]
  rfl

theorem step_named0 (unknown : s.node.ports.lookup name = none) : (named0 name).step randBytes s =
    some (⟨s.generator,s.node.withPort name,s.drawn⟩,.made0 ⟨name,some s.node.allocated⟩) := by
  rw [step,Node.createUninitializedPort_some unknown]

theorem step_named1 (unknown : s.node.ports.lookup name = none) : (named1 port0 name).step randBytes s =
    some (⟨s.generator,s.node.withPort name,s.drawn⟩,.made1 port0 ⟨name,some s.node.allocated⟩) := by
  rw [step,Node.createUninitializedPort_some unknown]

theorem step_refused0 (known : s.node.ports.lookup name ≠ none) : (named0 name).step randBytes s =
    some (⟨s.generator,s.node.spent,s.drawn⟩,.returned .errorPortExists .create .create) := by
  rw [step,Node.createUninitializedPort_known known]

theorem step_refused1 (known : s.node.ports.lookup name ≠ none) : (named1 port0 name).step randBytes s =
    some (⟨s.generator,s.node.spent,s.drawn⟩,.returned .errorPortExists port0 .create) := by
  rw [step,Node.createUninitializedPort_known known]

variable {port1 : PortRef} {r : Result} {node : Node}

theorem step_made1 (ran : s.node.initializePort port0 s.node.name port1.name = some (r,node)) :
    (made1 port0 port1).step randBytes s =
      some (⟨s.generator,node,s.drawn⟩,if r = .ok then .initialized0 port0 port1 else .returned r port0 port1) := by
  rw [step,ran]
  rfl

theorem step_initialized0 (ran : s.node.initializePort port1 s.node.name port0.name = some (r,node)) :
    (initialized0 port0 port1).step randBytes s = some (⟨s.generator,node,s.drawn⟩,.returned r port0 port1) := by
  rw [step,ran]
  rfl

end Stepping

theorem draw_some {s t : Shared} {name : PortName} (ran : s.draw randBytes = some (name,t)) :
    ∃ g, s.generator.generateRandomPortName randBytes = some (name,g) ∧ t = ⟨g,s.node,s.drawn ++ [name]⟩ := by
  obtain ⟨⟨taken,g⟩,drew,same⟩ := Option.bind_eq_some_iff.mp ran
  cases same
  exact ⟨g,drew,rfl⟩

theorem step_effect {s t : Shared} {call next : CreatePortPair} (ran : call.step randBytes s = some (t,next)) :
    Effect randBytes s call t next := by
  cases call with
  | start =>
    obtain ⟨⟨name,u⟩,drew,same⟩ := Option.bind_eq_some_iff.mp ran
    obtain ⟨g,taken,rfl⟩ := draw_some drew
    cases same
    exact .draw0 name g taken
  | made0 port0 =>
    obtain ⟨⟨name,u⟩,drew,same⟩ := Option.bind_eq_some_iff.mp ran
    obtain ⟨g,taken,rfl⟩ := draw_some drew
    cases same
    exact .draw1 port0 name g taken
  | named0 name =>
    by_cases unknown : s.node.ports.lookup name = none
    · rw [step_named0 unknown] at ran
      cases ran
      exact .make0 name unknown
    · rw [step_refused0 unknown] at ran
      cases ran
      exact .refuse0 name unknown
  | named1 port0 name =>
    by_cases unknown : s.node.ports.lookup name = none
    · rw [step_named1 unknown] at ran
      cases ran
      exact .make1 port0 name unknown
    · rw [step_refused1 unknown] at ran
      cases ran
      exact .refuse1 port0 name unknown
  | made1 port0 port1 =>
    obtain ⟨⟨r,node⟩,initialized,same⟩ := Option.bind_eq_some_iff.mp ran
    cases same
    exact .initialize0 port0 port1 r node initialized
  | initialized0 port0 port1 =>
    obtain ⟨⟨r,node⟩,initialized,same⟩ := Option.bind_eq_some_iff.mp ran
    cases same
    exact .initialize1 port0 port1 r node initialized
  | returned r port0 port1 => contradiction

end CreatePortPair

section Nodes

/-- What the steps of the calls keep of a node. -/
structure Tidy (n : Node) : Prop where
  below : ∀ p (ptr : Nat), n.ports.lookup p = some (some ptr) → ptr < n.allocated
  injective : ∀ p p' ptr, n.ports.lookup p = some (some ptr) → n.ports.lookup p' = some (some ptr) → p = p'
  entries : ∀ q p, n.peerEntry n.name q p ≠ none → n.ports.lookup p ≠ none

/-- Nothing is known of the port but that it is in the table. -/
structure Bare (n : Node) (p : PortName) (ptr : PortPtr) : Prop where
  live : n.ports.lookup p = some (some ptr)
  object : n.objects ptr = .create
  entries : ∀ q, n.peerEntry n.name q p = none

/-- The port has its peer, whatever the peer has. -/
structure Half (n : Node) (p : PortName) (ptr : PortPtr) (peer : PortName) : Prop where
  live : n.ports.lookup p = some (some ptr)
  node : (n.objects ptr).peerNodeName = n.name
  port : (n.objects ptr).peerPortName = peer
  entry : n.peerEntry n.name peer p = some ⟨p,some ptr⟩

/-- The port is not touched. -/
structure Same (n t : Node) (p : PortName) : Prop where
  name : t.name = n.name
  live : t.ports.lookup p = n.ports.lookup p
  object : ∀ ptr, n.ports.lookup p = some (some ptr) → t.objects ptr = n.objects ptr
  entry : ∀ q, t.peerEntry n.name q p = n.peerEntry n.name q p

variable {n t : Node} {p p0 p1 peer : PortName} {ptr ptr0 ptr1 : PortPtr}

theorem Same.refl (n : Node) (p : PortName) : Same n n p := ⟨rfl,rfl,fun _ _ => rfl,fun _ => rfl⟩

theorem Bare.same (bare : Bare n p ptr) (same : Same n t p) : Bare t p ptr where
  live := same.live.trans bare.live
  object := (same.object ptr bare.live).trans bare.object
  entries q := by rw [same.name,same.entry,bare.entries]

theorem Half.same (half : Half n p ptr peer) (same : Same n t p) : Half t p ptr peer where
  live := same.live.trans half.live
  node := by rw [same.object ptr half.live,half.node,same.name]
  port := by rw [same.object ptr half.live,half.port]
  entry := by rw [same.name,same.entry,half.entry]

theorem Half.mates (half0 : Half n p0 ptr0 p1) (half1 : Half n p1 ptr1 p0) (distinct : p0 ≠ p1) :
    n.Mates p0 ptr0 p1 ptr1 where
  live0 := half0.live
  live1 := half1.live
  distinct := distinct
  node0 := half0.node
  port0 := half0.port
  node1 := half1.node
  port1 := half1.port
  entry0 := half1.entry
  entry1 := half0.entry

theorem mates_halves (mates : n.Mates p0 ptr0 p1 ptr1) : Half n p0 ptr0 p1 ∧ Half n p1 ptr1 p0 :=
  ⟨⟨mates.live0,mates.node0,mates.port0,mates.entry1⟩,⟨mates.live1,mates.node1,mates.port1,mates.entry0⟩⟩

section WithPort

theorem withPort_lookup (n : Node) (p q : PortName) :
    (n.withPort p).ports.lookup q = if q = p then some (some n.allocated) else n.ports.lookup q :=
  Table.lookup_insert n.ports p q _

theorem withPort_same (tidy : Tidy n) {q : PortName} (other : q ≠ p) : Same n (n.withPort p) q where
  name := rfl
  live := by rw [withPort_lookup,if_neg other]
  object ptr live := Function.update_of_ne (Nat.ne_of_lt (tidy.below q ptr live)) _ _
  entry _ := rfl

theorem withPort_bare (tidy : Tidy n) (unknown : n.ports.lookup p = none) : Bare (n.withPort p) p n.allocated where
  live := by rw [withPort_lookup,if_pos rfl]
  object := Function.update_self _ _ _
  entries q := by
    by_contra entry
    exact tidy.entries q p entry unknown

theorem withPort_tidy (tidy : Tidy n) (p : PortName) : Tidy (n.withPort p) where
  below q ptr live := by
    rw [withPort_lookup] at live
    split at live
    · cases live
      exact Nat.lt_succ_self _
    · exact Nat.lt_succ_of_lt (tidy.below q ptr live)
  injective q q' ptr live live' := by
    rw [withPort_lookup] at live live'
    split at live <;> split at live'
    · next same same' => exact same.trans same'.symm
    · cases live
      exact absurd (tidy.below q' _ live') (Nat.lt_irrefl _)
    · cases live'
      exact absurd (tidy.below q _ live) (Nat.lt_irrefl _)
    · exact tidy.injective q q' ptr live live'
  entries q q' entry := by
    rw [withPort_lookup]
    split
    · exact Option.some_ne_none _
    · exact tidy.entries q q' entry

theorem spent_same (tidy : Tidy n) (q : PortName) : Same n n.spent q where
  name := rfl
  live := rfl
  object ptr live := Function.update_of_ne (Nat.ne_of_lt (tidy.below q ptr live)) _ _
  entry _ := rfl

theorem spent_tidy (tidy : Tidy n) : Tidy n.spent where
  below q ptr live := Nat.lt_succ_of_lt (tidy.below q ptr live)
  injective := tidy.injective
  entries := tidy.entries

end WithPort

section WithPeer

theorem withPeer_entry (n : Node) (p : PortName) (ptr : PortPtr) (peer q name : PortName) :
    (n.withPeer p ptr n.name peer).peerEntry n.name q name =
      if q = peer ∧ name = p then some ((n.peerEntry n.name peer name).getD ⟨p,some ptr⟩) else n.peerEntry n.name q name := by
  rw [Node.withPeer,Node.peerEntry_emplacePeer]
  simp only [true_and]
  rfl

theorem withPeer_object (n : Node) (p : PortName) (ptr : PortPtr) (peer : PortName) :
    (n.withPeer p ptr n.name peer).objects ptr = ⟨.receiving,peer,n.name,(n.objects ptr).messageQueue⟩ :=
  Function.update_self _ _ _

theorem withPeer_same (tidy : Tidy n) (live : n.ports.lookup p = some (some ptr)) (peer : PortName) {q : PortName}
    (other : q ≠ p) : Same n (n.withPeer p ptr n.name peer) q where
  name := rfl
  live := rfl
  object ptr' live' := by
    apply Function.update_of_ne
    rintro rfl
    exact other (tidy.injective q p _ live' live)
  entry r := by rw [withPeer_entry,if_neg (fun both => other both.2)]

theorem withPeer_half (bare : Bare n p ptr) (peer : PortName) : Half (n.withPeer p ptr n.name peer) p ptr peer where
  live := bare.live
  node := by
    rw [withPeer_object]
    rfl
  port := by rw [withPeer_object]
  entry := by
    change (n.withPeer p ptr n.name peer).peerEntry n.name peer p = _
    rw [withPeer_entry,if_pos ⟨rfl,rfl⟩,bare.entries]
    rfl

theorem withPeer_tidy (tidy : Tidy n) (live : n.ports.lookup p = some (some ptr)) (peer : PortName) :
    Tidy (n.withPeer p ptr n.name peer) where
  below := tidy.below
  injective := tidy.injective
  entries q name entry := by
    change (n.withPeer p ptr n.name peer).peerEntry n.name q name ≠ none at entry
    change n.ports.lookup name ≠ none
    rw [withPeer_entry] at entry
    split at entry
    · next own =>
      rw [own.2,live]
      exact Option.some_ne_none _
    · exact tidy.entries q name entry

end WithPeer

end Nodes

section Calls

def held (ref : PortRef) : List PortName :=
  match ref.port with
  | some _ => [ref.name]
  | none => []

/-- The ports of the call that are in the table. -/
def CreatePortPair.ports : CreatePortPair → List PortName
  | start => []
  | named0 _ => []
  | made0 port0 => held port0
  | named1 port0 _ => held port0
  | made1 port0 port1 => held port0 ++ held port1
  | initialized0 port0 port1 => held port0 ++ held port1
  | returned _ port0 port1 => held port0 ++ held port1

/-- The name the call is about to use. -/
def CreatePortPair.waiting : CreatePortPair → List PortName
  | named0 name0 => [name0]
  | named1 _ name1 => [name1]
  | _ => []

/-- What a call knows of its ports. It returns a pair of mates, or finds a name in use. -/
inductive About (n : Node) : CreatePortPair → Prop
  | start : About n .start
  | named0 (name : PortName) : About n (.named0 name)
  | made0 {p : PortName} {ptr : PortPtr} (bare : Bare n p ptr) : About n (.made0 ⟨p,some ptr⟩)
  | named1 {p : PortName} {ptr : PortPtr} (bare : Bare n p ptr) (name : PortName) : About n (.named1 ⟨p,some ptr⟩ name)
  | made1 {p0 p1 : PortName} {ptr0 ptr1 : PortPtr} (bare0 : Bare n p0 ptr0) (bare1 : Bare n p1 ptr1)
    (distinct : p0 ≠ p1) : About n (.made1 ⟨p0,some ptr0⟩ ⟨p1,some ptr1⟩)
  | initialized0 {p0 p1 : PortName} {ptr0 ptr1 : PortPtr} (half : Half n p0 ptr0 p1) (bare1 : Bare n p1 ptr1)
    (distinct : p0 ≠ p1) : About n (.initialized0 ⟨p0,some ptr0⟩ ⟨p1,some ptr1⟩)
  | created {p0 p1 : PortName} {ptr0 ptr1 : PortPtr} (mates : n.Mates p0 ptr0 p1 ptr1) :
    About n (.returned .ok ⟨p0,some ptr0⟩ ⟨p1,some ptr1⟩)
  | refused0 : About n (.returned .errorPortExists .create .create)
  | refused1 {p : PortName} {ptr : PortPtr} (bare : Bare n p ptr) :
    About n (.returned .errorPortExists ⟨p,some ptr⟩ .create)

theorem About.same {n t : Node} {call : CreatePortPair} (about : About n call)
    (same : ∀ p ∈ call.ports, Same n t p) : About t call := by
  cases about with
  | start => exact .start
  | named0 name => exact .named0 name
  | @made0 p ptr bare => exact .made0 (bare.same (same p (.head _)))
  | @named1 p ptr bare name => exact .named1 (bare.same (same p (.head _))) name
  | @made1 p0 p1 ptr0 ptr1 bare0 bare1 distinct =>
    exact .made1 (bare0.same (same p0 (.head _))) (bare1.same (same p1 (.tail _ (.head _)))) distinct
  | @initialized0 p0 p1 ptr0 ptr1 half bare1 distinct =>
    exact .initialized0 (half.same (same p0 (.head _))) (bare1.same (same p1 (.tail _ (.head _)))) distinct
  | @created p0 p1 ptr0 ptr1 mates =>
    obtain ⟨half0,half1⟩ := mates_halves mates
    exact .created ((half0.same (same p0 (.head _))).mates (half1.same (same p1 (.tail _ (.head _)))) mates.distinct)
  | refused0 => exact .refused0
  | @refused1 p ptr bare => exact .refused1 (bare.same (same p (.head _)))

/-- A call has found a name in use. -/
def CreatePortPair.Refused (call : CreatePortPair) : Prop :=
  ∃ port0 port1, call = .returned .errorPortExists port0 port1

def tabled (calls : List CreatePortPair) : Multiset PortName := total (fun call => (call.ports : Multiset PortName)) calls

def awaited (calls : List CreatePortPair) : Multiset PortName :=
  total (fun call => (call.waiting : Multiset PortName)) calls

structure Inv (s : Shared) (calls : List CreatePortPair) : Prop where
  tidy : Tidy s.node
  about : ∀ call ∈ calls, About s.node call
  distinct : (tabled calls).Nodup
  placed : ∀ p, p ∈ tabled calls ↔ s.node.ports.lookup p ≠ none
  taken : tabled calls + awaited calls ≤ s.drawn
  refused : (∃ call ∈ calls, call.Refused) → ¬s.drawn.Nodup

/-- What a step does that is not an error: it takes the names `drew` and puts the ports `new`
into the table. -/
structure Moves (s : Shared) (call : CreatePortPair) (t : Shared) (next : CreatePortPair)
    (drew new : List PortName) : Prop where
  tidy : Tidy t.node
  about : About t.node next
  others : ∀ p, p ∉ call.ports → s.node.ports.lookup p ≠ none → Same s.node t.node p
  unknown : ∀ p ∈ new, s.node.ports.lookup p = none
  single : new.Nodup
  table : ∀ p, t.node.ports.lookup p ≠ none ↔ p ∈ new ∨ s.node.ports.lookup p ≠ none
  ports : next.ports.Perm (call.ports ++ new)
  drawn : t.drawn = s.drawn ++ drew
  names : (new : Multiset PortName) + next.waiting ≤ call.waiting + (drew : Multiset PortName)
  refused : next.Refused → ¬t.drawn.Nodup

section Steps
variable {s t : Shared} {before after : List CreatePortPair} {call next : CreatePortPair} {drew new : List PortName}

theorem tabled_split : tabled (before ++ call :: after) = call.ports + tabled (before ++ after) := total_split _ _ _ _

theorem awaited_split : awaited (before ++ call :: after) = call.waiting + awaited (before ++ after) :=
  total_split _ _ _ _

theorem mem_tabled {calls : List CreatePortPair} {p : PortName} (member : call ∈ calls) (own : p ∈ call.ports) :
    p ∈ tabled calls := by
  rw [tabled,total_lists]
  exact Multiset.mem_coe.mpr (List.mem_flatMap.mpr ⟨call,member,own⟩)

theorem Inv.moves (inv : Inv s (before ++ call :: after)) (moves : Moves s call t next drew new) :
    Inv t (before ++ next :: after) := by
  obtain ⟨tidy,about,distinct,placed,taken,refused⟩ := inv
  have ports : (next.ports : Multiset PortName) = call.ports + (new : Multiset PortName) := by
    rw [Multiset.coe_add]
    exact Multiset.coe_eq_coe.mpr moves.ports
  have more : tabled (before ++ next :: after) = (new : Multiset PortName) + tabled (before ++ call :: after) := by
    rw [tabled_split,tabled_split,ports]
    abel
  have members (p : PortName) : p ∈ tabled (before ++ next :: after) ↔ p ∈ new ∨ p ∈ tabled (before ++ call :: after) := by
    rw [more,Multiset.mem_add,Multiset.mem_coe]
  refine ⟨moves.tidy,?_,?_,?_,?_,?_⟩
  · rw [all_split] at about ⊢
    refine ⟨moves.about,fun other member => (about.2 other member).same fun p own => ?_⟩
    have rest : p ∈ tabled (before ++ after) := mem_tabled member own
    apply moves.others p
    · rw [tabled_split] at distinct
      exact fun mine => Multiset.disjoint_left.mp (Multiset.nodup_add.mp distinct).2.2 (Multiset.mem_coe.mpr mine) rest
    · apply (placed p).mp
      rw [tabled_split]
      exact Multiset.mem_add.mpr (.inr rest)
  · rw [more]
    refine Multiset.nodup_add.mpr ⟨Multiset.coe_nodup.mpr moves.single,distinct,Multiset.disjoint_left.mpr fun {p} mine there => ?_⟩
    exact (placed p).mp there (moves.unknown p (Multiset.mem_coe.mp mine))
  · intro p
    rw [members,moves.table,placed]
  · have names := moves.names
    rw [more,moves.drawn,← Multiset.coe_add,awaited_split]
    rw [awaited_split] at taken
    calc (new : Multiset PortName) + tabled (before ++ call :: after) + (next.waiting + awaited (before ++ after))
        = (new + next.waiting) + (tabled (before ++ call :: after) + awaited (before ++ after)) := by abel
      _ ≤ (call.waiting + drew) + (tabled (before ++ call :: after) + awaited (before ++ after)) :=
        add_le_add_left names _
      _ = tabled (before ++ call :: after) + (call.waiting + awaited (before ++ after)) + drew := by abel
      _ ≤ s.drawn + drew := add_le_add_left taken _
  · intro known
    obtain ⟨other,member,bad⟩ := known
    rcases List.mem_append.mp member with early | late
    · have old := refused ⟨other,List.mem_append_left _ early,bad⟩
      rw [moves.drawn]
      exact fun nodup => old (List.nodup_append.mp nodup).1
    · rcases List.mem_cons.mp late with rfl | late
      · exact moves.refused bad
      · have old := refused ⟨other,List.mem_append_right _ (.tail _ late),bad⟩
        rw [moves.drawn]
        exact fun nodup => old (List.nodup_append.mp nodup).1

/-- A step that puts no port into the table. -/
theorem moves_quiet (tidy : Tidy t.node) (about : About t.node next)
    (others : ∀ p, p ∉ call.ports → s.node.ports.lookup p ≠ none → Same s.node t.node p)
    (table : t.node.ports = s.node.ports) (ports : next.ports = call.ports) (drawn : t.drawn = s.drawn ++ drew)
    (names : (next.waiting : Multiset PortName) ≤ call.waiting + (drew : Multiset PortName))
    (refused : next.Refused → ¬t.drawn.Nodup) : Moves s call t next drew [] where
  tidy := tidy
  about := about
  others := others
  unknown _ none := absurd none List.not_mem_nil
  single := List.nodup_nil
  table p := by rw [table,or_iff_right List.not_mem_nil]
  ports := by rw [ports,List.append_nil]
  drawn := drawn
  names := by rwa [Multiset.coe_nil,zero_add]
  refused := refused

/-- A name that waits and is in the table already was taken twice. -/
theorem Inv.repeated (inv : Inv s (before ++ call :: after)) {name : PortName} (waits : name ∈ call.waiting)
    (known : s.node.ports.lookup name ≠ none) : ¬s.drawn.Nodup := by
  intro nodup
  have apart := (Multiset.nodup_add.mp (Multiset.nodup_of_le inv.taken (Multiset.coe_nodup.mpr nodup))).2.2
  apply Multiset.disjoint_left.mp apart ((inv.placed name).mpr known)
  rw [awaited_split]
  exact Multiset.mem_add.mpr (.inl (Multiset.mem_coe.mpr waits))

theorem Inv.taken_own (inv : Inv s (before ++ call :: after)) {p : PortName} (own : p ∈ call.ports) : p ∈ s.drawn := by
  have there : p ∈ tabled (before ++ call :: after) := mem_tabled (List.mem_append_right _ List.mem_cons_self) own
  exact Multiset.mem_coe.mp (Multiset.mem_of_le inv.taken (Multiset.mem_add.mpr (.inl there)))

variable {randBytes : RandomNameGenerator.RandBytes}

theorem initialized {n : Node} {p peer : PortName} {ptr : PortPtr} (bare : Bare n p ptr)
    (valid : peer ≠ kInvalidPortName) :
    n.initializePort ⟨p,some ptr⟩ n.name peer = some (.ok,n.withPeer p ptr n.name peer) :=
  Node.initializePort_some (by rw [bare.object]; rfl) valid n.name

theorem Inv.effect (inv : Inv s (before ++ call :: after)) (effect : call.Effect randBytes s t next)
    (valid : kInvalidPortName ∉ s.drawn) : ∃ drew new, Moves s call t next drew new := by
  have about : About s.node call := inv.about call (List.mem_append_right _ List.mem_cons_self)
  have tidy := inv.tidy
  have proper {p : PortName} (own : p ∈ call.ports) : p ≠ kInvalidPortName := by
    rintro rfl
    exact valid (inv.taken_own own)
  have fine {c : CreatePortPair} (other : ∀ port0 port1, c ≠ .returned .errorPortExists port0 port1) : ¬c.Refused := by
    intro bad
    obtain ⟨port0,port1,same⟩ := bad
    exact other port0 port1 same
  cases effect with
  | draw0 name g drew =>
    refine ⟨[name],[],moves_quiet tidy (.named0 name) (fun p _ _ => .refl _ _) rfl rfl rfl (le_of_eq ?_) ?_⟩
    · exact (zero_add _).symm
    · exact fun bad => absurd bad (fine fun _ _ same => by cases same)
  | draw1 port0 name g drew =>
    cases about with
    | made0 bare =>
      refine ⟨[name],[],moves_quiet tidy (.named1 bare name) (fun p _ _ => .refl _ _) rfl rfl rfl (le_of_eq ?_) ?_⟩
      · exact (zero_add _).symm
      · exact fun bad => absurd bad (fine fun _ _ same => by cases same)
  | make0 name unknown =>
    refine ⟨[],[name],withPort_tidy tidy name,.made0 (withPort_bare tidy unknown),?_,?_,List.nodup_singleton name,?_,
      .refl _,(List.append_nil _).symm,le_of_eq (add_comm _ _),fun bad => absurd bad (fine fun _ _ same => by cases same)⟩
    · intro p _ known
      exact withPort_same tidy fun same => known (same ▸ unknown)
    · intro p member
      rwa [List.mem_singleton.mp member]
    · intro p
      rw [withPort_lookup,List.mem_singleton]
      split <;> simp [*]
  | make1 port0 name unknown =>
    cases about with
    | @named1 p ptr bare name =>
      have other : p ≠ name := by
        rintro rfl
        rw [bare.live] at unknown
        contradiction
      refine ⟨[],[name],withPort_tidy tidy name,
        .made1 (bare.same (withPort_same tidy other)) (withPort_bare tidy unknown) other,?_,?_,List.nodup_singleton name,?_,
        .refl _,(List.append_nil _).symm,le_of_eq (add_comm _ _),fun bad => absurd bad (fine fun _ _ same => by cases same)⟩
      · intro p _ known
        exact withPort_same tidy fun same => known (same ▸ unknown)
      · intro p member
        rwa [List.mem_singleton.mp member]
      · intro p
        rw [withPort_lookup,List.mem_singleton]
        split <;> simp [*]
  | refuse0 name known =>
    refine ⟨[],[],moves_quiet (spent_tidy tidy) .refused0 (fun p _ _ => spent_same tidy p) rfl rfl
      (List.append_nil _).symm (Multiset.zero_le _) fun _ => inv.repeated List.mem_cons_self known⟩
  | refuse1 port0 name known =>
    cases about with
    | @named1 p ptr bare name =>
      exact ⟨[],[],moves_quiet (spent_tidy tidy) (.refused1 (bare.same (spent_same tidy p))) (fun p _ _ => spent_same tidy p)
        rfl rfl (List.append_nil _).symm (Multiset.zero_le _) fun _ => inv.repeated List.mem_cons_self known⟩
  | initialize0 port0 port1 r node ran =>
    cases about with
    | @made1 p0 p1 ptr0 ptr1 bare0 bare1 distinct =>
      rw [initialized bare0 (proper (.tail _ (.head _)))] at ran
      cases ran
      refine ⟨[],[],moves_quiet (withPeer_tidy tidy bare0.live p1) (.initialized0 (withPeer_half bare0 p1)
        (bare1.same (withPeer_same tidy bare0.live p1 distinct.symm)) distinct) ?_ rfl rfl (List.append_nil _).symm
        (Multiset.zero_le _) fun bad => absurd bad (fine fun _ _ same => by cases same)⟩
      intro p foreign _
      exact withPeer_same tidy bare0.live p1 fun same => foreign (same ▸ .head _)
  | initialize1 port0 port1 r node ran =>
    cases about with
    | @initialized0 p0 p1 ptr0 ptr1 half bare1 distinct =>
      rw [initialized bare1 (proper (.head _))] at ran
      cases ran
      refine ⟨[],[],moves_quiet (withPeer_tidy tidy bare1.live p0) (.created
        ((half.same (withPeer_same tidy bare1.live p0 distinct)).mates (withPeer_half bare1 p0) distinct)) ?_ rfl rfl
        (List.append_nil _).symm (Multiset.zero_le _) fun bad => absurd bad (fine fun _ _ same => by cases same)⟩
      intro p foreign _
      exact withPeer_same tidy bare1.live p0 fun same => foreign (same ▸ .tail _ (.head _))

end Steps

end Calls

section Runs
open RandomNameGenerator
variable (randBytes : RandBytes)

/-- A thread calls CreatePortPair, or one of the calls goes on. -/
inductive Turn
  | call
  | step (i : Nat)

def Config.step (k : Config) : Turn → Option Config
  | .call => some { k with calls := k.calls ++ [.start] }
  | .step i => do
    let call ← k.calls[i]?
    let (shared,next) ← call.step randBytes k.shared
    return ⟨shared,k.calls.set i next⟩

abbrev Run (name : NodeName) (turns : List Turn) (k : Config) : Prop :=
  Path (Config.step randBytes) (fun _ _ => True) (create name) turns k

variable {randBytes}

/-- The names that were taken are the first ones there are. -/
structure Fed (randBytes : RandBytes) (s : Shared) : Prop where
  taken : Taken randBytes s.generator s.drawn.length
  first : s.drawn = (List.range s.drawn.length).map (stream randBytes)

theorem Fed.draw {s : Shared} {name : PortName} {g : RandomNameGenerator} (fed : Fed randBytes s)
    (drew : s.generator.generateRandomPortName randBytes = some (name,g)) : Fed randBytes ⟨g,s.node,s.drawn ++ [name]⟩ := by
  obtain ⟨g',ran,taken⟩ := fed.taken.next
  obtain ⟨rfl,rfl⟩ := Prod.mk.inj (Option.some.inj (drew.symm.trans ran))
  have one_more : (s.drawn ++ [stream randBytes s.drawn.length]).length = s.drawn.length+1 := List.length_append
  refine ⟨?_,?_⟩
  · rwa [one_more]
  · rw [one_more,List.range_succ,List.map_append,← fed.first]
    rfl

theorem Fed.effect {s t : Shared} {call next : CreatePortPair} (fed : Fed randBytes s)
    (effect : call.Effect randBytes s t next) : Fed randBytes t ∧ s.drawn ⊆ t.drawn := by
  cases effect with
  | draw0 name g drew => exact ⟨fed.draw drew,List.subset_append_left _ _⟩
  | draw1 port0 name g drew => exact ⟨fed.draw drew,List.subset_append_left _ _⟩
  | _ => exact ⟨⟨fed.taken,fed.first⟩,List.Subset.refl _⟩

structure Sound (randBytes : RandBytes) (k : Config) : Prop where
  fed : Fed randBytes k.shared
  inv : kInvalidPortName ∉ k.shared.drawn → Inv k.shared k.calls

theorem sound_create (name : NodeName) : Sound randBytes (create name) where
  fed := ⟨create_taken,rfl⟩
  inv _ := {
    tidy := {
      below := fun _ _ live => nomatch live
      injective := fun _ _ _ live => nomatch live
      entries := fun _ _ entry => absurd rfl entry }
    about := fun _ member => nomatch member
    distinct := Multiset.nodup_zero
    placed := fun p => iff_of_false (Multiset.notMem_zero p) (fun known => known rfl)
    taken := Multiset.zero_le _
    refused := fun known => absurd known fun ⟨_,member,_⟩ => nomatch member }

theorem Inv.called {s : Shared} {calls : List CreatePortPair} (inv : Inv s calls) : Inv s (calls ++ [.start]) := by
  have same : tabled (calls ++ [.start]) = tabled calls := (total_started _ _ _).trans (add_zero _)
  have same' : awaited (calls ++ [.start]) = awaited calls := (total_started _ _ _).trans (add_zero _)
  refine ⟨inv.tidy,?_,same ▸ inv.distinct,same ▸ inv.placed,?_,?_⟩
  · intro call member
    rcases List.mem_append.mp member with old | new
    · exact inv.about call old
    · cases List.mem_singleton.mp new
      exact .start
  · rw [same,same']
    exact inv.taken
  · intro known
    obtain ⟨call,member,bad⟩ := known
    rcases List.mem_append.mp member with old | new
    · exact inv.refused ⟨call,old,bad⟩
    · cases List.mem_singleton.mp new
      obtain ⟨_,_,other⟩ := bad
      cases other

theorem Sound.step {k k' : Config} {turn : Turn} (sound : Sound randBytes k)
    (ran : k.step randBytes turn = some k') : Sound randBytes k' := by
  cases turn with
  | call =>
    cases ran
    exact ⟨sound.fed,fun valid => (sound.inv valid).called⟩
  | step i =>
    obtain ⟨call,found,rest⟩ := Option.bind_eq_some_iff.mp ran
    obtain ⟨⟨t,next⟩,stepped,last⟩ := Option.bind_eq_some_iff.mp rest
    cases last
    have effect := CreatePortPair.step_effect stepped
    obtain ⟨before,after,split,set⟩ := set_split found
    obtain ⟨fed,more⟩ := sound.fed.effect effect
    refine ⟨fed,fun valid => ?_⟩
    have valid : kInvalidPortName ∉ k.shared.drawn := fun drawn => valid (more drawn)
    have inv := sound.inv valid
    rw [split] at inv
    obtain ⟨drew,new,moves⟩ := inv.effect effect valid
    dsimp only
    rw [set]
    exact inv.moves moves

theorem Run.sound {name : NodeName} {turns : List Turn} {k : Config} (run : Run randBytes name turns k) :
    Sound randBytes k :=
  run.invariant (fun sound _ ran => sound.step ran) (sound_create name)

theorem draw_drawn {s : Shared} {name : PortName} {g : RandomNameGenerator}
    (drew : s.generator.generateRandomPortName randBytes = some (name,g)) :
    s.draw randBytes = some (name,⟨g,s.node,s.drawn ++ [name]⟩) := by
  rw [Shared.draw,drew]
  rfl

/-- A call that is not interrupted is the one of the node, with the next two names. -/
theorem alone_createPortPair {s : Shared} {g g' : RandomNameGenerator} {p0 p1 : PortName} {r : Result}
    {port0 port1 : PortRef} {node : Node} (drew0 : s.generator.generateRandomPortName randBytes = some (p0,g))
    (drew1 : g.generateRandomPortName randBytes = some (p1,g'))
    (ran : s.node.createPortPair p0 p1 = some (r,port0,port1,node)) :
    ∃ t, Alone (CreatePortPair.step randBytes) s .start t (.returned r port0 port1) ∧ t.node = node := by
  have named0 := Alone.one (CreatePortPair.step_start (draw_drawn drew0))
  rw [Node.createPortPair] at ran
  by_cases unknown0 : s.node.ports.lookup p0 = none
  · rw [Node.createUninitializedPort_some unknown0] at ran
    dsimp only at ran
    have named1 := (named0.trans (Alone.one (CreatePortPair.step_named0 unknown0))).trans
      (Alone.one (CreatePortPair.step_made0 (draw_drawn drew1)))
    by_cases unknown1 : (s.node.withPort p0).ports.lookup p1 = none
    · rw [Node.createUninitializedPort_some unknown1] at ran
      have made1 := named1.trans (Alone.one (CreatePortPair.step_named1 unknown1))
      obtain ⟨⟨r0,n0⟩,first,rest⟩ := Option.bind_eq_some_iff.mp ran
      have going : CreatePortPair.step randBytes ⟨g',_,(s.drawn ++ [p0]) ++ [p1]⟩ _ = _ := CreatePortPair.step_made1 first
      by_cases good : r0 = .ok
      · rw [if_pos good] at going
        rw [if_neg (not_not_intro good)] at rest
        obtain ⟨⟨r1,n1⟩,second,last⟩ := Option.bind_eq_some_iff.mp rest
        cases last
        have last : CreatePortPair.step randBytes ⟨g',n0,(s.drawn ++ [p0]) ++ [p1]⟩
            (.initialized0 ⟨p0,some s.node.allocated⟩ ⟨p1,some (s.node.withPort p0).allocated⟩) = _ :=
          CreatePortPair.step_initialized0 second
        exact ⟨_,(made1.trans (Alone.one going)).trans (Alone.one last),rfl⟩
      · rw [if_neg good] at going
        rw [if_pos good] at rest
        cases rest
        exact ⟨_,made1.trans (Alone.one going),rfl⟩
    · rw [Node.createUninitializedPort_known unknown1] at ran
      cases ran
      exact ⟨_,named1.trans (Alone.one (CreatePortPair.step_refused1 unknown1)),rfl⟩
  · rw [Node.createUninitializedPort_known unknown0] at ran
    cases ran
    exact ⟨_,named0.trans (Alone.one (CreatePortPair.step_refused0 unknown0)),rfl⟩

/-- No call waits for another, reads past the cache or dereferences null. -/
theorem Inv.goes {s : Shared} {before after : List CreatePortPair} {call : CreatePortPair}
    (inv : Inv s (before ++ call :: after)) (fed : Fed randBytes s) (valid : kInvalidPortName ∉ s.drawn) :
    (∃ r port0 port1, call = .returned r port0 port1) ∨ ∃ t next, call.step randBytes s = some (t,next) := by
  have about : About s.node call := inv.about call (List.mem_append_right _ List.mem_cons_self)
  have proper {p : PortName} (own : p ∈ call.ports) : p ≠ kInvalidPortName := by
    rintro rfl
    exact valid (inv.taken_own own)
  obtain ⟨g,drew,_⟩ := fed.taken.next
  have draws := draw_drawn drew
  cases about with
  | start => exact .inr ⟨_,_,CreatePortPair.step_start draws⟩
  | made0 bare => exact .inr ⟨_,_,CreatePortPair.step_made0 draws⟩
  | named0 name =>
    by_cases unknown : s.node.ports.lookup name = none
    · exact .inr ⟨_,_,CreatePortPair.step_named0 unknown⟩
    · exact .inr ⟨_,_,CreatePortPair.step_refused0 unknown⟩
  | named1 bare name =>
    by_cases unknown : s.node.ports.lookup name = none
    · exact .inr ⟨_,_,CreatePortPair.step_named1 unknown⟩
    · exact .inr ⟨_,_,CreatePortPair.step_refused1 unknown⟩
  | made1 bare0 bare1 distinct =>
    exact .inr ⟨_,_,CreatePortPair.step_made1 (initialized bare0 (proper (.tail _ (.head _))))⟩
  | initialized0 half bare1 distinct =>
    exact .inr ⟨_,_,CreatePortPair.step_initialized0 (initialized bare1 (proper (.head _)))⟩
  | created mates => exact .inl ⟨_,_,_,rfl⟩
  | refused0 => exact .inl ⟨_,_,_,rfl⟩
  | refused1 bare => exact .inl ⟨_,_,_,rfl⟩

/-- Where calls of CreatePortPair on any number of threads have got to, the names taken are the
first ones that RandBytes made, in order. Unless one of them is the invalid one, each call goes on
until it returns; it returns a pair of mates, or finds a name in use that was made twice; and the
table has the ports of the calls, each once. -/
theorem run_creates {name : NodeName} {turns : List Turn} {k : Config} (run : Run randBytes name turns k) :
    k.shared.drawn = (List.range k.shared.drawn.length).map (stream randBytes) ∧
    (kInvalidPortName ∉ k.shared.drawn →
      (∀ call ∈ k.calls, (∃ r port0 port1, call = .returned r port0 port1) ∨
        ∃ t next, call.step randBytes k.shared = some (t,next)) ∧
      (∀ r port0 port1, .returned r port0 port1 ∈ k.calls →
        (r = .ok ∧ ∃ ptr0 ptr1, port0.port = some ptr0 ∧ port1.port = some ptr1 ∧
          k.shared.node.Mates port0.name ptr0 port1.name ptr1) ∨
        (r = .errorPortExists ∧ ¬k.shared.drawn.Nodup)) ∧
      (k.calls.flatMap CreatePortPair.ports).Nodup ∧
      ∀ p, p ∈ k.calls.flatMap CreatePortPair.ports ↔ k.shared.node.ports.lookup p ≠ none) := by
  have sound := run.sound
  refine ⟨sound.fed.first,fun valid => ?_⟩
  have inv := sound.inv valid
  have all : tabled k.calls = (k.calls.flatMap CreatePortPair.ports : Multiset PortName) := total_lists _ _
  refine ⟨?_,?_,?_,?_⟩
  · intro call member
    obtain ⟨before,after,split⟩ := List.append_of_mem member
    rw [split] at inv
    exact inv.goes sound.fed valid
  · intro r port0 port1 member
    have about := inv.about _ member
    cases about with
    | created mates => exact .inl ⟨rfl,_,_,rfl,rfl,mates⟩
    | refused0 => exact .inr ⟨rfl,inv.refused ⟨_,member,_,_,rfl⟩⟩
    | refused1 bare => exact .inr ⟨rfl,inv.refused ⟨_,member,_,_,rfl⟩⟩
  · have distinct := inv.distinct
    rwa [all,Multiset.coe_nodup] at distinct
  · intro p
    rw [← inv.placed,all,Multiset.mem_coe]

/-- The names differ in their first bytes. -/
def counting : RandBytes := fun _ i => if i%16 = 0 then UInt8.ofNat (i/16) else if i%16 = 1 then 1 else 0

/-- Two calls that take turns. -/
def twoCalls : List Turn :=
  [.call,.call,.step 0,.step 1,.step 1,.step 0,.step 0,.step 1,.step 0,.step 1,.step 1,.step 0,.step 0,.step 1]

theorem run_creates_twoCalls : ∃ k, Run counting ⟨1,1⟩ twoCalls k ∧
    k.calls = [.returned .ok ⟨⟨256,0⟩,some 1⟩ ⟨⟨258,0⟩,some 2⟩,.returned .ok ⟨⟨257,0⟩,some 0⟩ ⟨⟨259,0⟩,some 3⟩] ∧
    ∀ p, p ∈ k.calls.flatMap CreatePortPair.ports ↔ k.shared.node.ports.lookup p ≠ none := by
  obtain ⟨k,ran,seen⟩ := Option.map_eq_some_iff.mp
    (show (twoCalls.foldlM (Config.step counting) (create ⟨1,1⟩)).map
      (fun k : Config => (k.calls,decide (kInvalidPortName ∈ k.shared.drawn))) =
      some ([.returned .ok ⟨⟨256,0⟩,some 1⟩ ⟨⟨258,0⟩,some 2⟩,.returned .ok ⟨⟨257,0⟩,some 0⟩ ⟨⟨259,0⟩,some 3⟩],false)
      by decide +kernel)
  obtain ⟨calls,valid⟩ := Prod.mk.inj seen
  have run : Run counting ⟨1,1⟩ twoCalls k := Path.of_run (fun _ _ _ => trivial) ran
  exact ⟨k,run,calls,((run_creates run).2 (of_decide_eq_false valid)).2.2.2⟩

end Runs

end MojoImpl.Creation
