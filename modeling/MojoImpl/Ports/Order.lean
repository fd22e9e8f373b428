import MojoImpl.Ports.Queues

/-! The order in which a port hands its messages out. `GetNextMessage` takes the back of
the vector that `AcceptMessage` appends to, so the order of arrival is kept exactly while
every read finds messages that cannot be told apart. -/
namespace MojoImpl.Ports

inductive PortCall
  | onUserMessage (message : UserMessage)
  | getMessage (portRef : PortRef)
  deriving DecidableEq, Repr

/-- A node with what the port at one address has accepted and handed out. -/
structure History where
  node : Node
  accepted : List UserMessage
  handed : List UserMessage

namespace History

def start (n : Node) (p : PortPtr) : History := ⟨n,(n.objects p).messageQueue.heap,[]⟩

def queued (h : History) (p : PortPtr) : List UserMessage := (h.node.objects p).messageQueue.heap

def step (p : PortPtr) (h : History) : PortCall → Option History
  | .onUserMessage message => do
    let node ← h.node.onUserMessage message
    return { h with
      node := node
      accepted := if h.node.ports.lookup message.toPortName = some (some p)
        then h.accepted ++ [message] else h.accepted }
  | .getMessage portRef => do
    let (taken,node) ← h.node.getMessage portRef
    return { h with
      node := node
      handed := if portRef.port = some p then h.handed ++ taken.toList else h.handed }

def run (p : PortPtr) (calls : List PortCall) (h : History) : Option History :=
  calls.foldlM (step p) h

/-- What was handed out and then what is queued, oldest first, is what was accepted. -/
def InOrder (p : PortPtr) (h : History) : Prop := h.handed ++ h.queued p = h.accepted

/-- A read of the port finds messages that are all the same, if any. -/
def Uniform (p : PortPtr) (h : History) : PortCall → Prop
  | .onUserMessage _ => True
  | .getMessage portRef => portRef.port = some p → ∀ a ∈ h.queued p, ∀ b ∈ h.queued p, a = b

end History

theorem cons_eq_concat_iff {α : Type} (a : α) (l : List α) :
    a :: l = l ++ [a] ↔ ∀ b ∈ l, b = a := by
  induction l with
  | nil => simp
  | cons b l ih =>
    rw [List.cons_append,List.cons.injEq]
    constructor
    · rintro ⟨rfl,rest⟩
      intro c member
      rcases List.mem_cons.mp member with rfl | later
      · rfl
      · exact ih.mp rest c later
    · intro same
      have head : b = a := same b (by simp)
      rw [head]
      exact ⟨rfl,ih.mpr (fun c member => same c (by simp [member]))⟩

namespace History

theorem step_inOrder {p : PortPtr} {h t : History} {call : PortCall} (inOrder : h.InOrder p)
    (ran : h.step p call = some t) : t.InOrder p ↔ h.Uniform p call := by
  cases call with
  | onUserMessage message =>
    simp only [step,Option.bind_eq_bind,Option.pure_def] at ran
    obtain ⟨node,accepts,same⟩ := Option.bind_eq_some_iff.mp ran
    cases same
    obtain ⟨q,found,rfl⟩ := Node.onUserMessage_some accepts
    simp only [Uniform,iff_true]
    by_cases here : q = p
    · subst here
      simp only [InOrder,queued,found,if_true,Node.setQueue,Node.setPort,Function.update_self,
        MessageQueue.acceptMessage]
      rw [← List.append_assoc]
      exact congrArg (· ++ [message]) inOrder
    · have elsewhere : (some (some q) : Option (Option PortPtr)) ≠ some (some p) := by simpa using here
      simp only [InOrder,queued,found,elsewhere,if_false,Node.setQueue,Node.setPort,
        Function.update_of_ne (Ne.symm here)]
      exact inOrder
  | getMessage portRef =>
    simp only [step,Option.bind_eq_bind,Option.pure_def] at ran
    obtain ⟨⟨taken,node⟩,reads,same⟩ := Option.bind_eq_some_iff.mp ran
    cases same
    obtain ⟨q,port,outcome⟩ := Node.getMessage_some reads
    by_cases here : q = p
    · subst here
      simp only [Uniform,port,true_implies]
      rcases outcome with ⟨empty,rfl,rfl⟩ | ⟨older,message,full,rfl,rfl⟩
      · simp only [InOrder,queued,empty,Option.toList_none,List.append_nil,if_true] at inOrder ⊢
        simp [inOrder]
      · simp only [InOrder,queued,full] at inOrder ⊢
        simp only [if_true,Option.toList_some,Node.setQueue,Node.setPort,Function.update_self,← inOrder,
          List.append_assoc,List.append_cancel_left_eq,List.singleton_append,cons_eq_concat_iff]
        constructor
        · intro same a member b member'
          have last (c : UserMessage) (member : c ∈ older ++ [message]) : c = message := by
            rcases List.mem_append.mp member with earlier | this
            · exact same c earlier
            · exact List.mem_singleton.mp this
          rw [last a member,last b member']
        · intro same b member
          exact same b (by simp [member]) message (by simp)
    · have elsewhere : portRef.port ≠ some p := by
        rw [port]
        simpa using here
      have kept : (node.objects p) = h.node.objects p := by
        rcases outcome with ⟨_,_,rfl⟩ | ⟨older,message,_,_,rfl⟩
        · rfl
        · exact Function.update_of_ne (Ne.symm here) _ _
      simp only [Uniform,elsewhere,false_implies,iff_true,InOrder,queued,if_false,kept]
      exact inOrder

theorem run_take_succ {p : PortPtr} {calls : List PortCall} {h : History} {i : Nat}
    (inside : i < calls.length) :
    run p (calls.take (i+1)) h = (run p (calls.take i) h).bind (fun s => s.step p calls[i]) := by
  rw [run,List.take_succ_eq_append_getElem inside,List.foldlM_append]
  simp [run]

theorem getMessage_runs {p : PortPtr} (h : History) {portRef : PortRef} (here : portRef.port = some p) :
    ∃ t, h.step p (.getMessage portRef) = some t := by
  simp only [step,Node.getMessage,here,Option.bind_eq_bind,Option.bind_some]
  rcases List.eq_nil_or_concat' (h.node.objects p).messageQueue.heap with empty | ⟨older,message,full⟩
  · simp [MessageQueue.hasNextMessage,empty]
  · simp [MessageQueue.hasNextMessage,MessageQueue.getNextMessage,full]

/-- Through any calls on a node, a port hands its messages out in the order it accepted
them exactly when each read of it finds at most one message, or equal ones. -/
theorem inOrder_iff_uniform (n : Node) (p : PortPtr) (calls : List PortCall) :
    (∀ i ≤ calls.length, ∀ s, run p (calls.take i) (start n p) = some s → s.InOrder p) ↔
      ∀ i (inside : i < calls.length), ∀ s, run p (calls.take i) (start n p) = some s →
        s.Uniform p calls[i] := by
  constructor
  · intro ordered i inside s before
    have here := ordered i (Nat.le_of_lt inside) s before
    cases call : calls[i] with
    | onUserMessage message => trivial
    | getMessage portRef =>
      intro port
      obtain ⟨t,ran⟩ := s.getMessage_runs port
      have after : run p (calls.take (i+1)) (start n p) = some t := by
        rw [run_take_succ inside,before,Option.bind_some,call,ran]
      exact (step_inOrder here ran).mp (ordered (i+1) inside t after) port
  · intro uniform i
    induction i with
    | zero =>
      intro _ s before
      cases before
      rfl
    | succ i ih =>
      intro inside t after
      rw [run_take_succ inside] at after
      obtain ⟨s,before,ran⟩ := Option.bind_eq_some_iff.mp after
      exact (step_inOrder (ih (Nat.le_of_lt inside) s before) ran).mpr (uniform i inside s before)

/-- Two arrivals at a fresh port and a read: the second message comes out. -/
theorem not_inOrder_two :
    ¬ ∀ s, run 0 [.onUserMessage ⟨⟨1,1⟩,⟨2,2⟩,[1]⟩,.onUserMessage ⟨⟨1,1⟩,⟨2,2⟩,[2]⟩,
        .getMessage ⟨⟨2,2⟩,some 0⟩]
        (start ((Node.create ⟨9,9⟩).createUninitializedPort ⟨2,2⟩).2.2 0) = some s →
      s.InOrder 0 := by
  intro ordered
  have here := ordered _ rfl
  unfold InOrder at here
  revert here
  decide +kernel

end History

end MojoImpl.Ports
