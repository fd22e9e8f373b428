import MojoImpl.Ports.Node

/-! What accepting and taking a message do to a node: the queue of one port changes. -/
namespace MojoImpl.Ports.Node
open Foundation

def setQueue (n : Node) (ptr : PortPtr) (queue : MessageQueue) : Node :=
  n.setPort ptr { n.objects ptr with messageQueue := queue }

theorem setQueue_peers (n : Node) (ptr ptr' : PortPtr) (queue : MessageQueue) :
    ((n.setQueue ptr queue).objects ptr').peerNodeName = (n.objects ptr').peerNodeName ∧
      ((n.setQueue ptr queue).objects ptr').peerPortName = (n.objects ptr').peerPortName := by
  by_cases same : ptr' = ptr
  · subst same
    simp only [setQueue,setPort,Function.update_self,and_self]
  · simp only [setQueue,setPort,Function.update_of_ne same,and_self]

theorem onUserMessage_some {n t : Node} {message : UserMessage}
    (ran : n.onUserMessage message = some t) :
    ∃ ptr, n.ports.lookup message.toPortName = some (some ptr) ∧
      t = n.setQueue ptr ((n.objects ptr).messageQueue.acceptMessage message).1 := by
  obtain ⟨ptr,found,rest⟩ := Option.bind_eq_some_iff.mp ran
  cases rest
  change (n.ports.lookup message.toPortName).getD none = some ptr at found
  cases known : n.ports.lookup message.toPortName with
  | none => simp [known] at found
  | some entry =>
    rw [known] at found
    change entry = some ptr at found
    have same : Table.emplace n.ports message.toPortName none = n.ports := by
      simp only [Table.emplace,known]
    refine ⟨ptr,congrArg some found,?_⟩
    simp only [same]
    rfl

theorem onUserMessage_live {n : Node} {message : UserMessage} {ptr : PortPtr}
    (live : n.ports.lookup message.toPortName = some (some ptr)) :
    n.onUserMessage message =
      some (n.setQueue ptr ((n.objects ptr).messageQueue.acceptMessage message).1) := by
  have same : Table.emplace n.ports message.toPortName none = n.ports := by
    simp only [Table.emplace,live]
  simp only [Node.onUserMessage,Node.portSubscript,live,same]
  rfl

/-- A message is taken from the back of the queue, or there is none and nothing changes. -/
theorem getMessage_some {n t : Node} {portRef : PortRef} {taken : Option UserMessage}
    (ran : n.getMessage portRef = some (taken,t)) :
    ∃ q, portRef.port = some q ∧
      (((n.objects q).messageQueue.heap = [] ∧ taken = none ∧ t = n) ∨
        ∃ older message, (n.objects q).messageQueue.heap = older ++ [message] ∧
          taken = some message ∧
            t = n.setQueue q { (n.objects q).messageQueue with heap := older }) := by
  unfold Node.getMessage at ran
  cases port : portRef.port with
  | none => simp [port] at ran
  | some q =>
    refine ⟨q,rfl,?_⟩
    rcases List.eq_nil_or_concat' (n.objects q).messageQueue.heap with empty | ⟨older,message,full⟩
    · simp only [port,Option.bind_eq_bind,Option.bind_some,MessageQueue.hasNextMessage,empty,
        List.isEmpty_nil] at ran
      cases ran
      exact .inl ⟨empty,rfl,rfl⟩
    · have some_left : (older ++ [message]).isEmpty = false := by simp
      simp only [port,Option.bind_eq_bind,Option.bind_some,MessageQueue.hasNextMessage,
        MessageQueue.getNextMessage,full,some_left,List.getLast?_append,List.dropLast_concat] at ran
      cases ran
      exact .inr ⟨older,message,full,rfl,rfl⟩

end MojoImpl.Ports.Node
