import MojoImpl.Core
import MojoImpl.Ports.Queues
import Mathlib.Data.List.Count

/-! What `Core::ReadMessage` says about the message it hands out. `GetMessage` returns `OK` with
and without a message, and `ReadMessage` does not look at what it returns. -/
namespace MojoImpl.Core
open Foundation MojoImpl.Ports

/-- A message from a peer, as `NodeController::OnMessage` passes it on. -/
def onUserMessage (s : Core) (message : UserMessage) : Option Core := do
  let controller ← s.controller.onUserMessage message
  return { s with controller }

/-- The queue of the port object at `q`. -/
def queued (s : Core) (q : PortPtr) : List UserMessage := (s.controller.node.objects q).messageQueue.heap

/-- The port object that a message-pipe handle reads from. -/
def pipePort (s : Core) (handle : MojoHandle) : Option PortPtr :=
  match s.getDispatcher handle with
  | some (.messagePipe port) => port.port
  | _ => none

namespace Reads

inductive Call
  | onUserMessage (message : UserMessage)
  | readMessage (handle : MojoHandle)
  deriving DecidableEq, Repr

/-- A core with what each port object has accepted and handed out. -/
structure History where
  core : Core
  accepted : PortPtr → List UserMessage
  handed : PortPtr → List UserMessage

namespace History

/-- What the queues hold at first was accepted before. -/
def start (s : Core) : History := ⟨s,s.queued,fun _ => []⟩

def step (h : History) : Call → Option History
  | .onUserMessage message => do
    let core ← h.core.onUserMessage message
    return { h with
      core := core
      accepted := match h.core.controller.node.ports.lookup message.toPortName with
        | some (some q) => Function.update h.accepted q (h.accepted q ++ [message])
        | _ => h.accepted }
  | .readMessage handle => do
    let (_,message,core) ← h.core.readMessage handle
    return { h with
      core := core
      handed := match h.core.pipePort handle with
        | some q => Function.update h.handed q (h.handed q ++ message.toList)
        | none => h.handed }

def run (calls : List Call) (h : History) : Option History := calls.foldlM step h

/-- A read that returns `MOJO_RESULT_OK` gives a message of which its port has accepted more than
it has handed out, and a read of an empty queue does not return it. -/
def Faithful (h : History) : Call → Prop
  | .onUserMessage _ => True
  | .readMessage handle => ∀ r message core, h.core.readMessage handle = some (r,message,core) →
      (r = .ok → ∃ q m, h.core.pipePort handle = some q ∧ message = some m ∧
        (h.handed q).count m < (h.accepted q).count m) ∧
      ((∃ q, h.core.pipePort handle = some q ∧ h.core.queued q = []) → r ≠ .ok)

/-- A read finds a message. -/
def Stocked (h : History) : Call → Prop
  | .onUserMessage _ => True
  | .readMessage handle => ∀ q, h.core.pipePort handle = some q → h.core.queued q ≠ []

/-- What a port has handed out and what it holds is what it has accepted. -/
def Conserved (h : History) : Prop := ∀ q, (h.handed q ++ h.core.queued q).Perm (h.accepted q)

variable {h t : History}

theorem pipePort_pipe {s : Core} {handle : MojoHandle} {port : PortRef}
    (found : s.getDispatcher handle = some (.messagePipe port)) : s.pipePort handle = port.port := by
  rw [pipePort,found]

theorem pipePort_other {s : Core} {handle : MojoHandle}
    (other : ∀ port, s.getDispatcher handle ≠ some (.messagePipe port)) : s.pipePort handle = none := by
  unfold pipePort
  split
  · next port found => exact absurd found (other port)
  · rfl

theorem readMessage_pipe {s core : Core} {handle : MojoHandle} {r : MojoResult} {message : Option UserMessage}
    (ran : s.readMessage handle = some (r,message,core)) :
    (s.pipePort handle = none ∧ r = .invalidArgument ∧ message = none ∧ core = s) ∨
      ∃ q port, s.pipePort handle = some q ∧ port.port = some q ∧ r = .ok ∧
        s.controller.node.getMessage port = some (message,core.controller.node) := by
  unfold readMessage at ran
  split at ran
  · next port found =>
    obtain ⟨⟨message',controller⟩,took,same⟩ := Option.bind_eq_some_iff.mp ran
    cases same
    obtain ⟨⟨message'',node⟩,got,same⟩ := Option.bind_eq_some_iff.mp took
    cases same
    obtain ⟨q,here,_⟩ := Node.getMessage_some got
    exact .inr ⟨q,port,(pipePort_pipe found).trans here,here,rfl,got⟩
  · next other =>
    cases ran
    exact .inl ⟨pipePort_other other,rfl,rfl,rfl⟩

theorem queued_setQueue {n : Node} (q q' : PortPtr) (queue : MessageQueue) :
    ((n.setQueue q queue).objects q').messageQueue.heap =
      if q' = q then queue.heap else (n.objects q').messageQueue.heap := by
  by_cases same : q' = q
  · subst same
    simp only [Node.setQueue,Node.setPort,Function.update_self,if_true]
  · simp only [Node.setQueue,Node.setPort,Function.update_of_ne same,same,if_false]

theorem onUserMessage_conserved {message : UserMessage} (conserved : h.Conserved)
    (ran : h.step (.onUserMessage message) = some t) : t.Conserved := by
  obtain ⟨core,arrived,same⟩ := Option.bind_eq_some_iff.mp ran
  cases same
  obtain ⟨controller,passed,same⟩ := Option.bind_eq_some_iff.mp arrived
  cases same
  obtain ⟨node,accepts,same⟩ := Option.bind_eq_some_iff.mp passed
  cases same
  obtain ⟨q,found,rfl⟩ := Node.onUserMessage_some accepts
  intro q'
  have before := conserved q'
  simp only [queued,queued_setQueue,found] at before ⊢
  by_cases here : q' = q
  · subst here
    simp only [if_true,Function.update_self,MessageQueue.acceptMessage]
    rw [← List.append_assoc]
    exact before.append_right [message]
  · simp only [here,if_false,Function.update_of_ne here]
    exact before

theorem readMessage_conserved {handle : MojoHandle} (conserved : h.Conserved)
    (ran : h.step (.readMessage handle) = some t) : t.Conserved := by
  obtain ⟨⟨r,message,core⟩,reads,same⟩ := Option.bind_eq_some_iff.mp ran
  cases same
  rcases readMessage_pipe reads with ⟨none_there,-,-,rfl⟩ | ⟨q,port,there,here,-,got⟩
  · intro q'
    simp only [none_there]
    exact conserved q'
  · obtain ⟨q₁,here₁,outcome⟩ := Node.getMessage_some got
    have same : q₁ = q := Option.some.inj (here₁.symm.trans here)
    subst same
    intro q'
    have before := conserved q'
    simp only [there]
    rcases outcome with ⟨_,rfl,unchanged⟩ | ⟨older,taken,full,rfl,unchanged⟩
    · simp only [queued,unchanged,Option.toList_none,List.append_nil,Function.update_eq_self]
      exact before
    · simp only [queued,unchanged,queued_setQueue] at before ⊢
      by_cases same : q' = q₁
      · subst same
        simp only [if_true,Function.update_self,Option.toList_some,List.append_assoc]
        rw [full] at before
        exact ((List.perm_append_comm).append_left _).trans before
      · simp only [same,if_false,Function.update_of_ne same]
        exact before

theorem step_conserved {call : Call} (conserved : h.Conserved) (ran : h.step call = some t) : t.Conserved := by
  cases call with
  | onUserMessage message => exact onUserMessage_conserved conserved ran
  | readMessage handle => exact readMessage_conserved conserved ran

theorem conserved_run {calls : List Call} (conserved : h.Conserved) (ran : run calls h = some t) : t.Conserved := by
  induction calls generalizing h with
  | nil =>
    cases ran
    exact conserved
  | cons call calls ih =>
    rw [run,List.foldlM_cons] at ran
    obtain ⟨u,first,rest⟩ := Option.bind_eq_some_iff.mp ran
    exact ih (step_conserved conserved first) rest

theorem start_conserved (s : Core) : (start s).Conserved := fun _ => List.Perm.refl _

theorem readMessage_empty {s : Core} {handle : MojoHandle} {q : PortPtr} (there : s.pipePort handle = some q)
    (empty : s.queued q = []) : s.readMessage handle = some (.ok,none,s) := by
  unfold pipePort at there
  split at there
  · next port found =>
    have nothing : s.controller.node.getMessage port = some (none,s.controller.node) := by
      have none_left : (s.controller.node.objects q).messageQueue.hasNextMessage = false := by
        rw [MessageQueue.hasNextMessage,show (s.controller.node.objects q).messageQueue.heap = [] from empty]
        rfl
      simp only [Node.getMessage,there,Option.bind_eq_bind,Option.bind_some,none_left,Bool.false_eq_true,if_false,
        Option.pure_def]
    simp only [readMessage,found,NodeController.getUserMessage,nothing]
    rfl
  · cases there

theorem faithful_iff (conserved : h.Conserved) (call : Call) : h.Faithful call ↔ h.Stocked call := by
  cases call with
  | onUserMessage message => exact Iff.rfl
  | readMessage handle =>
    constructor
    · intro faithful q there empty
      exact (faithful _ _ _ (readMessage_empty there empty)).2 ⟨q,there,empty⟩ rfl
    · intro stocked r message core reads
      rcases readMessage_pipe reads with ⟨none_there,rfl,-,-⟩ | ⟨q,port,there,here,rfl,got⟩
      · exact ⟨nofun,fun _ => nofun⟩
      · have full := stocked q there
        refine ⟨fun _ => ?_,fun ⟨q',there',empty⟩ => ?_⟩
        · obtain ⟨q₁,here₁,outcome⟩ := Node.getMessage_some got
          have same : q₁ = q := Option.some.inj (here₁.symm.trans here)
          subst same
          rcases outcome with ⟨empty,_⟩ | ⟨older,taken,full,rfl,_⟩
          · exact absurd empty full
          · have balance := (conserved q₁).count_eq taken
            simp only [queued,full,List.count_append,List.count_singleton_self] at balance
            exact ⟨q₁,taken,there,rfl,by omega⟩
        · cases there.symm.trans there'
          exact absurd empty full

/-- Through any calls, a read is faithful exactly when it finds a message. -/
theorem run_faithful_iff (s : Core) (calls : List Call) (i : Nat) (inside : i < calls.length) (h : History)
    (before : run (calls.take i) (start s) = some h) : h.Faithful calls[i] ↔ h.Stocked calls[i] :=
  faithful_iff (conserved_run (start_conserved s) before) calls[i]

/-- A read of a pipe after a message has arrived for it. -/
theorem run_faithful_iff_arrived :
    ∃ s h, (∃ peer, (create ⟨9,9⟩).createPartialMessagePipe ⟨1,1⟩ ⟨2,2⟩ = some (1,peer,s)) ∧
      run [.onUserMessage ⟨⟨3,3⟩,⟨1,1⟩,[7]⟩] (start s) = some h ∧ h.Faithful (.readMessage 1) := by
  let s := (((create ⟨9,9⟩).createPartialMessagePipe ⟨1,1⟩ ⟨2,2⟩).get rfl).2.2
  refine ⟨s,_,⟨_,rfl⟩,rfl,?_⟩
  refine (run_faithful_iff s [.onUserMessage ⟨⟨3,3⟩,⟨1,1⟩,[7]⟩,.readMessage 1] 1 (by decide) _ rfl).mpr ?_
  intro q there
  cases there
  exact List.cons_ne_nil _ _

/-- A read of a fresh pipe returns `MOJO_RESULT_OK`. -/
theorem not_faithful_empty : ¬∀ s (calls : List Call) i (inside : i < calls.length) h,
    run (calls.take i) (start s) = some h → h.Faithful calls[i] := by
  intro faithful
  let s := (((create ⟨9,9⟩).createPartialMessagePipe ⟨1,1⟩ ⟨2,2⟩).get rfl).2.2
  exact (faithful s [.readMessage 1] 0 (by decide) _ rfl _ _ _ rfl).2 ⟨0,rfl,rfl⟩ rfl

end History

end Reads

end MojoImpl.Core
