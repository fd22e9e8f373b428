import MojoImpl.Foundation.Simulation
import MojoImpl.Foundation.Table

/-! The IO task runner, io_task_runner.h and libuv_io_task_runner_adapter.cc: which delegate
is called for what libuv reports about a descriptor. Between the two calls of one report the
delegate runs, and may register descriptors itself. -/
namespace MojoImpl
open Foundation

abbrev IOEvent := UInt8

def kReadable : IOEvent := (1 : UInt8) <<< (1 : UInt8)
def kWritable : IOEvent := (1 : UInt8) <<< (2 : UInt8)
def kReadWritable : IOEvent := kReadable ||| kWritable

abbrev UvEvents := UInt32

def UV_READABLE : UvEvents := 1
def UV_WRITABLE : UvEvents := 2
def UV_DISCONNECT : UvEvents := 4

/-- The two calls of `IOTaskRunner::Delegate` about a descriptor. -/
inductive FdCall
  | onFdReadable
  | onFdWriteable
  deriving DecidableEq, Repr

def FdCall.event : FdCall → IOEvent
  | .onFdReadable => kReadable
  | .onFdWriteable => kWritable

def FdCall.uvEvent : FdCall → UvEvents
  | .onFdReadable => UV_READABLE
  | .onFdWriteable => UV_WRITABLE

/-- A `uv_poll_t`, with the events of its last `uv_poll_start`. -/
structure PollHandle where
  fd : Int
  watched : UvEvents
  deriving DecidableEq, Repr

namespace IOTaskRunner

/-- Where `OnLibuvFdActive` is: not running, or in a call of the delegate. -/
inductive Phase
  | idle
  | readable (fd : Int) (events : UvEvents)
  | writeable
  | nullDeref
  deriving DecidableEq, Repr

structure Made (δ : Type) where
  delegate : δ
  fd : Int
  call : FdCall
  deriving DecidableEq, Repr

end IOTaskRunner

/-- `handles` holds the poll handles allocated so far, `calls` the calls made. -/
structure IOTaskRunner (δ : Type) where
  delegateMap : Table Int δ
  handlesMap : Table Int Nat
  handles : Nat → PollHandle
  allocated : Nat
  phase : IOTaskRunner.Phase
  calls : List (IOTaskRunner.Made δ)

namespace IOTaskRunner
variable {δ : Type}

inductive Event (δ : Type)
  | setDelegate (fd : Int) (delegate : δ)
  | addFdEvent (fd : Int) (event : IOEvent)
  | delFdEvent (fd : Int) (event : IOEvent)
  | onLibuvFdActive (handle : Nat) (status : Int) (events : UvEvents)
  | returns

def start : IOTaskRunner δ := ⟨∅,∅,fun _ => ⟨0,0⟩,0,.idle,[]⟩

def delegate (s : IOTaskRunner δ) (fd : Int) : Option δ := s.delegateMap.lookup fd

def setDelegate (s : IOTaskRunner δ) (fd : Int) (delegate : δ) : IOTaskRunner δ :=
  { s with delegateMap := s.delegateMap.insert fd delegate }

def uvPollStart (s : IOTaskRunner δ) (handle : Nat) (events : UvEvents) : IOTaskRunner δ :=
  { s with handles := Function.update s.handles handle { s.handles handle with watched := events } }

def uvEvents (event : IOEvent) : UvEvents :=
  (if event &&& kReadable ≠ 0 then UV_READABLE else 0) ||| (if event &&& kWritable ≠ 0 then UV_WRITABLE else 0)

def addFdEvent (s : IOTaskRunner δ) (fd : Int) (event : IOEvent) : IOTaskRunner δ :=
  match s.handlesMap.lookup fd with
  | none =>
    { s with
      handles := Function.update s.handles s.allocated ⟨fd,0⟩
      allocated := s.allocated+1
      handlesMap := s.handlesMap.insert fd s.allocated }.uvPollStart s.allocated (uvEvents event)
  | some handle => s.uvPollStart handle (uvEvents event)

/-- The event is not looked at. -/
def delFdEvent (s : IOTaskRunner δ) (fd : Int) (_event : IOEvent) : IOTaskRunner δ :=
  match s.handlesMap.lookup fd with
  | none => s
  | some handle => s.uvPollStart handle UV_DISCONNECT

/-- `runner->delegate(fd)` is dereferenced as it comes. -/
def callDelegate (s : IOTaskRunner δ) (fd : Int) (call : FdCall) (phase : Phase) : IOTaskRunner δ :=
  match s.delegate fd with
  | none => { s with phase := .nullDeref }
  | some delegate => { s with phase, calls := s.calls ++ [⟨delegate,fd,call⟩] }

/-- The second test of `OnLibuvFdActive`. -/
def testWritable (s : IOTaskRunner δ) (fd : Int) (events : UvEvents) : IOTaskRunner δ :=
  if events &&& UV_WRITABLE ≠ 0 then s.callDelegate fd .onFdWriteable .writeable else { s with phase := .idle }

def onLibuvFdActive (s : IOTaskRunner δ) (handle : Nat) (status : Int) (events : UvEvents) : IOTaskRunner δ :=
  if status < 0 then s
  else
    let fd := (s.handles handle).fd
    if events &&& UV_READABLE ≠ 0 then s.callDelegate fd .onFdReadable (.readable fd events)
    else s.testWritable fd events

def step (s : IOTaskRunner δ) : Event δ → Option (IOTaskRunner δ)
  | .setDelegate fd delegate => some (s.setDelegate fd delegate)
  | .addFdEvent fd event => some (s.addFdEvent fd event)
  | .delFdEvent fd event => some (s.delFdEvent fd event)
  | .onLibuvFdActive handle status events =>
    if s.phase = .idle then some (s.onLibuvFdActive handle status events) else none
  | .returns =>
    match s.phase with
    | .readable fd events => some (s.testWritable fd events)
    | .writeable => some { s with phase := .idle }
    | _ => none

/-- A descriptor is added by the channel that has set itself as its delegate, and libuv
reports an error, or events it was asked to watch on a handle it was given. -/
def Allowed (s : IOTaskRunner δ) : Event δ → Prop
  | .addFdEvent fd _ => ∃ delegate, s.delegate fd = some delegate
  | .onLibuvFdActive handle status events =>
    handle < s.allocated ∧ (0 ≤ status → events &&& (s.handles handle).watched = events)
  | _ => True

section History
variable {past : List (Event δ)} {a : Event δ} {fd : Int}

def Event.delegateAfter (fd : Int) (last : Option δ) : Event δ → Option δ
  | .setDelegate fd' delegate => if fd = fd' then some delegate else last
  | _ => last

def Event.addedAfter (fd : Int) (last : Option IOEvent) : Event δ → Option IOEvent
  | .addFdEvent fd' event => if fd = fd' then some event else last
  | .delFdEvent fd' _ => if fd = fd' then none else last
  | _ => last

/-- The delegate set last for a descriptor. -/
def lastDelegate (past : List (Event δ)) (fd : Int) : Option δ := past.foldl (Event.delegateAfter fd) none

/-- The events a descriptor was last added with, if it has not been deleted since. -/
def lastAdded (past : List (Event δ)) (fd : Int) : Option IOEvent := past.foldl (Event.addedAfter fd) none

theorem lastDelegate_snoc : lastDelegate (past ++ [a]) fd = a.delegateAfter fd (lastDelegate past fd) := by
  rw [lastDelegate,List.foldl_append]
  rfl

theorem lastAdded_snoc : lastAdded (past ++ [a]) fd = a.addedAfter fd (lastAdded past fd) := by
  rw [lastAdded,List.foldl_append]
  rfl

/-- The descriptor stood added with the event of the call. -/
def Asked (past : List (Event δ)) (fd : Int) (call : FdCall) : Prop :=
  ∃ event, lastAdded past fd = some event ∧ event &&& call.event ≠ 0

/-- A call was due: when libuv reported, the descriptor stood added with the event of the
call, and when the call was made the delegate was the one set last. -/
def Due (past : List (Event δ)) (made : Made δ) : Prop :=
  ∃ reported between later, past = reported ++ (between ++ later) ∧ Asked reported made.fd made.call ∧
    lastDelegate (reported ++ between) made.fd = some made.delegate

theorem Due.mono {made : Made δ} (due : Due past made) (a : Event δ) : Due (past ++ [a]) made := by
  obtain ⟨reported,between,later,rfl,asked,delegate⟩ := due
  exact ⟨reported,between,later ++ [a],by simp only [List.append_assoc],asked,delegate⟩

def watchedFor : Option IOEvent → UvEvents
  | some event => uvEvents event
  | none => UV_DISCONNECT

theorem asked_of_reported {added : Option IOEvent} {events : UvEvents} {call : FdCall}
    (watched : events &&& watchedFor added = events) (reported : events &&& call.uvEvent ≠ 0) :
    ∃ event, added = some event ∧ event &&& call.event ≠ 0 := by
  have shared : watchedFor added &&& call.uvEvent ≠ 0 := by
    intro apart
    rw [← watched,UInt32.and_assoc,apart,UInt32.and_zero] at reported
    exact reported rfl
  cases added with
  | none => cases call <;> exact absurd rfl shared
  | some event =>
    refine ⟨event,rfl,?_⟩
    intro absent
    apply shared
    cases call with
    | onFdReadable =>
      change event &&& kReadable = 0 at absent
      rw [watchedFor,uvEvents,if_neg (not_not.mpr absent)]
      split <;> rfl
    | onFdWriteable =>
      change event &&& kWritable = 0 at absent
      rw [watchedFor,uvEvents,if_neg (not_not.mpr absent)]
      split <;> rfl

end History

section Invariant
variable {past : List (Event δ)} {s t : IOTaskRunner δ}

/-- Each added descriptor has one poll handle, watched as it was last added, and a
delegate, the one set last. -/
structure Registered (past : List (Event δ)) (s : IOTaskRunner δ) : Prop where
  delegates : ∀ fd, s.delegate fd = lastDelegate past fd
  handle : ∀ fd h, s.handlesMap.lookup fd = some h → h < s.allocated ∧
    s.handles h = ⟨fd,watchedFor (lastAdded past fd)⟩ ∧ ∃ delegate, s.delegate fd = some delegate
  unadded : ∀ fd, s.handlesMap.lookup fd = none → lastAdded past fd = none
  held : ∀ h < s.allocated, s.handlesMap.lookup (s.handles h).fd = some h

structure Sound (past : List (Event δ)) (s : IOTaskRunner δ) : Prop where
  registered : Registered past s
  alive : s.phase ≠ .nullDeref
  reading : ∀ fd events, s.phase = .readable fd events → (∃ delegate, s.delegate fd = some delegate) ∧
    ∃ reported later, past = reported ++ later ∧
      ∀ call : FdCall, events &&& call.uvEvent ≠ 0 → Asked reported fd call
  due : ∀ made ∈ s.calls, Due past made

theorem Registered.setDelegate (registered : Registered past s) (fd : Int) (delegate : δ) :
    Registered (past ++ [.setDelegate fd delegate]) (s.setDelegate fd delegate) := by
  have set (fd' : Int) : (s.setDelegate fd delegate).delegate fd' =
      if fd' = fd then some delegate else s.delegate fd' := Table.lookup_insert _ _ _ _
  have added (fd' : Int) : lastAdded (past ++ [.setDelegate fd delegate]) fd' = lastAdded past fd' := lastAdded_snoc
  constructor
  · intro fd'
    rw [set,lastDelegate_snoc,registered.delegates]
    rfl
  · intro fd' h found
    obtain ⟨inside,same,served⟩ := registered.handle fd' h found
    refine ⟨inside,by rw [added]; exact same,?_⟩
    rw [set]
    split
    · exact ⟨delegate,rfl⟩
    · exact served
  · intro fd' absent
    rw [added]
    exact registered.unadded fd' absent
  · exact registered.held

theorem Registered.same (registered : Registered past s) {a : Event δ}
    (delegate : ∀ fd last, a.delegateAfter fd last = last) (added : ∀ fd last, a.addedAfter fd last = last)
    (delegateMap : t.delegateMap = s.delegateMap) (handlesMap : t.handlesMap = s.handlesMap)
    (handles : t.handles = s.handles) (allocated : t.allocated = s.allocated) :
    Registered (past ++ [a]) t := by
  have same (fd : Int) : t.delegate fd = s.delegate fd := by rw [IOTaskRunner.delegate,delegateMap]; rfl
  constructor
  · intro fd
    rw [same,lastDelegate_snoc,delegate]
    exact registered.delegates fd
  · rw [handlesMap,handles,allocated]
    intro fd h found
    rw [same,lastAdded_snoc,added]
    exact registered.handle fd h found
  · rw [handlesMap]
    intro fd absent
    rw [lastAdded_snoc,added]
    exact registered.unadded fd absent
  · rw [handlesMap,handles,allocated]
    exact registered.held

/-- Starting the handle of a descriptor with other events. -/
theorem Registered.restart (registered : Registered past s) {fd : Int} {h : Nat}
    (found : s.handlesMap.lookup fd = some h) {a : Event δ} (delegate : ∀ fd last, a.delegateAfter fd last = last)
    {last : Option IOEvent} (added : ∀ fd', a.addedAfter fd' (lastAdded past fd') =
      if fd' = fd then last else lastAdded past fd') :
    Registered (past ++ [a]) (s.uvPollStart h (watchedFor last)) := by
  obtain ⟨inside,here,served⟩ := registered.handle fd h found
  have fds (h' : Nat) : ((s.uvPollStart h (watchedFor last)).handles h').fd = (s.handles h').fd := by
    change (Function.update s.handles h _ h').fd = _
    rw [Function.update_apply]
    split
    · next same => rw [same]
    · rfl
  constructor
  · intro fd'
    rw [lastDelegate_snoc,delegate]
    exact registered.delegates fd'
  · intro fd' h' found'
    obtain ⟨inside',there,served'⟩ := registered.handle fd' h' found'
    refine ⟨inside',?_,served'⟩
    change Function.update s.handles h _ h' = _
    rw [Function.update_apply,lastAdded_snoc,added]
    by_cases same : fd' = fd
    · subst same
      change s.handlesMap.lookup fd' = some h' at found'
      rw [found] at found'
      cases found'
      rw [if_pos rfl,if_pos rfl,here]
    · have other : h' ≠ h := by
        intro equal
        subst equal
        rw [here] at there
        exact same (congrArg PollHandle.fd there).symm
      rw [if_neg other,if_neg same,there]
  · intro fd' absent
    change s.handlesMap.lookup fd' = none at absent
    have other : fd' ≠ fd := by
      intro same
      rw [same,found] at absent
      contradiction
    rw [lastAdded_snoc,added,if_neg other]
    exact registered.unadded fd' absent
  · intro h' inside'
    rw [fds]
    exact registered.held h' inside'

theorem addFdEvent_new {fd : Int} (absent : s.handlesMap.lookup fd = none) (event : IOEvent) :
    s.addFdEvent fd event = { s with
      handles := Function.update s.handles s.allocated ⟨fd,uvEvents event⟩
      allocated := s.allocated+1
      handlesMap := s.handlesMap.insert fd s.allocated } := by
  simp only [addFdEvent,absent,uvPollStart,Function.update_self,Function.update_idem]

theorem Registered.addFdEvent (registered : Registered past s) {fd : Int} (event : IOEvent)
    (served : ∃ delegate, s.delegate fd = some delegate) :
    Registered (past ++ [.addFdEvent fd event]) (s.addFdEvent fd event) := by
  cases found : s.handlesMap.lookup fd with
  | some h =>
    have restarted := registered.restart (a := .addFdEvent fd event) found
      (fun _ _ => rfl) (fun _ => rfl)
    simp only [IOTaskRunner.addFdEvent,found]
    exact restarted
  | none =>
    rw [addFdEvent_new found]
    constructor
    · intro fd'
      rw [lastDelegate_snoc]
      exact registered.delegates fd'
    · intro fd' h found'
      change (s.handlesMap.insert fd s.allocated).lookup fd' = some h at found'
      change h < s.allocated+1 ∧ Function.update s.handles s.allocated _ h = _ ∧ _
      rw [lastAdded_snoc,Event.addedAfter]
      rw [Table.lookup_insert] at found'
      by_cases same : fd' = fd
      · subst same
        rw [if_pos rfl] at found'
        cases found'
        exact ⟨Nat.lt_succ_self _,by rw [Function.update_self,if_pos rfl]; rfl,served⟩
      · rw [if_neg same] at found'
        obtain ⟨inside,there,served'⟩ := registered.handle fd' h found'
        refine ⟨Nat.lt_succ_of_lt inside,?_,served'⟩
        rw [Function.update_of_ne (Nat.ne_of_lt inside),if_neg same,there]
    · intro fd' absent
      change (s.handlesMap.insert fd s.allocated).lookup fd' = none at absent
      rw [Table.lookup_insert] at absent
      split at absent
      · contradiction
      · next other =>
        rw [lastAdded_snoc,Event.addedAfter,if_neg other]
        exact registered.unadded fd' absent
    · intro h inside
      change (s.handlesMap.insert fd s.allocated).lookup (Function.update s.handles s.allocated _ h).fd = _
      rw [Table.lookup_insert]
      by_cases new : h = s.allocated
      · subst new
        rw [Function.update_self,if_pos rfl]
      · have before : h < s.allocated := Nat.lt_of_le_of_ne (Nat.le_of_lt_succ inside) new
        have there := registered.held h before
        rw [Function.update_of_ne new,if_neg ?_]
        · exact there
        · intro same
          rw [same,found] at there
          contradiction

theorem Registered.delFdEvent (registered : Registered past s) (fd : Int) (event : IOEvent) :
    Registered (past ++ [.delFdEvent fd event]) (s.delFdEvent fd event) := by
  cases found : s.handlesMap.lookup fd with
  | some h =>
    have restarted := registered.restart (a := .delFdEvent fd event) found
      (fun _ _ => rfl) (fun _ => rfl)
    simp only [IOTaskRunner.delFdEvent,found]
    exact restarted
  | none =>
    have idle : s.delFdEvent fd event = s := by simp only [IOTaskRunner.delFdEvent,found]
    rw [idle]
    constructor
    · intro fd'
      rw [lastDelegate_snoc]
      exact registered.delegates fd'
    · intro fd' h found'
      have other : fd' ≠ fd := by
        intro same
        rw [same,found] at found'
        contradiction
      rw [lastAdded_snoc,Event.addedAfter,if_neg other]
      exact registered.handle fd' h found'
    · intro fd' absent
      rw [lastAdded_snoc,Event.addedAfter]
      split
      · rfl
      · exact registered.unadded fd' absent
    · exact registered.held

theorem sound_start : Sound [] (start (δ := δ)) where
  registered := {
    delegates := fun _ => rfl
    handle := fun fd h found => by
      change (∅ : Table Int Nat).lookup fd = some h at found
      rw [AList.lookup_empty] at found
      contradiction
    unadded := fun _ _ => rfl
    held := fun _ inside => absurd inside (Nat.not_lt_zero _) }
  alive := Phase.noConfusion
  reading := fun _ _ phase => Phase.noConfusion phase
  due := fun _ member => absurd member List.not_mem_nil

/-- A call of the delegate of a descriptor that has one. -/
theorem callDelegate_some {fd : Int} {delegate : δ} (served : s.delegate fd = some delegate) (call : FdCall)
    (phase : Phase) : s.callDelegate fd call phase =
      { s with phase, calls := s.calls ++ [⟨delegate,fd,call⟩] } := by
  simp only [callDelegate,served]

theorem Sound.quiet (sound : Sound past s) {a : Event δ} (registered : Registered (past ++ [a]) t)
    (phase : t.phase = s.phase) (calls : t.calls = s.calls)
    (delegates : ∀ fd, (∃ delegate, s.delegate fd = some delegate) → ∃ delegate, t.delegate fd = some delegate) :
    Sound (past ++ [a]) t := by
  refine ⟨registered,by rw [phase]; exact sound.alive,?_,?_⟩
  · intro fd events reading
    rw [phase] at reading
    obtain ⟨served,reported,later,rfl,asked⟩ := sound.reading fd events reading
    exact ⟨delegates fd served,reported,later ++ [a],List.append_assoc _ _ _,asked⟩
  · intro made member
    rw [calls] at member
    exact (sound.due made member).mono a

/-- The labels that are not registrations leave the tables alone. -/
theorem Registered.quiet (registered : Registered past s) {a : Event δ}
    (neither : a = .returns ∨ ∃ handle status events, a = .onLibuvFdActive handle status events)
    (phase : Phase) (calls : List (Made δ)) : Registered (past ++ [a]) { s with phase, calls } := by
  obtain rfl | ⟨handle,status,events,rfl⟩ := neither
  · exact registered.same (fun _ _ => rfl) (fun _ _ => rfl) rfl rfl rfl rfl
  · exact registered.same (fun _ _ => rfl) (fun _ _ => rfl) rfl rfl rfl rfl

section Dispatch
variable {a : Event δ} {fd : Int} {events : UvEvents} {reported later : List (Event δ)}

theorem Sound.callDelegate (sound : Sound past s)
    (neither : a = .returns ∨ ∃ handle status events, a = .onLibuvFdActive handle status events)
    (served : ∃ delegate, s.delegate fd = some delegate) (split : past = reported ++ later)
    (asked : ∀ call : FdCall, events &&& call.uvEvent ≠ 0 → Asked reported fd call)
    (call : FdCall) (due : events &&& call.uvEvent ≠ 0) {phase : Phase}
    (next : phase = .writeable ∨ phase = .readable fd events) :
    Sound (past ++ [a]) (s.callDelegate fd call phase) := by
  obtain ⟨delegate,found⟩ := served
  rw [callDelegate_some found]
  refine ⟨sound.registered.quiet neither _ _,?_,?_,?_⟩
  · obtain rfl | rfl := next <;> exact Phase.noConfusion
  · intro fd' events' reading
    obtain rfl | rfl := next
    · exact Phase.noConfusion reading
    · cases reading
      exact ⟨⟨delegate,found⟩,reported,later ++ [a],by rw [split,List.append_assoc],asked⟩
  · intro made member
    obtain before | new := List.mem_append.mp member
    · exact (sound.due made before).mono a
    · cases List.mem_singleton.mp new
      refine ⟨reported,later,[a],by rw [split,List.append_assoc],asked call due,?_⟩
      rw [← split,← sound.registered.delegates]
      exact found

theorem Sound.testWritable (sound : Sound past s)
    (neither : a = .returns ∨ ∃ handle status events, a = .onLibuvFdActive handle status events)
    (served : ∃ delegate, s.delegate fd = some delegate) (split : past = reported ++ later)
    (asked : ∀ call : FdCall, events &&& call.uvEvent ≠ 0 → Asked reported fd call) :
    Sound (past ++ [a]) (s.testWritable fd events) := by
  rw [IOTaskRunner.testWritable]
  split
  · next writable =>
    exact sound.callDelegate neither served split asked .onFdWriteable writable (.inl rfl)
  · refine ⟨sound.registered.quiet neither _ _,Phase.noConfusion,fun _ _ reading => Phase.noConfusion reading,?_⟩
    intro made member
    exact (sound.due made member).mono a

theorem Sound.active (sound : Sound past s) {handle : Nat} {status : Int}
    (allowed : s.Allowed (.onLibuvFdActive handle status events)) :
    Sound (past ++ [.onLibuvFdActive handle status events]) (s.onLibuvFdActive handle status events) := by
  obtain ⟨inside,watched⟩ := allowed
  obtain ⟨_,here,served⟩ := sound.registered.handle _ _ (sound.registered.held handle inside)
  rw [IOTaskRunner.onLibuvFdActive]
  split
  · exact sound.quiet (sound.registered.quiet (.inr ⟨_,_,_,rfl⟩) _ _) rfl rfl (fun _ found => found)
  · next reported =>
    have given := watched (Int.not_lt.mp reported)
    rw [here] at given
    have asked (call : FdCall) (present : events &&& call.uvEvent ≠ 0) :
        Asked past (s.handles handle).fd call := asked_of_reported given present
    have split : past = past ++ [] := (List.append_nil past).symm
    split
    · next readable =>
      exact sound.callDelegate (.inr ⟨_,_,_,rfl⟩) served split asked .onFdReadable readable (.inr rfl)
    · exact sound.testWritable (.inr ⟨_,_,_,rfl⟩) served split asked

theorem Sound.step (sound : Sound past s) (allowed : s.Allowed a) (ran : s.step a = some t) :
    Sound (past ++ [a]) t := by
  cases a with
  | setDelegate fd delegate =>
    cases ran
    refine sound.quiet (sound.registered.setDelegate fd delegate) rfl rfl ?_
    intro fd' found
    change ∃ d, (s.delegateMap.insert fd delegate).lookup fd' = some d
    rw [Table.lookup_insert]
    split
    · exact ⟨delegate,rfl⟩
    · exact found
  | addFdEvent fd event =>
    cases ran
    have same : (s.addFdEvent fd event).phase = s.phase ∧ (s.addFdEvent fd event).calls = s.calls ∧
        (s.addFdEvent fd event).delegateMap = s.delegateMap := by
      rw [IOTaskRunner.addFdEvent]
      split <;> exact ⟨rfl,rfl,rfl⟩
    refine sound.quiet (sound.registered.addFdEvent event allowed) same.1 same.2.1 ?_
    intro fd' found
    rw [delegate,same.2.2]
    exact found
  | delFdEvent fd event =>
    cases ran
    have same : (s.delFdEvent fd event).phase = s.phase ∧ (s.delFdEvent fd event).calls = s.calls ∧
        (s.delFdEvent fd event).delegateMap = s.delegateMap := by
      rw [IOTaskRunner.delFdEvent]
      split <;> exact ⟨rfl,rfl,rfl⟩
    refine sound.quiet (sound.registered.delFdEvent fd event) same.1 same.2.1 ?_
    intro fd' found
    rw [delegate,same.2.2]
    exact found
  | onLibuvFdActive handle status events =>
    rw [IOTaskRunner.step] at ran
    split at ran
    · cases ran
      exact sound.active allowed
    · contradiction
  | returns =>
    rw [IOTaskRunner.step] at ran
    split at ran
    · next fd events phase =>
      cases ran
      obtain ⟨served,reported,later,split,asked⟩ := sound.reading fd events phase
      exact sound.testWritable (.inl rfl) served split asked
    · cases ran
      refine ⟨sound.registered.quiet (.inl rfl) _ _,Phase.noConfusion,fun _ _ reading => Phase.noConfusion reading,?_⟩
      intro made member
      exact (sound.due made member).mono _
    · contradiction

end Dispatch

/-- In every run the delegate pointer is there when it is used, every call was due, and a
descriptor has one poll handle. -/
theorem run_routes (labels : List (Event δ)) (t : IOTaskRunner δ) (path : Path step Allowed start labels t) :
    t.phase ≠ .nullDeref ∧ (∀ made ∈ t.calls, Due labels made) ∧
      ∀ h < t.allocated, ∀ h' < t.allocated, (t.handles h).fd = (t.handles h').fd → h = h' := by
  have sound : Sound labels t := path.history (fun sound allowed ran => sound.step allowed ran) sound_start
  refine ⟨sound.alive,sound.due,?_⟩
  intro h inside h' inside' same
  have found := sound.registered.held h inside
  rw [same,sound.registered.held h' inside'] at found
  exact (Option.some.inj found).symm

/-- A channel is replaced by another on its descriptor while it reads: the writable event of
the same report goes to the new one. -/
theorem run_routes_replaced : ∃ t : IOTaskRunner Nat, t.calls = [⟨1,9,.onFdReadable⟩,⟨2,9,.onFdWriteable⟩] ∧
    t.phase ≠ .nullDeref ∧ (∀ made ∈ t.calls, Due [.setDelegate 9 1,.addFdEvent 9 kReadWritable,
      .onLibuvFdActive 0 0 3,.setDelegate 9 2,.delFdEvent 9 kReadWritable,.returns] made) ∧
      ∀ h < t.allocated, ∀ h' < t.allocated, (t.handles h).fd = (t.handles h').fd → h = h' := by
  refine ⟨_,?_,run_routes _ _ (.cons trivial rfl (.cons ⟨1,rfl⟩ rfl (.cons ⟨?_,?_⟩ rfl (.cons trivial rfl
    (.cons trivial rfl (.cons trivial rfl (.nil _)))))))⟩
  · rfl
  · decide
  · intro _
    rfl

end Invariant

end IOTaskRunner

end MojoImpl
