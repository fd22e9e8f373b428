import MojoImpl.Channel.Outgoing
import MojoImpl.Foundation.Attempts

/-! The loops of sock_ops.cc over a memory of bytes: the pointer `s`, the count `remain` and
what the socket has handed over or taken. -/
namespace MojoImpl.sock
open Foundation MojoImpl.ChannelPosix

section Memory

/-- `memory` with `bytes` written from `a` on. -/
def stored (memory : Nat → UInt8) (a : Nat) (bytes : List UInt8) : Nat → UInt8 :=
  fun b => if a ≤ b then bytes.getD (b-a) (memory b) else memory b

/-- The `n` bytes of `memory` from `a` on. -/
def loaded (memory : Nat → UInt8) (a n : Nat) : List UInt8 := (List.range n).map fun i => memory (a+i)

variable (memory : Nat → UInt8)

theorem stored_nil (a : Nat) : stored memory a [] = memory := by
  funext b
  simp [stored]

theorem stored_append (a : Nat) (first second : List UInt8) :
    stored (stored memory a first) (a+first.length) second = stored memory a (first++second) := by
  funext b
  simp only [stored,List.getD_eq_getElem?_getD]
  by_cases below : a ≤ b
  · by_cases inside : b-a < first.length
    · have before : ¬a+first.length ≤ b := by omega
      simp only [below,before,if_true,if_false,List.getElem?_append_left inside]
    · have past : a+first.length ≤ b := by omega
      have gone : first[b-a]? = none := List.getElem?_eq_none (by omega)
      have offset : b-(a+first.length) = b-a-first.length := by omega
      simp only [below,past,if_true,gone,Option.getD_none,offset,List.getElem?_append_right (Nat.not_lt.mp inside)]
  · have before : ¬a+first.length ≤ b := by omega
    simp only [below,before,if_false]

theorem stored_inside {a i : Nat} {bytes : List UInt8} (inside : i < bytes.length) :
    bytes[i]? = some (stored memory a bytes (a+i)) := by
  have offset : a+i-a = i := by omega
  simp only [stored,Nat.le_add_right,if_true,offset,List.getD_eq_getElem?_getD,List.getElem?_eq_getElem inside,
    Option.getD_some]

theorem stored_outside {a b : Nat} {bytes : List UInt8} (outside : b < a ∨ a+bytes.length ≤ b) :
    stored memory a bytes b = memory b := by
  unfold stored
  split
  · have gone : bytes[b-a]? = none := List.getElem?_eq_none (by omega)
    rw [List.getD_eq_getElem?_getD,gone]
    rfl
  · rfl

@[simp] theorem loaded_length (a n : Nat) : (loaded memory a n).length = n := by simp [loaded]

theorem loaded_append (a m n : Nat) : loaded memory a m ++ loaded memory (a+m) n = loaded memory a (m+n) := by
  simp only [loaded,List.range_add,List.map_append,List.map_map,Function.comp_def,Nat.add_assoc]

theorem loaded_take {a m n : Nat} (short : m ≤ n) : (loaded memory a n).take m = loaded memory a m := by
  obtain ⟨k,rfl⟩ := Nat.exists_eq_add_of_le short
  rw [← loaded_append]
  exact List.take_left' (loaded_length ..)

theorem loaded_drop {a m n : Nat} (short : m ≤ n) : (loaded memory a n).drop m = loaded memory (a+m) (n-m) := by
  obtain ⟨k,rfl⟩ := Nat.exists_eq_add_of_le short
  rw [← loaded_append,Nat.add_sub_cancel_left]
  exact List.drop_left' (loaded_length ..)

end Memory

section Recvn

/-- `consumed` counts the bytes of the stream that `recv` has handed over. -/
structure Receiving where
  memory : Nat → UInt8
  s : Nat
  remain : Int
  consumed : Nat

/-- One `recv(fd, s, remain, 0)`. -/
def recv (stream : List UInt8) (t : Receiving) : RecvResult → Int × Receiving
  | .data k =>
    let bytes := (stream.drop t.consumed).take (min (max k 1) t.remain.toNat)
    (bytes.length,{ t with memory := stored t.memory t.s bytes, consumed := t.consumed + bytes.length })
  | .endOfStream => (0,t)
  | .interrupted | .wouldBlock | .failed => (-1,t)

/-- The body of the loop, with what it returns. -/
def recvnRound (stream : List UInt8) (n : Int) (result : RecvResult) (t : Receiving) : Option Int × Receiving :=
  let (r,t) := recv stream t result
  if r = t.remain then (some n,t)
  else if r = 0 then (some 0,t)
  else if r = -1 then
    if result = .interrupted then (none,t) else (some (-1),t)
  else (none,{ t with remain := t.remain - r, s := t.s + r.toNat })

/-- `Recvn(fd, buf, n)` against the results of its calls to `recv`. -/
def recvnCall (stream : List UInt8) (results : List RecvResult) (memory : Nat → UInt8) (buf : Nat) (n : Int) :
    Option Int × Receiving × List RecvResult :=
  attempts (recvnRound stream n) results ⟨memory,buf,n,0⟩

/-- What is consumed of the stream lies in the memory from `buf` on, and nothing else is new. -/
def Copied (stream : List UInt8) (memory : Nat → UInt8) (buf : Nat) (t : Receiving) : Prop :=
  t.consumed ≤ stream.length ∧ t.memory = stored memory buf (stream.take t.consumed)

/-- Between two calls `s` and `remain` are at the end of what is consumed, and some byte is left. -/
structure Going (stream : List UInt8) (memory : Nat → UInt8) (buf n : Nat) (t : Receiving) : Prop where
  copied : Copied stream memory buf t
  short : t.consumed < n
  s : t.s = buf + t.consumed
  remain : t.remain = ((n - t.consumed : Nat) : Int)

variable {stream : List UInt8} {memory : Nat → UInt8} {buf n : Nat} {t u : Receiving}

theorem take_more (stream : List UInt8) (consumed m : Nat) :
    stream.take consumed ++ (stream.drop consumed).take m =
      stream.take (consumed + ((stream.drop consumed).take m).length) := by
  have again : (stream.drop consumed).take ((stream.drop consumed).take m).length = (stream.drop consumed).take m := by
    rw [List.take_eq_take_iff,List.length_take]
    omega
  rw [List.take_add,again]

/-- A call that hands over `r` bytes copies the next `r` of the stream. All of the rest and the
loop returns `n`, none and it returns zero, and otherwise it goes on behind them. -/
theorem Going.data (going : Going stream memory buf n t) (k : Nat) :
    ∃ (r : Nat) (after : Nat → UInt8), Copied stream memory buf { t with memory := after, consumed := t.consumed + r } ∧
      ((stream.drop t.consumed).take (min (max k 1) (n - t.consumed)) = (stream.drop t.consumed).take r ∧
        ((stream.drop t.consumed).take r).length = r) ∧
      (r = n - t.consumed ∧ recvnRound stream n (.data k) t =
          (some (n : Int),{ t with memory := after, consumed := t.consumed + r }) ∨
        r = 0 ∧ 0 ≠ n - t.consumed ∧ recvnRound stream n (.data k) t =
          (some 0,{ t with memory := after, consumed := t.consumed + r }) ∨
        0 < r ∧ r < n - t.consumed ∧ recvnRound stream n (.data k) t =
          (none,⟨after,t.s + r,t.remain - r,t.consumed + r⟩)) := by
  have asked : t.remain.toNat = n - t.consumed := by rw [going.remain,Int.toNat_natCast]
  have room := going.copied.1
  have left : t.remain = ((n - t.consumed : Nat) : Int) := going.remain
  have short := going.short
  obtain ⟨r,counted⟩ : ∃ r, r = ((stream.drop t.consumed).take (min (max k 1) (n - t.consumed))).length := ⟨_,rfl⟩
  have sized : r = min (min (max k 1) (n - t.consumed)) (stream.length - t.consumed) := by
    rw [counted,List.length_take,List.length_drop]
  have received : recv stream t (.data k) = ((r : Int),{ t with
      memory := stored t.memory t.s ((stream.drop t.consumed).take (min (max k 1) (n - t.consumed)))
      consumed := t.consumed + r }) := by
    rw [counted,← asked]
    rfl
  refine ⟨r,stored t.memory t.s ((stream.drop t.consumed).take (min (max k 1) (n - t.consumed))),
    ⟨?_,?_⟩,⟨?_,?_⟩,?_⟩
  · dsimp only
    omega
  · have before : (stream.take t.consumed).length = t.consumed := by
      rw [List.length_take]
      omega
    have end_of_copy : t.s = buf + (stream.take t.consumed).length := by rw [before,going.s]
    dsimp only
    rw [going.copied.2,end_of_copy,stored_append,take_more,← counted]
  · rw [List.take_eq_take_iff,List.length_drop]
    omega
  · rw [List.length_take,List.length_drop]
    omega
  · simp only [recvnRound,received]
    by_cases whole : (r : Int) = t.remain
    · exact .inl ⟨by omega,by rw [if_pos whole]⟩
    · by_cases ended : (r : Int) = 0
      · exact .inr (.inl ⟨by omega,by omega,by rw [if_neg whole,if_pos ended]⟩)
      · have real : ¬(r : Int) = -1 := by omega
        exact .inr (.inr ⟨by omega,by omega,by rw [if_neg whole,if_neg ended,if_neg real,Int.toNat_natCast]⟩)

theorem Going.rest (going : Going stream memory buf n t) {r : Nat} {after : Nat → UInt8}
    (copied : Copied stream memory buf { t with memory := after, consumed := t.consumed + r })
    (part : r < n - t.consumed) : Going stream memory buf n ⟨after,t.s + r,t.remain - r,t.consumed + r⟩ := by
  have left : t.remain = ((n - t.consumed : Nat) : Int) := going.remain
  refine ⟨copied,show t.consumed + r < n by omega,?_,?_⟩
  · dsimp only
    rw [going.s,Nat.add_assoc]
  · dsimp only
    omega

/-- The results without data: one is made again, the others return. -/
theorem Going.without (going : Going stream memory buf n t) :
    recvnRound stream n .interrupted t = (none,t) ∧ recvnRound stream n .wouldBlock t = (some (-1),t) ∧
      recvnRound stream n .failed t = (some (-1),t) ∧ recvnRound stream n .endOfStream t = (some 0,t) := by
  have short := going.short
  have left : t.remain = ((n - t.consumed : Nat) : Int) := going.remain
  have error : ¬(-1 : Int) = t.remain := by omega
  have zero : ¬(0 : Int) = t.remain := by omega
  refine ⟨?_,?_,?_,?_⟩
  · simp only [recvnRound,recv,error,if_false]
    rfl
  · simp only [recvnRound,recv,error,if_false]
    rfl
  · simp only [recvnRound,recv,error,if_false]
    rfl
  · simp only [recvnRound,recv,zero,if_false]
    rfl

theorem Going.round (going : Going stream memory buf n t) (result : RecvResult) :
    (∀ u, recvnRound stream n result t = (none,u) → Going stream memory buf n u) ∧
      (∀ ret u, recvnRound stream n result t = (some ret,u) → Copied stream memory buf u ∧
        (ret = n ∧ u.consumed = n ∨ ret < 1 ∧ u.consumed < n)) := by
  have short := going.short
  obtain ⟨interrupted,wouldBlock,failed,endOfStream⟩ := going.without
  cases result with
  | data k =>
    obtain ⟨r,after,copied,-,⟨whole,ran⟩ | ⟨ended,-,ran⟩ | ⟨-,part,ran⟩⟩ := going.data k
    · rw [ran]
      refine ⟨nofun,fun ret u returns => ?_⟩
      cases returns
      exact ⟨copied,.inl ⟨rfl,show t.consumed + r = n by omega⟩⟩
    · rw [ran]
      refine ⟨nofun,fun ret u returns => ?_⟩
      cases returns
      exact ⟨copied,.inr ⟨by decide,show t.consumed + r < n by omega⟩⟩
    · rw [ran]
      refine ⟨fun u goes => ?_,nofun⟩
      cases goes
      exact going.rest copied part
  | interrupted =>
    rw [interrupted]
    refine ⟨fun u goes => ?_,nofun⟩
    cases goes
    exact going
  | wouldBlock =>
    rw [wouldBlock]
    refine ⟨nofun,fun ret u returns => ?_⟩
    cases returns
    exact ⟨going.copied,.inr ⟨by decide,short⟩⟩
  | failed =>
    rw [failed]
    refine ⟨nofun,fun ret u returns => ?_⟩
    cases returns
    exact ⟨going.copied,.inr ⟨by decide,short⟩⟩
  | endOfStream =>
    rw [endOfStream]
    refine ⟨nofun,fun ret u returns => ?_⟩
    cases returns
    exact ⟨going.copied,.inr ⟨by decide,short⟩⟩

theorem going_start (stream : List UInt8) (memory : Nat → UInt8) (buf : Nat) (some_byte : 1 ≤ n) :
    Going stream memory buf n ⟨memory,buf,n,0⟩ :=
  ⟨⟨Nat.zero_le _,(stored_nil ..).symm⟩,some_byte,rfl,rfl⟩

theorem recvnCall_copied (stream : List UInt8) (memory : Nat → UInt8) (buf : Nat) (results : List RecvResult) (some_byte : 1 ≤ n) :
    Copied stream memory buf (recvnCall stream results memory buf n).2.1 ∧
      ((recvnCall stream results memory buf n).1 = some (n : Int) ∧
          (recvnCall stream results memory buf n).2.1.consumed = n ∨
        (recvnCall stream results memory buf n).1 ≠ some (n : Int) ∧
          (recvnCall stream results memory buf n).2.1.consumed < n) := by
  have rule := attempts_rule (fun r s t inv ran => (Going.round inv r).1 t ran)
    (fun r s a t inv ran => (Going.round inv r).2 a t ran) results (going_start stream memory buf some_byte)
  rw [recvnCall]
  rcases ran : attempts (recvnRound stream n) results ⟨memory,buf,n,0⟩ with ⟨_ | ret,t,rest⟩
  · rw [ran] at rule
    exact ⟨rule.copied,.inr ⟨nofun,rule.short⟩⟩
  · rw [ran] at rule
    refine ⟨rule.1,rule.2.imp (fun full => ⟨congrArg some full.1,full.2⟩) fun part => ⟨fun same => ?_,part.2⟩⟩
    have same := Option.some.inj same
    omega

/-- Once it returns, the loop is the one over lists. -/
theorem Going.recvnLoop (going : Going stream memory buf n t) {results rest : List RecvResult} {ret : Int}
    (ran : attempts (recvnRound stream n) results t = (some ret,u,rest)) :
    t.consumed ≤ u.consumed ∧ ∃ incoming, sock.recvnLoop n results (stream.drop t.consumed) (n - t.consumed) =
      ⟨(stream.drop t.consumed).take (u.consumed - t.consumed),ret,incoming,rest⟩ := by
  induction results generalizing t with
  | nil => cases ran
  | cons result results ih =>
    have short := going.short
    obtain ⟨interrupted,wouldBlock,failed,endOfStream⟩ := going.without
    cases result with
    | data k =>
      obtain ⟨r,after,copied,⟨taken,sized⟩,⟨whole,round⟩ | ⟨ended,part,round⟩ | ⟨some_byte,part,round⟩⟩ := going.data k
      · rw [attempts_returned round] at ran
        cases ran
        refine ⟨Nat.le_add_right ..,(stream.drop t.consumed).drop r,?_⟩
        simp only [sock.recvnLoop,taken,sized,Nat.add_sub_cancel_left]
        rw [if_pos whole]
      · rw [attempts_returned round] at ran
        cases ran
        subst ended
        refine ⟨Nat.le_add_right ..,stream.drop t.consumed,?_⟩
        simp only [sock.recvnLoop,taken,List.take_zero,List.length_nil,Nat.add_zero,Nat.sub_self,if_true]
        rw [if_neg part]
      · rw [attempts_again round] at ran
        obtain ⟨more,incoming,looped⟩ := ih (going.rest copied part) ran
        dsimp only at more looped
        have parts : u.consumed - t.consumed = r + (u.consumed - (t.consumed + r)) := by omega
        refine ⟨by omega,incoming,?_⟩
        rw [parts,List.take_add]
        simp only [sock.recvnLoop,taken,sized,List.drop_drop,Nat.sub_sub,looped]
        rw [if_neg (Nat.ne_of_lt part),if_neg (Nat.ne_of_gt some_byte)]
    | interrupted =>
      rw [attempts_again interrupted] at ran
      exact ih going ran
    | wouldBlock =>
      rw [attempts_returned wouldBlock] at ran
      cases ran
      refine ⟨Nat.le_refl _,stream.drop u.consumed,?_⟩
      simp only [sock.recvnLoop,Nat.sub_self,List.take_zero]
    | failed =>
      rw [attempts_returned failed] at ran
      cases ran
      refine ⟨Nat.le_refl _,stream.drop u.consumed,?_⟩
      simp only [sock.recvnLoop,Nat.sub_self,List.take_zero]
    | endOfStream =>
      rw [attempts_returned endOfStream] at ran
      cases ran
      have part : ¬n - u.consumed = 0 := by omega
      refine ⟨Nat.le_refl _,[],?_⟩
      simp only [sock.recvnLoop,part,if_false,Nat.sub_self,List.take_zero]

theorem recvn_recvnCall {results rest : List RecvResult} {ret : Int} (some_byte : 1 ≤ n)
    (ran : recvnCall stream results memory buf n = (some ret,u,rest)) :
    ∃ incoming, recvn results stream n = ⟨stream.take u.consumed,ret,incoming,rest⟩ :=
  ((going_start stream memory buf some_byte).recvnLoop ran).2

end Recvn

section Send

/-- `accepted` is what the socket has taken. -/
structure Sending where
  s : Nat
  remain : Int
  accepted : List UInt8

/-- One `send(fd, s, remain, 0)`. -/
def send (memory : Nat → UInt8) (t : Sending) : SendResult → Int × Sending
  | .accepted k =>
    let r := min k t.remain.toNat
    (r,{ t with accepted := t.accepted ++ loaded memory t.s r })
  | .interrupted | .wouldBlock | .failed => (-1,t)

def sendRound (memory : Nat → UInt8) (n : Int) (result : SendResult) (t : Sending) : Option Int × Sending :=
  let (r,t) := send memory t result
  if r = t.remain then (some n,t)
  else if r = -1 then
    if result = .interrupted then (none,t) else (some (-1),t)
  else (none,{ t with remain := t.remain - r, s := t.s + r.toNat })

/-- `Send(fd, buf, n)` against the results of its calls to `send`. -/
def sendCall (memory : Nat → UInt8) (results : List SendResult) (buf : Nat) (n : Int) :
    Option Int × Sending × List SendResult :=
  attempts (sendRound memory n) results ⟨buf,n,[]⟩

/-- Between two calls `s` and `remain` are at the end of what is accepted, and some byte is left. -/
structure Pending (memory : Nat → UInt8) (buf n : Nat) (t : Sending) : Prop where
  accepted : t.accepted = loaded memory buf t.accepted.length
  short : t.accepted.length < n
  s : t.s = buf + t.accepted.length
  remain : t.remain = ((n - t.accepted.length : Nat) : Int)

variable {memory : Nat → UInt8} {buf n : Nat} {t : Sending}

/-- All of the rest and the loop returns `n`, otherwise it goes on behind what was taken. -/
theorem sendRound_accepted (memory : Nat → UInt8) (n k : Nat) {remain : Nat} (left : t.remain = remain) :
    (remain ≤ k ∧ sendRound memory n (.accepted k) t =
      (some (n : Int),{ t with accepted := t.accepted ++ loaded memory t.s remain })) ∨
    (k < remain ∧ sendRound memory n (.accepted k) t =
      (none,⟨t.s + k,((remain - k : Nat) : Int),t.accepted ++ loaded memory t.s k⟩)) := by
  rcases Nat.lt_or_ge k remain with part | whole
  · have taken : min k remain = k := Nat.min_eq_left (Nat.le_of_lt part)
    have other : ¬(k : Int) = (remain : Int) := by omega
    have real : ¬(k : Int) = -1 := by omega
    have rest : (remain : Int) - k = ((remain - k : Nat) : Int) := by omega
    refine .inr ⟨part,?_⟩
    simp only [sendRound,send,left,Int.toNat_natCast,taken,other,real,if_false,rest]
  · have taken : min k remain = remain := Nat.min_eq_right whole
    refine .inl ⟨whole,?_⟩
    simp only [sendRound,send,left,Int.toNat_natCast,taken,if_true]

theorem sendRound_without (memory : Nat → UInt8) (n : Nat) {remain : Nat} (left : t.remain = remain) :
    sendRound memory n .interrupted t = (none,t) ∧ sendRound memory n .wouldBlock t = (some (-1),t) ∧
      sendRound memory n .failed t = (some (-1),t) := by
  have error : ¬(-1 : Int) = t.remain := by omega
  refine ⟨?_,?_,?_⟩
  · simp only [sendRound,send,error,if_false]
    rfl
  · simp only [sendRound,send,error,if_false]
    rfl
  · simp only [sendRound,send,error,if_false]
    rfl

theorem Pending.more (pending : Pending memory buf n t) {r : Nat} :
    (t.accepted ++ loaded memory t.s r).length = t.accepted.length + r ∧
      t.accepted ++ loaded memory t.s r = loaded memory buf (t.accepted.length + r) := by
  constructor
  · rw [List.length_append,loaded_length]
  · rw [← loaded_append,← pending.accepted,pending.s]

theorem Pending.round (pending : Pending memory buf n t) (result : SendResult) :
    (∀ u, sendRound memory n result t = (none,u) → Pending memory buf n u) ∧
      (∀ ret u, sendRound memory n result t = (some ret,u) → u.accepted = loaded memory buf u.accepted.length ∧
        (ret = n ∧ u.accepted.length = n ∨ ret < 1 ∧ u.accepted.length < n)) := by
  have short := pending.short
  obtain ⟨interrupted,wouldBlock,failed⟩ := sendRound_without memory n pending.remain
  cases result with
  | accepted k =>
    rcases sendRound_accepted memory n k pending.remain with ⟨whole,ran⟩ | ⟨part,ran⟩
    · obtain ⟨sized,whole⟩ := pending.more (r := n - t.accepted.length)
      rw [ran]
      refine ⟨nofun,fun ret u returns => ?_⟩
      cases returns
      refine ⟨by rw [sized]; exact whole,.inl ⟨rfl,?_⟩⟩
      rw [sized]
      omega
    · obtain ⟨sized,more⟩ := pending.more (r := k)
      rw [ran]
      refine ⟨fun u goes => ?_,nofun⟩
      cases goes
      refine ⟨by rw [sized]; exact more,by rw [sized]; omega,?_,?_⟩
      · rw [sized]
        dsimp only
        rw [pending.s,Nat.add_assoc]
      · rw [sized,Nat.sub_sub]
  | interrupted =>
    rw [interrupted]
    refine ⟨fun u goes => ?_,nofun⟩
    cases goes
    exact pending
  | wouldBlock =>
    rw [wouldBlock]
    refine ⟨nofun,fun ret u returns => ?_⟩
    cases returns
    exact ⟨pending.accepted,.inr ⟨by decide,short⟩⟩
  | failed =>
    rw [failed]
    refine ⟨nofun,fun ret u returns => ?_⟩
    cases returns
    exact ⟨pending.accepted,.inr ⟨by decide,short⟩⟩

theorem sendCall_accepted (memory : Nat → UInt8) (buf : Nat) (results : List SendResult) (some_byte : 1 ≤ n) :
    (sendCall memory results buf n).2.1.accepted =
        loaded memory buf (sendCall memory results buf n).2.1.accepted.length ∧
      ((sendCall memory results buf n).1 = some (n : Int) ∧
          (sendCall memory results buf n).2.1.accepted.length = n ∨
        (sendCall memory results buf n).1 ≠ some (n : Int) ∧
          (sendCall memory results buf n).2.1.accepted.length < n) := by
  have start : Pending memory buf n ⟨buf,n,[]⟩ := ⟨rfl,some_byte,rfl,rfl⟩
  have rule := attempts_rule (fun r s t inv ran => (Pending.round inv r).1 t ran)
    (fun r s a t inv ran => (Pending.round inv r).2 a t ran) results start
  rw [sendCall]
  rcases ran : attempts (sendRound memory n) results ⟨buf,n,[]⟩ with ⟨_ | ret,t,rest⟩
  · rw [ran] at rule
    exact ⟨rule.accepted,.inr ⟨nofun,rule.short⟩⟩
  · rw [ran] at rule
    refine ⟨rule.1,rule.2.imp (fun full => ⟨congrArg some full.1,full.2⟩) fun part => ⟨fun same => ?_,part.2⟩⟩
    have same := Option.some.inj same
    omega

/-- A writer in `Send` whose memory from `t.s` on holds what remains, after `before` was taken. -/
def inSend (memory : Nat → UInt8) (before : List UInt8) (taken : List Protocol) (w : Writer) (t : Sending) : Writer :=
  { w with phase := .sending (loaded memory t.s t.remain.toNat) taken, accepted := before ++ t.accepted }

def afterSend (before : List UInt8) (taken : List Protocol) (w : Writer) (t : Sending) : Writer :=
  { w with phase := .draining taken, accepted := before ++ t.accepted }

/-- The writer's step is one round of the loop. -/
theorem Pending.writer_send (pending : Pending memory buf n t) (before : List UInt8) (taken : List Protocol)
    (w : Writer) (heap : Nat → Nat → UInt8) (result : SendResult) :
    (∀ u, sendRound memory n result t = (none,u) →
      (inSend memory before taken w t).step heap (.send result) = some (inSend memory before taken w u)) ∧
    (∀ ret u, sendRound memory n result t = (some ret,u) →
      (inSend memory before taken w t).step heap (.send result) = some (afterSend before taken w u)) := by
  have short := pending.short
  obtain ⟨interrupted,wouldBlock,failed⟩ := sendRound_without memory n pending.remain
  have asked : t.remain.toNat = n - t.accepted.length := by rw [pending.remain,Int.toNat_natCast]
  cases result with
  | accepted k =>
    rcases sendRound_accepted memory n k pending.remain with ⟨whole,ran⟩ | ⟨part,ran⟩
    · rw [ran]
      refine ⟨fun u goes => (by cases goes),fun ret u returns => ?_⟩
      cases returns
      have all : (loaded memory t.s (n - t.accepted.length)).take k = loaded memory t.s (n - t.accepted.length) :=
        List.take_of_length_le (by rw [loaded_length]; exact whole)
      simp only [inSend,afterSend,Writer.step,Writer.send,asked,all,if_true,List.append_assoc]
    · rw [ran]
      refine ⟨fun u goes => ?_,fun ret u returns => (by cases returns)⟩
      cases goes
      have some_left : ¬k = n - t.accepted.length := Nat.ne_of_lt part
      simp only [inSend,Writer.step,Writer.send,asked,loaded_take memory (Nat.le_of_lt part),
        loaded_drop memory (Nat.le_of_lt part),loaded_length,some_left,if_false,Int.toNat_natCast,List.append_assoc]
  | interrupted =>
    rw [interrupted]
    refine ⟨fun u goes => ?_,fun ret u returns => (by cases returns)⟩
    cases goes
    rfl
  | wouldBlock =>
    rw [wouldBlock]
    refine ⟨fun u goes => (by cases goes),fun ret u returns => ?_⟩
    cases returns
    rfl
  | failed =>
    rw [failed]
    refine ⟨fun u goes => (by cases goes),fun ret u returns => ?_⟩
    cases returns
    rfl

/-- The `send` steps of a writer up to the return of `Send` are the rounds of the loop. -/
theorem Pending.writer_sends (pending : Pending memory buf n t) (before : List UInt8) (taken : List Protocol)
    (w : Writer) (heap : Nat → Nat → UInt8) (results : List SendResult) :
    ∃ used, results = used ++ (attempts (sendRound memory n) results t).2.2 ∧
      (used.map WriteEvent.send).foldlM (Writer.step heap) (inSend memory before taken w t) = some
        (match attempts (sendRound memory n) results t with
        | (none,u,_) => inSend memory before taken w u
        | (some _,u,_) => afterSend before taken w u) := by
  induction results generalizing t with
  | nil => exact ⟨[],rfl,rfl⟩
  | cons result results ih =>
    rcases round : sendRound memory n result t with ⟨_ | ret,u⟩
    · obtain ⟨used,split,ran⟩ := ih ((pending.round result).1 u round)
      refine ⟨result::used,?_,?_⟩
      · rw [attempts_again round,List.cons_append,← split]
      · rw [attempts_again round,List.map_cons,List.foldlM_cons,(pending.writer_send before taken w heap result).1 u round]
        exact ran
    · refine ⟨[result],?_,?_⟩
      · rw [attempts_returned round]
        rfl
      · rw [attempts_returned round,List.map_cons,List.foldlM_cons,
          (pending.writer_send before taken w heap result).2 ret u round]
        rfl

end Send

section Exact

/-- Each loop that returns `n` has moved exactly the next `n` bytes in order, and one that has
not, or is still running, a strict prefix of them. -/
theorem transfers_exact (n : Nat) (some_byte : 1 ≤ n) :
    (∀ stream results memory buf, match recvnCall stream results memory buf n with
      | (ret,t,_) => (∀ i < t.consumed, stream[i]? = some (t.memory (buf+i))) ∧
        (∀ a, a < buf ∨ buf + t.consumed ≤ a → t.memory a = memory a) ∧
        (ret = some (n : Int) → t.consumed = n) ∧ (ret ≠ some (n : Int) → t.consumed < n)) ∧
    (∀ results memory buf, match sendCall memory results buf n with
      | (ret,t,_) => t.accepted = loaded memory buf t.accepted.length ∧
        (ret = some (n : Int) → t.accepted.length = n) ∧ (ret ≠ some (n : Int) → t.accepted.length < n)) := by
  constructor
  · intro stream results memory buf
    obtain ⟨⟨room,copied⟩,counts⟩ := recvnCall_copied stream memory buf results some_byte
    rcases ran : recvnCall stream results memory buf n with ⟨ret,t,rest⟩
    rw [ran] at room copied counts
    dsimp only at room copied counts ⊢
    have sized : (stream.take t.consumed).length = t.consumed := by
      rw [List.length_take]
      omega
    refine ⟨fun i inside => ?_,fun a outside => ?_,fun full => ?_,fun part => ?_⟩
    · rw [copied,← stored_inside memory (by omega),List.getElem?_take_of_lt inside]
    · rw [copied]
      exact stored_outside memory (by omega)
    · exact (counts.resolve_right fun other => other.1 full).2
    · exact (counts.resolve_left fun other => part other.1).2
  · intro results memory buf
    obtain ⟨accepted,counts⟩ := sendCall_accepted memory buf results some_byte
    rcases ran : sendCall memory results buf n with ⟨ret,t,rest⟩
    rw [ran] at accepted counts
    exact ⟨accepted,fun full => (counts.resolve_right fun other => other.1 full).2,
      fun part => (counts.resolve_left fun other => part other.1).2⟩

/-- A read and a send of three bytes over a short transfer and an interrupted call. -/
theorem transfers_exact_three :
    (recvnCall [7,8,9,10] [.data 2,.interrupted,.data 5] (fun _ => 0) 4 3).1 = some 3 ∧
      (match recvnCall [7,8,9,10] [.data 2,.interrupted,.data 5] (fun _ => 0) 4 (3 : Nat) with
      | (ret,t,_) => (∀ i < t.consumed, [7,8,9,10][i]? = some (t.memory (4+i))) ∧
        (∀ a, a < 4 ∨ 4 + t.consumed ≤ a → t.memory a = 0) ∧
        (ret = some ((3 : Nat) : Int) → t.consumed = 3) ∧ (ret ≠ some ((3 : Nat) : Int) → t.consumed < 3)) ∧
      (sendCall UInt8.ofNat [.accepted 1,.interrupted,.accepted 2] 4 3).1 = some 3 ∧
      (match sendCall UInt8.ofNat [.accepted 1,.interrupted,.accepted 2] 4 (3 : Nat) with
      | (ret,t,_) => t.accepted = loaded UInt8.ofNat 4 t.accepted.length ∧
        (ret = some ((3 : Nat) : Int) → t.accepted.length = 3) ∧
        (ret ≠ some ((3 : Nat) : Int) → t.accepted.length < 3)) := by
  obtain ⟨reads,sends⟩ := transfers_exact 3 (by decide)
  exact ⟨by decide,reads [7,8,9,10] [.data 2,.interrupted,.data 5] (fun _ => 0) 4,by decide,
    sends [.accepted 1,.interrupted,.accepted 2] UInt8.ofNat 4⟩

end Exact

end MojoImpl.sock
