import Swip.Library.Delta

/-! The timeout list of `timeouts.c`. A `struct sys_timeo` is its `time` and what stands for
its handler with the argument. The list is walked through `next`, so that it is a list here;
its elements are those taken from `MEMP_SYS_TIMEOUT`, and `none` is the failed assertion
when that pool is empty. Times are `u32_t`. -/
namespace Swip.Core
open Library.Delta

def mempNumSysTimeout : Nat := 15
def u32 : Nat := 4294967296

def u32Sub (a b : Nat) : Nat := (a + (u32 - b)) % u32

structure Timeouts (α : Type) where
  nextTimeout : List (Nat × α)
  timeoutsLastTime : Nat

variable {α : Type}

/-- The loop of `sys_timeout` from the element `t` on, which is the first of the list. -/
def timeoutLoop (msecs first : Nat) (handler : α) : Nat → List (Nat × α) → List (Nat × α)
  | _, [] => []
  | time, [t] =>
    let time := u32Sub time t.1
    -- the clock has run away from the list
    let time := if time > msecs then (msecs + first) % u32 else time
    [t,(time,handler)]
  | time, t :: next :: rest =>
    let time := u32Sub time t.1
    if next.1 > time then t :: (time,handler) :: (next.1 - time,next.2) :: rest
    else t :: timeoutLoop msecs first handler time (next :: rest)

def sysTimeout (timeouts : Timeouts α) (now msecs : Nat) (handler : α) : Option (Timeouts α) :=
  if timeouts.nextTimeout.length < mempNumSysTimeout then
    match timeouts.nextTimeout with
    | [] => some ⟨[(msecs,handler)],now⟩
    | first :: rest =>
      let diff := u32Sub now timeouts.timeoutsLastTime
      let time := (msecs + diff) % u32
      if first.1 > msecs then some {timeouts with nextTimeout := (time,handler) :: (first.1 - msecs,first.2) :: rest}
      else some {timeouts with nextTimeout := timeoutLoop msecs first.1 handler time (first :: rest)}
  else none

def untimeoutLoop (found : α → Bool) : List (Nat × α) → List (Nat × α)
  | [] => []
  | t :: rest =>
    if found t.2 then
      match rest with
      | [] => []
      | next :: later => ((next.1 + t.1) % u32,next.2) :: later
    else t :: untimeoutLoop found rest

def sysUntimeout (timeouts : Timeouts α) (found : α → Bool) : Timeouts α :=
  {timeouts with nextTimeout := untimeoutLoop found timeouts.nextTimeout}

/-- One turn of the loop in `sys_check_timeouts`, whose local `diff` is given: the handler that
is called, the list without it, and `diff` for the next turn. -/
def checkTurn (timeouts : Timeouts α) (diff : Nat) : Option (α × Timeouts α × Nat) :=
  match timeouts.nextTimeout with
  | [] => none
  | t :: rest =>
    if t.1 ≤ diff then some (t.2,⟨rest,(timeouts.timeoutsLastTime + t.1) % u32⟩,diff - t.1) else none

/-! ### What the functions do to the times -/

theorem u32Sub_eq {now last : Nat} (order : last ≤ now) (near : now < last + u32) :
    u32Sub (now % u32) (last % u32) = now - last := by
  simp only [u32Sub,u32] at *
  omega

theorem u32Sub_small {a b : Nat} (order : b ≤ a) (small : a < u32) : u32Sub a b = a - b := by
  simp only [u32Sub,u32] at *
  omega

/-- Not all queued timers are overdue: the loop is the insertion into a delta list. -/
theorem timeoutLoop_insertAt (msecs first : Nat) (handler : α) (time : Nat) (queue : List (Nat × α)) (queued : queue ≠ [])
    (begins : ∀ t ∈ queue.head?, t.1 ≤ time) (small : time < u32) (near : time ≤ msecs + span queue) :
    timeoutLoop msecs first handler time queue = insertAt handler time queue := by
  match queue with
  | [] => contradiction
  | [(delta,other)] =>
    have early : delta ≤ time := begins (delta,other) (by simp)
    have reached : ¬ time - delta > msecs := by
      simp only [span] at near
      omega
    simp only [timeoutLoop,insertAt,u32Sub_small early small,reached,if_false]
    rw [if_neg (by omega)]
  | (delta,other) :: (after,next) :: rest =>
    have early : delta ≤ time := begins (delta,other) (by simp)
    have passed : insertAt handler time ((delta,other) :: (after,next) :: rest) =
        (delta,other) :: insertAt handler (time - delta) ((after,next) :: rest) := by rw [insertAt,if_neg (by omega)]
    rw [passed]
    simp only [timeoutLoop,u32Sub_small early small]
    by_cases later : after > time - delta
    · rw [if_pos later,insertAt,if_pos later]
    · rw [if_neg later]
      have shorter := timeoutLoop_insertAt msecs first handler (time - delta) ((after,next) :: rest) (by simp)
        (by simp only [List.head?_cons,Option.mem_some_iff,forall_eq']; omega) (by omega)
        (by simp only [span] at near ⊢; omega)
      rw [shorter]

/-- All are overdue by more than the list spans: the new timer follows the last by a time of
its own. -/
theorem timeoutLoop_overdue (msecs first : Nat) (handler : α) (time : Nat) (queue : List (Nat × α)) (queued : queue ≠ [])
    (small : time < u32) (far : msecs + span queue < time) :
    timeoutLoop msecs first handler time queue = queue ++ [((msecs + first) % u32,handler)] := by
  match queue with
  | [] => contradiction
  | [(delta,other)] =>
    simp only [span] at far
    simp only [timeoutLoop,u32Sub_small (by omega : delta ≤ time) small]
    rw [if_pos (by omega)]
    rfl
  | (delta,other) :: (after,next) :: rest =>
    simp only [span] at far
    simp only [timeoutLoop,u32Sub_small (by omega : delta ≤ time) small]
    rw [if_neg (by omega),timeoutLoop_overdue msecs first handler (time - delta) ((after,next) :: rest) (by simp) (by omega)
      (by simp only [span]; omega)]
    rfl

theorem untimeoutLoop_removeFirst (found : α → Bool) (queue : List (Nat × α)) (small : span queue < u32) :
    untimeoutLoop found queue = removeFirst found queue := by
  match queue with
  | [] => rfl
  | [(delta,item)] => simp [untimeoutLoop,removeFirst,widen]
  | (delta,item) :: (after,next) :: rest =>
    have sum : (after + delta) % u32 = after + delta := Nat.mod_eq_of_lt (by simp only [span] at small; omega)
    have shorter := untimeoutLoop_removeFirst found ((after,next) :: rest) (by simp only [span] at small ⊢; omega)
    rw [removeFirst]
    simp only [untimeoutLoop] at shorter ⊢
    rw [sum,shorter]
    rfl

/-- `sys_timeout` with timers in the queue, by the distances of all timers from
`timeouts_last_time`. A timer that goes to the front is due `msecs` from now, but all others
are postponed by the time since `timeouts_last_time`; behind the front none of them moves,
and the new timer is due `msecs` from now unless all the others are overdue. -/
theorem sysTimeout_absolute (timeouts : Timeouts α) (now msecs : Nat) (handler : α) (first : Nat × α) (rest : List (Nat × α))
    (queue : timeouts.nextTimeout = first :: rest) (room : (first :: rest).length < mempNumSysTimeout)
    (small : msecs + u32Sub now timeouts.timeoutsLastTime < u32) :
    ∃ after, sysTimeout timeouts now msecs handler = some after ∧ after.timeoutsLastTime = timeouts.timeoutsLastTime ∧
      absolute 0 after.nextTimeout =
        let diff := u32Sub now timeouts.timeoutsLastTime
        let others := absolute 0 (first :: rest)
        if msecs < first.1 then (msecs + diff,handler) :: others.map (shift diff)
        else if diff ≤ span (first :: rest) then
          others.takeWhile (·.1 ≤ msecs + diff) ++ (msecs + diff,handler) :: others.dropWhile (·.1 ≤ msecs + diff)
        else others ++ [(span (first :: rest) + (msecs + first.1) % u32,handler)] := by
  obtain ⟨delta,other⟩ := first
  generalize lag : u32Sub now timeouts.timeoutsLastTime = diff at small
  have time : (msecs + diff) % u32 = msecs + diff := Nat.mod_eq_of_lt small
  simp only [sysTimeout,queue,room,if_true,lag,time]
  by_cases front : msecs < delta
  · rw [if_pos front,if_pos front]
    refine ⟨_,rfl,rfl,?_⟩
    have place : msecs + diff + (delta - msecs) = delta + diff := by omega
    simp only [absolute,Nat.zero_add,place,List.map_cons,shift,absolute_shift]
  · rw [if_neg front,if_neg front]
    refine ⟨_,rfl,rfl,?_⟩
    by_cases near : diff ≤ span ((delta,other) :: rest)
    · rw [if_pos near,timeoutLoop_insertAt msecs delta handler (msecs + diff) _ (by simp)
        (by simp only [List.head?_cons,Option.mem_some_iff,forall_eq']; omega) small (by omega),absolute_insertAt,Nat.zero_add]
    · rw [if_neg near,timeoutLoop_overdue msecs delta handler (msecs + diff) _ (by simp) small (by omega),
        absolute_concat,Nat.zero_add]

-- the clock has wrapped to 100, 396 ms after `timeouts_last_time`: a new timer of 200 ms postpones the two others by as much
example : (sysTimeout ⟨[(500,'a'),(300,'b')],4294967000⟩ 100 200 'c').map (fun after => absolute 0 after.nextTimeout) =
    some [(596,'c'),(896,'a'),(1196,'b')] := by decide

end Swip.Core
