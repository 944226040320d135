import Swip.Core.Timeouts
import Swip.Library.Run

/-! Runs of the timeout list: the clock advances, timers are set and removed by the program or
from inside a handler, and `sys_check_timeouts` calls the handlers one by one. -/
namespace Swip.Core
open Library.Delta Library.Run

variable {α : Type}

/-- A timer with what it was set for: it shall not be called before `earliest`. -/
structure Timer (α : Type) where
  handler : α
  earliest : Nat
deriving DecidableEq, Repr

/-- A handler that was called, with the time of its list entry and the time of the call. -/
structure Call (α : Type) where
  timer : Timer α
  due : Nat
  called : Nat

/-- `now` is the time since the start, of which `sys_now` has the lower 32 bits, and `last` the
time that `timeouts_last_time` stands for. `checking` holds `diff` and the time at which
`sys_check_timeouts` was entered, while it runs. -/
structure Clocked (α : Type) where
  now : Nat
  last : Nat
  timeouts : Timeouts (Timer α)
  checking : Option (Nat × Nat)
  calls : List (Call α)

def sysNow (state : Clocked α) : Nat := state.now % u32

inductive TimerEvent (α : Type)
  | advance (msecs : Nat)
  | timeout (msecs : Nat) (handler : α)
  | untimeout (handler : α)
  | check
  | turn
deriving DecidableEq, Repr

def Clocked.lag (state : Clocked α) : Nat := u32Sub (sysNow state) state.timeouts.timeoutsLastTime

def Clocked.step [DecidableEq α] (state : Clocked α) : TimerEvent α → Option (Clocked α)
  | .advance msecs => some {state with now := state.now + msecs}
  | .timeout msecs handler => do
    let timeouts ← sysTimeout state.timeouts (sysNow state) msecs ⟨handler,state.now + msecs⟩
    -- an empty list starts a new count
    let last := if state.timeouts.nextTimeout = [] then state.now else state.last
    return {state with timeouts := timeouts, last := last}
  | .untimeout handler => some {state with timeouts := sysUntimeout state.timeouts (·.handler = handler)}
  | .check =>
    if state.checking = none ∧ state.timeouts.nextTimeout ≠ [] then
      some {state with checking := some (u32Sub (sysNow state) state.timeouts.timeoutsLastTime,state.now)}
    else some state
  | .turn =>
    match state.checking with
    | none => some state
    | some (diff,entered) =>
      match checkTurn state.timeouts diff with
      | none => some {state with checking := none}
      | some (timer,timeouts,left) =>
        let last := state.last + (diff - left)
        some ⟨state.now,last,timeouts,some (left,entered),state.calls ++ [⟨timer,last,state.now⟩]⟩

def timerStep [DecidableEq α] (state : Option (Clocked α)) (event : TimerEvent α) : Option (Clocked α) := state.bind (·.step event)

def timerStart (now : Nat) : Option (Clocked α) := some ⟨now,now,⟨[],now % u32⟩,none,[]⟩

/-- What is asked of a step: a timer is set into an empty list from outside of the handlers only,
and else not when the others have all been due for longer than the first of them was to wait;
and all times together stay within 32 bits. -/
def InTime (state : Clocked α) : TimerEvent α → Prop
  | .advance msecs => state.lag + msecs < u32
  | .timeout msecs _ =>
    span state.timeouts.nextTimeout + state.lag + msecs < u32 ∧
      match state.timeouts.nextTimeout with
      | [] => state.checking = none
      | first :: rest => state.lag ≤ span (first :: rest) + first.1
  | _ => True

instance (state : Clocked α) (event : TimerEvent α) : Decidable (InTime state event) := by
  cases event <;> unfold InTime
  case timeout => cases state.timeouts.nextTimeout <;> infer_instance
  all_goals infer_instance

structure Clocked.Kept (state : Clocked α) : Prop where
  stamped : state.timeouts.timeoutsLastTime = state.last % u32
  behind : state.last ≤ state.now
  near : state.now < state.last + u32
  short : span state.timeouts.nextTimeout < u32
  earliest : ∀ entry ∈ absolute state.last state.timeouts.nextTimeout, entry.2.earliest ≤ entry.1
  entered : ∀ diff start, state.checking = some (diff,start) → state.last + diff = start ∧ start ≤ state.now
  ordered : state.calls.Pairwise fun one two => one.due ≤ two.due
  passed : ∀ call ∈ state.calls, call.due ≤ state.last
  intime : ∀ call ∈ state.calls, call.timer.earliest ≤ call.due ∧ call.due ≤ call.called

theorem Clocked.Kept.lag {state : Clocked α} (kept : state.Kept) : state.lag = state.now - state.last := by
  rw [Clocked.lag,sysNow,kept.stamped]
  exact u32Sub_eq kept.behind kept.near

theorem Clocked.Kept.advance {state : Clocked α} (kept : state.Kept) (msecs : Nat) (met : state.lag + msecs < u32) :
    ({state with now := state.now + msecs} : Clocked α).Kept := by
  have lag := kept.lag
  have behind := kept.behind
  refine {kept with behind := ?_, near := ?_, entered := ?_}
  · change state.last ≤ state.now + msecs
    omega
  · change state.now + msecs < state.last + u32
    omega
  · intro diff start running
    obtain ⟨sum,early⟩ := kept.entered diff start running
    exact ⟨sum,Nat.le_trans early (Nat.le_add_right _ _)⟩

/-- Where the timers of the queue are not overdue for too long, the new one is due no sooner
than it should be and no other becomes earlier. -/
theorem sysTimeout_later {timeouts : Timeouts (Timer α)} {now last msecs : Nat} (handler : α)
    (stamped : timeouts.timeoutsLastTime = last % u32) (behind : last ≤ now) (near : now < last + u32)
    {first : Nat × Timer α} {rest : List (Nat × Timer α)} (queue : timeouts.nextTimeout = first :: rest)
    (room : timeouts.nextTimeout.length < mempNumSysTimeout)
    (small : span (first :: rest) + (now - last) + msecs < u32) (coming : now - last ≤ span (first :: rest) + first.1)
    (earliest : ∀ entry ∈ absolute last timeouts.nextTimeout, entry.2.earliest ≤ entry.1) :
    ∃ after, sysTimeout timeouts (now % u32) msecs ⟨handler,now + msecs⟩ = some after ∧
      after.timeoutsLastTime = timeouts.timeoutsLastTime ∧ span after.nextTimeout < u32 ∧
      ∀ entry ∈ absolute last after.nextTimeout, entry.2.earliest ≤ entry.1 := by
  have lag : u32Sub (now % u32) timeouts.timeoutsLastTime = now - last := by
    rw [stamped]
    exact u32Sub_eq behind near
  obtain ⟨after,done,same,times⟩ := sysTimeout_absolute timeouts (now % u32) msecs ⟨handler,now + msecs⟩ first rest queue
    (queue ▸ room) (by rw [lag]; omega)
  rw [queue] at earliest
  simp only [lag] at times
  have from0 : ∀ entries : List (Nat × Timer α), absolute last entries = (absolute 0 entries).map (shift last) := by
    intro entries
    rw [← absolute_shift,Nat.zero_add]
  have old : ∀ entry ∈ absolute 0 (first :: rest), entry.2.earliest ≤ entry.1 + last ∧ entry.1 ≤ span (first :: rest) := by
    intro entry member
    refine ⟨earliest (shift last entry) ?_,by simpa using absolute_le member⟩
    rw [from0]
    exact List.mem_map_of_mem member
  have every : ∀ entry ∈ absolute 0 after.nextTimeout, entry.1 < u32 ∧ entry.2.earliest ≤ entry.1 + last := by
    intro entry member
    rw [times] at member
    split at member
    · rcases List.mem_cons.mp member with rfl | later
      · simp only
        omega
      · obtain ⟨other,inside,rfl⟩ := List.mem_map.mp later
        have := old other inside
        simp only [shift]
        omega
    · split at member
      · have cases : entry ∈ absolute 0 (first :: rest) ∨ entry = (msecs + (now - last),⟨handler,now + msecs⟩) := by
          rcases List.mem_append.mp member with early | late
          · exact .inl (List.takeWhile_subset _ early)
          · rcases List.mem_cons.mp late with rfl | late
            · exact .inr rfl
            · exact .inl (List.dropWhile_subset _ late)
        rcases cases with inside | rfl
        · have := old entry inside
          omega
        · simp only
          omega
      · rcases List.mem_append.mp member with inside | added
        · have := old entry inside
          omega
        · obtain rfl := List.mem_singleton.mp added
          have within : first.1 ≤ span (first :: rest) := by simp [span]
          rw [Nat.mod_eq_of_lt (by omega)]
          simp only
          omega
  refine ⟨after,done,same,?_,?_⟩
  · simpa using span_lt (by decide : 0 < u32) (fun entry member => (every entry member).1)
  · intro entry member
    rw [from0] at member
    obtain ⟨other,inside,rfl⟩ := List.mem_map.mp member
    exact (every other inside).2

theorem Clocked.Kept.untimeout {state : Clocked α} (kept : state.Kept) (found : Timer α → Bool) :
    ({state with timeouts := sysUntimeout state.timeouts found} : Clocked α).Kept := by
  have removed := untimeoutLoop_removeFirst found state.timeouts.nextTimeout kept.short
  refine {kept with short := ?_, earliest := ?_}
  · change span (untimeoutLoop found state.timeouts.nextTimeout) < u32
    rw [removed]
    exact Nat.lt_of_le_of_lt (span_removeFirst found _) kept.short
  · intro entry member
    change entry ∈ absolute state.last (untimeoutLoop found state.timeouts.nextTimeout) at member
    rw [removed,absolute_removeFirst] at member
    exact kept.earliest entry (List.mem_of_mem_eraseP member)

theorem Clocked.Kept.check {state : Clocked α} (kept : state.Kept) :
    ({state with checking := some (state.lag,state.now)} : Clocked α).Kept := by
  refine {kept with entered := ?_}
  intro diff start running
  obtain ⟨rfl,rfl⟩ := Prod.mk.inj (Option.some.inj running)
  have lag := kept.lag
  have behind := kept.behind
  change state.last + state.lag = state.now ∧ state.now ≤ state.now
  omega

theorem Clocked.Kept.call {state : Clocked α} (kept : state.Kept) {diff entered left : Nat} {timer : Timer α}
    {timeouts : Timeouts (Timer α)} (running : state.checking = some (diff,entered))
    (turn : checkTurn state.timeouts diff = some (timer,timeouts,left)) :
    (⟨state.now,state.last + (diff - left),timeouts,some (left,entered),
      state.calls ++ [⟨timer,state.last + (diff - left),state.now⟩]⟩ : Clocked α).Kept := by
  unfold checkTurn at turn
  obtain ⟨sum,early⟩ := kept.entered diff entered running
  have near := kept.near
  have short := kept.short
  have earliest := kept.earliest
  split at turn
  · simp at turn
  · rename_i delta rest queue
    obtain ⟨delta,item⟩ := delta
    split at turn
    · rename_i expired
      simp only [Option.some.injEq,Prod.mk.injEq] at turn expired
      obtain ⟨rfl,rfl,rfl⟩ := turn
      have moved : diff - (diff - delta) = delta := by omega
      rw [queue] at short earliest
      simp only [span] at short
      rw [moved]
      have due : item.earliest ≤ state.last + delta := earliest (state.last + delta,item) (by simp [absolute])
      refine ⟨?_,?_,?_,?_,?_,?_,?_,?_,?_⟩
      · rw [kept.stamped]
        simp [Nat.add_mod]
      · simp only
        omega
      · simp only
        omega
      · simp only
        omega
      · intro entry member
        exact earliest entry (by simp only [absolute]; exact List.mem_cons_of_mem _ member)
      · intro left start running
        obtain ⟨rfl,rfl⟩ := Prod.mk.inj (Option.some.inj running)
        simp only
        omega
      · refine List.pairwise_append.mpr ⟨kept.ordered,List.pairwise_singleton _ _,?_⟩
        intro call member last only
        obtain rfl := List.mem_singleton.mp only
        exact Nat.le_trans (kept.passed call member) (Nat.le_add_right _ _)
      · intro call member
        rcases List.mem_append.mp member with before | only
        · exact Nat.le_trans (kept.passed call before) (Nat.le_add_right _ _)
        · obtain rfl := List.mem_singleton.mp only
          exact Nat.le_refl _
      · intro call member
        rcases List.mem_append.mp member with before | only
        · exact kept.intime call before
        · obtain rfl := List.mem_singleton.mp only
          exact ⟨due,by simp only; omega⟩
    · simp at turn

/-- A timer set into an empty list: the count starts again. -/
theorem Clocked.Kept.fresh {state : Clocked α} (kept : state.Kept) {msecs : Nat} (handler : α) (idle : state.checking = none)
    (small : msecs < u32) :
    ({state with timeouts := ⟨[(msecs,⟨handler,state.now + msecs⟩)],sysNow state⟩, last := state.now} : Clocked α).Kept := by
  refine ⟨rfl,Nat.le_refl _,?_,by simpa [span] using small,?_,?_,kept.ordered,?_,kept.intime⟩
  · change state.now < state.now + u32
    have : 0 < u32 := by decide
    omega
  · intro entry member
    obtain rfl := List.mem_singleton.mp member
    exact Nat.le_refl _
  · intro diff start running
    simp [idle] at running
  · intro call member
    exact Nat.le_trans (kept.passed call member) kept.behind

theorem Clocked.Kept.timeout {state after : Clocked α} [DecidableEq α] (kept : state.Kept) (msecs : Nat) (handler : α)
    (met : InTime state (.timeout msecs handler)) (done : state.step (.timeout msecs handler) = some after) : after.Kept := by
  obtain ⟨small,coming⟩ := met
  have room : state.timeouts.nextTimeout.length < mempNumSysTimeout := by
    by_contra full
    simp [Clocked.step,sysTimeout,full] at done
  cases queue : state.timeouts.nextTimeout with
  | nil =>
    rw [queue] at coming small
    have added : sysTimeout state.timeouts (sysNow state) msecs ⟨handler,state.now + msecs⟩ =
        some ⟨[(msecs,⟨handler,state.now + msecs⟩)],sysNow state⟩ := by
      rw [sysTimeout,if_pos room]
      simp [queue]
    simp only [Clocked.step,added,queue,if_true,Option.bind_eq_bind,Option.bind_some,Option.pure_def,Option.some.injEq] at done
    subst done
    exact kept.fresh handler coming (by omega)
  | cons first rest =>
    rw [queue,kept.lag] at coming small
    obtain ⟨timeouts,added,same,short,earliest⟩ := sysTimeout_later handler kept.stamped kept.behind kept.near queue room small
      coming kept.earliest
    simp only [Clocked.step,sysNow,added,queue,reduceCtorEq,if_false,Option.bind_eq_bind,Option.bind_some,Option.pure_def,
      Option.some.injEq] at done
    subst done
    exact {kept with stamped := same.trans kept.stamped, short := short, earliest := earliest}

theorem Clocked.Kept.step {state after : Clocked α} [DecidableEq α] (kept : state.Kept) (event : TimerEvent α)
    (met : InTime state event) (done : state.step event = some after) : after.Kept := by
  cases event with
  | advance msecs =>
    obtain rfl := Option.some.inj done
    exact kept.advance msecs met
  | timeout msecs handler => exact kept.timeout msecs handler met done
  | untimeout handler =>
    obtain rfl := Option.some.inj done
    exact kept.untimeout _
  | check =>
    simp only [Clocked.step] at done
    split at done
    · obtain rfl := Option.some.inj done
      exact kept.check
    · obtain rfl := Option.some.inj done
      exact kept
  | turn =>
    simp only [Clocked.step] at done
    split at done
    · obtain rfl := Option.some.inj done
      exact kept
    · rename_i diff entered running
      split at done
      · obtain rfl := Option.some.inj done
        exact {kept with entered := by intro diff start impossible; simp at impossible}
      · rename_i timer timeouts left turn
        obtain rfl := Option.some.inj done
        exact kept.call running turn

theorem timerRun_kept [DecidableEq α] (start : Nat) (events : List (TimerEvent α))
    (met : Along timerStep (WhileRunning InTime) (timerStart start) events) :
    ∀ state ∈ run timerStep (timerStart start) events, state.Kept := by
  refine invariant_along timerStep (WhileRunning InTime) (fun state => ∀ s ∈ state, s.Kept) ?_ _ events ?_ met
  · intro state event kept condition after reached
    obtain ⟨before,running,done⟩ := Option.bind_eq_some_iff.mp reached
    exact (kept before running).step event (condition before running) done
  · intro state initial
    obtain rfl := Option.some.inj initial
    have : 0 < u32 := by decide
    refine ⟨rfl,Nat.le_refl _,?_,by simpa [span] using this,by simp [absolute],by simp,.nil,by simp,by simp⟩
    change start < start + u32
    omega

/-- No handler is called before the time it was set for, and the calls are made in the order of
the times in the list, whatever the handlers do and however late the check comes. -/
theorem timers_never_early [DecidableEq α] (start : Nat) (events : List (TimerEvent α)) (state : Clocked α)
    (met : Along timerStep (WhileRunning InTime) (timerStart start) events)
    (reached : run timerStep (timerStart start) events = some state) :
    (∀ call ∈ state.calls, call.timer.earliest ≤ call.called) ∧
      state.calls.Pairwise fun one two => one.due ≤ two.due := by
  have kept := timerRun_kept start events met state reached
  refine ⟨?_,kept.ordered⟩
  intro call member
  obtain ⟨set,due⟩ := kept.intime call member
  exact Nat.le_trans set due

private def cyclic : List (TimerEvent Char) :=
  [.timeout 1000 'r',.timeout 500 'd',.advance 600,.check,.turn,.timeout 500 'd',.turn,.advance 550,.check,.turn,
    .timeout 1000 'r',.turn,.timeout 500 'd']

theorem timers_never_early_cyclic :
    ∃ state, run timerStep (timerStart 4294967000) cyclic = some state ∧ state.calls.length = 3 ∧
      (∀ call ∈ state.calls, call.timer.earliest ≤ call.called) ∧ state.calls.Pairwise fun one two => one.due ≤ two.due := by
  obtain ⟨state,reached,count⟩ : ∃ state ∈ run timerStep (timerStart 4294967000) cyclic, state.calls.length = 3 := by decide
  exact ⟨state,reached,count,timers_never_early 4294967000 cyclic state (by decide) reached⟩

end Swip.Core
