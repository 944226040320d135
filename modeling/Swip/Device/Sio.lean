import Swip.Device.Poll
import Mathlib.Logic.Function.Basic

/-! The receive queue of `sio.c` under interrupts. `sio_tryread` is a loop, and `readCallback`
may run before each of its `Mailbox_pend` calls, so the call is cut at its loop turns and the
machine interleaves the turns with the interrupts in every order. -/
namespace Swip.Device
open Library Library.Run

variable {α : Type}

/-- A call `sio_tryread(fd, data, len)` in its loop: `given` is the buffer as the caller passed
it, `taken` is what `Mailbox_pend` has delivered; neither is read by the code. The `int` `i` is
compared with `len` as unsigned, and no buffer of the 32-bit device is long enough to wrap it. -/
structure Tryread (α : Type) where
  len : Nat
  data : Nat → α
  i : Nat
  given : Nat → α
  taken : List α

/-- A call that is over, with the number of bytes in the mailbox when it returned. -/
structure Returned (α : Type) extends Tryread α where
  ret : Nat
  left : Nat

/-- `arrivals` keeps each byte passed to `readCallback` next to the number of bytes that were
waiting when it came, `returned` the calls that are over. -/
structure Sio (α : Type) where
  mbox : Mailbox α
  call : Option (Tryread α)
  arrivals : List (α × Nat)
  returned : List (Returned α)

inductive SioEvent (α : Type)
  | readCallback (rxBuf : List α)
  | tryread (len : Nat) (data : Nat → α)
  | turn

def Sio.start : Sio α where
  mbox := .empty
  call := none
  arrivals := []
  returned := []

def Tryread.enter (len : Nat) (data : Nat → α) : Tryread α where
  len := len
  data := data
  i := 0
  given := data
  taken := []

def Tryread.store (call : Tryread α) (x : α) : Tryread α :=
  {call with data := Function.update call.data call.i x, i := call.i + 1, taken := call.taken ++ [x]}

def Sio.leave (sio : Sio α) (call : Tryread α) : Sio α :=
  {sio with call := none,
            returned := sio.returned ++ [{call with ret := call.i, left := sio.mbox.waiting.length}]}

/-- One turn of the `for` loop of `sio_tryread`, or its exit. -/
def Sio.turn (sio : Sio α) (call : Tryread α) : Sio α :=
  if call.i < call.len then
    match sio.mbox.pend with
    | none => sio.leave call
    | some (x,mbox) => {sio with mbox := mbox, call := some (call.store x)}
  else sio.leave call

/-- The main loop is the only caller of `sio_tryread`, so a second call waits for the first. -/
def Sio.step (sio : Sio α) : SioEvent α → Sio α
  | .readCallback rxBuf =>
    {sio with mbox := (Device.readCallback sio.mbox rxBuf).1,
              arrivals := sio.arrivals ++ sio.mbox.met rxBuf}
  | .tryread len data =>
    match sio.call with
    | some _ => sio
    | none => {sio with call := some (.enter len data)}
  | .turn =>
    match sio.call with
    | some call => sio.turn call
    | none => sio

def SioEvent.bytes : SioEvent α → List α
  | .readCallback rxBuf => rxBuf
  | _ => []

/-- What the loop has done so far: the bytes it took stand in `data` in order, the rest of the
buffer is as the caller passed it. -/
structure Tryread.Stored (call : Tryread α) : Prop where
  counted : call.taken.length = call.i
  within : call.i ≤ call.len
  placed : ∀ j < call.i, call.taken[j]? = some (call.data j)
  beyond : ∀ j, call.i ≤ j → call.data j = call.given j

structure Returned.Honest (call : Returned α) : Prop where
  stored : call.Stored
  count : call.ret = call.taken.length
  short : call.ret < call.len → call.left = 0

def Sio.delivered (sio : Sio α) : List α :=
  sio.returned.flatMap (fun call => (List.range call.ret).map call.data)

def Sio.underway (sio : Sio α) : List α :=
  sio.call.elim [] (fun call => (List.range call.i).map call.data)

theorem Tryread.Stored.bytes (call : Tryread α) (stored : call.Stored) :
    (List.range call.i).map call.data = call.taken := by
  apply List.ext_getElem?
  intro j
  by_cases inside : j < call.i
  · simp [inside,stored.placed j inside]
  · have outside : call.taken.length ≤ j := by rw [stored.counted]; omega
    simp [inside,outside]

theorem Tryread.enter_stored (len : Nat) (data : Nat → α) : (Tryread.enter len data).Stored := by
  refine ⟨rfl,Nat.zero_le _,?_,fun _ _ => rfl⟩
  intro j inside
  exact absurd inside (Nat.not_lt_zero j)

theorem Tryread.store_stored (call : Tryread α) (stored : call.Stored) (room : call.i < call.len) (x : α) :
    (call.store x).Stored := by
  obtain ⟨counted,within,placed,beyond⟩ := stored
  refine ⟨?_,?_,?_,?_⟩
  · simp [Tryread.store,counted]
  · exact room
  · intro j inside
    simp only [Tryread.store] at inside ⊢
    rcases Nat.lt_succ_iff_lt_or_eq.mp inside with earlier | rfl
    · rw [List.getElem?_append_left (by omega),placed j earlier,Function.update_of_ne (by omega)]
    · rw [List.getElem?_append_right (by omega)]
      simp [counted]
  · intro j outside
    simp only [Tryread.store] at outside ⊢
    rw [Function.update_of_ne (by omega),beyond j (by omega)]

/-- Bytes arrive, wait, and are taken in one order, and every call over is an honest one. -/
structure Sio.Exact (sio : Sio α) : Prop where
  flow : sio.delivered ++ sio.underway ++ sio.mbox.waiting =
    (sio.arrivals.filter (fun arrival => arrival.2 ≠ 50)).map Prod.fst
  current : ∀ call ∈ sio.call, call.Stored
  honest : ∀ call ∈ sio.returned, call.Honest

theorem Sio.start_exact : (Sio.start : Sio α).Exact := by
  refine ⟨rfl,?_,?_⟩
  · intro call current
    simp [Sio.start] at current
  · intro call past
    simp [Sio.start] at past

theorem Sio.exact_readCallback (sio : Sio α) (rxBuf : List α) (before : sio.Exact) :
    (sio.step (.readCallback rxBuf)).Exact := by
  obtain ⟨flow,current,honest⟩ := before
  refine ⟨?_,current,honest⟩
  have grown := sio.mbox.postAll_waiting rxBuf
  rw [Fifo.postAll_met] at grown
  simp only [Sio.step,Device.readCallback,grown,List.filter_append,List.map_append,← flow]
  simp only [Sio.delivered,Sio.underway,List.append_assoc]

theorem Sio.exact_tryread (sio : Sio α) (len : Nat) (data : Nat → α) (before : sio.Exact) :
    (sio.step (.tryread len data)).Exact := by
  simp only [Sio.step]
  split
  · exact before
  · rename_i idle
    obtain ⟨flow,current,honest⟩ := before
    refine ⟨?_,?_,honest⟩
    · rw [← flow]
      simp only [Sio.delivered,Sio.underway,idle]
      rfl
    · intro call entered
      obtain rfl : Tryread.enter len data = call := Option.some.inj entered
      exact Tryread.enter_stored len data

/-- The call returns: what it holds moves, in order, to what has been delivered. -/
theorem Sio.exact_leave (sio : Sio α) (call : Tryread α) (running : sio.call = some call)
    (before : sio.Exact) (done : call.i < call.len → sio.mbox.waiting = []) : (sio.leave call).Exact := by
  obtain ⟨flow,current,honest⟩ := before
  have stored := current call running
  refine ⟨Eq.trans ?_ flow,?_,?_⟩
  · simp [Sio.delivered,Sio.underway,Sio.leave,running]
  · intro other gone
    simp [Sio.leave] at gone
  · intro other member
    rcases List.mem_append.mp member with earlier | last
    · exact honest other earlier
    · obtain rfl := List.mem_singleton.mp last
      refine ⟨⟨stored.counted,stored.within,stored.placed,stored.beyond⟩,stored.counted.symm,?_⟩
      intro short
      simp [done short]

theorem Sio.exact_turn (sio : Sio α) (before : sio.Exact) : (sio.step .turn).Exact := by
  simp only [Sio.step]
  split
  · rename_i call running
    unfold Sio.turn
    split
    · rename_i room
      rcases Fifo.pend_waiting sio.mbox with ⟨empty,nothing⟩ | ⟨x,rest,taken,order⟩
      · rw [empty]
        exact sio.exact_leave call running before (fun _ => nothing)
      · rw [taken]
        obtain ⟨flow,current,honest⟩ := before
        have stored := current call running
        have next := call.store_stored stored room x
        refine ⟨Eq.trans ?_ flow,?_,honest⟩
        · simp only [Sio.delivered,Sio.underway,running,Option.elim_some,stored.bytes,next.bytes,order]
          simp [Tryread.store]
        · intro other continued
          obtain rfl : call.store x = other := Option.some.inj continued
          exact next
    · rename_i full
      exact sio.exact_leave call running before (fun room => absurd room full)
  · exact before

theorem Sio.exact_step (sio : Sio α) (event : SioEvent α) (before : sio.Exact) :
    (sio.step event).Exact := by
  cases event with
  | readCallback rxBuf => exact sio.exact_readCallback rxBuf before
  | tryread len data => exact sio.exact_tryread len data before
  | turn => exact sio.exact_turn before

theorem Sio.arrivals_step (sio : Sio α) (event : SioEvent α) :
    (sio.step event).arrivals.map Prod.fst = sio.arrivals.map Prod.fst ++ event.bytes := by
  cases event with
  | readCallback rxBuf => simp [Sio.step,SioEvent.bytes]
  | tryread len data =>
    simp only [Sio.step,SioEvent.bytes,List.append_nil]
    split <;> rfl
  | turn =>
    simp only [Sio.step,SioEvent.bytes,List.append_nil]
    split
    · unfold Sio.turn Sio.leave
      split
      · split <;> rfl
      · rfl
    · rfl

theorem Sio.arrivals_run (sio : Sio α) (events : List (SioEvent α)) :
    (run Sio.step sio events).arrivals.map Prod.fst =
      sio.arrivals.map Prod.fst ++ events.flatMap SioEvent.bytes := by
  induction events generalizing sio with
  | nil => simp
  | cons event events ih => rw [run_cons,ih,Sio.arrivals_step,List.flatMap_cons,List.append_assoc]

def SioEvent.isTurn : SioEvent α → Bool
  | .turn => true
  | _ => false

theorem Sio.turn_takes (sio : Sio α) (call : Tryread α) (running : sio.call = some call) (room : call.i < call.len)
    {x : α} {rest : List α} (waiting : sio.mbox.waiting = x :: rest) :
    (sio.step .turn).call = some (call.store x) ∧ (sio.step .turn).mbox.waiting = rest := by
  rcases Fifo.pend_waiting sio.mbox with ⟨_,nothing⟩ | ⟨y,mbox,taken,order⟩
  · simp [waiting] at nothing
  · rw [waiting,List.cons.injEq] at order
    obtain ⟨rfl,rfl⟩ := order
    simp [Sio.step,Sio.turn,running,room,taken]

/-- What an event does to a running call: only its own turn goes on with it or ends it. -/
theorem Sio.call_step (sio : Sio α) (call : Tryread α) (event : SioEvent α) (running : sio.call = some call) :
    (event.isTurn = false ∧ (sio.step event).call = some call ∧ (sio.step event).returned = sio.returned) ∨
      (event.isTurn = true ∧ call.i < call.len ∧
        ∃ x, (sio.step event).call = some (call.store x) ∧ (sio.step event).returned = sio.returned) ∨
      (event.isTurn = true ∧ ∃ left,
        (sio.step event).returned = sio.returned ++ [{call with ret := call.i, left := left}]) := by
  cases event with
  | readCallback rxBuf => exact .inl ⟨rfl,running,rfl⟩
  | tryread len data => exact .inl ⟨rfl,by simp [Sio.step,running],by simp [Sio.step,running]⟩
  | turn =>
    simp only [Sio.step,running,Sio.turn]
    split
    · rename_i room
      rcases Fifo.pend_waiting sio.mbox with ⟨empty,_⟩ | ⟨x,rest,taken,_⟩
      · exact .inr (.inr ⟨rfl,sio.mbox.waiting.length,by simp [empty,Sio.leave]⟩)
      · exact .inr (.inl ⟨rfl,room,x,by simp [taken],by simp [taken]⟩)
    · exact .inr (.inr ⟨rfl,sio.mbox.waiting.length,rfl⟩)

theorem Sio.returned_step (sio : Sio α) (event : SioEvent α) : sio.returned <+: (sio.step event).returned := by
  cases running : sio.call with
  | none => cases event <;> simp [Sio.step,running]
  | some call =>
    rcases sio.call_step call event running with ⟨_,_,same⟩ | ⟨_,_,_,_,same⟩ | ⟨_,_,grown⟩
    · rw [same]
    · rw [same]
    · rw [grown]
      exact List.prefix_append _ _

theorem Sio.returned_run (sio : Sio α) (events : List (SioEvent α)) :
    sio.returned <+: (run Sio.step sio events).returned := by
  induction events generalizing sio with
  | nil => exact List.prefix_refl _
  | cons event events ih => exact (sio.returned_step event).trans (ih (sio.step event))

/-- A call in its loop is the next to return, after one more of its own turns than it has bytes
to go, whatever runs in between. -/
theorem Sio.call_returns (sio : Sio α) (call : Tryread α) (running : sio.call = some call) (events : List (SioEvent α))
    (enough : call.len < call.i + events.countP SioEvent.isTurn) (within : call.i ≤ call.len) :
    ∃ last, (run Sio.step sio events).returned[sio.returned.length]? = some last ∧
      last.len = call.len ∧ last.given = call.given := by
  induction events generalizing sio call with
  | nil => exact absurd enough (by simpa using within)
  | cons event events ih =>
    rw [run_cons]
    rcases sio.call_step call event running with ⟨other,still,same⟩ | ⟨own,room,x,next,same⟩ | ⟨own,left,grown⟩
    · have fewer : (event :: events).countP SioEvent.isTurn = events.countP SioEvent.isTurn := by simp [other]
      rw [fewer] at enough
      have later := ih (sio.step event) call still enough within
      rwa [same] at later
    · have fewer : (event :: events).countP SioEvent.isTurn = events.countP SioEvent.isTurn + 1 := by simp [own]
      rw [fewer] at enough
      have later := ih (sio.step event) (call.store x) next (by simp only [Tryread.store]; omega) room
      rwa [same] at later
    · -- the call is over, and no later event changes what it returned
      obtain ⟨more,order⟩ := (sio.step event).returned_run events
      refine ⟨{call with ret := call.i, left := left},?_,rfl,rfl⟩
      rw [← order,grown]
      simp

/-- `sioTryread` is the call no interrupt breaks into. -/
theorem Sio.uninterrupted (n : Nat) (sio : Sio α) (call : Tryread α) (running : sio.call = some call)
    (remaining : call.i + n = call.len) :
    ∃ last : Returned α, last.taken = call.taken ++ (sioTryread sio.mbox n).2 ∧
      run Sio.step sio (List.replicate (n + 1) .turn) =
        {sio with mbox := (sioTryread sio.mbox n).1, call := none, returned := sio.returned ++ [last]} := by
  induction n generalizing sio call with
  | zero =>
    have full : ¬ call.i < call.len := by omega
    refine ⟨{call with ret := call.i, left := sio.mbox.waiting.length},?_,?_⟩
    · simp [sioTryread]
    · simp [Sio.step,Sio.turn,Sio.leave,running,full,sioTryread]
  | succ n ih =>
    have room : call.i < call.len := by omega
    rcases Fifo.pend_waiting sio.mbox with ⟨empty,_⟩ | ⟨x,rest,taken,_⟩
    · refine ⟨{call with ret := call.i, left := sio.mbox.waiting.length},?_,?_⟩
      · simp [sioTryread,empty]
      · have left : sio.step .turn = sio.leave call := by simp [Sio.step,Sio.turn,running,room,empty]
        have idle : Sio.step (sio.leave call) .turn = sio.leave call := rfl
        have rests (k : Nat) : run Sio.step (sio.leave call) (List.replicate k .turn) = sio.leave call := by
          induction k with
          | zero => rfl
          | succ k ih => rw [List.replicate_succ,run_cons,idle,ih]
        rw [List.replicate_succ,run_cons,left,rests]
        simp [Sio.leave,sioTryread,empty]
    · have turned : sio.step .turn = {sio with mbox := rest, call := some (call.store x)} := by
        simp [Sio.step,Sio.turn,running,room,taken]
      obtain ⟨last,sum,after⟩ := ih {sio with mbox := rest, call := some (call.store x)} (call.store x) rfl
        (by simp only [Tryread.store]; omega)
      refine ⟨last,?_,?_⟩
      · simp [sum,sioTryread,taken,Tryread.store]
      · rw [List.replicate_succ,run_cons,turned,after]
        simp [sioTryread,taken]

/-- In every interleaving the bytes delivered, those a call has in hand and those still waiting
are the bytes that arrived, less the ones that found fifty waiting. A call reports what it
took, puts it in place and stops early only at an empty mailbox. A turn takes a byte that is
waiting, a call has returned once it has had a turn more than `len`, and one that no interrupt
breaks into is `sioTryread`. -/
theorem sio_queue_exact (events : List (SioEvent α)) :
    let sio := run Sio.step Sio.start events
    sio.delivered ++ sio.underway ++ sio.mbox.waiting =
        (sio.arrivals.filter (fun arrival => arrival.2 ≠ 50)).map Prod.fst ∧
      sio.arrivals.map Prod.fst = events.flatMap SioEvent.bytes ∧
      (∀ call ∈ sio.returned, call.ret = call.taken.length ∧ call.ret ≤ call.len ∧
        (∀ j < call.ret, call.taken[j]? = some (call.data j)) ∧
        (∀ j, call.ret ≤ j → call.data j = call.given j) ∧
        (call.ret < call.len → call.left = 0)) ∧
      (∀ call x rest, sio.call = some call → call.i < call.len → sio.mbox.waiting = x :: rest →
        (sio.step .turn).call = some (call.store x) ∧ (sio.step .turn).mbox.waiting = rest) ∧
      (∀ len data later, sio.call = none → len < later.countP SioEvent.isTurn →
        ∃ call, (run Sio.step sio (.tryread len data :: later)).returned[sio.returned.length]? = some call ∧
          call.len = len ∧ call.given = data) ∧
      (∀ len data, sio.call = none →
        ∃ call, call.taken = (sioTryread sio.mbox len).2 ∧
          run Sio.step sio (.tryread len data :: List.replicate (len + 1) .turn) =
            {sio with mbox := (sioTryread sio.mbox len).1, returned := sio.returned ++ [call]}) := by
  intro sio
  have sound : sio.Exact := run_invariant Sio.step Sio.Exact Sio.exact_step _ events Sio.start_exact
  have entered (len : Nat) (data : Nat → α) (idle : sio.call = none) :
      sio.step (.tryread len data) = {sio with call := some (.enter len data)} := by
    simp [Sio.step,idle]
  refine ⟨sound.flow,Sio.arrivals_run Sio.start events,?_,?_,?_,?_⟩
  · intro call past
    obtain ⟨stored,count,short⟩ := sound.honest call past
    have equal : call.ret = call.i := count.trans stored.counted
    rw [equal]
    exact ⟨stored.counted.symm,stored.within,stored.placed,stored.beyond,equal ▸ short⟩
  · intro call x rest running room waiting
    exact sio.turn_takes call running room waiting
  · intro len data later idle enough
    rw [run_cons,entered len data idle]
    have ends := Sio.call_returns {sio with call := some (.enter len data)} (.enter len data) rfl later
    exact ends (by simpa [Tryread.enter] using enough) (Nat.zero_le _)
  · intro len data idle
    obtain ⟨call,taken,after⟩ := Sio.uninterrupted len {sio with call := some (.enter len data)} (.enter len data) rfl
      (by simp [Tryread.enter])
    refine ⟨call,by simpa [Tryread.enter] using taken,?_⟩
    rw [run_cons,entered len data idle,after,← idle]

/-- Interrupted between its turns, a call for four bytes still gets the three that come. -/
theorem sio_queue_exact_interrupted :
    let sio := run Sio.step (Sio.start : Sio Byte) [.readCallback [0x45,0x46]]
    let later := [.turn,.turn,.readCallback [0x47],.turn,.turn,.readCallback [0x48],.turn]
    ∃ call, (run Sio.step sio (.tryread 4 (fun _ => 0) :: later)).returned[0]? = some call ∧ call.len = 4 ∧
      call.ret = 3 ∧ (List.range call.ret).map call.data = [0x45,0x46,0x47] ∧
      (run Sio.step sio (.tryread 4 (fun _ => 0) :: later)).mbox.waiting = [0x48] := by
  intro sio later
  obtain ⟨_,_,_,_,returns,_⟩ := sio_queue_exact [SioEvent.readCallback [(0x45 : Byte),0x46]]
  obtain ⟨call,past,len,_⟩ := returns 4 (fun _ => 0) later rfl (by decide)
  refine ⟨call,past,len,?_⟩
  obtain rfl := Option.some.inj past
  decide +kernel

end Swip.Device
