import Swip.Apps.EchoRuns

/-! The chain `es->p` on its own: every way the echo server can have built it, and what one
more turn of `echo_send` does to it. -/
namespace Swip.Apps
open Device Library.Run

variable {n : Nat}

/-- A packet is kept, further packets are chained to it and pbufs are chopped off, while the
rest of the memory may change in any way. -/
inductive Built : Memory n Byte → Option (Fin n) → Prop
  | received (mem : Memory n Byte) (segments : List (Segment n)) (arrives : Arrives mem segments) :
      Built (place mem (arrived segments)) (segments.head?.map Segment.address)
  | chained (mem after : Memory n Byte) (ptr p : Fin n) (segments : List (Segment n)) (built : Built mem (some ptr))
      (arrives : Arrives mem segments) (first : segments.head?.map Segment.address = some p)
      (joined : pbufChain (place mem (arrived segments)) ptr p = some after) : Built after (some ptr)
  | chopped (s next : Sending n) (write : Nat × ErrT) (built : Built s.mem s.p)
      (turn : echoSendTurn s write = some (some next)) : Built next.mem next.p
  | elsewhere (mem other : Memory n Byte) (p : Option (Fin n)) (built : Built mem p)
      (same : ∀ cells, mem.Chain p cells → ∀ a ∈ ids cells, other.cell a = mem.cell a) : Built other p

theorem Queue.chop {mem : Memory n Byte} {ptr : Fin n} {cell : Pbuf n Byte} {rest : Cells n Byte}
    (queue : Queue mem (some ptr) ((ptr,cell) :: rest)) : Queue (mem.dealloc ptr cell.type) cell.next rest := by
  have outside : ptr ∉ ids rest := (List.nodup_cons.mp (Library.Heap.Chain.nodup queue.chain)).1
  have tail : (mem.dealloc ptr cell.type).Chain cell.next rest := by
    cases queue.chain with
    | cons _ _ _ _ tail => exact Library.Heap.Chain.update_outside tail ptr none outside
  have whole : Queue mem (some ptr) ([(ptr,cell)] ++ rest) := queue
  exact whole.rest tail

/-- The invariant on the reference counts: whatever was built is a queue. -/
theorem Built.queue {mem : Memory n Byte} {p : Option (Fin n)} (built : Built mem p) : ∃ cells, Queue mem p cells := by
  induction built with
  | received mem segments arrives => exact ⟨arrived segments,place_queue mem segments arrives.2.1⟩
  | chained mem after ptr p segments built arrives first joined ih =>
    obtain ⟨cells,queue⟩ := ih
    obtain ⟨old,new,apart⟩ := arrives_queues queue segments arrives
    rw [first] at new
    obtain ⟨result,more,done,kept,_⟩ := old.append new (fun c member => (arrived_unshared segments c member).1) apart
    obtain rfl : result = after := Option.some.inj (done.symm.trans joined)
    exact ⟨more,kept⟩
  | chopped s next write built turn ih =>
    obtain ⟨cells,queue⟩ := ih
    cases cells with
    | nil =>
      have empty := queue.chain.link_none
      simp [echoSendTurn,empty] at turn
    | cons head rest =>
      obtain ⟨ptr,cell⟩ := head
      have step := echoSendTurn_first s.mem s.p s.written s.credited write ptr cell rest queue.chain queue.valid
      change echoSendTurn s write = _ at step
      obtain ⟨q,link⟩ := queue.chain.link_some (by simp)
      rw [link] at queue
      obtain rfl : q = ptr := by cases queue.chain; rfl
      rw [step] at turn
      split_ifs at turn with sends
      · obtain rfl : _ = next := Option.some.inj (Option.some.inj turn)
        exact ⟨rest,queue.chop⟩
      · simp at turn
  | elsewhere mem other p built same ih =>
    obtain ⟨cells,queue⟩ := ih
    exact ⟨cells,queue.frame (same cells queue.chain)⟩

/-- One successful turn of `echo_send`: the loop around `pbuf_free` ends without touching a
dead pbuf, the old head is deallocated and nothing else is, and the rest of the chain stays
in place with a last pbuf to which `pbuf_chain` may append. -/
theorem chop_frees_one (mem : Memory n Byte) (ptr : Fin n) (built : Built mem (some ptr)) (written : List Byte)
    (credited : Nat) (write : Nat × ErrT) :
    ∃ cell rest, mem.Chain (some ptr) ((ptr,cell) :: rest) ∧ (cell.len ≤ write.1 ∧ write.2 = .ok →
      ∃ next, echoSendTurn ⟨mem,some ptr,written,credited⟩ write = some (some next) ∧
        next.mem.freed = mem.freed ++ [ptr] ∧ next.mem.cell ptr = none ∧
        (∀ a, a ≠ ptr → next.mem.cell a = mem.cell a) ∧ next.mem.Chain next.p rest ∧
        (∀ before l last, rest = before ++ [(l,last)] → last.totLen = last.len) ∧
        ∀ segments q p, Arrives next.mem segments → next.p = some q → segments.head?.map Segment.address = some p →
          (pbufChain (place next.mem (arrived segments)) q p).isSome) := by
  obtain ⟨cells,queue⟩ := built.queue
  cases cells with
  | nil => cases queue.chain
  | cons head rest =>
    obtain ⟨address,cell⟩ := head
    obtain rfl : ptr = address := by cases queue.chain; rfl
    refine ⟨cell,rest,queue.chain,?_⟩
    intro success
    have turn := echoSendTurn_first mem (some ptr) written credited write ptr cell rest queue.chain queue.valid
    rw [if_pos success] at turn
    have left := queue.chop
    refine ⟨_,turn,rfl,Function.update_self _ _ _,?_,left.chain,left.ended,?_⟩
    · intro a other
      exact Function.update_of_ne other _ _
    · intro segments q p arrives link first
      change cell.next = some q at link
      rw [link] at left
      obtain ⟨old,new,apart⟩ := arrives_queues left segments arrives
      rw [first] at new
      obtain ⟨after,_,done,_⟩ := old.append new (fun c member => (arrived_unshared segments c member).1) apart
      simp [done]

/-- The pbuf `h` is queued and a packet of two, `t` and `u`, is chained to it. -/
def chainedPackets (h t u : Fin n) : Option (Memory n Byte) :=
  pbufChain (place (place ⟨fun _ => none,[],[]⟩ (arrived [⟨h,[0x41,0x42],.pool⟩]))
    (arrived [⟨t,[0x43],.pool⟩,⟨u,[0x44],.pool⟩])) h t

/-- The first turn leaves the chained packet as the head with two references, and the second
turn still frees that head and nothing else. -/
theorem chop_frees_one_first :
    ∃ mem middle last, chainedPackets (0 : Fin 3) 1 2 = some mem ∧
      echoSendTurn ⟨mem,some 0,[],0⟩ (10,.ok) = some (some middle) ∧
      middle.p = some 1 ∧ (middle.mem.cell 1).map Pbuf.ref = some 2 ∧
      echoSendTurn middle (10,.ok) = some (some last) ∧ last.mem.freed = [0,1] ∧ last.mem.cell 2 = mem.cell 2 := by
  have joined : (chainedPackets (0 : Fin 3) 1 2).isSome := by decide +kernel
  obtain ⟨mem,joined⟩ := Option.isSome_iff_exists.mp joined
  have heads : (chainedPackets (0 : Fin 3) 1 2).map (fun mem => (mem.freed,(mem.cell 0).map Pbuf.len)) =
      some ([],some 2) := by decide +kernel
  have moves : (chainedPackets (0 : Fin 3) 1 2).bind
      (fun mem => (echoSendTurn ⟨mem,some 0,[],0⟩ (10,.ok)).bind (·.bind Sending.p)) = some 1 := by decide +kernel
  have counts : (chainedPackets (0 : Fin 3) 1 2).map (fun mem => ((mem.cell 1).map Pbuf.len,(mem.cell 1).map Pbuf.ref)) =
      some (some 1,some 2) := by decide +kernel
  rw [joined] at heads counts moves
  simp only [Option.map_some,Option.some.injEq,Prod.mk.injEq] at heads counts
  obtain ⟨unfreed,long⟩ := heads
  obtain ⟨short,shared⟩ := counts
  have built : Built mem (some 0) :=
    .chained _ mem 0 1 _ (.received ⟨fun _ => none,[],[]⟩ [⟨0,[0x41,0x42],.pool⟩] (by decide)) (by decide) rfl joined
  obtain ⟨cell,rest,chain,chopped⟩ := chop_frees_one mem 0 built [] 0 (10,.ok)
  have read := Library.Heap.Chain.read chain (List.mem_cons_self ..)
  rw [read] at long
  obtain ⟨middle,turn,freed,_,kept,_⟩ := chopped ⟨by simp only [Option.map_some,Option.some.injEq] at long; omega,rfl⟩
  have next : middle.p = some 1 := by simpa [turn] using moves
  have again : Built middle.mem (some 1) := next ▸ Built.chopped _ middle (10,.ok) built turn
  obtain ⟨head,others,queued,chopped⟩ := chop_frees_one middle.mem 1 again middle.written middle.credited (10,.ok)
  have seen := Library.Heap.Chain.read queued (List.mem_cons_self ..)
  rw [← kept 1 (by decide)] at short shared
  rw [seen] at short
  obtain ⟨last,second,both,_,same,_⟩ := chopped ⟨by simp only [Option.map_some,Option.some.injEq] at short; omega,rfl⟩
  rw [← next] at second
  refine ⟨mem,middle,last,joined,turn,next,shared,second,?_,?_⟩
  · rw [both,freed,unfreed]
    rfl
  · rw [same 2 (by decide),kept 2 (by decide)]

/-! ### The chains of a run -/

def Held (mem : Memory n Byte) (p : Option (Fin n)) : Prop := p ≠ none → Built mem p

theorem echoSendLoop_held (fuel : Nat) (s last : Sending n) (writes : List (Nat × ErrT)) (held : Held s.mem s.p)
    (looped : echoSendLoop fuel s writes = some last) : Held last.mem last.p := by
  induction fuel generalizing s writes with
  | zero => cases looped
  | succ fuel ih =>
    simp only [echoSendLoop,Option.bind_eq_bind,Option.bind_eq_some_iff] at looped
    obtain ⟨result,turn,rest⟩ := looped
    cases result with
    | none =>
      obtain rfl : s = last := Option.some.inj rest
      exact held
    | some next =>
      apply ih next writes.tail ?_ rest
      intro _
      apply Built.chopped s next _ ?_ turn
      apply held
      intro empty
      simp [echoSendTurn,empty] at turn

def EchoConn.Held (conn : EchoConn n) : Prop := ∀ es, conn.es = some es → Apps.Held conn.mem es.p

theorem echoSend_held (conn next : EchoConn n) (es : EchoState n) (reply : Reply) (held : Held conn.mem es.p)
    (sent : echoSend conn es reply = some next) : next.Held := by
  simp only [echoSend,Option.bind_eq_bind,Option.bind_eq_some_iff] at sent
  obtain ⟨s,looped,done⟩ := sent
  obtain rfl := Option.some.inj done
  intro other state
  obtain rfl : _ = other := Option.some.inj state
  exact echoSendLoop_held _ _ _ _ held looped

theorem sending_held (conn next : EchoConn n) (es : EchoState n) (reply : Reply) (code : ErrT)
    (held : Held conn.mem es.p)
    (step : ((echoSend (tcpSent conn) es reply).bind fun conn => some (conn,ErrT.ok)) = some (next,code)) : next.Held := by
  simp only [Option.bind_eq_some_iff,Option.some.injEq,Prod.mk.injEq] at step
  obtain ⟨after,sent,rfl,_⟩ := step
  exact echoSend_held (tcpSent conn) after es reply held sent

theorem emptied_held (conn : EchoConn n) (es : EchoState n) (state : conn.es = some es) (empty : es.p = none) :
    conn.Held := by
  intro other now queued
  obtain rfl : es = other := Option.some.inj (state.symm.trans now)
  exact absurd empty queued

theorem trash_held (conn next : EchoConn n) (es : EchoState n) (p : Fin n) (code : ErrT)
    (step : ((trash conn es p).bind fun conn => some (conn,ErrT.ok)) = some (next,code)) : next.Held := by
  obtain ⟨after,trashed,done⟩ := Option.bind_eq_some_iff.mp step
  obtain ⟨rfl,_⟩ : after = next ∧ _ := by simpa using done
  simp only [trash,Option.bind_eq_bind,Option.bind_eq_some_iff] at trashed
  obtain ⟨cell,_,freed,_,result⟩ := trashed
  obtain rfl := Option.some.inj result
  exact emptied_held _ {es with p := none} rfl rfl

theorem echoRecv_held (conn next : EchoConn n) (segments : List (Segment n)) (arrives : Arrives conn.mem segments)
    (err code : ErrT) (reply : Reply) (held : conn.Held)
    (step : echoRecv (conn.deliver segments) (segments.head?.map Segment.address) err reply = some (next,code)) :
    next.Held := by
  have fresh : Built (conn.deliver segments).mem (segments.head?.map Segment.address) :=
    .received conn.mem segments arrives
  obtain ⟨s,rest,shape⟩ := List.exists_cons_of_ne_nil arrives.1
  have first : segments.head?.map Segment.address = some s.address := by rw [shape]; rfl
  rw [first] at fresh step
  simp only [echoRecv,Option.bind_eq_bind,Option.bind_eq_some_iff] at step
  obtain ⟨es,passed,step⟩ := step
  have state : conn.es = some es := arg_state (conn.deliver segments) es passed
  split_ifs at step with bad
  · obtain ⟨⟨mem,count⟩,_,done⟩ := Option.bind_eq_some_iff.mp step
    obtain ⟨rfl,_⟩ : _ = next ∧ _ := by simpa using done
    exact emptied_held _ {es with p := none} rfl rfl
  · split at step
    · exact sending_held _ next _ reply code (fun _ => fresh) step
    · split at step
      · exact sending_held _ next _ reply code (fun _ => fresh) step
      · rename_i ptr queued
        obtain ⟨mem,joined,done⟩ := Option.bind_eq_some_iff.mp step
        obtain ⟨rfl,_⟩ : _ = next ∧ _ := by simpa using done
        intro other now _
        obtain rfl : es = other := Option.some.inj (state.symm.trans now)
        rw [queued]
        exact .chained conn.mem mem ptr s.address segments (queued ▸ held es state (by simp [queued])) arrives first joined
    · exact trash_held _ next es s.address code step
    · exact trash_held _ next es s.address code step

theorem freed_held (conn : EchoConn n) (freed : conn.es = none) : conn.Held := by
  intro es state
  rw [freed] at state
  cases state

theorem echoRecvNull_held (conn next : EchoConn n) (err code : ErrT) (reply : Reply) (held : conn.Held)
    (step : echoRecv conn none err reply = some (next,code)) : next.Held := by
  simp only [echoRecv,Option.bind_eq_bind,Option.bind_eq_some_iff] at step
  obtain ⟨es,passed,step⟩ := step
  have state := arg_state conn es passed
  split at step
  · obtain ⟨rfl,_⟩ : _ = next ∧ _ := by simpa using step
    exact freed_held _ rfl
  · exact sending_held conn next {es with state := .closing} reply code (held es state) step

theorem echoSent_held (conn next : EchoConn n) (code : ErrT) (reply : Reply) (held : conn.Held)
    (step : echoSent conn reply = some (next,code)) : next.Held := by
  simp only [echoSent,Option.bind_eq_bind,Option.bind_eq_some_iff] at step
  obtain ⟨es,passed,step⟩ := step
  have state := arg_state conn es passed
  split at step
  · exact sending_held conn next {es with retries := 0} reply code (held es state) step
  · rename_i empty
    split at step
    · obtain ⟨rfl,_⟩ : _ = next ∧ _ := by simpa using step
      exact freed_held _ rfl
    · obtain ⟨rfl,_⟩ : _ = next ∧ _ := by simpa using step
      exact emptied_held _ {es with retries := 0} rfl empty

theorem echoPoll_held (conn next : EchoConn n) (code : ErrT) (reply : Reply) (held : conn.Held)
    (step : echoPoll conn reply = some (next,code)) : next.Held := by
  unfold echoPoll at step
  split at step
  · rename_i es passed
    have state := arg_state conn es passed
    split at step
    · exact sending_held conn next es reply code (held es state) step
    · split at step
      · obtain ⟨rfl,_⟩ : _ = next ∧ _ := by simpa using step
        exact freed_held _ rfl
      · obtain ⟨rfl,_⟩ : conn = next ∧ _ := by simpa using step
        exact held
  · obtain ⟨rfl,_⟩ : _ = next ∧ _ := by simpa using step
    exact held

theorem called_held (conn next : EchoConn n) (enabled : Prop) [Decidable enabled] (call : Option (EchoConn n × ErrT))
    (held : conn.Held) (kept : enabled → ∀ after code, call = some (after,code) → after.Held)
    (step : (if enabled then call.map Prod.fst else some conn) = some next) : next.Held := by
  split at step
  · obtain ⟨⟨after,code⟩,passed,rfl⟩ := Option.map_eq_some_iff.mp step
    exact kept (by assumption) after code passed
  · obtain rfl := Option.some.inj step
    exact held

theorem step_held (conn next : EchoConn n) (event : EchoEvent n) (held : conn.Held)
    (step : conn.step event = some next) : next.Held := by
  cases event with
  | recv segments err reply =>
    exact called_held conn next _ _ held (fun enabled after code passed =>
      echoRecv_held conn after segments enabled.2.2 err code reply held passed) step
  | recvNull err reply =>
    exact called_held conn next _ _ held (fun _ after code passed =>
      echoRecvNull_held {conn with ended := true} after err code reply held passed) step
  | sent reply =>
    exact called_held conn next _ _ held (fun _ after code passed => echoSent_held conn after code reply held passed) step
  | poll reply =>
    exact called_held conn next _ _ held (fun _ after code passed => echoPoll_held conn after code reply held passed) step
  | error =>
    simp only [EchoConn.step] at step
    split at step
    · obtain rfl := Option.some.inj step
      exact freed_held _ rfl
    · obtain rfl := Option.some.inj step
      exact held

/-- In every run the chain of the connection is one of those described. -/
theorem built_run (cell : Fin n → Option (Pbuf n Byte)) (tab : List (Fin n)) (events : List (EchoEvent n))
    (conn : EchoConn n) (ran : run echoStep (some (echoStart cell tab)) events = some conn) : conn.Held := by
  have kept := run_invariant echoStep (fun state => ∀ conn, state = some conn → conn.Held) (by
    intro state event held next stepped
    obtain ⟨before,now,step⟩ := Option.bind_eq_some_iff.mp stepped
    exact step_held before next event (held before now) step) (some (echoStart cell tab)) events (by
    intro conn start
    obtain rfl := Option.some.inj start
    exact emptied_held _ ⟨.accepted,0,none⟩ rfl rfl)
  exact kept conn ran

end Swip.Apps
