import Swip.Apps.EchoSend

/-! Whole runs of an echo connection: what is echoed, what is credited, and where every pbuf
that was handed to `echo_recv` has gone. -/
namespace Swip.Apps
open Device Library.Run

variable {n : Nat}

/-- Every pbuf handed over is freed, queued in `cells`, or in nobody's hands any more. -/
def Accounted (conn : EchoConn n) (cells : Cells n Byte) (leaked : List (Fin n)) : Prop :=
  (conn.mem.freed ++ ids cells ++ leaked).Perm conn.handed

def Registered (callbacks : Callbacks) : Prop :=
  callbacks.arg = true ∧ callbacks.recv = true ∧ callbacks.err = true ∧ callbacks.poll = true

structure Serving (conn : EchoConn n) (es : EchoState n) (cells : Cells n Byte) (leaked : List (Fin n)) : Prop where
  state : conn.es = some es
  registered : Registered conn.callbacks
  live : conn.pcb = .live
  known : es.state ≠ .none
  fresh : es.state = .accepted → es.p = none
  ended : conn.ended = true ↔ es.state = .closing
  queue : Queue conn.mem es.p cells
  accounted : Accounted conn cells leaked

structure Over (conn : EchoConn n) (leaked : List (Fin n)) : Prop where
  state : conn.es = none
  silent : conn.pcb = .live → conn.callbacks = ⟨false,false,false,false,false⟩
  accounted : Accounted conn [] leaked

def EchoSound (conn : EchoConn n) (cells : Cells n Byte) (leaked : List (Fin n)) : Prop :=
  (∃ es, Serving conn es cells leaked) ∨ cells = [] ∧ Over conn leaked

/-- Nothing is lost, doubled or out of order, and the window is credited for what is echoed. -/
def Faithful (conn : EchoConn n) (cells : Cells n Byte) : Prop :=
  conn.written ++ bytes cells = conn.received ∧ conn.credited = conn.written.length

/-- What lwIP guarantees: data comes without an error and not after the NULL pbuf. -/
def Orderly (conn : EchoConn n) : EchoEvent n → Prop
  | .recv _ err _ => err = .ok ∧ conn.ended = false
  | .error => False
  | _ => True

/-- Nothing is queued when the connection breaks or when data is thrown away. -/
def Careful (conn : EchoConn n) : EchoEvent n → Prop
  | .recv segments err _ => ∀ es ∈ conn.es, Arrives conn.mem segments → es.p ≠ none → err = .ok ∧ es.state ≠ .closing
  | .error => ∀ es ∈ conn.es, es.p = none
  | _ => True

instance (conn : EchoConn n) : (event : EchoEvent n) → Decidable (Orderly conn event)
  | .recv .. => inferInstanceAs (Decidable (_ ∧ _))
  | .error => .isFalse id
  | .recvNull .. => .isTrue trivial
  | .sent _ => .isTrue trivial
  | .poll _ => .isTrue trivial

instance (conn : EchoConn n) : (event : EchoEvent n) → Decidable (Careful conn event)
  | .recv segments err _ =>
    inferInstanceAs (Decidable (∀ es ∈ conn.es, Arrives conn.mem segments → es.p ≠ none → err = .ok ∧ es.state ≠ .closing))
  | .error => inferInstanceAs (Decidable (∀ es ∈ conn.es, es.p = none))
  | .recvNull .. => .isTrue trivial
  | .sent _ => .isTrue trivial
  | .poll _ => .isTrue trivial

theorem Serving.empty {conn : EchoConn n} {es : EchoState n} {cells : Cells n Byte} {leaked : List (Fin n)}
    (serving : Serving conn es cells leaked) : es.p = none ↔ cells = [] := by
  have chain := serving.queue.chain
  constructor
  · intro none
    rw [none] at chain
    cases chain
    rfl
  · rintro rfl
    exact chain.link_none

theorem Serving.begun {conn : EchoConn n} {es : EchoState n} {cells : Cells n Byte} {leaked : List (Fin n)}
    (serving : Serving conn es cells leaked) (queued : es.p ≠ none) : es.state = .received ∨ es.state = .closing := by
  cases state : es.state with
  | none => exact absurd state serving.known
  | accepted => exact absurd (serving.fresh state) queued
  | received => exact .inl rfl
  | closing => exact .inr rfl

theorem echoSend_serving (conn : EchoConn n) (es : EchoState n) (reply : Reply) (cells : Cells n Byte)
    (leaked : List (Fin n)) (registered : Registered conn.callbacks) (live : conn.pcb = .live)
    (begun : es.state = .received ∨ es.state = .closing) (ended : conn.ended = true ↔ es.state = .closing)
    (queue : Queue conn.mem es.p cells) (accounted : Accounted conn cells leaked) :
    ∃ after es' rest, echoSend conn es reply = some after ∧ Serving after es' rest leaked ∧
      (Faithful conn cells → Faithful after rest) := by
  obtain ⟨mem,q,sent,rest,done,rfl,chain,freed,_,_⟩ := echoSendLoop_queue (n + 1) conn.mem es.p conn.written conn.credited
    reply.writes cells queue.chain queue.valid (Nat.lt_succ_of_le queue.chain.length_le)
  let next : EchoState n := {es with p := q}
  let after : EchoConn n := {conn with mem := mem, es := some next, written := conn.written ++ bytes sent,
                                       credited := conn.credited + (bytes sent).length}
  refine ⟨after,next,rest,by simp [echoSend,done,after,next],
    ⟨rfl,registered,live,?_,?_,ended,queue.rest chain,?_⟩,?_⟩
  · rcases begun with state | state <;> simp [next,state]
  · rcases begun with state | state <;> simp [next,state]
  · simpa [Accounted,after,freed] using accounted
  · intro faithful
    obtain ⟨order,credit⟩ := faithful
    exact ⟨by simp [after,← order],by simp [after,credit]⟩

def Kept (conn : EchoConn n) (event : EchoEvent n) (cells : Cells n Byte) (leaked : List (Fin n))
    (after : Option (EchoConn n)) : Prop :=
  ∃ next rest lost, after = some next ∧ EchoSound next rest lost ∧ (lost = [] ↔ leaked = [] ∧ Careful conn event) ∧
    (Faithful conn cells → Orderly conn event → Faithful next rest)

theorem kept_send (conn middle : EchoConn n) (event : EchoEvent n) (es : EchoState n) (reply : Reply)
    (cells longer : Cells n Byte) (leaked : List (Fin n)) (registered : Registered middle.callbacks)
    (live : middle.pcb = .live) (begun : es.state = .received ∨ es.state = .closing)
    (ended : middle.ended = true ↔ es.state = .closing) (queue : Queue middle.mem es.p longer)
    (accounted : Accounted middle longer leaked) (careful : Careful conn event)
    (faithful : Faithful conn cells → Faithful middle longer) :
    Kept conn event cells leaked (((echoSend (tcpSent middle) es reply).bind fun conn => some (conn,ErrT.ok)).map Prod.fst) := by
  obtain ⟨next,es,rest,sent,serving,moved⟩ := echoSend_serving (tcpSent middle) es reply longer leaked registered live
    begun ended queue accounted
  refine ⟨next,rest,leaked,by simp [sent],.inl ⟨es,serving⟩,by simp [careful],?_⟩
  intro before _
  exact moved (faithful before)

theorem kept_close (conn middle : EchoConn n) (event : EchoEvent n) (reply : Reply) (leaked : List (Fin n))
    (accounted : Accounted middle [] leaked) (careful : Careful conn event)
    (faithful : Faithful conn [] → Faithful middle []) :
    Kept conn event [] leaked (some (echoClose middle reply)) :=
  ⟨echoClose middle reply,[],leaked,rfl,.inr ⟨rfl,rfl,fun _ => rfl,accounted⟩,by simp [careful],
    fun before _ => faithful before⟩

theorem kept_same (conn : EchoConn n) (event : EchoEvent n) (cells : Cells n Byte) (leaked : List (Fin n))
    (sound : EchoSound conn cells leaked) (careful : Careful conn event) :
    Kept conn event cells leaked (some conn) :=
  ⟨conn,cells,leaked,rfl,sound,by simp [careful],fun before _ => before⟩

theorem kept_recvNull (conn : EchoConn n) (es : EchoState n) (cells : Cells n Byte) (leaked : List (Fin n))
    (serving : Serving conn es cells leaked) (err : ErrT) (reply : Reply) :
    Kept conn (.recvNull err reply) cells leaked (conn.step (.recvNull err reply)) := by
  obtain ⟨arg,recv,_⟩ := serving.registered
  have enabled : conn.pcb = .live ∧ conn.callbacks.recv = true := ⟨serving.live,recv⟩
  simp only [EchoConn.step,if_pos enabled]
  cases queued : es.p with
  | none =>
    obtain rfl := serving.empty.mp queued
    have step : (echoRecv {conn with ended := true} none err reply).map Prod.fst =
        some (echoClose {conn with ended := true} reply) := by
      simp [echoRecv,EchoConn.arg,arg,serving.state,queued]
    rw [step]
    exact kept_close conn _ _ reply leaked serving.accounted trivial id
  | some ptr =>
    have step : (echoRecv {conn with ended := true} none err reply).map Prod.fst =
        ((echoSend (tcpSent {conn with ended := true}) {es with state := .closing} reply).bind
          fun conn => some (conn,ErrT.ok)).map Prod.fst := by
      simp [echoRecv,EchoConn.arg,arg,serving.state,queued]
    rw [step]
    exact kept_send conn {conn with ended := true} _ {es with state := .closing} reply cells cells leaked
      serving.registered serving.live (.inr rfl) (by simp) serving.queue serving.accounted trivial id

theorem kept_sent (conn : EchoConn n) (es : EchoState n) (cells : Cells n Byte) (leaked : List (Fin n))
    (serving : Serving conn es cells leaked) (reply : Reply) :
    Kept conn (.sent reply) cells leaked (conn.step (.sent reply)) := by
  obtain ⟨arg,_⟩ := serving.registered
  by_cases enabled : conn.pcb = .live ∧ conn.callbacks.sent = true
  · simp only [EchoConn.step,if_pos enabled]
    cases queued : es.p with
    | some ptr =>
      have begun : es.state = .received ∨ es.state = .closing := serving.begun (by simp [queued])
      have step : (echoSent conn reply).map Prod.fst =
          ((echoSend (tcpSent conn) {es with retries := 0} reply).bind fun conn => some (conn,ErrT.ok)).map Prod.fst := by
        simp [echoSent,EchoConn.arg,arg,serving.state,queued]
      rw [step]
      exact kept_send conn conn _ {es with retries := 0} reply cells cells leaked serving.registered serving.live begun
        serving.ended serving.queue serving.accounted trivial id
    | none =>
      obtain rfl := serving.empty.mp queued
      by_cases closing : es.state = .closing
      · have step : (echoSent conn reply).map Prod.fst = some (echoClose conn reply) := by
          simp [echoSent,EchoConn.arg,arg,serving.state,queued,closing]
        rw [step]
        exact kept_close conn conn _ reply leaked serving.accounted trivial id
      · have step : (echoSent conn reply).map Prod.fst = some {conn with es := some {es with retries := 0}} := by
          simp [echoSent,EchoConn.arg,arg,serving.state,queued,closing]
        rw [step]
        exact ⟨_,[],leaked,rfl,.inl ⟨_,rfl,serving.registered,serving.live,serving.known,serving.fresh,serving.ended,
          serving.queue,serving.accounted⟩,by simp [Careful],fun before _ => before⟩
  · simp only [EchoConn.step,if_neg enabled]
    exact kept_same conn _ cells leaked (.inl ⟨es,serving⟩) trivial

theorem kept_poll (conn : EchoConn n) (es : EchoState n) (cells : Cells n Byte) (leaked : List (Fin n))
    (serving : Serving conn es cells leaked) (reply : Reply) :
    Kept conn (.poll reply) cells leaked (conn.step (.poll reply)) := by
  obtain ⟨arg,_,_,poll⟩ := serving.registered
  have enabled : conn.pcb = .live ∧ conn.callbacks.poll = true := ⟨serving.live,poll⟩
  simp only [EchoConn.step,if_pos enabled]
  cases queued : es.p with
  | some ptr =>
    have begun : es.state = .received ∨ es.state = .closing := serving.begun (by simp [queued])
    have step : (echoPoll conn reply).map Prod.fst =
        ((echoSend (tcpSent conn) es reply).bind fun conn => some (conn,ErrT.ok)).map Prod.fst := by
      simp [echoPoll,EchoConn.arg,arg,serving.state,queued]
    rw [step]
    exact kept_send conn conn _ es reply cells cells leaked serving.registered serving.live begun serving.ended
      serving.queue serving.accounted trivial id
  | none =>
    obtain rfl := serving.empty.mp queued
    by_cases closing : es.state = .closing
    · have step : (echoPoll conn reply).map Prod.fst = some (echoClose conn reply) := by
        simp [echoPoll,EchoConn.arg,arg,serving.state,queued,closing]
      rw [step]
      exact kept_close conn conn _ reply leaked serving.accounted trivial id
    · have step : (echoPoll conn reply).map Prod.fst = some conn := by
        simp [echoPoll,EchoConn.arg,arg,serving.state,queued,closing]
      rw [step]
      exact kept_same conn _ [] leaked (.inl ⟨es,serving⟩) trivial

theorem kept_error (conn : EchoConn n) (es : EchoState n) (cells : Cells n Byte) (leaked : List (Fin n))
    (serving : Serving conn es cells leaked) : Kept conn .error cells leaked (conn.step .error) := by
  obtain ⟨_,_,err,_⟩ := serving.registered
  have enabled : conn.pcb = .live ∧ conn.callbacks.err = true := ⟨serving.live,err⟩
  simp only [EchoConn.step,if_pos enabled]
  refine ⟨echoError conn,[],ids cells ++ leaked,rfl,.inr ⟨rfl,rfl,by simp [echoError],?_⟩,?_,fun _ orderly => orderly.elim⟩
  · simpa [Accounted,echoError] using serving.accounted
  · simp [Careful,serving.state,serving.empty,ids,and_comm]

theorem deliver_queues (conn : EchoConn n) (es : EchoState n) (cells : Cells n Byte) (leaked : List (Fin n))
    (serving : Serving conn es cells leaked) (segments : List (Segment n)) (arrives : Arrives conn.mem segments) :
    ∃ p, segments.head?.map Segment.address = some p ∧ Queue (conn.deliver segments).mem es.p cells ∧
      Queue (conn.deliver segments).mem (some p) (arrived segments) ∧
      (∀ a ∈ ids cells, a ∉ ids (arrived segments)) ∧ (conn.deliver segments).mem.freed = conn.mem.freed := by
  obtain ⟨_,_,freed⟩ := place_arrived conn.mem segments arrives.2.1
  obtain ⟨old,new,apart⟩ := arrives_queues serving.queue segments arrives
  obtain ⟨s,rest,rfl⟩ := List.exists_cons_of_ne_nil arrives.1
  exact ⟨s.address,rfl,old,new,apart,freed⟩

theorem kept_dropped (conn : EchoConn n) (es : EchoState n) (cells : Cells n Byte) (leaked : List (Fin n))
    (serving : Serving conn es cells leaked) (segments : List (Segment n)) (arrives : Arrives conn.mem segments)
    (err : ErrT) (reply : Reply) (bad : err = .ok → es.state = .closing) (p : Fin n) (credit : Nat)
    (queue : Queue (conn.deliver segments).mem (some p) (arrived segments))
    (placed : (conn.deliver segments).mem.freed = conn.mem.freed) :
    ∃ mem count, pbufFree (conn.deliver segments).mem (some p) = some (mem,count) ∧
      Kept conn (.recv segments err reply) cells leaked (some {conn.deliver segments with
        mem := mem, es := some {es with p := none}, credited := conn.credited + credit}) := by
  obtain ⟨mem,count,freed,_,_,log,_⟩ := pbufFree_all (conn.deliver segments).mem p (arrived segments) queue.chain
    (fun c member => (arrived_unshared segments c member).1)
  refine ⟨mem,count,freed,_,[],ids cells ++ leaked,rfl,.inl ⟨{es with p := none},rfl,serving.registered,serving.live,
    serving.known,fun _ => rfl,serving.ended,.empty mem,?_⟩,?_,?_⟩
  · have before := serving.accounted
    simp only [Accounted,log,placed,arrived_ids,List.perm_iff_count,List.count_append] at before ⊢
    intro a
    have here := before a
    simp only [EchoConn.deliver,List.count_append,ids_nil,List.count_nil]
    omega
  · have careful : Careful conn (.recv segments err reply) ↔ es.p = none := by
      simp only [Careful,serving.state,Option.mem_def,Option.some.injEq,forall_eq',arrives,true_imp_iff]
      constructor
      · intro kept
        by_contra queued
        exact (kept queued).2 (bad (kept queued).1)
      · intro none queued
        exact absurd none queued
    rw [careful,serving.empty]
    simp [ids,and_comm]
  · rintro _ ⟨rfl,open_⟩
    rw [serving.ended.mpr (bad rfl)] at open_
    simp at open_

theorem kept_first (conn : EchoConn n) (es : EchoState n) (cells : Cells n Byte) (leaked : List (Fin n))
    (serving : Serving conn es cells leaked) (segments : List (Segment n)) (p : Fin n) (next : EchoState n)
    (reply : Reply) (none : es.p = none) (open_ : es.state ≠ .closing) (begun : next.state = .received)
    (first : next.p = some p) (queue : Queue (conn.deliver segments).mem (some p) (arrived segments))
    (placed : (conn.deliver segments).mem.freed = conn.mem.freed) :
    Kept conn (.recv segments .ok reply) cells leaked
      (((echoSend (tcpSent (conn.deliver segments)) next reply).bind fun conn => some (conn,ErrT.ok)).map Prod.fst) := by
  obtain rfl := serving.empty.mp none
  apply kept_send conn (conn.deliver segments) (.recv segments .ok reply) next reply [] (arrived segments) leaked
    serving.registered serving.live (.inl begun)
  · change conn.ended = true ↔ _
    simp [serving.ended,open_,begun]
  · rw [first]
    exact queue
  · have before := serving.accounted
    simp only [Accounted,placed,arrived_ids,List.perm_iff_count,List.count_append] at before ⊢
    intro a
    have here := before a
    simp only [ids_nil,List.count_nil,EchoConn.deliver,List.count_append] at here ⊢
    omega
  · simp [Careful,serving.state,none]
  · intro faithful
    obtain ⟨order,credit⟩ := faithful
    exact ⟨by simp [EchoConn.deliver,arrived_bytes,← order],credit⟩

theorem kept_chained (conn : EchoConn n) (es : EchoState n) (cells : Cells n Byte) (leaked : List (Fin n))
    (serving : Serving conn es cells leaked) (segments : List (Segment n)) (p ptr : Fin n) (reply : Reply)
    (queued : es.p = some ptr) (state : es.state = .received)
    (old : Queue (conn.deliver segments).mem (some ptr) cells)
    (new : Queue (conn.deliver segments).mem (some p) (arrived segments))
    (apart : ∀ a ∈ ids cells, a ∉ ids (arrived segments))
    (placed : (conn.deliver segments).mem.freed = conn.mem.freed) :
    ∃ mem, pbufChain (conn.deliver segments).mem ptr p = some mem ∧
      Kept conn (.recv segments .ok reply) cells leaked (some {conn.deliver segments with mem := mem}) := by
  obtain ⟨mem,joined,chained,queue,content,all,_,freed⟩ := old.append new
    (fun c member => (arrived_unshared segments c member).1) apart
  refine ⟨mem,chained,_,joined,leaked,rfl,.inl ⟨es,serving.state,serving.registered,serving.live,serving.known,
    serving.fresh,serving.ended,by rw [queued]; exact queue,?_⟩,?_,?_⟩
  · have before := serving.accounted
    simp only [Accounted,freed,placed,all,arrived_ids,List.perm_iff_count,List.count_append] at before ⊢
    intro a
    have here := before a
    simp only [EchoConn.deliver,List.count_append]
    omega
  · simp [Careful,serving.state,state]
  · intro faithful _
    obtain ⟨order,credit⟩ := faithful
    exact ⟨by simp [EchoConn.deliver,content,arrived_bytes,← order],credit⟩

theorem kept_recv (conn : EchoConn n) (es : EchoState n) (cells : Cells n Byte) (leaked : List (Fin n))
    (serving : Serving conn es cells leaked) (segments : List (Segment n)) (err : ErrT) (reply : Reply) :
    Kept conn (.recv segments err reply) cells leaked (conn.step (.recv segments err reply)) := by
  obtain ⟨arg,recv,_⟩ := serving.registered
  by_cases arrives : Arrives conn.mem segments
  · have enabled : conn.pcb = .live ∧ conn.callbacks.recv = true ∧ Arrives conn.mem segments :=
      ⟨serving.live,recv,arrives⟩
    obtain ⟨p,head,old,new,apart,placed⟩ := deliver_queues conn es cells leaked serving segments arrives
    have passed : (conn.deliver segments).arg = some es := by simp [EchoConn.arg,EchoConn.deliver,arg,serving.state]
    simp only [EchoConn.step,if_pos enabled,head]
    by_cases good : err = .ok
    · subst good
      cases state : es.state with
      | none => exact absurd state serving.known
      | closing =>
        obtain ⟨cell,read⟩ : ∃ cell, (conn.deliver segments).mem.cell p = some cell := by
          have chain := new.chain
          generalize arrived segments = packet at chain
          cases chain with
          | cons _ cell _ read _ => exact ⟨cell,read⟩
        obtain ⟨mem,count,freed,kept⟩ := kept_dropped conn es cells leaked serving segments arrives .ok reply
          (fun _ => state) p cell.totLen new placed
        have step : (echoRecv (conn.deliver segments) (some p) .ok reply).map Prod.fst = some {conn.deliver segments with
            mem := mem, es := some {es with p := none}, credited := conn.credited + cell.totLen} := by
          simp [echoRecv,passed,state,trash,read,freed]
          rfl
        rw [step]
        exact kept
      | accepted =>
        have step : (echoRecv (conn.deliver segments) (some p) .ok reply).map Prod.fst =
            ((echoSend (tcpSent (conn.deliver segments)) {es with state := .received, p := some p} reply).bind
              fun conn => some (conn,ErrT.ok)).map Prod.fst := by
          simp [echoRecv,passed,state]
        rw [step]
        exact kept_first conn es cells leaked serving segments p {es with state := .received, p := some p} reply
          (serving.fresh state) (by simp [state]) rfl rfl new placed
      | received =>
        cases queued : es.p with
        | none =>
          have step : (echoRecv (conn.deliver segments) (some p) .ok reply).map Prod.fst =
              ((echoSend (tcpSent (conn.deliver segments)) {es with p := some p} reply).bind
                fun conn => some (conn,ErrT.ok)).map Prod.fst := by
            simp [echoRecv,passed,state,queued]
          rw [step]
          exact kept_first conn es cells leaked serving segments p {es with p := some p} reply queued (by simp [state])
            state rfl new placed
        | some ptr =>
          rw [queued] at old
          obtain ⟨mem,chained,kept⟩ := kept_chained conn es cells leaked serving segments p ptr reply queued state old new
            apart placed
          have step : (echoRecv (conn.deliver segments) (some p) .ok reply).map Prod.fst =
              some {conn.deliver segments with mem := mem} := by
            simp [echoRecv,passed,state,queued,chained]
          rw [step]
          exact kept
    · obtain ⟨mem,count,freed,kept⟩ := kept_dropped conn es cells leaked serving segments arrives err reply
        (fun same => absurd same good) p 0 new placed
      have step : (echoRecv (conn.deliver segments) (some p) err reply).map Prod.fst = some {conn.deliver segments with
          mem := mem, es := some {es with p := none}, credited := conn.credited + 0} := by
        simp [echoRecv,passed,good,freed]
        rfl
      rw [step]
      exact kept
  · have disabled : ¬ (conn.pcb = .live ∧ conn.callbacks.recv = true ∧ Arrives conn.mem segments) :=
      fun enabled => arrives enabled.2.2
    simp only [EchoConn.step,if_neg disabled]
    exact kept_same conn _ cells leaked (.inl ⟨es,serving⟩) (fun _ _ impossible => absurd impossible arrives)

theorem kept_over (conn : EchoConn n) (leaked : List (Fin n)) (done : Over conn leaked) (event : EchoEvent n) :
    Kept conn event [] leaked (conn.step event) := by
  have ignored : conn.step event = some conn := by
    by_cases live : conn.pcb = .live
    · have none := done.silent live
      cases event <;> simp [EchoConn.step,none]
    · cases event <;> simp [EchoConn.step,live]
  have careful : Careful conn event := by cases event <;> simp [Careful,done.state]
  rw [ignored]
  exact kept_same conn event [] leaked (.inr ⟨rfl,done⟩) careful

theorem kept_step (conn : EchoConn n) (cells : Cells n Byte) (leaked : List (Fin n)) (sound : EchoSound conn cells leaked)
    (event : EchoEvent n) : Kept conn event cells leaked (conn.step event) := by
  rcases sound with ⟨es,serving⟩ | ⟨rfl,done⟩
  · cases event with
    | recv segments err reply => exact kept_recv conn es cells leaked serving segments err reply
    | recvNull err reply => exact kept_recvNull conn es cells leaked serving err reply
    | sent reply => exact kept_sent conn es cells leaked serving reply
    | poll reply => exact kept_poll conn es cells leaked serving reply
    | error => exact kept_error conn es cells leaked serving
  · exact kept_over conn leaked done event

def echoStart (cell : Fin n → Option (Pbuf n Byte)) (tab : List (Fin n)) : EchoConn n := (echoAccept ⟨cell,tab,[]⟩ true).1

theorem start_sound (cell : Fin n → Option (Pbuf n Byte)) (tab : List (Fin n)) :
    EchoSound (echoStart cell tab) [] [] ∧ Faithful (echoStart cell tab) [] :=
  ⟨.inl ⟨⟨.accepted,0,none⟩,rfl,⟨rfl,rfl,rfl,rfl⟩,rfl,by simp,fun _ => rfl,by simp [echoStart,echoAccept],.empty _,
    by simp [Accounted,echoStart,echoAccept]⟩,rfl,rfl⟩

theorem echo_runs (conn : EchoConn n) (cells : Cells n Byte) (leaked : List (Fin n)) (sound : EchoSound conn cells leaked)
    (events : List (EchoEvent n)) :
    ∃ last rest lost, run echoStep (some conn) events = some last ∧ EchoSound last rest lost ∧
      (lost = [] ↔ leaked = [] ∧ Along echoStep (WhileRunning Careful) (some conn) events) ∧
      (Faithful conn cells → Along echoStep (WhileRunning Orderly) (some conn) events → Faithful last rest) := by
  induction events generalizing conn cells leaked with
  | nil => exact ⟨conn,cells,leaked,rfl,sound,by simp [Along],fun faithful _ => faithful⟩
  | cons event events ih =>
    obtain ⟨next,middle,lost,step,kept,careful,faithful⟩ := kept_step conn cells leaked sound event
    obtain ⟨last,rest,gone,ran,ends,later,stays⟩ := ih next middle lost kept
    have turn : echoStep (some conn) event = some next := step
    refine ⟨last,rest,gone,by rw [run_cons,turn,ran],ends,?_,?_⟩
    · rw [later,careful,Along,turn]
      simp [WhileRunning,and_assoc]
    · intro before steps
      obtain ⟨orderly,along⟩ := steps
      rw [turn] at along
      exact stays (faithful before (orderly conn rfl)) along

theorem sound_queued (conn : EchoConn n) (cells : Cells n Byte) (leaked : List (Fin n)) (sound : EchoSound conn cells leaked) :
    conn.queued = bytes cells := by
  rcases sound with ⟨es,serving⟩ | ⟨rfl,done⟩
  · rw [EchoConn.queued,serving.state]
    exact payloadFrom_chain serving.queue.chain n serving.queue.chain.length_le
  · simp [EchoConn.queued,done.state]

/-- In every orderly run the bytes accepted by `tcp_write` and the bytes still queued are the
bytes received, and the window has been credited for what was accepted; so when the state is
freed everything has been echoed and the whole window is restored. No callback faults. -/
theorem echo_fidelity (cell : Fin n → Option (Pbuf n Byte)) (tab : List (Fin n)) (events : List (EchoEvent n))
    (orderly : Along echoStep (WhileRunning Orderly) (some (echoStart cell tab)) events) :
    ∃ conn, run echoStep (some (echoStart cell tab)) events = some conn ∧
      conn.written ++ conn.queued = conn.received ∧ conn.credited = conn.written.length ∧
      (conn.es = none → conn.written = conn.received ∧ conn.credited = conn.received.length) := by
  obtain ⟨sound,faithful⟩ := start_sound cell tab
  obtain ⟨conn,cells,leaked,ran,sound,_,kept⟩ := echo_runs (echoStart cell tab) [] [] sound events
  obtain ⟨order,credit⟩ := kept faithful orderly
  rw [← sound_queued conn cells leaked sound] at order
  refine ⟨conn,ran,order,credit,?_⟩
  intro freed
  have empty : conn.queued = [] := by simp [EchoConn.queued,freed]
  rw [empty,List.append_nil] at order
  exact ⟨order,by rw [credit,order]⟩

def chainedRun : List (EchoEvent 3) :=
  [.recv [⟨0,[0x41,0x42],.pool⟩,⟨1,[0x43],.pool⟩] .ok ⟨[(10,.ok)],.ok⟩,.recv [⟨2,[0x44],.pool⟩] .ok ⟨[],.ok⟩,
    .recvNull .ok ⟨[],.ok⟩,.poll ⟨[(10,.mem)],.ok⟩,.sent ⟨[(10,.ok),(10,.ok)],.ok⟩,.poll ⟨[],.ok⟩]

theorem echo_fidelity_chained :
    ∃ conn, run echoStep (some (echoStart (fun _ => none) [])) chainedRun = some conn ∧
      conn.received = [0x41,0x42,0x43,0x44] ∧ conn.written = [0x41,0x42,0x43,0x44] ∧ conn.credited = 4 := by
  obtain ⟨conn,ran,_,_,closed⟩ := echo_fidelity (fun _ => none) [] chainedRun (by decide +kernel)
  have ended : (run echoStep (some (echoStart (fun _ => none) [])) chainedRun).map (fun conn => (conn.es.isNone,conn.received)) =
      some (true,[0x41,0x42,0x43,0x44]) := by decide +kernel
  rw [ran] at ended
  simp only [Option.map_some,Option.some.injEq,Prod.mk.injEq,Option.isNone_iff_eq_none] at ended
  obtain ⟨freed,received⟩ := ended
  obtain ⟨whole,restored⟩ := closed freed
  rw [received] at whole restored
  exact ⟨conn,ran,received,whole,restored⟩

/-- No callback faults in any run, and once the state is freed every pbuf handed to `echo_recv`
has been freed exactly once if and only if nothing was queued whenever the connection broke
or data was thrown away. -/
theorem echo_releases (cell : Fin n → Option (Pbuf n Byte)) (tab : List (Fin n)) (events : List (EchoEvent n)) :
    ∃ conn, run echoStep (some (echoStart cell tab)) events = some conn ∧
      (conn.es = none → (conn.mem.freed.Perm conn.handed ↔
        Along echoStep (WhileRunning Careful) (some (echoStart cell tab)) events)) := by
  obtain ⟨sound,_⟩ := start_sound cell tab
  obtain ⟨conn,cells,leaked,ran,sound,careful,_⟩ := echo_runs (echoStart cell tab) [] [] sound events
  refine ⟨conn,ran,?_⟩
  intro freed
  have all : (conn.mem.freed ++ leaked).Perm conn.handed := by
    rcases sound with ⟨es,serving⟩ | ⟨rfl,done⟩
    · simp [serving.state] at freed
    · simpa [Accounted] using done.accounted
  simp only [true_and] at careful
  rw [← careful]
  constructor
  · intro returned
    have lengths := (returned.trans all.symm).length_eq
    rw [List.length_append] at lengths
    exact List.eq_nil_of_length_eq_zero (by omega)
  · rintro rfl
    simpa using all

theorem echo_releases_chained :
    ∃ conn, run echoStep (some (echoStart (fun _ => none) [])) chainedRun = some conn ∧
      conn.mem.freed.Perm conn.handed := by
  obtain ⟨conn,ran,released⟩ := echo_releases (fun _ => none) [] chainedRun
  have freed : (run echoStep (some (echoStart (fun _ => none) [])) chainedRun).map (·.es.isNone) = some true := by
    decide +kernel
  rw [ran] at freed
  exact ⟨conn,ran,(released (by simpa using freed)).mpr (by decide +kernel)⟩

/-- `tcp_write` is out of memory, so the packet stays queued, and then the peer resets the
connection: the state is freed and the packet is not. -/
theorem echo_leaks :
    ∃ conn, run echoStep (some (echoStart (fun _ => none) []))
        [.recv [(⟨0,[0x41],.pool⟩ : Segment 1)] .ok ⟨[(100,.mem)],.ok⟩,.error] = some conn ∧
      conn.es = none ∧ conn.handed = [0] ∧ conn.mem.freed = [] ∧ ¬ conn.mem.freed.Perm conn.handed :=
  ⟨_,rfl,rfl,rfl,rfl,by decide⟩

end Swip.Apps
