import Swip.Apps.HttpSingle

/-! Whether the HTTP client goes on sending. Its connections have no poll callback, so a rest
of the request moves only when lwIP reports bytes acknowledged. -/
namespace Swip.Apps
open Device Library.Run

variable {n : Nat}

/-- The answer to the `i`th attempt of a callback. -/
def answer (writes : List (Nat × ErrT)) (i : Nat) : Nat × ErrT := nextWrite (writes.drop i)

/-- Among the answers of the stack there is an attempt that takes a byte: the `j`th, after `j`
attempts that were out of memory while the send buffer had room. Attempts after the first are
made with two bytes or more. -/
def Accepts (len : Nat) (writes : List (Nat × ErrT)) : Prop :=
  ∃ j, (∀ i < j, (answer writes i).2 = .mem ∧ (answer writes (i + 1)).1 ≠ 0) ∧ (answer writes j).2 = .ok ∧
    (j = 0 ∧ 0 < len ∨ 0 < j ∧ 1 < len / 2 ^ j)

theorem answer_succ (writes : List (Nat × ErrT)) (i : Nat) : answer writes (i + 1) = answer writes.tail i := by
  simp [answer,← List.drop_one,List.drop_drop,Nat.add_comm]

theorem halved (len j : Nat) : len / 2 ^ (j + 1) = len / 2 / 2 ^ j := by
  rw [Nat.pow_succ,Nat.mul_comm,Nat.div_div_eq_div_mul]

theorem accepts_turn (len : Nat) (writes : List (Nat × ErrT)) :
    Accepts len writes ↔ ((nextWrite writes).2 = .ok ∧ 0 < len) ∨
      ((nextWrite writes).2 = .mem ∧ retryLen len writes > 1 ∧ Accepts (retryLen len writes) writes.tail) := by
  constructor
  · intro ⟨j,failed,ok,long⟩
    cases j with
    | zero =>
      rcases long with ⟨_,long⟩ | ⟨impossible,_⟩
      · exact .inl ⟨ok,long⟩
      · omega
    | succ j =>
      have half : 1 < len / 2 ^ (j + 1) := by
        rcases long with ⟨impossible,_⟩ | ⟨_,long⟩
        · omega
        · exact long
      obtain ⟨full,room⟩ := failed 0 (by omega)
      have room : (nextWrite writes.tail).1 ≠ 0 := by rw [answer_succ] at room; simpa [answer] using room
      have shorter : retryLen len writes = len / 2 := by simp [retryLen,room]
      rw [shorter]
      refine .inr ⟨by simpa [answer] using full,?_,j,?_,?_,?_⟩
      · rw [halved] at half
        have := Nat.div_le_self (len / 2) (2 ^ j)
        omega
      · intro i before
        have next := failed (i + 1) (by omega)
        rwa [answer_succ,answer_succ] at next
      · rwa [answer_succ] at ok
      · rw [halved] at half
        rcases Nat.eq_zero_or_pos j with rfl | positive
        · exact .inl ⟨rfl,by simp at half; omega⟩
        · exact .inr ⟨positive,half⟩
  · intro either
    rcases either with ⟨ok,long⟩ | ⟨full,again,j,failed,ok,long⟩
    · exact ⟨0,by simp,by simpa [answer] using ok,.inl ⟨rfl,long⟩⟩
    · obtain ⟨shorter,room⟩ := retryLen_half len writes again
      rw [shorter] at again long
      refine ⟨j + 1,?_,?_,.inr ⟨by omega,?_⟩⟩
      · intro i before
        cases i with
        | zero =>
          rw [answer_succ]
          exact ⟨by simpa [answer] using full,by simpa [answer] using room⟩
        | succ i =>
          rw [answer_succ,answer_succ]
          exact failed i (by omega)
      · rw [answer_succ]
        exact ok
      · rw [halved]
        rcases long with ⟨rfl,_⟩ | ⟨_,long⟩
        · simpa using again
        · exact long

theorem myHttpWriteLoop_accepts (available fuel len : Nat) (writes : List (Nat × ErrT)) (enough : len < fuel)
    (inside : len ≤ available) :
    (∃ last attempts, myHttpWriteLoop available fuel len writes = some (.ok,last,attempts) ∧ 0 < last) ↔
      Accepts len writes := by
  induction fuel generalizing len writes with
  | zero => omega
  | succ fuel ih =>
    have within : ¬ len > available := by omega
    rw [accepts_turn,myHttpWriteLoop,if_neg within]
    by_cases full : (nextWrite writes).2 = .mem
    · rw [if_pos full]
      by_cases again : retryLen len writes > 1
      · have half := (retryLen_half len writes again).1
        have later := ih (retryLen len writes) writes.tail (by omega) (by omega)
        rw [if_pos again,← later]
        rcases myHttpWriteLoop available fuel (retryLen len writes) writes.tail with _ | ⟨err,last,attempts⟩ <;>
          simp [full,again]
      · simp [full,again]
    · rw [if_neg full]
      simp [full]

def HttpClientState.Accepts (hs : HttpClientState) (writes : List (Nat × ErrT)) : Prop :=
  Apps.Accepts (if (nextWrite writes).1 < hs.sizeLeft then (nextWrite writes).1 else hs.sizeLeft) writes

theorem myHttpSendData_accepts (hs : HttpClientState) (writes : List (Nat × ErrT)) (bounded : hs.Bounded) :
    ∃ len attempts, len ≤ hs.sizeLeft ∧ (0 < len ↔ 0 < hs.sizeLeft ∧ hs.Accepts writes) ∧ myHttpSendData hs writes =
      some ({hs with ptr := hs.ptr + len, sizeLeft := hs.sizeLeft - len},(hs.buffer.drop hs.ptr).take len,attempts) := by
  obtain ⟨size,inside⟩ := bounded
  by_cases some : hs.sizeLeft > 0
  · have start : (if (nextWrite writes).1 < hs.sizeLeft then (nextWrite writes).1 else hs.sizeLeft) ≤ hs.sizeLeft := by
      split_ifs <;> omega
    have nonzero : ¬ hs.sizeLeft = 0 := by omega
    have exactly := myHttpWriteLoop_accepts (hs.buffer.length - hs.ptr) (hs.sizeLeft + 1) _ writes
      (Nat.lt_succ_of_le start) (by omega)
    obtain ⟨err,last,attempts,done,bound,success⟩ := myHttpWriteLoop_ends (hs.buffer.length - hs.ptr) (hs.sizeLeft + 1) _
      writes (Nat.lt_succ_of_le start) (by omega)
    rw [done] at exactly
    by_cases ok : err = .ok
    · subst ok
      have within := bound last (List.mem_of_getLast? (success rfl))
      refine ⟨last,attempts,by omega,?_,by simp [myHttpSendData,some,myHttpWrite,nonzero,done]⟩
      rw [HttpClientState.Accepts,← exactly]
      simp [some]
    · refine ⟨0,attempts,Nat.zero_le _,?_,by simp [myHttpSendData,some,myHttpWrite,nonzero,done,ok]⟩
      rw [HttpClientState.Accepts,← exactly]
      simp [ok]
  · exact ⟨0,[],Nat.zero_le _,by simp [some],by simp [myHttpSendData,some]⟩

/-! ### Acknowledgements -/

/-- The client and, for each connection, how many of its bytes the peer has acknowledged. -/
structure Traffic (n : Nat) where
  client : Client n
  acked : Nat → Nat

/-- lwIP calls the sent callback only for bytes that are newly acknowledged; `count` is their
number, and the other events do not look at it. -/
def Traffic.step (traffic : Traffic n) (event : ClientEvent n) (count : Nat) : Option (Traffic n) :=
  match event with
  | .sent k reply =>
    match traffic.client.connections[k]? with
    | none => some traffic
    | some c =>
      if c.phase = .established ∧ 0 < count ∧ traffic.acked k + count ≤ c.written.length then do
        let client ← traffic.client.step (.sent k reply)
        some ⟨client,Function.update traffic.acked k (traffic.acked k + count)⟩
      else some traffic
  | event => do
    let client ← traffic.client.step event
    some {traffic with client := client}

def trafficStep (traffic : Option (Traffic n)) (event : ClientEvent n × Nat) : Option (Traffic n) :=
  traffic.bind fun traffic => traffic.step event.1 event.2

/-- A connection that has something left to send will be called again. -/
def Traffic.Flows (traffic : Traffic n) : Prop :=
  ∀ k c, traffic.client.connections[k]? = some c → c.phase = .established → 0 < traffic.client.ghs.sizeLeft →
    traffic.acked k < c.written.length ∨ c.callbacks.poll = true

/-- A callback gets at least one byte accepted, unless nothing is left to send or something
else stays in flight. A new request meets no connection that has nothing in flight. -/
def Traffic.Sends (traffic : Traffic n) : ClientEvent n × Nat → Prop
  | (.request data testpcb _,_) => ∀ middle, traffic.client.tcpNew testpcb = some middle → data.length ≤ 148 →
      ∀ k c, middle.connections[k]? = some c → c.phase = .established → traffic.acked k < c.written.length
  | (.connected k reply,_) => ∀ c ∈ traffic.client.connections[k]?, c.phase = .opening →
      traffic.client.ghs.sizeLeft = 0 ∨ traffic.client.ghs.Accepts reply.writes
  | (.sent k reply,count) => ∀ c ∈ traffic.client.connections[k]?, c.phase = .established → 0 < count →
      traffic.acked k + count ≤ c.written.length →
      traffic.client.ghs.sizeLeft = 0 ∨ traffic.acked k + count < c.written.length ∨
        traffic.client.ghs.Accepts reply.writes
  | _ => True

structure Traffic.Acked (traffic : Traffic n) : Prop where
  bounded : traffic.client.ghs.Bounded
  registered : AllRegistered traffic.client.connections
  within : ∀ (k : Nat) (c : Connection), traffic.client.connections[k]? = some c → traffic.acked k ≤ c.written.length
  unsent : ∀ (k : Nat) (c : Connection), traffic.client.connections[k]? = some c → c.phase = .opening → c.written = []
  fresh : ∀ k, traffic.client.connections.length ≤ k → traffic.acked k = 0

/-- What a step comes to: the bookkeeping holds, and the rest is as good as `good`. -/
def Turns (next : Option (Traffic n)) (good : Prop) : Prop :=
  (∀ traffic, next = some traffic → traffic.Acked) ∧ ((∀ traffic, next = some traffic → traffic.Flows) ↔ good)

theorem turns_some (next : Traffic n) (good : Prop) : Turns (some next) good ↔ next.Acked ∧ (next.Flows ↔ good) := by
  simp only [Turns,Option.some.injEq,forall_eq']

theorem acked_set (traffic after : Traffic n) (k : Nat) (c changed : Connection) (acked : traffic.Acked)
    (found : traffic.client.connections[k]? = some c) (bounded : after.client.ghs.Bounded)
    (set : after.client.connections = traffic.client.connections.set k changed)
    (callbacks : changed.callbacks = c.callbacks) (others : ∀ j, j ≠ k → after.acked j = traffic.acked j)
    (covered : after.acked k ≤ changed.written.length) (opening : changed.phase = .opening → changed.written = []) :
    after.Acked := by
  refine ⟨bounded,?_,?_,?_,?_⟩
  · rw [set]
    exact registered_set _ k c changed acked.registered found callbacks
  · intro j d there
    rw [set] at there
    rcases (set_found _ k j c changed d found).mp there with ⟨rfl,rfl⟩ | ⟨other,old⟩
    · exact covered
    · rw [others j other]
      exact acked.within j d old
  · intro j d there
    rw [set] at there
    rcases (set_found _ k j c changed d found).mp there with ⟨rfl,rfl⟩ | ⟨_,old⟩
    · exact opening
    · exact acked.unsent j d old
  · intro j beyond
    have known : k < traffic.client.connections.length := (List.getElem?_eq_some_iff.mp found).1
    rw [set,List.length_set] at beyond
    rw [others j (by omega)]
    exact acked.fresh j beyond

theorem flows_set (traffic after : Traffic n) (k : Nat) (c changed : Connection) (flows : traffic.Flows)
    (found : traffic.client.connections[k]? = some c) (less : after.client.ghs.sizeLeft ≤ traffic.client.ghs.sizeLeft)
    (set : after.client.connections = traffic.client.connections.set k changed)
    (others : ∀ j, j ≠ k → after.acked j = traffic.acked j)
    (here : changed.phase = .established → 0 < after.client.ghs.sizeLeft →
      after.acked k < changed.written.length ∨ changed.callbacks.poll = true) : after.Flows := by
  intro j d there established left
  rw [set] at there
  rcases (set_found _ k j c changed d found).mp there with ⟨rfl,rfl⟩ | ⟨other,old⟩
  · exact here established left
  · rw [others j other]
    exact flows j d old established (by omega)

theorem turns_set (traffic : Traffic n) (after : Client n) (k : Nat) (c changed : Connection) (acked : traffic.Acked)
    (flows : traffic.Flows) (found : traffic.client.connections[k]? = some c) (written : changed.written = c.written)
    (callbacks : changed.callbacks = c.callbacks) (phase : changed.phase = c.phase ∨ changed.phase = .closed)
    (ghs : after.ghs = traffic.client.ghs)
    (set : after.connections = traffic.client.connections.set k changed) :
    Turns (some {traffic with client := after}) True := by
  rw [turns_some,iff_true]
  constructor
  · apply acked_set traffic {traffic with client := after} k c changed acked found (by rw [ghs]; exact acked.bounded) set
      callbacks (fun _ _ => rfl)
    · rw [written]
      exact acked.within k c found
    · intro opening
      rw [written]
      rcases phase with same | closed
      · exact acked.unsent k c found (same ▸ opening)
      · simp [closed] at opening
  · apply flows_set traffic {traffic with client := after} k c changed flows found (by simp [ghs]) set (fun _ _ => rfl)
    intro established left
    simp only [ghs] at left
    rw [written,callbacks]
    rcases phase with same | closed
    · exact flows k c found (same ▸ established) left
    · simp [closed] at established

theorem turns_finish (traffic : Traffic n) (k : Nat) (c : Connection) (acked : traffic.Acked) (flows : traffic.Flows)
    (found : traffic.client.connections[k]? = some c) :
    Turns (some {traffic with client := traffic.client.finish k c}) True :=
  turns_set traffic _ k c {c with phase := .closed} acked flows found rfl rfl (.inr rfl) (finish_ghs traffic.client k c)
    (finish_connections traffic.client k c)

theorem turns_same (traffic : Traffic n) (acked : traffic.Acked) (flows : traffic.Flows) (good : Prop) (holds : good) :
    Turns (some traffic) good := by
  rw [turns_some]
  exact ⟨acked,iff_of_true flows holds⟩

theorem turns_pcbs (traffic : Traffic n) (pcbs : Fin 3 → PcbUse) (acked : traffic.Acked) (flows : traffic.Flows) :
    Turns (some {traffic with client := {traffic.client with pcbs := pcbs}}) True :=
  turns_same {traffic with client := {traffic.client with pcbs := pcbs}}
    ⟨acked.bounded,acked.registered,acked.within,acked.unsent,acked.fresh⟩ flows True trivial

/-- A sending callback: afterwards the connection is called again exactly if nothing was left,
or something is still in flight, or a byte was accepted. -/
theorem turns_send (traffic : Traffic n) (k : Nat) (c : Connection) (reply : Reply) (acked : traffic.Acked)
    (flows : traffic.Flows) (found : traffic.client.connections[k]? = some c) (count : Nat)
    (covered : traffic.acked k + count ≤ c.written.length) :
    Turns ((traffic.client.sendData k c reply).bind fun client =>
        some ⟨client,Function.update traffic.acked k (traffic.acked k + count)⟩)
      (traffic.client.ghs.sizeLeft = 0 ∨ traffic.acked k + count < c.written.length ∨
        traffic.client.ghs.Accepts reply.writes) := by
  obtain ⟨len,attempts,bound,accepts,sent⟩ := myHttpSendData_accepts traffic.client.ghs reply.writes acked.bounded
  obtain ⟨size,inside⟩ := acked.bounded
  let changed : Connection :=
    {c with phase := .established,
            written := c.written ++ (traffic.client.ghs.buffer.drop traffic.client.ghs.ptr).take len}
  have longer : changed.written.length = c.written.length + len := by
    simp only [changed,List.length_append,List.length_take,List.length_drop]
    omega
  let after : Traffic n :=
    ⟨{traffic.client.update k changed with ghs := {traffic.client.ghs with
        ptr := traffic.client.ghs.ptr + len, sizeLeft := traffic.client.ghs.sizeLeft - len}},
      Function.update traffic.acked k (traffic.acked k + count)⟩
  have step : ((traffic.client.sendData k c reply).bind fun client =>
      some (⟨client,Function.update traffic.acked k (traffic.acked k + count)⟩ : Traffic n)) = some after := by
    simp [Client.sendData,sent,changed,after]
  rw [step,turns_some]
  have others : ∀ j, j ≠ k → after.acked j = traffic.acked j := fun j other => Function.update_of_ne other _ _
  have here : after.acked k = traffic.acked k + count := Function.update_self _ _ _
  have rest : after.client.ghs.sizeLeft = traffic.client.ghs.sizeLeft - len := rfl
  constructor
  · apply acked_set traffic after k c changed acked found ⟨size,by simp only [after]; omega⟩ rfl rfl others
    · omega
    · intro opening
      simp [changed] at opening
  constructor
  · intro flowing
    by_contra stuck
    simp only [not_or] at stuck
    obtain ⟨left,ended,refused⟩ := stuck
    have none : len = 0 := by
      by_contra positive
      exact refused (accepts.mp (by omega)).2
    have there : after.client.connections[k]? = some changed :=
      (set_found _ k k c changed changed found).mpr (.inl ⟨rfl,rfl⟩)
    have more := flowing k changed there rfl (by omega)
    have silent : changed.callbacks = httpCallbacks := acked.registered c (List.mem_of_getElem? found)
    simp only [silent,httpCallbacks,Bool.false_eq_true,or_false] at more
    omega
  · intro good
    apply flows_set traffic after k c changed flows found (by omega) rfl others
    intro _ left
    refine .inl ?_
    rcases good with none | flight | accepted
    · omega
    · omega
    · have positive := accepts.mpr ⟨by omega,accepted⟩
      omega

theorem acked_new (traffic : Traffic n) (middle : Client n) (testpcb : Option (Fin 3)) (acked : traffic.Acked)
    (flows : traffic.Flows) (new : traffic.client.tcpNew testpcb = some middle) :
    Traffic.Acked {traffic with client := middle} := by
  rcases tcpNew_cases traffic.client middle testpcb new with ⟨rfl,_⟩ | ⟨i,k,c,_,_,found,_,rfl⟩
  · exact acked
  · exact (turns_finish traffic k c acked flows found).1 _ rfl

theorem turns_request (traffic : Traffic n) (data : List Byte) (testpcb : Option (Fin 3)) (connect : ErrT) (count : Nat)
    (acked : traffic.Acked) (flows : traffic.Flows) :
    Turns (traffic.step (.request data testpcb connect) count) (traffic.Sends (.request data testpcb connect,count)) := by
  simp only [Traffic.step,Client.step,Traffic.Sends]
  cases new : traffic.client.tcpNew testpcb with
  | none => exact turns_same traffic acked flows _ (by simp)
  | some middle =>
    obtain ⟨bounded,registered,within,unsent,fresh⟩ := acked_new traffic middle testpcb acked flows new
    simp only [Option.some.injEq,forall_eq']
    by_cases short : data.length ≤ 148
    · obtain ⟨ghs,done,filled,left⟩ := compose_left middle.ghs data bounded short
      obtain ⟨after,opened,rfl,connections,_⟩ := httpSendRequest_opens middle data testpcb connect ghs done
      have filling : 0 < after.ghs.sizeLeft := by
        by_contra empty
        have none : after.ghs.sizeLeft = 0 := by omega
        have lengths := congrArg List.length left
        simp [HttpClientState.left,none,composed_length] at lengths
      simp only [opened,Option.bind_eq_bind,Option.bind_some,short,forall_const]
      rw [turns_some]
      constructor
      · refine ⟨filled,?_,?_,?_,?_⟩
        · intro d member
          simp only [connections,List.mem_append,List.mem_singleton] at member
          rcases member with old | rfl
          · exact registered d old
          · rfl
        · intro j d there
          simp only [connections] at there
          rcases (append_found _ j _ d).mp there with ⟨last,rfl⟩ | ⟨_,old⟩
          · have none : traffic.acked j = 0 := fresh j (by simp only; omega)
            simp [none]
          · exact within j d old
        · intro j d there opening
          simp only [connections] at there
          rcases (append_found _ j _ d).mp there with ⟨_,rfl⟩ | ⟨_,old⟩
          · rfl
          · exact unsent j d old opening
        · intro j beyond
          simp only [connections,List.length_append,List.length_singleton] at beyond
          exact fresh j (by simp only; omega)
      · constructor
        · intro flowing j d old established
          have inside : j < middle.connections.length := (List.getElem?_eq_some_iff.mp old).1
          have there : after.connections[j]? = some d := by
            rw [connections]
            exact (append_found _ j _ d).mpr (.inr ⟨inside,old⟩)
          have silent : d.callbacks = httpCallbacks := registered d (List.mem_of_getElem? old)
          simpa [silent,httpCallbacks] using flowing j d there established filling
        · intro good j d there established _
          simp only [connections] at there
          rcases (append_found _ j _ d).mp there with ⟨_,rfl⟩ | ⟨_,old⟩
          · simp only at established
            split_ifs at established
          · exact .inl (good j d old established)
    · have overflows : middle.ghs.compose data = none := by
        by_contra done
        obtain ⟨ghs,done⟩ := Option.ne_none_iff_exists'.mp done
        exact short (compose_fits middle.ghs ghs data bounded.1 done)
      have fails : httpSendRequest middle data testpcb connect = none := by
        simp [httpSendRequest,overflows]
      simp [fails,Turns,short]

theorem turns_step (traffic : Traffic n) (event : ClientEvent n) (count : Nat) (acked : traffic.Acked)
    (flows : traffic.Flows) : Turns (traffic.step event count) (traffic.Sends (event,count)) := by
  cases event with
  | request data testpcb connect => exact turns_request traffic data testpcb connect count acked flows
  | connected k reply =>
    apply on_rule (fun result => Turns (result.bind fun client => some {traffic with client := client})
      (traffic.Sends (.connected k reply,count))) traffic.client k
    · intro disabled
      exact turns_same traffic acked flows _ fun c found opening => by simpa [opening] using disabled c found
    · intro c found ready
      have opening : c.phase = .opening := by simpa using ready
      have empty := acked.unsent k c found opening
      have send := turns_send traffic k c reply acked flows found 0 (acked.within k c found)
      have none : traffic.acked k = 0 := by simpa [empty] using acked.within k c found
      have unchanged : Function.update traffic.acked k 0 = traffic.acked := by
        rw [← none,Function.update_eq_self]
      simpa [connectCallback,Traffic.Sends,found,opening,empty,none,unchanged] using send
  | sent k reply =>
    simp only [Traffic.step,Traffic.Sends]
    cases found : traffic.client.connections[k]? with
    | none => exact turns_same traffic acked flows _ (by simp)
    | some c =>
      by_cases enabled : c.phase = .established ∧ 0 < count ∧ traffic.acked k + count ≤ c.written.length
      · have send := turns_send traffic k c reply acked flows found count enabled.2.2
        have called : c.callbacks = httpCallbacks := acked.registered c (List.mem_of_getElem? found)
        simpa [enabled,Client.step,Client.on,found,myHttpSent,called,httpCallbacks] using send
      · simp only [if_neg enabled]
        apply turns_same traffic acked flows
        intro d same established positive covered
        obtain rfl := Option.some.inj same
        exact absurd ⟨established,positive,covered⟩ enabled
  | recv k segments =>
    rcases recv_cases traffic.client k segments with ⟨idle,_⟩ | ⟨c,found,_,_,act⟩
    · simp only [Traffic.step,idle]
      exact turns_same traffic acked flows _ trivial
    · simp only [Traffic.step,act]
      exact turns_set traffic _ k c {c with delivered := c.delivered + (segmentBytes segments).length} acked flows found
        rfl rfl (.inl rfl) rfl rfl
  | recvNull k =>
    exact on_rule (fun result => Turns (result.bind fun client => some {traffic with client := client}) True) traffic.client k
      _ _ (fun _ => turns_same traffic acked flows True trivial) (fun c found _ => turns_finish traffic k c acked flows found)
  | error k =>
    exact on_rule (fun result => Turns (result.bind fun client => some {traffic with client := client}) True) traffic.client k
      _ _ (fun _ => turns_same traffic acked flows True trivial) (fun c found _ => turns_finish traffic k c acked flows found)
  | others i =>
    cases use : traffic.client.pcbs i with
    | free =>
      simp only [Traffic.step,Client.step,use]
      exact turns_pcbs traffic _ acked flows
    | other =>
      simp only [Traffic.step,Client.step,use]
      exact turns_pcbs traffic _ acked flows
    | client k =>
      simp only [Traffic.step,Client.step,use]
      exact turns_same traffic acked flows _ trivial

def Traffic.start (pcbs : Fin 3 → PcbUse) (cell : Fin n → Option (Pbuf n Byte)) (tab : List (Fin n)) : Traffic n :=
  ⟨Client.start pcbs cell tab,fun _ => 0⟩

theorem start_traffic (pcbs : Fin 3 → PcbUse) (cell : Fin n → Option (Pbuf n Byte)) (tab : List (Fin n)) :
    (Traffic.start pcbs cell tab).Acked ∧ (Traffic.start pcbs cell tab).Flows :=
  ⟨⟨start_bounded pcbs cell tab,by simp [AllRegistered,Traffic.start,Client.start],by simp [Traffic.start,Client.start],
      by simp [Traffic.start,Client.start],fun _ _ => rfl⟩,
    by simp [Traffic.Flows,Traffic.start,Client.start]⟩

/-- In all states of a run every established connection that has something left to send has
bytes in flight or a poll callback, exactly if every sending callback that needs to gets a
byte accepted and no new request meets a connection with nothing in flight. -/
theorem never_stalls_iff (pcbs : Fin 3 → PcbUse) (cell : Fin n → Option (Pbuf n Byte)) (tab : List (Fin n))
    (events : List (ClientEvent n × Nat)) :
    (∀ early, early <+: events → ∀ traffic ∈ run trafficStep (some (Traffic.start pcbs cell tab)) early, traffic.Flows) ↔
      Along trafficStep (WhileRunning Traffic.Sends) (some (Traffic.start pcbs cell tab)) events := by
  obtain ⟨acked,flows⟩ := start_traffic pcbs cell tab
  apply always_iff_along trafficStep (WhileRunning Traffic.Sends) (fun state => ∀ traffic ∈ state, traffic.Acked)
    (fun state => ∀ traffic ∈ state, traffic.Flows)
  · intro state event acked flows
    cases state with
    | none => simp [trafficStep,WhileRunning]
    | some traffic =>
      have turns := turns_step traffic event.1 event.2 (acked traffic rfl) (flows traffic rfl)
      simpa [trafficStep,WhileRunning,Turns] using turns
  · intro traffic start
    obtain rfl := Option.some.inj start
    exact acked
  · intro traffic start
    obtain rfl := Option.some.inj start
    exact flows

/-- `tcp_write` is out of memory at every length down to three: nothing is in flight and nothing
will call again. -/
theorem client_stalls :
    ∃ traffic ∈ run trafficStep (some (Traffic.start (n := 0) (fun _ => .free) (fun a => a.elim0) []))
        [(.request (cstr "initializ") (some 0) .ok,0),(.connected 0 ⟨List.replicate 6 (256,.mem),.ok⟩,0)],
      ∃ c ∈ traffic.client.connections[0]?, c.phase = .established ∧ 0 < traffic.client.ghs.sizeLeft ∧
        ¬ (traffic.acked 0 < c.written.length ∨ c.callbacks.poll = true) := by
  decide +kernel

end Swip.Apps
