import Swip.Apps.HttpRuns

/-! One request of the HTTP client on its own: what is passed to `tcp_write`, and what every
run makes of the request. -/
namespace Swip.Apps
open Device Library.Run

variable {n : Nat}

/-- What a run of one connection keeps: the request is split between what was accepted and what
is left, and what is left ends where the request ends. -/
structure Single (data : List Byte) (client : Client n) : Prop where
  bounded : client.ghs.Bounded
  one : client.connections.length ≤ 1
  split : ∀ c ∈ client.connections, c.written ++ client.ghs.left = composed data ∧
    client.ghs.ptr + client.ghs.sizeLeft = (composed data).length

def ClientEvent.Follows : ClientEvent n → Prop
  | .request .. => False
  | _ => True

theorem single_set (data : List Byte) (client after : Client n) (k : Nat) (c changed : Connection)
    (single : Single data client) (found : client.connections[k]? = some c) (written : changed.written = c.written)
    (ghs : after.ghs = client.ghs) (set : after.connections = client.connections.set k changed) : Single data after := by
  obtain ⟨bounded,one,split⟩ := single
  refine ⟨by rw [ghs]; exact bounded,by rw [set,List.length_set]; exact one,?_⟩
  intro d member
  rw [ghs]
  rw [set] at member
  rcases List.mem_or_eq_of_mem_set member with earlier | rfl
  · exact split d earlier
  · rw [written]
    exact split c (List.mem_of_getElem? found)

theorem single_finish (data : List Byte) (client : Client n) (k : Nat) (c : Connection) (single : Single data client)
    (found : client.connections[k]? = some c) : Single data (client.finish k c) :=
  single_set data client _ k c {c with phase := .closed} single found rfl (finish_ghs client k c)
    (finish_connections client k c)

theorem single_found (connections : List Connection) (k : Nat) (c : Connection) (one : connections.length ≤ 1)
    (found : connections[k]? = some c) : connections = [c] ∧ k = 0 := by
  obtain ⟨inside,rfl⟩ := List.getElem?_eq_some_iff.mp found
  obtain rfl : k = 0 := by omega
  obtain ⟨only,shape⟩ := List.length_eq_one_iff.mp (show connections.length = 1 by omega)
  subst shape
  exact ⟨rfl,rfl⟩

theorem single_send (data : List Byte) (client : Client n) (k : Nat) (c : Connection) (reply : Reply)
    (single : Single data client) (found : client.connections[k]? = some c) :
    ∃ after, client.sendData k c reply = some after ∧ Single data after := by
  obtain ⟨⟨size,inside⟩,one,split⟩ := single
  obtain ⟨len,attempts,bound,_,_,_,sent⟩ := myHttpSendData_next client.ghs reply.writes (by rw [size]; exact inside)
  obtain ⟨ghs,accepted,_,again,still,order⟩ := myHttpSendData_left client.ghs reply.writes ⟨size,inside⟩
  obtain ⟨rfl,rfl,rfl⟩ : ghs = _ ∧ accepted = _ ∧ _ = attempts := by simpa [sent,eq_comm] using again
  obtain ⟨shape,rfl⟩ := single_found client.connections k c one found
  obtain ⟨whole,ends⟩ := split c (by simp [shape])
  refine ⟨_,by simp [Client.sendData,sent]; rfl,still,by simpa [Client.update] using one,?_⟩
  intro d member
  obtain rfl : d = _ := by simpa [Client.update,shape] using member
  refine ⟨?_,?_⟩
  · rw [← whole,← order,List.append_assoc]
  · simp only
    omega

theorem single_step (data : List Byte) (client : Client n) (event : ClientEvent n) (single : Single data client)
    (follows : event.Follows) : ∃ after, client.step event = some after ∧ Single data after := by
  cases event with
  | request => exact follows.elim
  | connected k reply =>
    apply on_keeps (Single data) client k _ _ single
    intro c found _
    exact single_send data client k c reply single found
  | sent k reply =>
    apply on_keeps (Single data) client k _ _ single
    intro c found _
    exact single_send data client k c reply single found
  | recv k segments =>
    rcases recv_cases client k segments with ⟨idle,_⟩ | ⟨c,found,_,_,act⟩
    · exact ⟨client,idle,single⟩
    · exact ⟨_,act,single_set data client _ k c {c with delivered := c.delivered + (segmentBytes segments).length} single
        found rfl rfl rfl⟩
  | recvNull k =>
    apply on_keeps (Single data) client k _ _ single
    intro c found _
    exact ⟨client.finish k c,rfl,single_finish data client k c single found⟩
  | error k =>
    apply on_keeps (Single data) client k _ _ single
    intro c found _
    exact ⟨client.finish k c,rfl,single_finish data client k c single found⟩
  | others i =>
    cases use : client.pcbs i with
    | free =>
      simp only [Client.step,use]
      exact ⟨_,rfl,single.bounded,single.one,single.split⟩
    | other =>
      simp only [Client.step,use]
      exact ⟨_,rfl,single.bounded,single.one,single.split⟩
    | client k => exact ⟨client,by simp only [Client.step,use],single⟩

theorem single_request (pcbs : Fin 3 → PcbUse) (cell : Fin n → Option (Pbuf n Byte)) (tab : List (Fin n)) (data : List Byte)
    (short : data.length ≤ 148) (testpcb : Option (Fin 3)) (connect : ErrT) :
    ∃ after, (Client.start pcbs cell tab).step (.request data testpcb connect) = some after ∧ Single data after := by
  have bounded := start_bounded pcbs cell tab
  cases new : (Client.start pcbs cell tab).tcpNew testpcb with
  | none => exact ⟨Client.start pcbs cell tab,by simp [Client.step,new],bounded,by simp [Client.start],by simp [Client.start]⟩
  | some middle =>
    obtain rfl : middle = Client.start pcbs cell tab := by
      rcases tcpNew_cases _ middle testpcb new with ⟨same,_⟩ | ⟨_,_,c,_,_,found,_⟩
      · exact same
      · simp [Client.start] at found
    obtain ⟨rest,done,size⟩ := compose_request (Client.start pcbs cell tab).ghs data bounded.1 short
    obtain ⟨after,opened,ghs,connections,_⟩ := httpSendRequest_opens _ data testpcb connect _ done
    refine ⟨after,by simp [Client.step,new,opened],?_,by simp [connections,Client.start],?_⟩
    · rw [List.length_append] at size
      rw [ghs]
      exact ⟨by simpa using size,by simp only; omega⟩
    · intro c member
      rw [connections] at member
      obtain rfl : c = _ := by simpa [Client.start] using member
      rw [ghs]
      exact ⟨by simp [HttpClientState.left],Nat.zero_add _⟩

/-- Every run of one request: the bytes accepted so far and the bytes left at the pointer are
the request, all attempts of the next callback stay inside it, and when nothing is left nothing
is attempted. No call hangs or runs over the buffer. -/
theorem request_sent_once (pcbs : Fin 3 → PcbUse) (cell : Fin n → Option (Pbuf n Byte)) (tab : List (Fin n))
    (data : List Byte) (short : data.length ≤ 148) (testpcb : Option (Fin 3)) (connect : ErrT)
    (events : List (ClientEvent n)) (alone : ∀ event ∈ events, event.Follows) :
    ∃ client, run clientStep (some (Client.start pcbs cell tab)) (.request data testpcb connect :: events) = some client ∧
      ∀ c ∈ client.connections,
        c.written ++ (client.ghs.buffer.drop client.ghs.ptr).take client.ghs.sizeLeft = stringP1 ++ data ++ stringP2 ∧
        ∀ writes, ∃ next accepted attempts, myHttpSendData client.ghs writes = some (next,accepted,attempts) ∧
          (∀ len ∈ attempts, client.ghs.ptr + len ≤ (stringP1 ++ data ++ stringP2).length) ∧
          (accepted ≠ [] → accepted.length ∈ attempts) ∧
          (client.ghs.sizeLeft = 0 → attempts = [] ∧ accepted = [] ∧ next = client.ghs) := by
  have kept : ∀ (state : Option (Client n)) (event : ClientEvent n), (∃ client, state = some client ∧ Single data client) →
      event.Follows → ∃ client, clientStep state event = some client ∧ Single data client := by
    intro state event holds follows
    obtain ⟨client,rfl,single⟩ := holds
    exact single_step data client event single follows
  obtain ⟨opened,first,single⟩ := single_request pcbs cell tab data short testpcb connect
  obtain ⟨client,ran,⟨⟨size,inside⟩,_,split⟩⟩ := invariant_along clientStep (fun _ event => event.Follows)
    (fun state => ∃ client, state = some client ∧ Single data client) kept (some opened) events ⟨opened,rfl,single⟩
    (along_forall clientStep _ _ events alone)
  refine ⟨client,?_,?_⟩
  · rw [run_cons,show clientStep (some (Client.start pcbs cell tab)) (.request data testpcb connect) = some opened from first,ran]
  · intro c member
    obtain ⟨whole,ends⟩ := split c member
    refine ⟨whole,fun writes => ?_⟩
    obtain ⟨len,attempts,bound,within,nothing,last,sent⟩ :=
      myHttpSendData_next client.ghs writes (by rw [size]; exact inside)
    refine ⟨_,_,attempts,sent,?_,?_,?_⟩
    · intro tried attempt
      have bound := within tried attempt
      change client.ghs.ptr + tried ≤ (composed data).length
      omega
    · intro accepted
      rw [List.length_take,List.length_drop,Nat.min_eq_left (by omega)]
      exact last (Nat.pos_of_ne_zero fun none => accepted (by rw [none,List.take_zero]))
    · intro done
      obtain rfl : len = 0 := by omega
      exact ⟨nothing done,rfl,rfl⟩

/-- The first attempt with forty bytes is out of memory and the one with half of them succeeds;
the next callback has room for fifteen. -/
theorem request_sent_once_retried :
    ∃ client, run clientStep (some (Client.start (n := 0) (fun _ => .free) (fun a => a.elim0) []))
        [.request (cstr "initializ") (some 0) .ok,.connected 0 ⟨[(40,.mem),(40,.ok)],.ok⟩,.sent 0 ⟨[(15,.ok)],.ok⟩] =
          some client ∧
      client.connections.map Connection.written = [(stringP1 ++ cstr "initializ" ++ stringP2).take 35] ∧
      ∀ c ∈ client.connections, c.written ++ (client.ghs.buffer.drop client.ghs.ptr).take client.ghs.sizeLeft =
        stringP1 ++ cstr "initializ" ++ stringP2 := by
  obtain ⟨client,ran,sent⟩ := request_sent_once (n := 0) (fun _ => .free) (fun a => a.elim0) [] (cstr "initializ")
    (by decide) (some 0) .ok [.connected 0 ⟨[(40,.mem),(40,.ok)],.ok⟩,.sent 0 ⟨[(15,.ok)],.ok⟩]
    (by simp [ClientEvent.Follows])
  have written : (run clientStep (some (Client.start (n := 0) (fun _ => .free) (fun a => a.elim0) []))
      [.request (cstr "initializ") (some 0) .ok,.connected 0 ⟨[(40,.mem),(40,.ok)],.ok⟩,.sent 0 ⟨[(15,.ok)],.ok⟩]).map
        (fun client => client.connections.map Connection.written) =
      some [(stringP1 ++ cstr "initializ" ++ stringP2).take 35] := by decide +kernel
  rw [ran] at written
  exact ⟨client,ran,Option.some.inj written,fun c member => (sent c member).1⟩

end Swip.Apps
