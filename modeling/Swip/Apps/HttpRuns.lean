import Swip.Apps.HttpSend

/-! Whole runs of the HTTP client: which bytes go out on which connection. -/
namespace Swip.Apps
open Device Library.Run

variable {n : Nat}

/-! ### Isolation -/

/-- The newest request is what its connection has accepted and what `ghs` still holds. -/
structure Sharing (client : Client n) : Prop where
  bounded : client.ghs.Bounded
  sofar : ∀ (k : Nat) (c : Connection), client.connections[k]? = some c → c.written <+: c.request
  newest : ∀ (k : Nat) (c : Connection), client.connections[k]? = some c → k + 1 = client.connections.length →
    c.written ++ client.ghs.left = c.request

/-- A callback that sends belongs to the newest request, or finds nothing left to send. -/
def Newest (client : Client n) (k : Nat) : Prop := k + 1 = client.connections.length ∨ client.ghs.sizeLeft = 0

instance (client : Client n) (k : Nat) : Decidable (Newest client k) := inferInstanceAs (Decidable (_ ∨ _))

/-- The data fits into the buffer, and only the newest request is being sent. -/
def OneAtATime (client : Client n) : ClientEvent n → Prop
  | .request data _ _ => data.length ≤ 148
  | .connected k _ => ∀ c ∈ client.connections[k]?, c.phase = .opening → Newest client k
  | .sent k _ => ∀ c ∈ client.connections[k]?, c.phase = .established → Newest client k
  | _ => True

instance (client : Client n) : (event : ClientEvent n) → Decidable (OneAtATime client event)
  | .request data _ _ => inferInstanceAs (Decidable (data.length ≤ 148))
  | .connected k _ => inferInstanceAs (Decidable (∀ c ∈ client.connections[k]?, c.phase = .opening → Newest client k))
  | .sent k _ => inferInstanceAs (Decidable (∀ c ∈ client.connections[k]?, c.phase = .established → Newest client k))
  | .recv .. => .isTrue trivial
  | .recvNull _ => .isTrue trivial
  | .error _ => .isTrue trivial
  | .others _ => .isTrue trivial

theorem start_sharing (pcbs : Fin 3 → PcbUse) (cell : Fin n → Option (Pbuf n Byte)) (tab : List (Fin n)) :
    Sharing (Client.start pcbs cell tab) :=
  ⟨start_bounded pcbs cell tab,by simp [Client.start],by simp [Client.start]⟩

theorem sharing_set (client after : Client n) (k : Nat) (c changed : Connection) (sharing : Sharing client)
    (found : client.connections[k]? = some c) (request : changed.request = c.request)
    (written : changed.written = c.written) (ghs : after.ghs = client.ghs)
    (set : after.connections = client.connections.set k changed) : Sharing after := by
  obtain ⟨bounded,sofar,newest⟩ := sharing
  refine ⟨by rw [ghs]; exact bounded,?_,?_⟩
  · intro j d there
    rw [set] at there
    rcases (set_found client.connections k j c changed d found).mp there with ⟨rfl,rfl⟩ | ⟨_,old⟩
    · rw [request,written]
      exact sofar j c found
    · exact sofar j d old
  · intro j d there last
    rw [set] at there
    rw [set,List.length_set] at last
    rw [ghs]
    rcases (set_found client.connections k j c changed d found).mp there with ⟨rfl,rfl⟩ | ⟨_,old⟩
    · rw [request,written]
      exact newest j c found last
    · exact newest j d old last

theorem sharing_finish (client : Client n) (k : Nat) (c : Connection) (sharing : Sharing client)
    (found : client.connections[k]? = some c) : Sharing (client.finish k c) :=
  sharing_set client _ k c {c with phase := .closed} sharing found rfl rfl (finish_ghs client k c)
    (finish_connections client k c)

theorem sharing_send (client : Client n) (k : Nat) (c : Connection) (reply : Reply) (sharing : Sharing client)
    (found : client.connections[k]? = some c) (turn : Newest client k) :
    ∃ after, client.sendData k c reply = some after ∧ Sharing after := by
  obtain ⟨bounded,sofar,newest⟩ := sharing
  obtain ⟨ghs,accepted,_,sent,still,split⟩ := myHttpSendData_left client.ghs reply.writes bounded
  let changed : Connection := {c with phase := .established, written := c.written ++ accepted}
  refine ⟨{client.update k changed with ghs := ghs},by simp [Client.sendData,sent,changed],still,?_,?_⟩
  · intro j d there
    rcases (set_found client.connections k j c changed d found).mp there with ⟨rfl,rfl⟩ | ⟨_,old⟩
    · rcases turn with last | done
      · have whole := newest j c found last
        rw [← split,← List.append_assoc] at whole
        exact ⟨ghs.left,whole⟩
      · have nothing : accepted = [] := by
          simp only [HttpClientState.left,done,List.take_zero,List.append_eq_nil_iff] at split
          exact split.1
        simpa [changed,nothing] using sofar j c found
    · exact sofar j d old
  · intro j d there last
    change j + 1 = (client.connections.set k changed).length at last
    rw [List.length_set] at last
    change d.written ++ ghs.left = d.request
    rcases (set_found client.connections k j c changed d found).mp there with ⟨rfl,rfl⟩ | ⟨other,old⟩
    · have whole := newest j c found last
      rw [← split,← List.append_assoc] at whole
      exact whole
    · have whole := newest j d old last
      rcases turn with own | done
      · omega
      · rw [← split] at whole
        simp only [HttpClientState.left,done,List.take_zero,List.append_eq_nil_iff] at split
        rw [split.1] at whole
        exact whole

theorem sharing_request (client middle : Client n) (data : List Byte) (testpcb : Option (Fin 3)) (connect : ErrT)
    (sharing : Sharing client) (short : data.length ≤ 148) (new : client.tcpNew testpcb = some middle) :
    ∃ after, httpSendRequest middle data testpcb connect = some after ∧ Sharing after := by
  have between : Sharing middle := by
    rcases tcpNew_cases client middle testpcb new with ⟨rfl,_⟩ | ⟨i,k,c,_,_,found,_,rfl⟩
    · exact sharing
    · exact sharing_finish client k c sharing found
  obtain ⟨bounded,sofar,newest⟩ := between
  obtain ⟨ghs,done,filled,left⟩ := compose_left middle.ghs data bounded short
  obtain ⟨after,opened,rfl,connections,_⟩ := httpSendRequest_opens middle data testpcb connect ghs done
  refine ⟨after,opened,filled,?_,?_⟩
  · intro j d there
    rw [connections] at there
    rcases (append_found _ j _ d).mp there with ⟨_,rfl⟩ | ⟨_,old⟩
    · exact List.nil_prefix
    · exact sofar j d old
  · intro j d there last
    rw [connections] at there last
    rcases (append_found _ j _ d).mp there with ⟨_,rfl⟩ | ⟨before,_⟩
    · exact left
    · simp only [List.length_append,List.length_singleton] at last
      omega

theorem sharing_step (client : Client n) (event : ClientEvent n) (sharing : Sharing client)
    (met : OneAtATime client event) : ∃ after, client.step event = some after ∧ Sharing after := by
  cases event with
  | request data testpcb connect =>
    cases new : client.tcpNew testpcb with
    | none => exact ⟨client,by simp [Client.step,new],sharing⟩
    | some middle =>
      obtain ⟨after,done,kept⟩ := sharing_request client middle data testpcb connect sharing met new
      exact ⟨after,by simp [Client.step,new,done],kept⟩
  | connected k reply =>
    apply on_keeps Sharing client k _ _ sharing
    intro c found ready
    exact sharing_send client k c reply sharing found (met c found (by simpa using ready))
  | sent k reply =>
    apply on_keeps Sharing client k _ _ sharing
    intro c found ready
    simp only [decide_eq_true_eq] at ready
    exact sharing_send client k c reply sharing found (met c found ready.1)
  | recv k segments =>
    rcases recv_cases client k segments with ⟨idle,_⟩ | ⟨c,found,_,_,act⟩
    · exact ⟨client,idle,sharing⟩
    · exact ⟨_,act,sharing_set client _ k c {c with delivered := c.delivered + (segmentBytes segments).length} sharing
        found rfl rfl rfl rfl⟩
  | recvNull k =>
    apply on_keeps Sharing client k _ _ sharing
    intro c found _
    exact ⟨client.finish k c,rfl,sharing_finish client k c sharing found⟩
  | error k =>
    apply on_keeps Sharing client k _ _ sharing
    intro c found _
    exact ⟨client.finish k c,rfl,sharing_finish client k c sharing found⟩
  | others i =>
    cases use : client.pcbs i with
    | free =>
      simp only [Client.step,use]
      exact ⟨_,rfl,sharing.bounded,sharing.sofar,sharing.newest⟩
    | other =>
      simp only [Client.step,use]
      exact ⟨_,rfl,sharing.bounded,sharing.sofar,sharing.newest⟩
    | client k => exact ⟨client,by simp only [Client.step,use],sharing⟩

/-! ### Runs -/

/-- In every run with one request at a time, what a connection has accepted is the beginning of
its own request. -/
theorem requests_isolated (pcbs : Fin 3 → PcbUse) (cell : Fin n → Option (Pbuf n Byte)) (tab : List (Fin n))
    (events : List (ClientEvent n))
    (alone : Along clientStep (WhileRunning OneAtATime) (some (Client.start pcbs cell tab)) events) :
    ∃ client, run clientStep (some (Client.start pcbs cell tab)) events = some client ∧
      ∀ c ∈ client.connections, c.written <+: c.request := by
  have kept : ∀ state event, (∃ client : Client n, state = some client ∧ Sharing client) →
      WhileRunning OneAtATime state event → ∃ client, clientStep state event = some client ∧ Sharing client := by
    intro state event holds met
    obtain ⟨client,rfl,sharing⟩ := holds
    exact sharing_step client event sharing (met client rfl)
  obtain ⟨client,ran,sharing⟩ := invariant_along clientStep (WhileRunning OneAtATime)
    (fun state => ∃ client, state = some client ∧ Sharing client) kept _ events ⟨_,rfl,start_sharing pcbs cell tab⟩ alone
  refine ⟨client,ran,?_⟩
  intro c member
  obtain ⟨k,found⟩ := List.mem_iff_getElem?.mp member
  exact sharing.sofar k c found

def consecutiveRun (pcb : Fin 3) : List (ClientEvent 0) :=
  [.request (cstr "initializ") (some pcb) .ok,.connected 0 ⟨[(40,.ok)],.ok⟩,.sent 0 ⟨[(100,.mem),(80,.ok)],.ok⟩,
    .sent 0 ⟨[(100,.ok)],.ok⟩,.recvNull 0,.request (cstr "button1-pressed") (some pcb) .ok,.connected 1 ⟨[(30,.ok)],.ok⟩]

theorem requests_isolated_consecutive :
    ∃ client, run clientStep (some (Client.start (fun _ => .free) (fun a => a.elim0) [])) (consecutiveRun 0) = some client ∧
      ∀ c ∈ client.connections, c.written <+: c.request :=
  requests_isolated (fun _ => .free) (fun a => a.elim0) [] (consecutiveRun 0) (by decide +kernel)

/-- The button is pressed before the first connection is established: its callback then sends
the second request. -/
theorem requests_mixed :
    (cstr "initializ").length ≤ 148 ∧ (cstr "button1-pressed").length ≤ 148 ∧
      ∃ client ∈ run clientStep (some (Client.start (n := 0) (fun _ => .free) (fun a => a.elim0) []))
          [.request (cstr "initializ") (some 0) .ok,.request (cstr "button1-pressed") (some 1) .ok,
            .connected 0 ⟨[(200,.ok)],.ok⟩],
        ∃ c ∈ client.connections, ¬ c.written <+: c.request := by
  decide +kernel

end Swip.Apps
