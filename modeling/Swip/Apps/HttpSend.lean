import Swip.Apps.HttpClient

/-! What the functions of the client do to `ghs`, and what an event can do to the client. -/
namespace Swip.Apps
open Device Library.Run

variable {n : Nat}

theorem stringP1_length : stringP1.length = 23 := by decide

theorem stringP2_length : stringP2.length = 29 := by decide

theorem composed_length (data : List Byte) : (composed data).length = data.length + 52 := by
  simp [composed,stringP1_length,stringP2_length]
  omega

theorem append_filled (filled rest source : List Byte) (ptr : Nat) (fits : source.length ≤ rest.length)
    (small : (filled ++ source).length < 65536) :
    HttpClientState.append ⟨filled ++ rest,ptr,filled.length⟩ source =
      some ⟨filled ++ source ++ rest.drop source.length,ptr,(filled ++ source).length⟩ := by
  rw [List.length_append] at small
  simp [HttpClientState.append,fits,List.drop_append,Nat.mod_eq_of_lt small]

theorem compose_request (hs : HttpClientState) (data : List Byte) (size : hs.buffer.length = maxHttpReqSize)
    (short : data.length ≤ 148) :
    ∃ rest, hs.compose data = some ⟨composed data ++ rest,0,(composed data).length⟩ ∧
      (composed data ++ rest).length = maxHttpReqSize := by
  have first := append_filled [] hs.buffer stringP1 0 (by rw [size,stringP1_length]; decide)
    (by rw [List.nil_append,stringP1_length]; decide)
  have second := append_filled stringP1 (hs.buffer.drop stringP1.length) data 0
    (by rw [List.length_drop,size,stringP1_length]; unfold maxHttpReqSize; omega)
    (by rw [List.length_append,stringP1_length]; omega)
  have third := append_filled (stringP1 ++ data) ((hs.buffer.drop stringP1.length).drop data.length) stringP2 0
    (by simp only [List.length_drop,size,stringP1_length,stringP2_length]; unfold maxHttpReqSize; omega)
    (by simp only [List.length_append,stringP1_length,stringP2_length]; omega)
  refine ⟨((hs.buffer.drop stringP1.length).drop data.length).drop stringP2.length,?_,?_⟩
  · simp only [List.nil_append,List.length_nil] at first
    simp only [HttpClientState.compose,first,Option.bind_eq_bind,Option.bind_some,second,third]
    rfl
  · simp only [List.length_append,composed_length,List.length_drop,size,stringP1_length,stringP2_length]
    unfold maxHttpReqSize
    omega

theorem retryLen_half (len : Nat) (writes : List (Nat × ErrT)) (again : retryLen len writes > 1) :
    retryLen len writes = len / 2 ∧ (nextWrite writes.tail).1 ≠ 0 := by
  unfold retryLen at again ⊢
  split_ifs at again ⊢ with empty
  · omega
  · exact ⟨rfl,empty⟩

/-- Every retry is shorter, so the attempts come to an end; only the last can succeed. -/
theorem myHttpWriteLoop_ends (available fuel len : Nat) (writes : List (Nat × ErrT)) (enough : len < fuel)
    (inside : len ≤ available) :
    ∃ err last attempts, myHttpWriteLoop available fuel len writes = some (err,last,attempts) ∧
      (∀ l ∈ attempts, l ≤ len) ∧ (err = .ok → attempts.getLast? = some last) := by
  induction fuel generalizing len writes with
  | zero => omega
  | succ fuel ih =>
    have within : ¬ len > available := by omega
    rw [myHttpWriteLoop,if_neg within]
    by_cases full : (nextWrite writes).2 = .mem
    · rw [if_pos full]
      by_cases again : retryLen len writes > 1
      · have half := (retryLen_half len writes again).1
        obtain ⟨err,last,attempts,done,bound,success⟩ := ih (retryLen len writes) writes.tail (by omega) (by omega)
        rw [if_pos again,done]
        refine ⟨err,last,len :: attempts,rfl,?_,fun ok => by simp [List.getLast?_cons,success ok]⟩
        intro l member
        rcases List.mem_cons.mp member with rfl | later
        · exact Nat.le_refl _
        · have := bound l later
          omega
      · rw [if_neg again]
        exact ⟨_,_,[len],rfl,by simp,by simp⟩
    · rw [if_neg full]
      exact ⟨_,len,[len],rfl,by simp,by simp⟩

/-- What one callback does: it moves on by what its last attempt got accepted, and all its
attempts stay inside what was left. -/
theorem myHttpSendData_next (hs : HttpClientState) (writes : List (Nat × ErrT))
    (inside : hs.ptr + hs.sizeLeft ≤ hs.buffer.length) :
    ∃ len attempts, len ≤ hs.sizeLeft ∧ (∀ l ∈ attempts, l ≤ hs.sizeLeft) ∧ (hs.sizeLeft = 0 → attempts = []) ∧
      (0 < len → len ∈ attempts) ∧ myHttpSendData hs writes =
        some ({hs with ptr := hs.ptr + len, sizeLeft := hs.sizeLeft - len},(hs.buffer.drop hs.ptr).take len,attempts) := by
  by_cases some : hs.sizeLeft > 0
  · have nonzero : ¬ hs.sizeLeft = 0 := by omega
    have start : (if (nextWrite writes).1 < hs.sizeLeft then (nextWrite writes).1 else hs.sizeLeft) ≤ hs.sizeLeft := by
      split_ifs <;> omega
    obtain ⟨err,last,attempts,done,bound,success⟩ := myHttpWriteLoop_ends (hs.buffer.length - hs.ptr) (hs.sizeLeft + 1)
      (if (nextWrite writes).1 < hs.sizeLeft then (nextWrite writes).1 else hs.sizeLeft) writes (by omega) (by omega)
    have within : ∀ l ∈ attempts, l ≤ hs.sizeLeft := fun l member => (bound l member).trans start
    by_cases ok : err = .ok
    · have final : last ∈ attempts := List.mem_of_getLast? (success ok)
      exact ⟨last,attempts,within last final,within,fun none => absurd none nonzero,fun _ => final,
        by simp [myHttpSendData,some,myHttpWrite,nonzero,done,ok]⟩
    · exact ⟨0,attempts,Nat.zero_le _,within,fun none => absurd none nonzero,by simp,
        by simp [myHttpSendData,some,myHttpWrite,nonzero,done,ok]⟩
  · exact ⟨0,[],Nat.zero_le _,by simp,fun _ => rfl,by simp,by simp [myHttpSendData,some]⟩

def HttpClientState.Bounded (hs : HttpClientState) : Prop :=
  hs.buffer.length = maxHttpReqSize ∧ hs.ptr + hs.sizeLeft ≤ maxHttpReqSize

def HttpClientState.left (hs : HttpClientState) : List Byte := (hs.buffer.drop hs.ptr).take hs.sizeLeft

theorem start_bounded (pcbs : Fin 3 → PcbUse) (cell : Fin n → Option (Pbuf n Byte)) (tab : List (Fin n)) :
    (Client.start pcbs cell tab).ghs.Bounded := by
  simp [Client.start,HttpClientState.Bounded]

theorem compose_left (hs : HttpClientState) (data : List Byte) (bounded : hs.Bounded) (short : data.length ≤ 148) :
    ∃ ghs, hs.compose data = some ghs ∧ ghs.Bounded ∧ ghs.left = composed data := by
  obtain ⟨rest,done,size⟩ := compose_request hs data bounded.1 short
  refine ⟨_,done,⟨size,?_⟩,by simp [HttpClientState.left]⟩
  rw [List.length_append] at size
  simp only
  omega

theorem append_fits (hs after : HttpClientState) (source : List Byte) (done : hs.append source = some after) :
    hs.sizeLeft + source.length ≤ hs.buffer.length ∧ after.sizeLeft = (hs.sizeLeft + source.length) % 65536 ∧
      after.buffer.length = hs.buffer.length := by
  rw [HttpClientState.append,Option.ite_none_right_eq_some] at done
  obtain ⟨fits,same⟩ := done
  obtain rfl := Option.some.inj same
  refine ⟨fits,rfl,?_⟩
  simp only [List.length_append,List.length_take,List.length_drop]
  omega

theorem compose_fits (hs ghs : HttpClientState) (data : List Byte) (size : hs.buffer.length = maxHttpReqSize)
    (done : hs.compose data = some ghs) : data.length ≤ 148 := by
  simp only [HttpClientState.compose,Option.bind_eq_bind,Option.bind_eq_some_iff] at done
  obtain ⟨one,first,two,second,third⟩ := done
  obtain ⟨_,left,same⟩ := append_fits _ _ _ first
  obtain ⟨fits,more,again⟩ := append_fits _ _ _ second
  obtain ⟨inside,_⟩ := append_fits _ _ _ third
  have filled : one.sizeLeft = 23 := by simpa [stringP1_length] using left
  have room : one.buffer.length = 200 := same.trans size
  rw [stringP2_length] at inside
  omega

theorem myHttpSendData_left (hs : HttpClientState) (writes : List (Nat × ErrT)) (bounded : hs.Bounded) :
    ∃ ghs accepted attempts, myHttpSendData hs writes = some (ghs,accepted,attempts) ∧ ghs.Bounded ∧
      accepted ++ ghs.left = hs.left := by
  obtain ⟨size,inside⟩ := bounded
  obtain ⟨len,attempts,bound,_,_,_,sent⟩ := myHttpSendData_next hs writes (by rw [size]; exact inside)
  refine ⟨_,_,attempts,sent,⟨size,by simp only; omega⟩,?_⟩
  simp only [HttpClientState.left]
  rw [← List.drop_drop,← List.take_add,Nat.add_sub_cancel' bound]

/-! ### Steps -/

theorem on_cases (client : Client n) (k : Nat) (allowed : Connection → Bool) (act : Connection → Option (Client n)) :
    (client.on k allowed act = some client ∧ ∀ c ∈ client.connections[k]?, allowed c = false) ∨
      ∃ c, client.connections[k]? = some c ∧ allowed c = true ∧ client.on k allowed act = act c := by
  cases found : client.connections[k]? with
  | none => exact .inl ⟨by simp [Client.on,found],by simp⟩
  | some c =>
    by_cases ready : allowed c = true
    · exact .inr ⟨c,rfl,ready,by simp [Client.on,found,ready]⟩
    · exact .inl ⟨by simp [Client.on,found,ready],by simpa using ready⟩

/-- What holds of the client when the callback is not called, and of all its results, holds. -/
theorem on_rule (keeps : Option (Client n) → Prop) (client : Client n) (k : Nat) (allowed : Connection → Bool)
    (act : Connection → Option (Client n))
    (idle : (∀ c ∈ client.connections[k]?, allowed c = false) → keeps (some client))
    (acts : ∀ c, client.connections[k]? = some c → allowed c = true → keeps (act c)) :
    keeps (client.on k allowed act) := by
  rcases on_cases client k allowed act with ⟨same,disabled⟩ | ⟨c,found,ready,acted⟩
  · rw [same]
    exact idle disabled
  · rw [acted]
    exact acts c found ready

/-- An invariant that every call of the callback keeps is kept whether it is called or not. -/
theorem on_keeps (keeps : Client n → Prop) (client : Client n) (k : Nat) (allowed : Connection → Bool)
    (act : Connection → Option (Client n)) (holds : keeps client)
    (acts : ∀ c, client.connections[k]? = some c → allowed c = true → ∃ after, act c = some after ∧ keeps after) :
    ∃ after, client.on k allowed act = some after ∧ keeps after := by
  apply on_rule (fun result => ∃ after, result = some after ∧ keeps after) client k allowed act ?_ acts
  intro _
  exact ⟨client,rfl,holds⟩

theorem tcpNew_cases (client middle : Client n) (testpcb : Option (Fin 3)) (new : client.tcpNew testpcb = some middle) :
    (middle = client ∧ ∀ i ∈ testpcb, ∀ k, client.pcbs i ≠ .client k) ∨
      ∃ i k c, testpcb = some i ∧ client.pcbs i = .client k ∧ client.connections[k]? = some c ∧ c.Alive ∧
        middle = client.finish k c := by
  cases testpcb with
  | none =>
    simp only [Client.tcpNew,Option.ite_none_right_eq_some,Option.some.injEq] at new
    exact .inl ⟨new.2.symm,by simp⟩
  | some i =>
    cases use : client.pcbs i with
    | free =>
      simp only [Client.tcpNew,use,Option.some.injEq] at new
      exact .inl ⟨new.symm,by simp [use]⟩
    | other =>
      simp only [Client.tcpNew,use,Option.ite_none_right_eq_some,Option.some.injEq] at new
      exact .inl ⟨new.2.symm,by simp [use]⟩
    | client k =>
      cases found : client.connections[k]? with
      | none => simp [Client.tcpNew,use,found] at new
      | some c =>
        simp only [Client.tcpNew,use,found,Option.ite_none_right_eq_some,Option.some.injEq] at new
        exact .inr ⟨i,k,c,rfl,use,found,new.1.2,new.2.symm⟩

theorem recv_cases (client : Client n) (k : Nat) (segments : List (Segment n)) :
    (client.step (.recv k segments) = some client ∧
        ∀ c ∈ client.connections[k]?, c.Receives → ¬ Arrives client.mem segments) ∨
      ∃ c, client.connections[k]? = some c ∧ c.Receives ∧ Arrives client.mem segments ∧
        client.step (.recv k segments) =
          some {client.update k {c with delivered := c.delivered + (segmentBytes segments).length} with
            mem := place client.mem (arrived segments),
            handed := client.handed ++ segments.map Segment.address} := by
  simp only [Client.step]
  rcases on_cases client k (·.Receives) _ with ⟨idle,other⟩ | ⟨c,found,ready,act⟩
  · exact .inl ⟨idle,fun c found receives => by simpa [receives] using other c found⟩
  · have receives : c.Receives := by simpa using ready
    rw [act]
    by_cases arrives : Arrives client.mem segments
    · obtain ⟨s,rest,rfl⟩ := List.exists_cons_of_ne_nil arrives.1
      exact .inr ⟨c,found,receives,arrives,by rw [if_pos arrives]; rfl⟩
    · exact .inl ⟨if_neg arrives,fun _ _ _ => arrives⟩

/-- Every call of `http_send_request` has registered its callbacks, and nothing takes them back. -/
def AllRegistered (connections : List Connection) : Prop := ∀ c ∈ connections, c.callbacks = httpCallbacks

theorem registered_set (connections : List Connection) (k : Nat) (c changed : Connection)
    (registered : AllRegistered connections) (found : connections[k]? = some c) (callbacks : changed.callbacks = c.callbacks) :
    AllRegistered (connections.set k changed) := by
  intro d member
  rcases List.mem_or_eq_of_mem_set member with old | rfl
  · exact registered d old
  · rw [callbacks]
    exact registered c (List.mem_of_getElem? found)

theorem AllRegistered.receives {connections : List Connection} (registered : AllRegistered connections) {k : Nat}
    {c : Connection} (found : connections[k]? = some c) : c.Receives ↔ c.phase = .established := by
  simp [Connection.Receives,registered c (List.mem_of_getElem? found),httpCallbacks]

theorem httpSendRequest_opens (client : Client n) (data : List Byte) (testpcb : Option (Fin 3)) (connect : ErrT)
    (ghs : HttpClientState) (done : client.ghs.compose data = some ghs) :
    ∃ after, httpSendRequest client data testpcb connect = some after ∧ after.ghs = ghs ∧
      after.connections = client.connections ++ [⟨composed data,[],testpcb,httpCallbacks,
        if testpcb ≠ none ∧ connect = .ok then .opening else .failed,0,0⟩] ∧
      (∀ i, after.pcbs i = if testpcb = some i then .client client.connections.length else client.pcbs i) ∧
      after.mem = client.mem ∧ after.handed = client.handed := by
  simp only [httpSendRequest,done,Option.bind_eq_bind,Option.bind_some]
  refine ⟨_,rfl,rfl,rfl,fun i => ?_,rfl,rfl⟩
  cases testpcb with
  | none => rfl
  | some j => simp [Function.update_apply,eq_comm]

@[simp] theorem finish_ghs (client : Client n) (k : Nat) (c : Connection) : (client.finish k c).ghs = client.ghs := by
  unfold Client.finish Client.release
  split <;> rfl

theorem finish_pcbs (client : Client n) (k : Nat) (c : Connection) (i : Fin 3) :
    (client.finish k c).pcbs i = if c.pcb = some i then .free else client.pcbs i := by
  unfold Client.finish Client.release
  cases c.pcb with
  | none => simp [Client.update]
  | some j => simp [Client.update,Function.update_apply,eq_comm]

@[simp] theorem finish_mem (client : Client n) (k : Nat) (c : Connection) :
    (client.finish k c).mem = client.mem ∧ (client.finish k c).handed = client.handed := by
  unfold Client.finish Client.release
  split <;> exact ⟨rfl,rfl⟩

@[simp] theorem finish_connections (client : Client n) (k : Nat) (c : Connection) :
    (client.finish k c).connections = client.connections.set k {c with phase := .closed} := by
  unfold Client.finish Client.release
  split <;> rfl

theorem set_found (connections : List Connection) (k j : Nat) (c changed d : Connection)
    (found : connections[k]? = some c) :
    (connections.set k changed)[j]? = some d ↔ j = k ∧ d = changed ∨ j ≠ k ∧ connections[j]? = some d := by
  obtain ⟨inside,_⟩ := List.getElem?_eq_some_iff.mp found
  rw [List.getElem?_set]
  by_cases same : k = j
  · rw [if_pos same,if_pos inside]
    simp [same,eq_comm]
  · rw [if_neg same]
    simp [Ne.symm same]

theorem append_found (connections : List Connection) (j : Nat) (new d : Connection) :
    (connections ++ [new])[j]? = some d ↔
      j = connections.length ∧ d = new ∨ j < connections.length ∧ connections[j]? = some d := by
  rcases Nat.lt_trichotomy j connections.length with before | rfl | after
  · rw [List.getElem?_append_left before]
    simp [before,Nat.ne_of_lt before]
  · rw [List.getElem?_concat_length]
    simp [eq_comm]
  · rw [List.getElem?_eq_none (by simp; omega)]
    simp [Nat.ne_of_gt after,Nat.not_lt_of_gt after]

end Swip.Apps
