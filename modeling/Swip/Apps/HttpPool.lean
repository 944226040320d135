import Swip.Apps.HttpSend

/-! Whole runs of the HTTP client: what becomes of the pcbs it takes from the pool and of the
pbufs it is given. `http_send_request` does not look at the result of `tcp_connect`, and
`tcpRecvCallback` neither frees a pbuf nor credits its bytes. -/
namespace Swip.Apps
open Device Library.Run

variable {n : Nat}

/-- The `k`th connection has the pcb: it lives, or its `tcp_connect` failed. -/
def Owns (connections : List Connection) (k : Nat) (i : Fin 3) : Prop :=
  ∃ c, connections[k]? = some c ∧ c.pcb = some i ∧ c.phase ≠ .closed

structure Accounts (client : Client n) : Prop where
  bounded : client.ghs.Bounded
  registered : AllRegistered client.connections
  owned : ∀ (i : Fin 3) (k : Nat), client.pcbs i = .client k ↔ Owns client.connections k i
  kept : client.mem.freed = []
  uncredited : ∀ c ∈ client.connections, c.credited = 0
  undelivered : client.handed = [] → ∀ c ∈ client.connections, c.delivered = 0

/-- No pbuf was handed over and no pcb was left behind by a failed `tcp_connect`. -/
def Clean (client : Client n) : Prop :=
  client.handed = [] ∧ ∀ c ∈ client.connections, c.phase = .failed → c.pcb = none

/-- The data fits into the buffer, `tcp_connect` succeeds and no response arrives. -/
def Tidy (client : Client n) : ClientEvent n → Prop
  | .request data testpcb connect =>
    (client.tcpNew testpcb).isSome → data.length ≤ 148 ∧ (testpcb.isSome → connect = .ok)
  | .recv k segments => ∀ c ∈ client.connections[k]?, c.phase = .established → ¬ Arrives client.mem segments
  | _ => True

instance (client : Client n) : (event : ClientEvent n) → Decidable (Tidy client event)
  | .request data testpcb connect => inferInstanceAs
    (Decidable ((client.tcpNew testpcb).isSome → data.length ≤ 148 ∧ (testpcb.isSome → connect = .ok)))
  | .recv k segments => inferInstanceAs
    (Decidable (∀ c ∈ client.connections[k]?, c.phase = .established → ¬ Arrives client.mem segments))
  | .connected .. => .isTrue trivial
  | .sent .. => .isTrue trivial
  | .recvNull _ => .isTrue trivial
  | .error _ => .isTrue trivial
  | .others _ => .isTrue trivial

theorem owns_found (connections : List Connection) (k : Nat) (c : Connection) (i : Fin 3)
    (found : connections[k]? = some c) : Owns connections k i ↔ c.pcb = some i ∧ c.phase ≠ .closed := by
  simp [Owns,found]

theorem owns_set (connections : List Connection) (k j : Nat) (c changed : Connection) (i : Fin 3)
    (found : connections[k]? = some c) :
    Owns (connections.set k changed) j i ↔
      j = k ∧ changed.pcb = some i ∧ changed.phase ≠ .closed ∨ j ≠ k ∧ Owns connections j i := by
  simp only [Owns,set_found connections k j c changed _ found]
  by_cases same : j = k <;> simp [same]

theorem owns_append (connections : List Connection) (j : Nat) (new : Connection) (i : Fin 3) :
    Owns (connections ++ [new]) j i ↔
      j = connections.length ∧ new.pcb = some i ∧ new.phase ≠ .closed ∨ Owns connections j i := by
  simp only [Owns,append_found]
  constructor
  · intro owner
    obtain ⟨d,⟨rfl,rfl⟩ | ⟨_,there⟩,own⟩ := owner
    · exact .inl ⟨rfl,own⟩
    · exact .inr ⟨d,there,own⟩
  · intro owner
    rcases owner with ⟨rfl,own⟩ | ⟨d,there,own⟩
    · exact ⟨new,.inl ⟨rfl,rfl⟩,own⟩
    · exact ⟨d,.inr ⟨(List.getElem?_eq_some_iff.mp there).1,there⟩,own⟩

theorem accounts_set (client after : Client n) (k : Nat) (c changed : Connection) (accounts : Accounts client)
    (found : client.connections[k]? = some c) (living : c.phase ≠ .closed) (pcb : changed.pcb = c.pcb)
    (callbacks : changed.callbacks = c.callbacks) (credited : changed.credited = c.credited) (bounded : after.ghs.Bounded)
    (set : after.connections = client.connections.set k changed)
    (pcbs : ∀ i, after.pcbs i = if changed.phase = .closed ∧ c.pcb = some i then .free else client.pcbs i)
    (freed : after.mem.freed = client.mem.freed)
    (delivered : after.handed = [] → client.handed = [] ∧ changed.delivered = c.delivered) : Accounts after := by
  have member := List.mem_of_getElem? found
  obtain ⟨_,registered,owned,kept,uncredited,undelivered⟩ := accounts
  refine ⟨bounded,?_,?_,by rw [freed]; exact kept,?_,?_⟩
  · rw [set]
    exact registered_set client.connections k c changed registered found callbacks
  · intro i j
    have own := (owned i k).trans (owns_found client.connections k c i found)
    rw [pcbs,set,owns_set client.connections k j c changed i found,pcb,← owned]
    by_cases mine : c.pcb = some i
    · have here : client.pcbs i = .client k := own.mpr ⟨mine,living⟩
      by_cases ended : changed.phase = .closed
      · simp [mine,ended,here]
        omega
      · simp [mine,ended,here]
        omega
    · have elsewhere : client.pcbs i ≠ .client k := fun here => mine (own.mp here).1
      simp [mine]
      grind
  · intro d there
    rw [set] at there
    rcases List.mem_or_eq_of_mem_set there with old | rfl
    · exact uncredited d old
    · rw [credited]
      exact uncredited c member
  · intro none d there
    obtain ⟨before,same⟩ := delivered none
    rw [set] at there
    rcases List.mem_or_eq_of_mem_set there with old | rfl
    · exact undelivered before d old
    · rw [same]
      exact undelivered before c member

theorem clean_set (client after : Client n) (k : Nat) (c changed : Connection)
    (found : client.connections[k]? = some c) (set : after.connections = client.connections.set k changed)
    (handed : after.handed = client.handed) (before : c.phase ≠ .failed) (now : changed.phase ≠ .failed) :
    Clean after ↔ Clean client := by
  unfold Clean
  rw [handed,set]
  refine and_congr_right fun _ => ⟨fun clean d member failed => ?_,fun clean d member failed => ?_⟩
  · obtain ⟨j,there⟩ := List.mem_iff_getElem?.mp member
    by_cases same : j = k
    · subst same
      rw [found] at there
      obtain rfl := Option.some.inj there
      exact absurd failed before
    · exact clean d (List.mem_of_getElem? ((set_found _ k j c changed d found).mpr (.inr ⟨same,there⟩))) failed
  · rcases List.mem_or_eq_of_mem_set member with old | rfl
    · exact clean d old failed
    · exact absurd failed now

theorem Connection.Alive.living {c : Connection} (alive : c.Alive) : c.phase ≠ .closed ∧ c.phase ≠ .failed := by
  rcases alive with phase | phase <;> simp [phase]

theorem accounts_finish (client : Client n) (k : Nat) (c : Connection) (accounts : Accounts client)
    (found : client.connections[k]? = some c) (alive : c.Alive) :
    Accounts (client.finish k c) ∧ (Clean (client.finish k c) ↔ Clean client) := by
  have living := alive.living
  obtain ⟨mem,handed⟩ := finish_mem client k c
  constructor
  · apply accounts_set client _ k c {c with phase := .closed} accounts found living.1 rfl rfl rfl
    · rw [finish_ghs]
      exact accounts.bounded
    · exact finish_connections client k c
    · intro i
      rw [finish_pcbs]
      simp
    · rw [mem]
    · intro none
      exact ⟨handed.symm.trans none,rfl⟩
  · exact clean_set client _ k c {c with phase := .closed} found (finish_connections client k c) handed living.2 (by simp)

def Settles (client : Client n) (event : ClientEvent n) (result : Option (Client n)) : Prop :=
  result = none ∧ ¬ Tidy client event ∨
    ∃ after, result = some after ∧ Accounts after ∧ (Clean after ↔ Clean client ∧ Tidy client event)

theorem settles_same (client : Client n) (event : ClientEvent n) (accounts : Accounts client) (tidy : Tidy client event) :
    Settles client event (some client) :=
  .inr ⟨client,rfl,accounts,by simp [tidy]⟩

theorem settles_finish (client : Client n) (event : ClientEvent n) (k : Nat) (c : Connection) (accounts : Accounts client)
    (found : client.connections[k]? = some c) (alive : c.Alive) (tidy : Tidy client event) :
    Settles client event (some (client.finish k c)) := by
  obtain ⟨after,clean⟩ := accounts_finish client k c accounts found alive
  exact .inr ⟨_,rfl,after,by simp [tidy,clean]⟩

theorem settles_send (client : Client n) (event : ClientEvent n) (k : Nat) (c : Connection) (reply : Reply)
    (accounts : Accounts client) (found : client.connections[k]? = some c) (alive : c.Alive) (tidy : Tidy client event) :
    Settles client event (client.sendData k c reply) := by
  have living := alive.living
  obtain ⟨ghs,accepted,_,sent,still,_⟩ := myHttpSendData_left client.ghs reply.writes accounts.bounded
  let changed : Connection := {c with phase := .established, written := c.written ++ accepted}
  refine .inr ⟨{client.update k changed with ghs := ghs},by simp [Client.sendData,sent,changed],?_,?_⟩
  · exact accounts_set client _ k c changed accounts found living.1 rfl rfl rfl still rfl (by simp [changed,Client.update]) rfl
      (fun none => ⟨none,rfl⟩)
  · rw [clean_set client {client.update k changed with ghs := ghs} k c changed found rfl rfl living.2 (by simp [changed])]
    simp [tidy]

theorem settles_recv (client : Client n) (k : Nat) (segments : List (Segment n)) (accounts : Accounts client) :
    Settles client (.recv k segments) (client.step (.recv k segments)) := by
  rcases recv_cases client k segments with ⟨idle,tidy⟩ | ⟨c,found,⟨established,_⟩,arrives,act⟩
  · rw [idle]
    exact settles_same client _ accounts fun c found established =>
      tidy c found ((accounts.registered.receives found).mpr established)
  · rw [act]
    have handed : client.handed ++ segments.map Segment.address ≠ [] := by
      simp [arrives.1]
    refine .inr ⟨_,rfl,?_,?_⟩
    · refine accounts_set client _ k c {c with delivered := c.delivered + (segmentBytes segments).length} accounts found
        (by simp [established]) rfl rfl rfl ?_ rfl ?_ ?_ ?_
      · exact accounts.bounded
      · simp [established,Client.update]
      · exact (place_arrived client.mem segments arrives.2.1).2.2
      · exact fun none => absurd none handed
    · constructor
      · intro clean
        exact absurd clean.1 handed
      · intro tidy
        exact absurd arrives (tidy.2 c found established)

theorem accounts_tcpNew (client middle : Client n) (testpcb : Option (Fin 3)) (accounts : Accounts client)
    (new : client.tcpNew testpcb = some middle) :
    Accounts middle ∧ (Clean middle ↔ Clean client) ∧ ∀ i ∈ testpcb, ∀ k, middle.pcbs i ≠ .client k := by
  rcases tcpNew_cases client middle testpcb new with ⟨rfl,unused⟩ | ⟨i,k,c,rfl,use,found,alive,rfl⟩
  · exact ⟨accounts,Iff.rfl,unused⟩
  · obtain ⟨after,clean⟩ := accounts_finish client k c accounts found alive
    refine ⟨after,clean,?_⟩
    intro j same l
    obtain rfl := Option.some.inj same
    have own := (owns_found client.connections k c i found).mp ((accounts.owned i k).mp use)
    rw [finish_pcbs,if_pos own.1]
    simp

theorem settles_request (client : Client n) (data : List Byte) (testpcb : Option (Fin 3)) (connect : ErrT)
    (accounts : Accounts client) :
    Settles client (.request data testpcb connect) (client.step (.request data testpcb connect)) := by
  cases new : client.tcpNew testpcb with
  | none =>
    simp only [Client.step,new]
    exact settles_same client _ accounts (by simp [Tidy,new])
  | some middle =>
    simp only [Client.step,new]
    obtain ⟨⟨bounded,registered,owned,kept,uncredited,undelivered⟩,clean,unused⟩ := accounts_tcpNew client middle testpcb accounts new
    by_cases short : data.length ≤ 148
    · obtain ⟨ghs,done,filled,_⟩ := compose_left middle.ghs data bounded short
      obtain ⟨after,opened,rfl,connections,pcbs,mem,handed⟩ := httpSendRequest_opens middle data testpcb connect ghs done
      refine .inr ⟨after,opened,⟨filled,?_,?_,by rw [mem]; exact kept,?_,?_⟩,?_⟩
      · intro d member
        rw [connections,List.mem_append,List.mem_singleton] at member
        rcases member with old | rfl
        · exact registered d old
        · rfl
      · intro i j
        rw [pcbs,connections,owns_append,← owned]
        have living : (if testpcb ≠ none ∧ connect = .ok then Phase.opening else .failed) ≠ .closed := by
          split_ifs <;> simp
        by_cases taken : testpcb = some i
        · rw [if_pos taken]
          constructor
          · intro same
            exact .inl ⟨(PcbUse.client.inj same).symm,taken,living⟩
          · intro owner
            rcases owner with ⟨rfl,_⟩ | old
            · rfl
            · exact absurd old (unused i taken j)
        · simp [taken]
      · intro d member
        rw [connections,List.mem_append,List.mem_singleton] at member
        rcases member with old | rfl
        · exact uncredited d old
        · rfl
      · intro none d member
        rw [connections,List.mem_append,List.mem_singleton] at member
        rcases member with old | rfl
        · exact undelivered (handed.symm.trans none) d old
        · rfl
      · rw [← clean]
        simp only [Clean,handed,connections,Tidy,new,Option.isSome_some,short,List.mem_append,List.mem_singleton]
        cases testpcb with
        | none => simp [or_imp,forall_and]
        | some i => simp [or_imp,forall_and,and_assoc]
    · refine .inl ⟨?_,fun tidy => short (tidy (by simp [new])).1⟩
      cases done : middle.ghs.compose data with
      | none => simp [httpSendRequest,done]
      | some ghs => exact absurd (compose_fits middle.ghs ghs data bounded.1 done) short

theorem settles_others (client : Client n) (i : Fin 3) (accounts : Accounts client) :
    Settles client (.others i) (client.step (.others i)) := by
  obtain ⟨bounded,registered,owned,kept,uncredited,undelivered⟩ := accounts
  -- the slot is nobody's before and after
  have moved : ∀ use, (∀ k, client.pcbs i ≠ .client k) → (∀ k, use ≠ .client k) →
      Settles client (.others i) (some {client with pcbs := Function.update client.pcbs i use}) := by
    intro use before after
    refine .inr ⟨_,rfl,⟨bounded,registered,?_,kept,uncredited,undelivered⟩,by simp [Clean,Tidy]⟩
    intro j k
    rw [← owned]
    by_cases same : j = i
    · subst same
      simp [after,before]
    · simp [Function.update_of_ne same]
  cases use : client.pcbs i with
  | free => simpa only [Client.step,use] using moved .other (by simp [use]) (by simp)
  | other => simpa only [Client.step,use] using moved .free (by simp [use]) (by simp)
  | client k =>
    simp only [Client.step,use]
    exact settles_same client _ ⟨bounded,registered,owned,kept,uncredited,undelivered⟩ trivial

theorem settles_step (client : Client n) (event : ClientEvent n) (accounts : Accounts client) :
    Settles client event (client.step event) := by
  cases event with
  | request data testpcb connect => exact settles_request client data testpcb connect accounts
  | connected k reply =>
    apply on_rule (Settles client (.connected k reply)) client k _ _ fun _ => settles_same client _ accounts trivial
    intro c found ready
    exact settles_send client _ k c reply accounts found (.inl (by simpa using ready)) trivial
  | sent k reply =>
    apply on_rule (Settles client (.sent k reply)) client k _ _ fun _ => settles_same client _ accounts trivial
    intro c found ready
    simp only [decide_eq_true_eq] at ready
    exact settles_send client _ k c reply accounts found (.inr ready.1) trivial
  | recv k segments => exact settles_recv client k segments accounts
  | recvNull k =>
    apply on_rule (Settles client (.recvNull k)) client k _ _ fun _ => settles_same client _ accounts trivial
    intro c found ready
    have receives : c.Receives := by simpa using ready
    exact settles_finish client _ k c accounts found (.inr receives.1) trivial
  | error k =>
    apply on_rule (Settles client (.error k)) client k _ _ fun _ => settles_same client _ accounts trivial
    intro c found ready
    exact settles_finish client _ k c accounts found (by simpa using ready) trivial
  | others i => exact settles_others client i accounts

/-! ### Runs -/

theorem settles_run (client : Client n) (events : List (ClientEvent n)) (accounts : Accounts client) :
    run clientStep (some client) events = none ∧ ¬ Along clientStep (WhileRunning Tidy) (some client) events ∨
      ∃ after, run clientStep (some client) events = some after ∧ Accounts after ∧
        (Clean after ↔ Clean client ∧ Along clientStep (WhileRunning Tidy) (some client) events) := by
  induction events generalizing client with
  | nil => exact .inr ⟨client,rfl,accounts,by simp [Along]⟩
  | cons event events ih =>
    have tidy : WhileRunning Tidy (some client) event ↔ Tidy client event := by simp [WhileRunning]
    simp only [run_cons,Along,tidy]
    rcases settles_step client event accounts with ⟨stopped,untidy⟩ | ⟨next,stepped,kept,clean⟩
    · refine .inl ⟨?_,fun along => untidy along.1⟩
      rw [show clientStep (some client) event = none from stopped]
      exact run_stuck clientStep none (fun _ => rfl) events
    · rw [show clientStep (some client) event = some next from stepped]
      rcases ih next kept with ⟨stopped,untidy⟩ | ⟨after,ran,kept,later⟩
      · exact .inl ⟨stopped,fun along => untidy along.2⟩
      · exact .inr ⟨after,ran,kept,by rw [later,clean,and_assoc]⟩

/-- Every pcb is back in the pool and every pbuf has been freed exactly once. -/
def Returned (client : Client n) : Prop :=
  (∀ i k, client.pcbs i ≠ .client k) ∧ client.mem.freed.Perm client.handed

theorem returned_clean (client : Client n) (accounts : Accounts client) (none : ∀ c ∈ client.connections, ¬ c.Alive) :
    Returned client ↔ Clean client := by
  obtain ⟨_,_,owned,kept,_,_⟩ := accounts
  rw [Returned,Clean,kept,List.nil_perm,and_comm]
  refine and_congr_right fun _ => ⟨fun back c member failed => ?_,fun clean i k mine => ?_⟩
  · obtain ⟨k,found⟩ := List.mem_iff_getElem?.mp member
    cases pcb : c.pcb with
    | none => rfl
    | some i => exact absurd ((owned i k).mpr ⟨c,found,pcb,by simp [failed]⟩) (back i k)
  · obtain ⟨c,found,pcb,living⟩ := (owned i k).mp mine
    have member := List.mem_of_getElem? found
    have failed : c.phase = .failed := by
      have dead := none c member
      cases phase : c.phase <;> simp_all [Connection.Alive]
    rw [clean c member failed] at pcb
    cases pcb

theorem start_accounts (pcbs : Fin 3 → PcbUse) (cell : Fin n → Option (Pbuf n Byte)) (tab : List (Fin n))
    (unused : ∀ i k, pcbs i ≠ .client k) : Accounts (Client.start pcbs cell tab) ∧ Clean (Client.start pcbs cell tab) := by
  refine ⟨⟨start_bounded pcbs cell tab,by simp [Client.start,AllRegistered],?_,rfl,by simp [Client.start],by simp [Client.start]⟩,
    rfl,by simp [Client.start]⟩
  intro i k
  simp [Client.start,Owns,unused]

/-- If the data fits, `tcp_connect` succeeds and no response arrives, nothing is leaked. In every
other run whose connections have all ended something is. -/
theorem client_leaks_nothing (pcbs : Fin 3 → PcbUse) (cell : Fin n → Option (Pbuf n Byte)) (tab : List (Fin n))
    (unused : ∀ i k, pcbs i ≠ .client k) (events : List (ClientEvent n)) :
    (Along clientStep (WhileRunning Tidy) (some (Client.start pcbs cell tab)) events →
      ∃ client, run clientStep (some (Client.start pcbs cell tab)) events = some client ∧
        ((∀ c ∈ client.connections, ¬ c.Alive) → Returned client) ∧
        ∀ c ∈ client.connections, c.Alive → c.credited = c.delivered) ∧
      ∀ client, run clientStep (some (Client.start pcbs cell tab)) events = some client →
        (∀ c ∈ client.connections, ¬ c.Alive) →
        (Returned client ↔ Along clientStep (WhileRunning Tidy) (some (Client.start pcbs cell tab)) events) := by
  obtain ⟨accounts,clean⟩ := start_accounts pcbs cell tab unused
  rcases settles_run (Client.start pcbs cell tab) events accounts with ⟨stopped,untidy⟩ | ⟨after,ran,kept,later⟩
  · refine ⟨fun tidy => absurd tidy untidy,?_⟩
    intro client ran
    rw [stopped] at ran
    cases ran
  · simp only [clean,true_and] at later
    constructor
    · intro tidy
      have still := later.mpr tidy
      refine ⟨after,ran,(returned_clean after kept · |>.mpr still),?_⟩
      intro c member _
      rw [kept.uncredited c member,kept.undelivered still.1 c member]
    · intro client same none
      rw [ran] at same
      obtain rfl := Option.some.inj same
      rw [returned_clean after kept none,later]

def closedRun (pcb : Fin 3) : List (ClientEvent 1) :=
  [.request (cstr "button1-pressed") (some pcb) .ok,.connected 0 ⟨[(200,.ok)],.ok⟩,.recvNull 0]

theorem client_leaks_nothing_closed :
    ∃ client, run clientStep (some (Client.start (fun _ => .free) (fun _ => none) [])) (closedRun 0) = some client ∧
      (∀ c ∈ client.connections, ¬ c.Alive) ∧ Returned client := by
  obtain ⟨client,ran,released,_⟩ :=
    (client_leaks_nothing (fun _ => .free) (fun _ => none) [] (by simp) (closedRun 0)).1 (by decide +kernel)
  have ended : ∀ client ∈ run clientStep (some (Client.start (fun _ => .free) (fun _ => none) [])) (closedRun 0),
      ∀ c ∈ client.connections, ¬ c.Alive := by
    decide +kernel
  exact ⟨client,ran,ended client ran,released (ended client ran)⟩

/-- Without a route `tcp_connect` fails and the pcb stays taken; a byte of an answer is neither
freed nor credited. -/
theorem client_leaks :
    (∃ client ∈ run clientStep (some (Client.start (n := 1) (fun _ => .free) (fun _ => none) []))
        [.request (cstr "button1-pressed") (some 0) .rte],
      (∀ c ∈ client.connections, ¬ c.Alive) ∧ client.pcbs 0 = .client 0) ∧
    (∃ client ∈ run clientStep (some (Client.start (n := 1) (fun _ => .free) (fun _ => none) []))
        [.request (cstr "button1-pressed") (some 0) .ok,.connected 0 ⟨[(200,.ok)],.ok⟩,.recv 0 [⟨0,[0x48],.pool⟩]],
      ∃ c ∈ client.connections, c.Alive ∧ c.credited ≠ c.delivered) ∧
    ∃ client ∈ run clientStep (some (Client.start (n := 1) (fun _ => .free) (fun _ => none) []))
        [.request (cstr "button1-pressed") (some 0) .ok,.connected 0 ⟨[(200,.ok)],.ok⟩,.recv 0 [⟨0,[0x48],.pool⟩],
          .recvNull 0],
      (∀ c ∈ client.connections, ¬ c.Alive) ∧ ¬ client.mem.freed.Perm client.handed := by
  decide +kernel

end Swip.Apps
