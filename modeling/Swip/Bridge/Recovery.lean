import Swip.Bridge.Worker

/-! Line noise at the worker. An escape that is still open when an ordinary byte arrives
raises at the next END, and an END itself closes no escape; the noise the worker
survives is exactly the one in which every ESC meets a substitute in time. -/
namespace Swip.Bridge
open Library.Stuffing Library.Run Slip

def Substituted (after : List Byte) : Prop :=
  ∃ skipped d rest, after = skipped ++ d :: rest ∧ (∀ c ∈ skipped, c = slipEsc ∨ c = slipEnd) ∧
    (d = slipEscEnd ∨ d = slipEscEsc)

/-- Every ESC is followed, after any number of ESC and END bytes, by ESC_END or ESC_ESC. -/
def Resolved (noise : List Byte) : Prop :=
  ∀ before after, noise = before ++ slipEsc :: after → Substituted after

private theorem substituted_skip (c : Byte) (rest : List Byte) (skip : c = slipEsc ∨ c = slipEnd) :
    Substituted (c :: rest) ↔ Substituted rest := by
  constructor
  · intro substituted
    obtain ⟨skipped,d,others,split,between,substitute⟩ := substituted
    cases skipped with
    | nil =>
      have same : c = d := by simpa using (List.cons.inj split).1
      subst same
      rcases skip with rfl | rfl <;> exact absurd substitute (by decide)
    | cons e skipped =>
      exact ⟨skipped,d,others,(List.cons.inj split).2,fun b member => between b (by simp [member]),substitute⟩
  · intro substituted
    obtain ⟨skipped,d,others,rfl,between,substitute⟩ := substituted
    exact ⟨c :: skipped,d,others,rfl,by simpa [skip] using between,substitute⟩

private theorem substituted_here (d : Byte) (rest : List Byte) (substitute : d = slipEscEnd ∨ d = slipEscEsc) :
    Substituted (d :: rest) := ⟨[],d,rest,rfl,by simp,substitute⟩

private theorem substituted_ordinary (c : Byte) (rest : List Byte) (ordinary : Ordinary slipCode c) :
    ¬ Substituted (c :: rest) := by
  intro substituted
  obtain ⟨skipped,d,others,split,between,substitute⟩ := substituted
  cases skipped with
  | nil =>
    have same : c = d := (List.cons.inj split).1
    subst same
    rcases substitute with escFin | escEsc
    · exact ordinary.2.2.1 escFin
    · exact ordinary.2.2.2 escEsc
  | cons e skipped =>
    have same : c = e := (List.cons.inj split).1
    rcases between e (by simp) with esc | fin
    · exact ordinary.2.1 (same.trans esc)
    · exact ordinary.1 (same.trans fin)

private theorem resolved_esc (rest : List Byte) :
    Resolved (slipEsc :: rest) ↔ Substituted rest ∧ Resolved rest := by
  constructor
  · intro resolved
    exact ⟨resolved [] rest rfl,fun before after split => resolved (slipEsc :: before) after (by rw [split]; rfl)⟩
  · intro both before after split
    obtain ⟨first,resolved⟩ := both
    cases before with
    | nil => rw [(List.cons.inj split).2] at first; exact first
    | cons c before => exact resolved before after (List.cons.inj split).2

private theorem resolved_other (c : Byte) (rest : List Byte) (other : c ≠ slipEsc) :
    Resolved (c :: rest) ↔ Resolved rest := by
  constructor
  · intro resolved before after split
    exact resolved (c :: before) after (by rw [split]; rfl)
  · intro resolved before after split
    cases before with
    | nil => exact absurd (List.cons.inj split).1 other
    | cons d before => exact resolved before after (List.cons.inj split).2

theorem escapeAfter_ordinary (c : Byte) (rest : List Byte) (ordinary : Ordinary slipCode c) :
    escapeAfter true (c :: rest) = none := by
  obtain ⟨fin,esc,escFin,escEsc⟩ := ordinary
  change c ≠ slipEnd at fin
  change c ≠ slipEsc at esc
  change c ≠ slipEscEnd at escFin
  change c ≠ slipEscEsc at escEsc
  simp [escapeAfter,fin,esc,escFin,escEsc]

theorem escapeAfter_resolved (noise : List Byte) :
    (escapeAfter false noise = some false ↔ Resolved noise) ∧
      (escapeAfter true noise = some false ↔ Substituted noise ∧ Resolved noise) := by
  induction noise with
  | nil =>
    refine ⟨by simp [escapeAfter,Resolved],?_⟩
    simp [escapeAfter,Substituted]
  | cons c rest ih =>
    by_cases fin : c = slipEnd
    · subst fin
      simp only [escapeAfter,if_true,ih,resolved_other slipEnd rest (by decide),
        substituted_skip slipEnd rest (.inr rfl),and_self]
    by_cases esc : c = slipEsc
    · subst esc
      have different : slipEsc ≠ slipEnd := by decide
      simp only [escapeAfter,if_neg different,if_true,ih,resolved_esc,
        substituted_skip slipEsc rest (.inl rfl),true_and]
      tauto
    by_cases substitute : c = slipEscEnd ∨ c = slipEscEsc
    · simp only [escapeAfter,if_neg fin,if_neg esc,if_pos substitute,ih,
        resolved_other c rest esc,substituted_here c rest substitute,true_and,and_self]
    have ordinary : Ordinary slipCode c := ⟨fin,esc,fun h => substitute (.inl h),fun h => substitute (.inr h)⟩
    simp only [escapeAfter,if_neg fin,if_neg esc,if_neg substitute,Bool.false_eq_true,if_false,if_true,ih,
      resolved_other c rest esc,substituted_ordinary c rest ordinary,false_and,reduceCtorEq,and_self]

/-- The packets of the noise once an END has closed it. -/
def noisePackets (noise : List Byte) : List (List Byte) :=
  carriedPackets slipCode false (stretches slipCode [] (noise ++ [slipEnd]))

theorem carriedPackets_cons (escaped : Bool) (stretch : List Byte) (later : List (List Byte)) :
    carriedPackets slipCode escaped (stretch :: later) =
      (if Marked stretch then [(carry slipCode escaped stretch).1] else []) ++
        carriedPackets slipCode (carry slipCode escaped stretch).2 later := by
  simp only [carriedPackets]
  congr

theorem decodeChar_carried (self : Slip) (packetlist : List (List Byte)) (c : Byte) (inside : c ≠ slipEnd) (other : c ≠ slipEsc)
    (fine : Ordinary slipCode c → self.escaped = false) :
    decodeChar (self,packetlist) c =
      .ok ({self with started := self.started || decide (Ordinary slipCode c), escaped := false,
                      packet := self.packet ++ [if self.escaped then unescape slipCode c else c]},packetlist) := by
  by_cases ordinary : Ordinary slipCode c
  · rw [decodeChar_ordinary self packetlist c ordinary (fine ordinary)]
    rcases self with ⟨started,escaped,stream,packet⟩
    obtain rfl : escaped = false := fine ordinary
    simp [ordinary]
  · have substitute : c = slipEscEnd ∨ c = slipEscEsc := by
      by_contra neither
      rw [not_or] at neither
      exact ordinary ⟨inside,other,neither.1,neither.2⟩
    rcases self with ⟨started,escaped,stream,packet⟩
    rcases substitute with rfl | rfl <;> cases escaped <;> simp [ordinary] <;> rfl

theorem escapeAfter_closes (escaped : Bool) (c : Byte) (rest : List Byte) (inside : c ≠ slipEnd) (other : c ≠ slipEsc)
    {flag : Bool} (fine : escapeAfter escaped (c :: rest) = some flag) :
    (Ordinary slipCode c → escaped = false) ∧ escapeAfter false rest = some flag := by
  simp only [escapeAfter,if_neg inside,if_neg other] at fine
  split_ifs at fine with substitute opened
  · refine ⟨fun ordinary => ?_,fine⟩
    rcases substitute with escFin | escEsc
    · exact absurd escFin ordinary.2.2.1
    · exact absurd escEsc ordinary.2.2.2
  · exact ⟨fun _ => by simpa using opened,fine⟩

/-- A stretch that raises nothing is decoded with the escape that was open before it. -/
theorem decode_carry (self : Slip) (packetlist : List (List Byte)) (stretch : List Byte) (inside : slipEnd ∉ stretch)
    {flag : Bool} (fine : escapeAfter self.escaped stretch = some flag) :
    flag = (carry slipCode self.escaped stretch).2 ∧
      stretch.foldlM decodeChar (self,packetlist) =
        .ok ({self with started := self.started || decide (Marked stretch), escaped := flag,
                        packet := self.packet ++ (carry slipCode self.escaped stretch).1},packetlist) := by
  induction stretch generalizing self with
  | nil =>
    obtain rfl := Option.some.inj fine
    simp [Marked,carry,pure,Except.pure]
  | cons c rest ih =>
    simp only [List.mem_cons,not_or] at inside
    rw [List.foldlM_cons]
    by_cases esc : c = slipEsc
    · subst esc
      obtain ⟨last,next⟩ := ih {self with escaped := true} inside.2 fine
      have unmarked : Marked (slipEsc :: rest) ↔ Marked rest := marked_skip _ _ (by decide)
      have same : carry slipCode self.escaped (slipEsc :: rest) = carry slipCode true rest := rfl
      refine ⟨by rw [same]; exact last,?_⟩
      change rest.foldlM decodeChar ({self with escaped := true},packetlist) = _
      rw [next,same]
      simp only [unmarked]
    · obtain ⟨closed,after⟩ := escapeAfter_closes self.escaped c rest (Ne.symm inside.1) esc fine
      have same : carry slipCode self.escaped (c :: rest) =
          ((if self.escaped then unescape slipCode c else c) :: (carry slipCode false rest).1,
            (carry slipCode false rest).2) := if_neg esc
      have marked : Marked (c :: rest) ↔ Ordinary slipCode c ∨ Marked rest := by simp [Marked]
      rw [decodeChar_carried self packetlist c (Ne.symm inside.1) esc closed,same]
      obtain ⟨last,next⟩ := ih ⟨self.started || decide (Ordinary slipCode c),false,self.stream,
        self.packet ++ [if self.escaped then unescape slipCode c else c]⟩ inside.2 after
      refine ⟨last,?_⟩
      change rest.foldlM decodeChar _ = _
      rw [next]
      simp [marked,Bool.or_assoc]

theorem recv_closed_escaped (escaped : Bool) (handed : List (List Byte)) (stretch : List Byte) (inside : slipEnd ∉ stretch) :
    match escapeAfter escaped stretch with
    | none => (slipRecvWorker openEthernet (.between escaped () handed) (stretch ++ [slipEnd])).raised =
        some .slipProtocolError
    | some flag => flag = (carry slipCode escaped stretch).2 ∧
        slipRecvWorker openEthernet (.between escaped () handed) (stretch ++ [slipEnd]) =
          .between flag () (handed ++ if Marked stretch then [(carry slipCode escaped stretch).1] else []) := by
  rw [recv_closed openEthernet escaped () handed stretch inside]
  cases outcome : escapeAfter escaped stretch with
  | none =>
    rcases decode_escaped ⟨false,escaped,stretch ++ [slipEnd],[]⟩ [] stretch with
      ⟨stuck,raised,_⟩ | ⟨self,packets,_,flag⟩
    · simp only [raised]
    · rw [outcome] at flag
      cases flag
  | some flag =>
    obtain ⟨last,decoded⟩ := decode_carry ⟨false,escaped,stretch ++ [slipEnd],[]⟩ [] stretch inside outcome
    refine ⟨last,?_⟩
    rw [decoded]
    by_cases marked : Marked stretch
    · have nonempty : (carry slipCode escaped stretch).1 ≠ [] := by
        obtain ⟨c,member,ordinary⟩ := marked
        exact carry_nonempty slipCode escaped stretch c member ordinary.2.1
      simp [marked,nonempty,handOn_open,Worker.between]
    · simp [marked]

theorem recv_body_escaped (handed : List (List Byte)) (packet : List Byte) (starts : StartsOrdinary packet) :
    (slipRecvWorker openEthernet (.between true () handed) (body slipCode packet ++ [slipEnd])).raised =
      some .slipProtocolError := by
  obtain ⟨first,rest,shape,ordinary⟩ := starts_body packet starts
  have raises : escapeAfter true (body slipCode packet) = none := by
    rw [shape]
    exact escapeAfter_ordinary first rest ordinary
  have stuck := recv_closed_escaped true handed (body slipCode packet) (body_inside slipCode packet)
  rw [raises] at stuck
  exact stuck

theorem recv_noise (escaped : Bool) (handed : List (List Byte))
    (noise packet : List Byte) (starts : StartsOrdinary packet) :
    let worker := slipRecvWorker openEthernet (.between escaped () handed) (noise ++ frame slipCode packet)
    if escapeAfter escaped noise = some false then
      worker = .between false ()
        (handed ++ carriedPackets slipCode escaped (stretches slipCode [] (noise ++ [slipEnd])) ++ [packet])
    else worker.raised = some .slipProtocolError := by
  induction noise using stream_induction slipCode generalizing escaped handed with
  | tail stretch inside =>
    intro worker
    have leading := recv_closed_escaped escaped handed stretch inside
    have order : stretch ++ frame slipCode packet =
        (stretch ++ [slipEnd]) ++ (body slipCode packet ++ [slipEnd]) := by simp [frame,slipCode]
    have split : worker = slipRecvWorker openEthernet
        (slipRecvWorker openEthernet (.between escaped () handed) (stretch ++ [slipEnd]))
        (body slipCode packet ++ [slipEnd]) := by
      rw [← slipRecvWorker_append,← order]
    have single : stretches slipCode [] (stretch ++ [slipEnd]) = [stretch] :=
      stretches_closed slipCode [] stretch [] inside
    cases flag : escapeAfter escaped stretch with
    | none =>
      rw [flag] at leading
      rw [if_neg (by simp),split,slipRecvWorker_stopped openEthernet _ _ _ leading]
      exact leading
    | some open_ =>
      rw [flag] at leading
      rw [leading.2] at split
      cases open_ with
      | false =>
        rw [recv_body openEthernet () _ packet starts,handOn_open] at split
        rw [if_pos rfl,split,single,carriedPackets_cons]
        simp [Worker.between,carriedPackets]
      | true =>
        rw [if_neg (by simp),split]
        exact recv_body_escaped _ packet starts
  | closed stretch rest inside ih =>
    intro worker
    have first := recv_closed_escaped escaped handed stretch inside
    have split : worker = slipRecvWorker openEthernet
        (slipRecvWorker openEthernet (.between escaped () handed) (stretch ++ [slipEnd]))
        (rest ++ frame slipCode packet) := by
      rw [← slipRecvWorker_append]
      simp [worker,slipCode]
    have whole : escapeAfter escaped (stretch ++ slipCode.fin :: rest) =
        (escapeAfter escaped stretch).bind (escapeAfter · rest) := by
      rw [escapeAfter_append]
      rfl
    have several : stretches slipCode [] (stretch ++ slipCode.fin :: rest ++ [slipEnd]) =
        stretch :: stretches slipCode [] (rest ++ [slipEnd]) := by
      simpa using stretches_closed slipCode [] stretch (rest ++ [slipEnd]) inside
    cases flag : escapeAfter escaped stretch with
    | none =>
      rw [flag] at first whole
      rw [whole,if_neg (by simp),split,slipRecvWorker_stopped openEthernet _ _ _ first]
      exact first
    | some open_ =>
      rw [flag] at first whole
      obtain ⟨last,flushed⟩ := first
      have later := ih open_ (handed ++ if Marked stretch then [(carry slipCode escaped stretch).1] else [])
      rw [whole,split,flushed,several,carriedPackets_cons,← last]
      simpa using later

end Swip.Bridge
