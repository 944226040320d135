import Swip.Link.DeviceToHost
import Mathlib.Logic.Function.Basic

/-! Two tasks on one serial line. The main loop and `reporter_task` both reach `slipif_output`,
and nothing keeps one of them from running between two `sio_send` calls of the other. -/
namespace Swip.Link
open Library.Stuffing Library.Run Bridge Device

inductive Caller
  | mainLoop | reporter
deriving DecidableEq, Repr

def Caller.other : Caller → Caller
  | .mainLoop => .reporter
  | .reporter => .mainLoop

theorem caller_cases (someone who : Caller) : someone = who ∨ someone = who.other := by
  cases someone <;> cases who <;> simp [Caller.other]

theorem caller_other (who : Caller) : who.other ≠ who := by cases who <;> simp [Caller.other]

theorem other_other (who : Caller) : who.other.other = who := by cases who <;> rfl

/-- A task and its calls of `slipif_output`: what the running call has sent and has still to
send, one `sio_send` each, and the chains of the calls after it. -/
structure Output where
  sent : List Byte
  rest : List Byte
  chains : List (List (List Byte))

def Output.next : Output → Option (Byte × Output)
  | ⟨sent,c :: rest,chains⟩ => some (c,⟨sent ++ [c],rest,chains⟩)
  | ⟨_,[],p :: chains⟩ =>
    match slipifOutput [] p with
    | [] => none
    | c :: rest => some (c,⟨[c],rest,chains⟩)
  | ⟨_,[],[]⟩ => none

structure Serial where
  line : List Byte
  task : Caller → Output

def Serial.start (chains : Caller → List (List (List Byte))) : Serial := ⟨[],fun who => ⟨[],[],chains who⟩⟩

/-- The scheduler lets `who` run until its next `sio_send` returns. -/
def Serial.step (serial : Serial) (who : Caller) : Serial :=
  match (serial.task who).next with
  | none => serial
  | some (c,output) => ⟨sioSend serial.line c,Function.update serial.task who output⟩

def Serial.Finished (serial : Serial) : Prop :=
  ∀ who, (serial.task who).rest = [] ∧ (serial.task who).chains = []

def Output.Inside (output : Output) : Prop := 1 < output.sent.length ∧ 1 < output.rest.length

/-- The other task is not inside a body, and a body that begins here follows an END. -/
def Undisturbed (serial : Serial) (who : Caller) : Prop :=
  ¬ (serial.task who.other).Inside ∧
    ∀ x ∈ (serial.task who).next, x.1 = slipEnd ∨ (serial.task who).Inside ∨ serial.line.getLast? = some slipEnd

instance (output : Output) : Decidable output.Inside := inferInstanceAs (Decidable (_ ∧ _))

instance (serial : Serial) (who : Caller) : Decidable (Undisturbed serial who) :=
  inferInstanceAs (Decidable (_ ∧ ∀ x ∈ (serial.task who).next, _))

/-- `done` are the packets of a task that an END has closed on the line, and `opened` is what
the line holds of the next one. The last case is a frame whose body was closed by the other
task's END. -/
inductive Progress (all : List (List Byte)) : Output → List (List Byte) → List Byte → Prop
  | idle (sent : List Byte) (chains : List (List (List Byte))) (done : List (List Byte))
      (order : all = done ++ chains.map List.flatten) : Progress all ⟨sent,[],chains⟩ done []
  | inside (packet opened rest : List Byte) (chains : List (List (List Byte))) (done : List (List Byte))
      (order : all = done ++ packet :: chains.map List.flatten) (split : body slipCode packet = opened ++ rest)
      (more : rest ≠ []) : Progress all ⟨slipEnd :: opened,rest ++ [slipEnd],chains⟩ done opened
  | complete (packet : List Byte) (chains : List (List (List Byte))) (done : List (List Byte))
      (order : all = done ++ packet :: chains.map List.flatten) :
      Progress all ⟨slipEnd :: body slipCode packet,[slipEnd],chains⟩ done (body slipCode packet)
  | closed (sent : List Byte) (chains : List (List (List Byte))) (done : List (List Byte))
      (order : all = done ++ chains.map List.flatten) : Progress all ⟨sent,[slipEnd],chains⟩ done []

theorem Progress.opened_inside {all : List (List Byte)} {output : Output} {done : List (List Byte)} {opened : List Byte}
    (progress : Progress all output done opened) : slipEnd ∉ opened := by
  cases progress with
  | idle => simp
  | inside packet opened rest chains done order split more =>
    have clean := body_inside slipCode packet
    rw [split,List.mem_append,not_or] at clean
    exact clean.1
  | complete packet => exact body_inside slipCode packet
  | closed => simp

theorem Progress.close {all : List (List Byte)} {output : Output} {done : List (List Byte)} {opened : List Byte}
    (progress : Progress all output done opened) (outside : ¬ output.Inside) :
    (opened = [] ∧ Progress all output done []) ∨
      ∃ packet ∈ all, opened = body slipCode packet ∧ Progress all output (done ++ [packet]) [] := by
  cases progress with
  | idle sent chains done order => exact .inl ⟨rfl,.idle sent chains done order⟩
  | inside packet opened rest chains done order split more =>
    have empty : opened = [] := by
      by_contra begun
      have first := List.length_pos_iff.mpr begun
      have last := List.length_pos_iff.mpr more
      exact outside ⟨by simp; omega,by simp; omega⟩
    subst empty
    exact .inl ⟨rfl,.inside packet [] rest chains done order split more⟩
  | complete packet chains done order =>
    exact .inr ⟨packet,by simp [order],rfl,.closed _ chains _ (by simp [order])⟩
  | closed sent chains done order => exact .inl ⟨rfl,.closed sent chains done order⟩

private theorem rest_inside (packet opened rest : List Byte) (c : Byte)
    (split : body slipCode packet = opened ++ c :: rest) : c ≠ slipEnd := by
  rintro rfl
  have clean := body_inside slipCode packet
  rw [split] at clean
  exact clean (by simp [slipCode])

theorem Progress.end_outside {all : List (List Byte)} {output next : Output} {done : List (List Byte)}
    {opened : List Byte} (progress : Progress all output done opened) (sends : output.next = some (slipEnd,next)) :
    ¬ output.Inside := by
  cases progress with
  | idle => simp [Output.Inside]
  | inside packet opened rest chains done order split more =>
    obtain ⟨c,rest,rfl⟩ := List.exists_cons_of_ne_nil more
    obtain ⟨same,_⟩ := Prod.mk.inj (Option.some.inj sends)
    exact absurd same (rest_inside packet opened rest c split)
  | complete => simp [Output.Inside]
  | closed => simp [Output.Inside]

theorem Progress.next_end {all : List (List Byte)} {output next : Output} {done : List (List Byte)}
    (progress : Progress all output done []) (starts : ∀ packet ∈ all, StartsOrdinary packet)
    (sends : output.next = some (slipEnd,next)) : Progress all next done [] := by
  generalize empty : ([] : List Byte) = opened at progress
  cases progress with
  | idle sent chains done order =>
    cases chains with
    | nil => simp [Output.next] at sends
    | cons p chains =>
      simp only [Output.next,slipifOutput_frame,frame,List.nil_append] at sends
      obtain ⟨_,rfl⟩ := Prod.mk.inj (Option.some.inj sends)
      obtain ⟨first,rest,shape,_⟩ := starts_body p.flatten (starts p.flatten (by simp [order]))
      exact .inside p.flatten [] (body slipCode p.flatten) chains done order rfl (by simp [shape])
  | inside packet opened rest chains done order split more =>
    obtain ⟨c,rest,rfl⟩ := List.exists_cons_of_ne_nil more
    obtain ⟨same,_⟩ := Prod.mk.inj (Option.some.inj sends)
    exact absurd same (rest_inside packet opened rest c split)
  | complete packet chains done order =>
    obtain ⟨first,rest,shape,_⟩ := starts_body packet (starts packet (by simp [order]))
    simp [shape] at empty
  | closed sent chains done order =>
    obtain ⟨_,rfl⟩ := Prod.mk.inj (Option.some.inj sends)
    exact .idle _ chains done order

theorem Progress.next_body {all : List (List Byte)} {output next : Output} {done : List (List Byte)}
    {opened : List Byte} {c : Byte} (progress : Progress all output done opened)
    (sends : output.next = some (c,next)) (inside : c ≠ slipEnd) :
    (output.Inside ↔ opened ≠ []) ∧ Progress all next done (opened ++ [c]) := by
  cases progress with
  | idle sent chains done order =>
    cases chains with
    | nil => simp [Output.next] at sends
    | cons p chains =>
      simp only [Output.next,slipifOutput_frame,frame,List.nil_append] at sends
      obtain ⟨same,_⟩ := Prod.mk.inj (Option.some.inj sends)
      exact absurd same.symm inside
  | inside packet opened rest chains done order split more =>
    obtain ⟨d,rest,rfl⟩ := List.exists_cons_of_ne_nil more
    obtain ⟨rfl,rfl⟩ := Prod.mk.inj (Option.some.inj sends)
    refine ⟨by simp [Output.Inside,List.length_pos_iff],?_⟩
    have split : body slipCode packet = (opened ++ [d]) ++ rest := by simp [split]
    cases rest with
    | nil =>
      have whole : opened ++ [d] = body slipCode packet := by simp [split]
      rw [List.append_nil] at split
      simpa [← split] using Progress.complete packet chains done order
    | cons e rest => exact .inside packet (opened ++ [d]) (e :: rest) chains done order split (by simp)
  | complete packet chains done order =>
    obtain ⟨same,_⟩ := Prod.mk.inj (Option.some.inj sends)
    exact absurd same.symm inside
  | closed sent chains done order =>
    obtain ⟨same,_⟩ := Prod.mk.inj (Option.some.inj sends)
    exact absurd same.symm inside

/-- What is on the line: a part the host has decoded into `decoded`, and then the open body of
at most one task. -/
structure Clean (all : Caller → List (List Byte)) (serial : Serial) (shut : List Byte)
    (decoded : List (List Byte)) (done : Caller → List (List Byte)) (opened : Caller → List Byte) : Prop where
  line : ∀ who, serial.line = shut ++ (opened who ++ opened who.other)
  single : ∀ who, opened who = [] ∨ opened who.other = []
  progress : ∀ who, Progress (all who) (serial.task who) (done who) (opened who)
  worker : slipRecvWorker openEthernet (.start ()) shut = .between false () decoded
  order : Interleaves (done .mainLoop) (done .reporter) decoded

theorem interleaves_update (done : Caller → List (List Byte)) (decoded : List (List Byte)) (who : Caller) (x : List Byte)
    (order : Interleaves (done .mainLoop) (done .reporter) decoded) :
    Interleaves (Function.update done who (done who ++ [x]) .mainLoop)
      (Function.update done who (done who ++ [x]) .reporter) (decoded ++ [x]) := by
  cases who with
  | mainLoop => simpa using order.left x
  | reporter => simpa using order.right x

theorem clean_close (all : Caller → List (List Byte)) (serial : Serial) (shut : List Byte) (decoded : List (List Byte))
    (done : Caller → List (List Byte)) (opened : Caller → List Byte) (clean : Clean all serial shut decoded done opened)
    (starts : ∀ who, ∀ packet ∈ all who, StartsOrdinary packet) (outside : ∀ who, ¬ (serial.task who).Inside) :
    ∃ (decoded' : List (List Byte)) (done' : Caller → List (List Byte)),
      (∀ who, Progress (all who) (serial.task who) (done' who) []) ∧
      slipRecvWorker openEthernet (.start ()) (serial.line ++ [slipEnd]) = .between false () decoded' ∧
      Interleaves (done' .mainLoop) (done' .reporter) decoded' := by
  obtain ⟨line,single,progress,worker,order⟩ := clean
  by_cases begun : ∃ who, opened who ≠ []
  · obtain ⟨who,begun⟩ := begun
    rcases (progress who).close (outside who) with ⟨empty,_⟩ | ⟨packet,member,whole,closed⟩
    · exact absurd empty begun
    have alone : opened who.other = [] := (single who).resolve_left begun
    refine ⟨decoded ++ [packet],Function.update done who (done who ++ [packet]),?_,?_,
      interleaves_update done decoded who packet order⟩
    · intro someone
      by_cases same : someone = who
      · subst same
        simpa using closed
      · obtain rfl := (caller_cases someone who).resolve_left same
        rw [Function.update_of_ne same,← alone]
        exact progress who.other
    · rw [line who,alone,whole,List.append_nil,List.append_assoc,slipRecvWorker_append,worker,
        recv_body openEthernet () decoded packet (starts who packet member),handOn_open]
      rfl
  · simp only [not_exists,not_not] at begun
    refine ⟨decoded,done,?_,?_,order⟩
    · intro who
      rw [← begun who]
      exact progress who
    · rw [line .mainLoop,begun,begun,List.append_nil,List.append_nil,slipRecvWorker_append,worker,recv_end]

theorem clean_step (all : Caller → List (List Byte)) (starts : ∀ who, ∀ packet ∈ all who, StartsOrdinary packet)
    (serial : Serial) (who : Caller) (clean : ∃ shut decoded done opened, Clean all serial shut decoded done opened)
    (undisturbed : Undisturbed serial who) :
    ∃ shut decoded done opened, Clean all (serial.step who) shut decoded done opened := by
  obtain ⟨shut,decoded,done,opened,clean⟩ := clean
  obtain ⟨outside,follows⟩ := undisturbed
  cases sends : (serial.task who).next with
  | none => exact ⟨shut,decoded,done,opened,by simpa [Serial.step,sends] using clean⟩
  | some x =>
    obtain ⟨c,next⟩ := x
    simp only [Serial.step,sends]
    by_cases fin : c = slipEnd
    · subst fin
      have both : ∀ someone, ¬ (serial.task someone).Inside := by
        intro someone
        rcases caller_cases someone who with rfl | rfl
        · exact (clean.progress someone).end_outside sends
        · exact outside
      obtain ⟨longer,closed,progress,worker,order⟩ := clean_close all serial shut decoded done opened clean starts both
      refine ⟨serial.line ++ [slipEnd],longer,closed,fun _ => [],⟨fun _ => by simp [sioSend],fun _ => .inl rfl,?_,worker,
        order⟩⟩
      intro someone
      rcases caller_cases someone who with rfl | rfl
      · simpa using (progress someone).next_end (starts someone) sends
      · simp only [Function.update_of_ne (caller_other who)]
        exact progress who.other
    · obtain ⟨begun,grown⟩ := (clean.progress who).next_body sends fin
      have alone : opened who.other = [] := by
        rcases follows _ sends with same | inside | last
        · exact absurd same fin
        · exact (clean.single who).resolve_left (begun.mp inside)
        · by_contra other
          have mine : opened who = [] := (clean.single who).resolve_right other
          rw [clean.line who,mine,List.nil_append,List.getLast?_append_of_ne_nil _ other] at last
          exact (clean.progress who.other).opened_inside (List.mem_of_getLast? last)
      refine ⟨shut,decoded,done,Function.update opened who (opened who ++ [c]),⟨?_,?_,?_,clean.worker,clean.order⟩⟩
      · intro someone
        change sioSend serial.line c = _
        rw [sioSend,clean.line who,alone]
        rcases caller_cases someone who with rfl | rfl
        · rw [Function.update_self,Function.update_of_ne (caller_other someone),alone]
          simp
        · rw [Function.update_of_ne (caller_other who),other_other,Function.update_self,alone]
          simp
      · intro someone
        rcases caller_cases someone who with rfl | rfl
        · exact .inr (by rw [Function.update_of_ne (caller_other someone),alone])
        · exact .inl (by rw [Function.update_of_ne (caller_other who),alone])
      · intro someone
        rcases caller_cases someone who with rfl | rfl
        · simpa using grown
        · simp only [Function.update_of_ne (caller_other who)]
          exact clean.progress who.other

theorem clean_start (chains : Caller → List (List (List Byte))) :
    Clean (fun who => (chains who).map List.flatten) (Serial.start chains) [] [] (fun _ => []) (fun _ => []) :=
  ⟨fun _ => rfl,fun _ => .inl rfl,fun who => .idle [] (chains who) [] rfl,rfl,.nil⟩

theorem Progress.done_all {all : List (List Byte)} {output : Output} {done : List (List Byte)} {opened : List Byte}
    (progress : Progress all output done opened) :
    done <+: all ∧ (output.rest = [] → output.chains = [] → done = all) := by
  cases progress with
  | idle sent chains done order =>
    refine ⟨⟨_,order.symm⟩,fun _ last => ?_⟩
    change chains = [] at last
    simpa [last] using order.symm
  | inside packet opened rest chains done order split more => exact ⟨⟨_,order.symm⟩,fun ended => by simp at ended⟩
  | complete packet chains done order => exact ⟨⟨_,order.symm⟩,fun ended => by simp at ended⟩
  | closed sent chains done order => exact ⟨⟨_,order.symm⟩,fun ended => by simp at ended⟩

/-- In every run in which no task sends inside the other's body, and in which `IP` and
`send_packet_to_ethernet` raise on none of the packets whatever came before them, the worker goes
on and has handed on an interleaving of what the two tasks have sent, and of all of it once both
have finished. -/
theorem tasks_unmixed {π δ ε : Type} (eth : Ethernet π δ ε) (net : δ) (chains : Caller → List (List (List Byte)))
    (ipv4 : ∀ who, ∀ chain ∈ chains who, IsIPv4 chain.flatten)
    (taken : ∀ who, ∀ chain ∈ chains who, ∀ net, (eth.take net chain.flatten).isSome) (schedule : List Caller)
    (undisturbed : Along Serial.step Undisturbed (Serial.start chains) schedule) :
    let serial := run Serial.step (Serial.start chains) schedule
    let worker := slipRecvWorker eth (.start net) serial.line
    worker.raised = none ∧
      ∃ done : Caller → List (List Byte), Interleaves (done .mainLoop) (done .reporter) worker.handed ∧
        (∀ who, done who <+: (chains who).map List.flatten) ∧
        (serial.Finished → ∀ who, done who = (chains who).map List.flatten) := by
  intro serial worker
  have starts : ∀ who, ∀ packet ∈ (chains who).map List.flatten, StartsOrdinary packet := by
    intro who packet member
    obtain ⟨chain,sent,rfl⟩ := List.mem_map.mp member
    exact ipv4_starts _ (ipv4 who chain sent)
  obtain ⟨shut,decoded,done,opened,clean⟩ := invariant_along Serial.step Undisturbed
    (fun serial => ∃ shut decoded done opened,
      Clean (fun who => (chains who).map List.flatten) serial shut decoded done opened)
    (clean_step _ starts) (Serial.start chains) schedule ⟨_,_,_,_,clean_start chains⟩ undisturbed
  have read : slipRecvWorker openEthernet (.start ()) serial.line =
      {Worker.between false () decoded with slip := Slip.appendData ⟨false,false,[],[]⟩ (opened .mainLoop ++ opened .reporter)} := by
    rw [clean.line .mainLoop,slipRecvWorker_append,clean.worker,recv_stretch openEthernet _ _ ?_ rfl]
    · rfl
    · rw [List.mem_append,not_or]
      exact ⟨(clean.progress _).opened_inside,(clean.progress _).opened_inside⟩
  have sofar (who : Caller) := (clean.progress who).done_all
  have each : ∀ packet ∈ decoded, ∀ net, (eth.take net packet).isSome := by
    intro packet member
    have sent : ∃ who, packet ∈ done who := by
      rcases clean.order.mem member with main | reporter
      · exact ⟨_,main⟩
      · exact ⟨_,reporter⟩
    obtain ⟨who,sent⟩ := sent
    obtain ⟨chain,given,rfl⟩ := List.mem_map.mp ((sofar who).1.subset sent)
    exact taken who chain given
  have follows := slipRecvWorker_follows eth net serial.line
  rw [read] at follows
  obtain ⟨_,_,complete,running⟩ := follows.outcome rfl
  have none : worker.raised = none := running.mpr (takeAll_each eth net decoded each)
  refine ⟨none,done,?_,fun who => (sofar who).1,fun finished who => (sofar who).2 (finished who).1 (finished who).2⟩
  rw [complete none]
  exact clean.order

def threeDatagrams : Caller → List (List (List Byte))
  | .mainLoop => [[datagram 1 8],[datagram 3 8]]
  | .reporter => [[datagram 2 8]]

/-- The main loop sends a frame of twenty-five bytes, and the reporter one right after the
leading END of the next. -/
def betweenFrames : List Caller := List.replicate 26 .mainLoop ++ List.replicate 25 .reporter ++ List.replicate 24 .mainLoop

theorem tasks_unmixed_between :
    let worker := slipRecvWorker (lanEthernet oneAnswer) (.start .start)
      (run Serial.step (Serial.start threeDatagrams) betweenFrames).line
    worker.raised = none ∧ Interleaves [datagram 1 8,datagram 3 8] [datagram 2 8] worker.handed ∧
      worker.handed = [datagram 1 8,datagram 2 8,datagram 3 8] := by
  intro worker
  have ipv4 : ∀ who, ∀ chain ∈ threeDatagrams who, IsIPv4 chain.flatten := by
    intro who chain member
    cases who <;> simp only [threeDatagrams,List.mem_cons,List.not_mem_nil,or_false] at member <;>
      rcases member with rfl | rfl <;> exact datagram_ipv4 _ _
  have taken : ∀ who, ∀ chain ∈ threeDatagrams who, ∀ net, ((lanEthernet oneAnswer).take net chain.flatten).isSome := by
    intro who chain member net
    cases who <;> simp only [threeDatagrams,List.mem_cons,List.not_mem_nil,or_false] at member <;>
      rcases member with rfl | rfl <;> exact datagram_taken _ net
  have undisturbed : Along Serial.step Undisturbed (Serial.start threeDatagrams) betweenFrames := by decide +kernel
  have finished : (run Serial.step (Serial.start threeDatagrams) betweenFrames).Finished := by
    intro who
    cases who <;> decide +kernel
  obtain ⟨none,done,order,_,all⟩ :=
    tasks_unmixed (lanEthernet oneAnswer) .start threeDatagrams ipv4 taken betweenFrames undisturbed
  rw [all finished,all finished] at order
  exact ⟨none,order,by decide +kernel⟩

def onePacketEach : Caller → List (List (List Byte))
  | .mainLoop => [[0x45 :: List.replicate 19 0x01]]
  | .reporter => [[0x45 :: List.replicate 19 0x02]]

/-- The reporter preempts the main loop after ten bytes of its packet and sends a whole frame. -/
def preempted : Serial :=
  run Serial.step (Serial.start onePacketEach)
    (List.replicate 11 .mainLoop ++ List.replicate 22 .reporter ++ List.replicate 11 .mainLoop)

/-- The host decodes three packets, two of which nobody sent. -/
theorem tasks_mixed :
    preempted.Finished ∧
      (slipRecvWorker openEthernet (.start ()) preempted.line).handed =
        [0x45 :: List.replicate 9 0x01,0x45 :: List.replicate 19 0x02,List.replicate 10 0x01] ∧
      ¬ Interleaves ((onePacketEach .mainLoop).map List.flatten) ((onePacketEach .reporter).map List.flatten)
        (slipRecvWorker openEthernet (.start ()) preempted.line).handed := by
  have handed : (slipRecvWorker openEthernet (.start ()) preempted.line).handed =
      [0x45 :: List.replicate 9 0x01,0x45 :: List.replicate 19 0x02,List.replicate 10 0x01] := by decide +kernel
  have main : (preempted.task .mainLoop).rest = [] ∧ (preempted.task .mainLoop).chains = [] := by decide +kernel
  have reporter : (preempted.task .reporter).rest = [] ∧ (preempted.task .reporter).chains = [] := by decide +kernel
  refine ⟨?_,handed,?_⟩
  · intro who
    cases who with
    | mainLoop => exact main
    | reporter => exact reporter
  · intro order
    have lengths := order.length
    rw [handed] at lengths
    exact absurd lengths (by decide)

end Swip.Link
