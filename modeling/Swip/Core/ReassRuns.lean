import Swip.Core.ReassArrival

/-! Runs of the reassembly with any fragments, forged ones included, until an assertion fails. -/
namespace Swip.Core
open Library.Run

/-- The fragment is among `events`. -/
def Came (events : List ReassEvent) (f : Fragment) : Prop := .fragment f ∈ events

def ticks : List ReassEvent → Nat
  | [] => 0
  | .fragment _ :: events => ticks events
  | .tick :: events => ticks events + 1

/-- What is in an entry came in, and its header is that of the first fragment if this is there. -/
structure Traced (came : Fragment → Prop) (ipr : IpReassdata) : Prop where
  fragments : ∀ f ∈ ipr.p, came f ∧ f.iphdr.key = ipr.iphdr.key
  header : ∃ g, came g ∧ g.iphdr = ipr.iphdr
  first : ∀ f ∈ ipr.p, f.start = 0 → ipr.iphdr.off = 0

theorem Fragment.start_zero (f : Fragment) : f.start = 0 ↔ f.iphdr.off = 0 := by
  unfold Fragment.start
  omega

theorem mem_inserted {p before after : List Fragment} {f q : Fragment} (inserted : Inserted p f before after)
    (member : q ∈ before ++ f :: after) : q = f ∨ q ∈ p := by
  rw [inserted.split]
  rcases List.mem_append.mp member with member | member
  · exact .inr (List.mem_append_left _ member)
  · exact (List.mem_cons.mp member).imp_right fun member => List.mem_append_right _ member

theorem traced_keeps (came : Fragment → Prop) (f : Fragment) (here : came f) : Keeps (Traced came) f where
  fresh := ⟨by simp [newDatagram],⟨f,here,rfl⟩,by simp [newDatagram]⟩
  headed ipr traced same := by
    unfold IpReassdata.headed
    split_ifs with late
    · refine ⟨?_,⟨f,here,rfl⟩,fun _ _ _ => late.1⟩
      intro g member
      obtain ⟨earlier,key⟩ := traced.fragments g member
      exact ⟨earlier,key.trans same⟩
    · exact traced
  freepbuf ipr traced takes thrown := by
    refine ⟨?_,?_,?_⟩
    · simpa using traced.fragments
    · simpa using traced.header
    · simpa using traced.first
  waits ipr p traced takes waits := by
    obtain ⟨before,after,rfl,inserted⟩ := Validated.inserted (.inl waits)
    rw [flagged_p] at inserted
    refine ⟨?_,?_,?_⟩
    · intro g member
      rw [flagged_iphdr]
      rcases mem_inserted inserted member with rfl | earlier
      · exact ⟨here,takes.key.symm⟩
      · exact traced.fragments g earlier
    · simpa using traced.header
    · intro g member zero
      rw [flagged_iphdr]
      rcases mem_inserted inserted member with rfl | earlier
      · exact takes.off ((Fragment.start_zero g).mp zero)
      · exact traced.first g earlier zero

/-- The entry is older than `events`, or has only fragments of them. -/
def Recent (came : Fragment → Prop) (passed : Nat) (ipr : IpReassdata) : Prop :=
  ipr.timer + passed ≤ ipReassMaxage ∨ ∀ f ∈ ipr.p, came f

theorem recent_keeps (came : Fragment → Prop) (passed : Nat) (f : Fragment) (here : came f) : Keeps (Recent came passed) f where
  fresh := .inr (by simp [newDatagram])
  headed ipr recent same := by
    unfold Recent
    rw [headed_timer,headed_p]
    exact recent
  freepbuf ipr recent takes thrown := by
    unfold Recent
    rw [flagged_timer,flagged_p]
    exact recent
  waits ipr p recent takes waits := by
    obtain ⟨before,after,rfl,inserted⟩ := Validated.inserted (.inl waits)
    rw [flagged_p] at inserted
    unfold Recent
    rw [flagged_timer]
    refine recent.imp_right fun all g member => ?_
    rcases mem_inserted inserted member with rfl | earlier
    · exact here
    · exact all g earlier

/-- The message quotes the header and the data of a first fragment. -/
def Explained (came : Fragment → Prop) (message : IpHdr × List Byte) : Prop :=
  ∃ f g, came f ∧ came g ∧ f.start = 0 ∧ g.start = 0 ∧ f.iphdr.key = g.iphdr.key ∧ message = (g.iphdr,f.data)

theorem Traced.explained {came : Fragment → Prop} {ipr : IpReassdata} (traced : Traced came ipr) (message : IpHdr × List Byte)
    (sent : message ∈ timeExceeded ipr) : Explained came message := by
  unfold timeExceeded at sent
  cases shape : ipr.p with
  | nil => simp [shape] at sent
  | cons f next =>
    simp only [shape] at sent
    split_ifs at sent with zero
    · have member : f ∈ ipr.p := by simp [shape]
      obtain ⟨earlier,key⟩ := traced.fragments f member
      obtain ⟨g,other,header⟩ := traced.header
      refine ⟨f,g,earlier,other,zero,?_,?_,?_⟩
      · rw [Fragment.start_zero,header]
        exact traced.first f member zero
      · rw [key,header]
      · rw [header]
        simpa using sent
    · simp at sent

theorem Traced.aged {came : Fragment → Prop} {ipr : IpReassdata} (traced : Traced came ipr) : Traced came ipr.aged :=
  ⟨traced.fragments,traced.header,traced.first⟩

theorem mem_survivors {list : List IpReassdata} {ipr : IpReassdata} (member : ipr ∈ survivors list) :
    ∃ old ∈ list, 0 < old.timer ∧ ipr = old.aged := by
  obtain ⟨old,inside,rfl⟩ := List.mem_map.mp member
  obtain ⟨inside,positive⟩ := List.mem_filter.mp inside
  exact ⟨old,inside,by simpa using positive,rfl⟩

structure Sane (came : Fragment → Prop) (s : Reass) : Prop where
  kept : Kept s
  traced : ∀ ipr ∈ s.reassdatagrams, Traced came ipr
  explained : ∀ message ∈ s.timeExceeded, Explained came message

theorem sane_empty (came : Fragment → Prop) : Sane came .empty :=
  ⟨⟨rfl,Nat.zero_le _,by simp [Reass.empty],by simp [Reass.empty],by simp [Reass.empty]⟩,by simp [Reass.empty],by simp [Reass.empty]⟩

theorem Sane.explains {came : Fragment → Prop} {s s' : Reass} (sane : Sane came s)
    (messages : ∀ message ∈ s'.timeExceeded, message ∈ s.timeExceeded ∨ ∃ ipr ∈ s.reassdatagrams, message ∈ timeExceeded ipr) :
    ∀ message ∈ s'.timeExceeded, Explained came message := by
  intro message sent
  rcases messages message sent with earlier | ⟨ipr,member,sent⟩
  · exact sane.explained message earlier
  · exact (sane.traced ipr member).explained message sent

theorem Sane.fragment {came : Fragment → Prop} {s s' : Reass} {f : Fragment} {d : Option Datagram} (sane : Sane came s)
    (here : came f) (result : ip4Reass f s = some (s',d)) : Sane came s' := by
  obtain ⟨kept,traced,messages,-⟩ := ip4Reass_keeps (traced_keeps came f here) sane.kept sane.traced result
  exact ⟨kept,traced,sane.explains messages⟩

theorem Sane.tick {came : Fragment → Prop} {s s' : Reass} (sane : Sane came s) (result : ipReassTmr s = some s') :
    Sane came s' ∧ s'.reassdatagrams = survivors s.reassdatagrams := by
  obtain ⟨other,same,kept,list,messages⟩ := ipReassTmr_spec s sane.kept
  rw [result] at same
  obtain rfl := Option.some.inj same
  refine ⟨⟨kept,?_,sane.explains messages⟩,list⟩
  intro ipr member
  rw [list] at member
  obtain ⟨old,inside,-,rfl⟩ := mem_survivors member
  exact (sane.traced old inside).aged

/-! ### Along a run -/

theorem receiver_run_none (events : List ReassEvent) : run receiverStep none events = none :=
  run_stuck receiverStep none (fun _ => rfl) events

theorem receiver_snoc {events : List ReassEvent} {event : ReassEvent} {start r : Receiver}
    (running : run receiverStep (some start) (events ++ [event]) = some r) :
    ∃ before, run receiverStep (some start) events = some before ∧ before.step event = some r := by
  rw [run_append] at running
  cases earlier : run receiverStep (some start) events with
  | none => rw [earlier] at running; simp [receiverStep] at running
  | some before =>
    rw [earlier] at running
    exact ⟨before,rfl,running⟩

theorem step_fragment {before r : Receiver} {f : Fragment} (step : before.step (.fragment f) = some r) :
    ∃ d, ip4Reass f before.reass = some (r.reass,d) ∧ r.delivered = before.delivered ++ d.toList.map (f,·) := by
  unfold Receiver.step at step
  cases result : ip4Reass f before.reass with
  | none => simp [result] at step
  | some pair =>
    obtain ⟨reass,d⟩ := pair
    simp only [result,Option.map_some,Option.some.injEq] at step
    subst step
    exact ⟨d,rfl,rfl⟩

theorem step_tick {before r : Receiver} (step : before.step .tick = some r) :
    ipReassTmr before.reass = some r.reass ∧ r.delivered = before.delivered := by
  unfold Receiver.step at step
  cases result : ipReassTmr before.reass with
  | none => simp [result] at step
  | some reass =>
    simp only [result,Option.map_some,Option.some.injEq] at step
    subst step
    exact ⟨rfl,rfl⟩

theorem run_sane (came : Fragment → Prop) (start r : Receiver) (events : List ReassEvent) (sane : Sane came start.reass)
    (all : ∀ f, .fragment f ∈ events → came f) (running : run receiverStep (some start) events = some r) : Sane came r.reass := by
  induction events using List.reverseRecOn generalizing r with
  | nil =>
    obtain rfl := Option.some.inj running
    exact sane
  | append_singleton events event ih =>
    obtain ⟨before,earlier,step⟩ := receiver_snoc running
    have was := ih before (fun f member => all f (by simp [member])) earlier
    cases event with
    | fragment f =>
      obtain ⟨d,result,-⟩ := step_fragment step
      exact was.fragment (all f (by simp)) result
    | tick => exact (was.tick (step_tick step).1).1

@[simp] theorem ticks_append (first second : List ReassEvent) : ticks (first ++ second) = ticks first + ticks second := by
  induction first with
  | nil => simp [ticks]
  | cons event first ih =>
    cases event with
    | fragment f => rw [List.cons_append,ticks,ticks,ih]
    | tick =>
      rw [List.cons_append,ticks,ticks,ih]
      omega

/-- After `events` each entry is as old as their ticks, or has only fragments of them. -/
theorem run_recent (start r : Receiver) (events : List ReassEvent) (kept : Kept start.reass)
    (running : run receiverStep (some start) events = some r) :
    Kept r.reass ∧ ∀ ipr ∈ r.reass.reassdatagrams, Recent (Came events) (ticks events) ipr := by
  induction events using List.reverseRecOn generalizing r with
  | nil =>
    obtain rfl := Option.some.inj running
    exact ⟨kept,fun ipr member => .inl (kept.young ipr member)⟩
  | append_singleton events event ih =>
    obtain ⟨before,earlier,step⟩ := receiver_snoc running
    obtain ⟨was,recent⟩ := ih before earlier
    have wider : ∀ f, Came events f → Came (events ++ [event]) f := fun f member => List.mem_append_left _ member
    cases event with
    | fragment f =>
      obtain ⟨d,result,-⟩ := step_fragment step
      have here : Came (events ++ [.fragment f]) f := by simp [Came]
      obtain ⟨kept',all,-⟩ := ip4Reass_keeps (recent_keeps (Came (events ++ [.fragment f])) (ticks events) f here) was
        (fun ipr member => (recent ipr member).imp_right fun all g inside => wider g (all g inside)) result
      refine ⟨kept',fun ipr member => ?_⟩
      rw [ticks_append]
      exact all ipr member
    | tick =>
      obtain ⟨other,same,kept',list,-⟩ := ipReassTmr_spec before.reass was
      rw [(step_tick step).1] at same
      obtain same := Option.some.inj same
      rw [same]
      refine ⟨kept',fun ipr member => ?_⟩
      rw [list] at member
      obtain ⟨old,inside,positive,rfl⟩ := mem_survivors member
      rw [ticks_append]
      rcases recent old inside with young | all
      · refine .inl ?_
        change old.timer - 1 + (ticks events + 1) ≤ ipReassMaxage
        omega
      · exact .inr fun g inside => wider g (all g inside)

/-- The pbuf count is right and within its bound, no two entries are of one datagram, what is
sent back quotes a first fragment, and after four ticks nothing older is left. -/
theorem reassembly_bounded (early late : List ReassEvent) (r : Receiver)
    (running : run receiverStep (some .reset) (early ++ late) = some r) :
    r.reass.ipReassPbufcount = pbufTotal r.reass.reassdatagrams ∧ r.reass.ipReassPbufcount ≤ ipReassMaxPbufs ∧
      (r.reass.reassdatagrams.map fun ipr => ipr.iphdr.key).Nodup ∧
      (∀ message ∈ r.reass.timeExceeded, Explained (Came (early ++ late)) message) ∧
      (ipReassMaxage < ticks late → ∀ ipr ∈ r.reass.reassdatagrams, ∀ f ∈ ipr.p, .fragment f ∈ late) := by
  have sane := run_sane (Came (early ++ late)) .reset r (early ++ late) (sane_empty _) (fun _ => id) running
  refine ⟨sane.kept.counted,sane.kept.within,sane.kept.distinct,sane.explained,?_⟩
  intro long ipr member f queued
  rw [run_append] at running
  cases middle : run receiverStep (some .reset) early with
  | none =>
    rw [middle,receiver_run_none] at running
    simp at running
  | some before =>
    rw [middle] at running
    have kept := (run_sane (Came early) .reset before early (sane_empty _) (fun _ => id) middle).kept
    rcases (run_recent before r late kept running).2 ipr member with young | recent
    · omega
    · exact recent f queued

/-- Part `number` of a datagram of four parts. -/
def sampleHdr (number : Nat) : IpHdr := ⟨0x45,0,28,7,.ofNat (if number < 3 then 8192 + number else number),64,17,0,1,2⟩

theorem sample_trimmed (number : Nat) : (List.replicate 8 (UInt8.ofNat number)).length + ([] : List (List Byte)).flatten.length +
    (sampleHdr number).hl * 4 = (sampleHdr number).len.toNat := by
  simp [sampleHdr,IpHdr.hl]

theorem sample_cut (number : Nat) : (sampleHdr (number % 4)).off ≠ 0 ∨ (sampleHdr (number % 4)).mf = true := by
  have small := Nat.mod_lt number (show 0 < 4 by decide)
  generalize number % 4 = n at small
  match n, small with
  | 0, _ => exact .inr (by decide)
  | 1, _ => exact .inl (by decide)
  | 2, _ => exact .inl (by decide)
  | 3, _ => exact .inl (by decide)

def sample (number : Nat) : Fragment :=
  ⟨0,sampleHdr (number % 4),List.replicate 8 (.ofNat (number % 4)),[],sample_trimmed (number % 4),sample_cut number⟩

/-- The first part of a datagram times out, and the second one comes after that. -/
theorem reassembly_bounded_tick :
    let early := [ReassEvent.fragment (sample 0)]
    let late := [ReassEvent.tick,.tick,.tick,.tick,.fragment (sample 1)]
    ∃ r, run receiverStep (some .reset) (early ++ late) = some r ∧ r.reass.ipReassPbufcount = 1 ∧
      r.reass.timeExceeded.length = 1 ∧ r.reass.ipReassPbufcount = pbufTotal r.reass.reassdatagrams ∧
      (∀ message ∈ r.reass.timeExceeded, Explained (Came (early ++ late)) message) ∧
      ∀ ipr ∈ r.reass.reassdatagrams, ∀ f ∈ ipr.p, .fragment f ∈ late := by
  intro early late
  obtain ⟨counted,_,_,explained,recent⟩ := reassembly_bounded early late _ rfl
  exact ⟨_,rfl,rfl,rfl,counted,explained,recent (by decide)⟩

/-- A fragment whose own datagram leaves room for it is not lost to the others: it is queued, or
completes its datagram, or meets one that is already there. -/
theorem fragment_admitted (events : List ReassEvent) (r r' : Receiver) (f : Fragment)
    (running : run receiverStep (some .reset) events = some r) (plain : f.iphdr.hl * 4 = ipHlen)
    (fits : ownPbufs f.iphdr r.reass + f.clen ≤ ipReassMaxPbufs) (step : r.step (.fragment f) = some r') :
    (∃ ipr ∈ r'.reass.reassdatagrams, ipr.iphdr.key = f.iphdr.key ∧ f ∈ ipr.p) ∨ (∃ d, r'.delivered = r.delivered ++ [(f,d)]) ∨
      ∃ ipr ∈ r.reass.reassdatagrams, ipr.iphdr.key = f.iphdr.key ∧ ∃ q ∈ ipr.p, Overlaps f q := by
  have kept := (run_sane (Came events) .reset r events (sane_empty _) (fun _ => id) running).kept
  obtain ⟨d,result,delivered⟩ := step_fragment step
  have arrival := ip4Reass_arrival f r.reass kept
  rw [result] at arrival
  generalize outcome : some (r'.reass,d) = whole at arrival
  cases arrival with
  | options long => exact absurd plain long
  | refused kept₁ removed full => omega
  | settled kept₁ removed room placed =>
    rename_i s₁ front back ipr
    cases verdict : ipReassChainFragIntoDatagramAndValidate (ipr.flagged f) f with
    | stopped => simp [verdict,settle] at outcome
    | freepbuf =>
      have means := validate_means (ipr.flagged f) f
      rw [verdict] at means
      obtain ⟨q,member,overlaps⟩ := means
      rw [flagged_p] at member
      cases placed with
      | fresh unknown => simp [newDatagram] at member
      | found split same =>
        rename_i old
        rw [headed_p] at member
        exact .inr (.inr ⟨old,removed.sublist.subset (by rw [split]; simp),same,q,member,overlaps⟩)
    | waits p =>
      obtain ⟨before,after,rfl,inserted⟩ := Validated.inserted (.inl verdict)
      simp only [verdict,settle] at outcome
      obtain ⟨same,-⟩ := Prod.mk.inj (Option.some.inj outcome)
      refine .inl ⟨{ipr.flagged f with p := before ++ f :: after},?_,?_,by simp⟩
      · rw [same]
        simp
      · change (ipr.flagged f).iphdr.key = f.iphdr.key
        rw [flagged_iphdr]
        cases placed with
        | fresh unknown => rfl
        | found split own => exact headed_key f _ own
    | complete p =>
      simp only [verdict,settle] at outcome
      obtain ⟨-,rfl⟩ := Prod.mk.inj (Option.some.inj outcome)
      exact .inr (.inl ⟨_,delivered⟩)

theorem fragment_admitted_first : ∃ r r', run receiverStep (some .reset) [.fragment (sample 1),.tick] = some r ∧
    (sample 0).iphdr.hl * 4 = ipHlen ∧ ownPbufs (sample 0).iphdr r.reass + (sample 0).clen ≤ ipReassMaxPbufs ∧
    r.step (.fragment (sample 0)) = some r' ∧
    ((∃ ipr ∈ r'.reass.reassdatagrams, ipr.iphdr.key = (sample 0).iphdr.key ∧ sample 0 ∈ ipr.p) ∨
      (∃ d, r'.delivered = r.delivered ++ [(sample 0,d)]) ∨
      ∃ ipr ∈ r.reass.reassdatagrams, ipr.iphdr.key = (sample 0).iphdr.key ∧ ∃ q ∈ ipr.p, Overlaps (sample 0) q) :=
  ⟨_,_,rfl,rfl,by decide,rfl,fragment_admitted [.fragment (sample 1),.tick] _ _ (sample 0) rfl rfl (by decide) rfl⟩

end Swip.Core
