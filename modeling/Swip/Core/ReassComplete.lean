import Swip.Core.ReassWhole
import Mathlib.Data.List.Chain

/-! A datagram goes up once all of its fragments are there, if there was room and time for them. -/
namespace Swip.Core
open Library.Run Library.Parts

def clens : List ReassEvent → Nat
  | [] => 0
  | .fragment f :: events => f.clen + clens events
  | .tick :: events => clens events

section
variable {cut : Key → List (List Byte)} {f : Fragment} {k : Nat} {ipr : IpReassdata}

/-- The entry has all fragments of its datagram. -/
def Full (cut : Key → List (List Byte)) (ipr : IpReassdata) : Prop :=
  ∀ k < (cut ipr.iphdr.key).length, ∃ q ∈ ipr.p, q.start = offsetOf (cut ipr.iphdr.key) k

/-- In a queue that has all fragments each one joins the next. -/
theorem Full.chain (well : WellCut (cut ipr.iphdr.key)) (genuine : Genuine cut ipr) (full : Full cut ipr) : List.IsChain Joins ipr.p := by
  rw [List.isChain_iff_getElem]
  intro i inside
  have sorted := List.pairwise_iff_getElem.mp genuine.sorted
  obtain ⟨j,one⟩ := genuine.pieces ipr.p[i] (List.getElem_mem _)
  obtain ⟨m,two⟩ := genuine.pieces ipr.p[i + 1] (List.getElem_mem _)
  obtain ⟨order,-⟩ := one.start_lt well two (sorted i (i + 1) (by omega) inside (by omega))
  have next : m = j + 1 := by
    rcases Nat.lt_or_ge (j + 1) m with gap | close
    · -- the fragment of number `j + 1` has no place in the queue
      obtain ⟨q,member,start⟩ := full (j + 1) (Nat.lt_trans gap two.inside)
      obtain ⟨n,bound,rfl⟩ := List.getElem_of_mem member
      have above := offsetOf_lt well.filled one.inside (Nat.lt_add_one j)
      have below := offsetOf_lt well.filled (Nat.lt_trans gap two.inside) gap
      rw [← one.start,← start] at above
      rw [← two.start,← start] at below
      rcases Nat.lt_trichotomy n i with less | rfl | more
      · have := sorted n i bound (by omega) less
        omega
      · omega
      · rcases Nat.lt_or_ge (i + 1) n with far | near
        · have := sorted (i + 1) n inside bound far
          omega
        · obtain rfl : n = i + 1 := by omega
          omega
    · omega
  rw [Joins,one.finish well,two.start,next]

theorem Full.first (well : WellCut (cut ipr.iphdr.key)) (genuine : Genuine cut ipr) (full : Full cut ipr) :
    (ipr.p.headD f).start = 0 := by
  obtain ⟨q,member,start⟩ := full 0 (Nat.lt_of_lt_of_le (by omega) well.two)
  rw [offsetOf_zero] at start
  have sorted := genuine.sorted
  cases shape : ipr.p with
  | nil => simp [shape] at member
  | cons b bs =>
    rw [shape] at member sorted
    rcases List.mem_cons.mp member with rfl | later
    · exact start
    · have := (List.pairwise_cons.mp sorted).1 q later
      omega

theorem Full.flag (well : WellCut (cut ipr.iphdr.key)) (genuine : Genuine cut ipr) (full : Full cut ipr) : ipr.lastfrag := by
  have two := well.two
  obtain ⟨q,member,start⟩ := full ((cut ipr.iphdr.key).length - 1) (by omega)
  obtain ⟨i,piece⟩ := genuine.pieces q member
  rw [piece.start] at start
  have same := offsetOf_inj well.filled piece.inside (by omega) start
  refine genuine.flag.mpr ⟨q,member,Bool.eq_false_iff.mpr fun more => ?_⟩
  have := piece.more.mp more
  omega

theorem Full.complete (entry : IpReassdata) (well : WellCut (cut entry.iphdr.key)) (genuine : Genuine cut entry) (full : Full cut entry)
    {before after : List Fragment} (shape : entry.p = before ++ f :: after) : entry.lastfrag ∧ Seems f before after := by
  have chain := Full.chain well genuine full
  have first : (entry.p.headD f).start = 0 := Full.first well genuine full
  rw [shape] at chain first
  refine ⟨Full.flag well genuine full,chain.left_of_append,chain.right_of_append,?_,first⟩
  rintro rfl
  exact chain

/-- A fragment that has to wait leaves a hole. -/
theorem Genuine.waits_lacks (well : WellCut (cut f.iphdr.key)) (piece : Piece (cut f.iphdr.key) f k) (genuine : Genuine cut ipr)
    (takes : Takes f ipr) {p : List Fragment} (waits : ipReassChainFragIntoDatagramAndValidate (ipr.flagged f) f = .waits p) :
    ¬ Full cut {ipr.flagged f with p := p} := by
  intro full
  have kept := (genuine_keeps well piece).waits ipr p genuine takes waits
  have means := validate_means (ipr.flagged f) f
  rw [waits] at means
  obtain ⟨before,after,shape,inserted,lacks⟩ := means
  have same : WellCut (cut (ipr.flagged f).iphdr.key) := by
    rw [flagged_iphdr,takes.key]
    exact well
  exact lacks (Full.complete {ipr.flagged f with p := p} same kept full shape)

/-! ### Along a run -/

/-- All fragments that came are still there, or their datagram went up. -/
structure Progress (cut : Key → List (List Byte)) (past : List ReassEvent) (r : Receiver) : Prop where
  count : r.reass.ipReassPbufcount ≤ clens past
  timers : ∀ ipr ∈ r.reass.reassdatagrams, ipReassMaxage ≤ ipr.timer + ticks past
  there : ∀ f, .fragment f ∈ past → (∃ g d, (g,d) ∈ r.delivered ∧ g.iphdr.key = f.iphdr.key) ∨
    ∃ ipr ∈ r.reass.reassdatagrams, ipr.iphdr.key = f.iphdr.key ∧ ∃ q ∈ ipr.p, q.start = f.start
  lacks : ∀ ipr ∈ r.reass.reassdatagrams, ¬ Full cut ipr

@[simp] theorem clens_append (first second : List ReassEvent) : clens (first ++ second) = clens first + clens second := by
  induction first with
  | nil => simp [clens]
  | cons event first ih =>
    cases event with
    | fragment f =>
      rw [List.cons_append,clens,clens,ih]
      omega
    | tick => rw [List.cons_append,clens,clens,ih]

theorem pbufTotal_aged (list : List IpReassdata) : pbufTotal (list.map IpReassdata.aged) = pbufTotal list := by
  induction list with
  | nil => rfl
  | cons ipr next ih =>
    rw [List.map_cons,pbufTotal,pbufTotal,ih]
    rfl

theorem Progress.tick {past : List ReassEvent} {r r' : Receiver} (progress : Progress cut past r) (kept : Kept r.reass)
    (early : ticks past < ipReassMaxage) (step : r.step .tick = some r') : Progress cut (past ++ [.tick]) r' := by
  obtain ⟨result,delivered⟩ := step_tick step
  obtain ⟨s,same,kept',list,-⟩ := ipReassTmr_spec r.reass kept
  rw [result] at same
  obtain same := Option.some.inj same
  rw [← same] at list kept'
  have all : survivors r.reass.reassdatagrams = r.reass.reassdatagrams.map IpReassdata.aged := by
    rw [survivors,List.filter_eq_self.mpr]
    intro ipr member
    have := progress.timers ipr member
    simp only [decide_eq_true_eq]
    omega
  rw [all] at list
  refine ⟨?_,?_,?_,?_⟩
  · rw [kept'.counted,list,pbufTotal_aged,← kept.counted,clens_append]
    exact Nat.le_trans progress.count (Nat.le_add_right _ _)
  · rw [list,ticks_append]
    intro ipr member
    obtain ⟨old,inside,rfl⟩ := List.mem_map.mp member
    have := progress.timers old inside
    change ipReassMaxage ≤ old.timer - 1 + (ticks past + 1)
    omega
  · intro f member
    rw [delivered,list]
    have earlier : .fragment f ∈ past := by simpa using member
    refine (progress.there f earlier).imp_right ?_
    rintro ⟨ipr,inside,key,q,queued,start⟩
    exact ⟨ipr.aged,List.mem_map_of_mem inside,key,q,queued,start⟩
  · rw [list]
    intro ipr member
    obtain ⟨old,inside,rfl⟩ := List.mem_map.mp member
    exact progress.lacks old inside

theorem Placed.others {s : Reass} {front back : List IpReassdata} (placed : Placed f s front ipr back) (e : IpReassdata)
    (member : e ∈ s.reassdatagrams) : e ∈ front ++ back ∨ (e.iphdr.key = f.iphdr.key ∧ ipr = e.headed f) := by
  cases placed with
  | fresh unknown => exact .inl member
  | found split same =>
    rw [split] at member
    rcases List.mem_append.mp member with member | member
    · exact .inl (List.mem_append_left _ member)
    · rcases List.mem_cons.mp member with rfl | member
      · exact .inr ⟨same,rfl⟩
      · exact .inl (List.mem_append_right _ member)

theorem Placed.inside {s : Reass} {front back : List IpReassdata} (placed : Placed f s front ipr back) :
    ∀ e ∈ front ++ back, e ∈ s.reassdatagrams := by
  cases placed with
  | fresh unknown => exact fun e member => member
  | found split same =>
    rw [split]
    exact (sublist_without front back _).subset

/-- An entry takes the place of the one that had the fragments of its datagram. -/
theorem Progress.settled {past : List ReassEvent} {r r' : Receiver} (progress : Progress cut past r)
    {front back : List IpReassdata} (placed : Placed f r.reass front ipr back) (takes : Takes f ipr) (entry : IpReassdata)
    (list : r'.reass.reassdatagrams = front ++ entry :: back) (delivered : r'.delivered = r.delivered)
    (count : r'.reass.ipReassPbufcount ≤ r.reass.ipReassPbufcount + f.clen) (key : entry.iphdr.key = f.iphdr.key)
    (timer : entry.timer = ipr.timer) (grown : ∀ q ∈ ipr.p, q ∈ entry.p) (here : ∃ q ∈ entry.p, q.start = f.start)
    (lacks : ¬ Full cut entry) : Progress cut (past ++ [.fragment f]) r' := by
  have wider : ∀ e ∈ front ++ back, e ∈ r'.reass.reassdatagrams := by
    rw [list]
    exact (sublist_without front back entry).subset
  have now : entry ∈ r'.reass.reassdatagrams := by
    rw [list]
    simp
  refine ⟨?_,?_,?_,?_⟩
  · rw [clens_append]
    have := progress.count
    change r'.reass.ipReassPbufcount ≤ clens past + (f.clen + 0)
    omega
  · rw [list,ticks_append]
    refine mem_middle ?_ ?_
    · rw [timer]
      cases placed with
      | fresh unknown => exact Nat.le_add_right _ _
      | found split same =>
        rename_i old
        rw [headed_timer]
        exact progress.timers old (by rw [split]; simp)
    · exact fun e member => progress.timers e (placed.inside e member)
  · intro g member
    rcases List.mem_append.mp member with earlier | this
    · rw [delivered]
      refine (progress.there g earlier).imp_right ?_
      rintro ⟨e,member,same,q,queued,start⟩
      rcases placed.others e member with stays | ⟨own,rfl⟩
      · exact ⟨e,wider e stays,same,q,queued,start⟩
      · exact ⟨entry,now,by rw [key,← own,same],q,grown q (by simpa using queued),start⟩
    · obtain rfl : g = f := by simpa using this
      exact .inr ⟨entry,now,key,here⟩
  · rw [list]
    exact mem_middle lacks fun e member => progress.lacks e (placed.inside e member)

theorem Progress.handed {past : List ReassEvent} {r r' : Receiver} (progress : Progress cut past r)
    {front back : List IpReassdata} (placed : Placed f r.reass front ipr back) (d : Datagram)
    (list : r'.reass.reassdatagrams = front ++ back) (delivered : r'.delivered = r.delivered ++ [(f,d)])
    (count : r'.reass.ipReassPbufcount ≤ r.reass.ipReassPbufcount + f.clen) : Progress cut (past ++ [.fragment f]) r' := by
  have up : (f,d) ∈ r'.delivered := by
    rw [delivered]
    simp
  refine ⟨?_,?_,?_,?_⟩
  · rw [clens_append]
    have := progress.count
    change r'.reass.ipReassPbufcount ≤ clens past + (f.clen + 0)
    omega
  · rw [list,ticks_append]
    exact fun e member => progress.timers e (placed.inside e member)
  · intro g member
    rw [list]
    rcases List.mem_append.mp member with earlier | this
    · rcases progress.there g earlier with ⟨h,e,sent,key⟩ | ⟨e,member,key,held⟩
      · refine .inl ⟨h,e,?_,key⟩
        rw [delivered]
        exact List.mem_append_left _ sent
      · rcases placed.others e member with stays | ⟨own,-⟩
        · exact .inr ⟨e,stays,key,held⟩
        · exact .inl ⟨f,d,up,by rw [← own,key]⟩
    · obtain rfl : g = f := by simpa using this
      exact .inl ⟨g,d,up,rfl⟩
  · rw [list]
    exact fun e member => progress.lacks e (placed.inside e member)

theorem ip4Reass_room (s : Reass) (plain : f.iphdr.hl * 4 = ipHlen) (room : s.ipReassPbufcount + f.clen ≤ ipReassMaxPbufs) :
    ip4Reass f s = reassQueue f s := by
  rw [ip4Reass,if_neg (by simpa using plain),if_neg (by omega)]

theorem Progress.fragment {past : List ReassEvent} {r r' : Receiver} (progress : Progress cut past r) (kept : Kept r.reass)
    (genuine : ∀ ipr ∈ r.reass.reassdatagrams, Genuine cut ipr) (well : WellCut (cut f.iphdr.key))
    (piece : Piece (cut f.iphdr.key) f k) (small : clens past + f.clen ≤ ipReassMaxPbufs)
    (step : r.step (.fragment f) = some r') : Progress cut (past ++ [.fragment f]) r' := by
  have room : r.reass.ipReassPbufcount + f.clen ≤ ipReassMaxPbufs := by
    have := progress.count
    omega
  obtain ⟨d,result,delivered⟩ := step_fragment step
  obtain ⟨front,ipr,back,placed,settled⟩ := reassQueue_eq f r.reass kept room
  obtain ⟨good,takes,others⟩ := placed.entry (genuine_keeps well piece) genuine
  rw [ip4Reass_room r.reass piece.plain room,settled] at result
  cases verdict : ipReassChainFragIntoDatagramAndValidate (ipr.flagged f) f with
  | stopped => simp [verdict,settle] at result
  | freepbuf =>
    simp only [verdict,settle] at result
    obtain ⟨same,rfl⟩ := Prod.mk.inj (Option.some.inj result)
    have means := validate_means (ipr.flagged f) f
    rw [verdict] at means
    obtain ⟨q,member,overlaps⟩ := means
    rw [flagged_p] at member
    obtain ⟨i,other⟩ := good.pieces q member
    rw [takes.key] at other
    obtain rfl := piece.overlaps well other overlaps
    -- the entry is not a new one, so that it lacked a fragment before
    have lacks : ¬ Full cut ipr := by
      cases placed with
      | fresh unknown => simp [newDatagram] at member
      | found split own =>
        rename_i old
        have before := progress.lacks old (by rw [split]; simp)
        intro full
        apply before
        unfold Full at full ⊢
        rwa [headed_p,headed_key f old own,← own] at full
    refine progress.settled placed takes (ipr.flagged f) ?_ (by simpa using delivered) ?_ ?_ ?_ ?_ ?_ ?_
    · rw [← same]
    · rw [← same]
      exact Nat.le_add_right _ _
    · rw [flagged_iphdr,takes.key]
    · exact flagged_timer f ipr
    · simp
    · exact ⟨q,by simpa using member,by rw [other.start,piece.start]⟩
    · unfold Full at lacks ⊢
      rwa [flagged_p,flagged_iphdr]
  | waits p =>
    simp only [verdict,settle] at result
    obtain ⟨same,rfl⟩ := Prod.mk.inj (Option.some.inj result)
    have lacks := good.waits_lacks well piece takes verdict
    obtain ⟨before,after,rfl,inserted⟩ := Validated.inserted (.inl verdict)
    rw [flagged_p] at inserted
    refine progress.settled placed takes {ipr.flagged f with p := before ++ f :: after} ?_ (by simpa using delivered) ?_ ?_ ?_ ?_ ?_ lacks
    · rw [← same]
    · rw [← same]
    · change (ipr.flagged f).iphdr.key = f.iphdr.key
      rw [flagged_iphdr,takes.key]
    · exact flagged_timer f ipr
    · intro q member
      rw [inserted.split] at member
      exact (sublist_without before after f).subset member
    · exact ⟨f,by simp,rfl⟩
  | complete p =>
    simp only [verdict,settle] at result
    obtain ⟨same,rfl⟩ := Prod.mk.inj (Option.some.inj result)
    refine progress.handed placed _ ?_ delivered ?_
    · rw [← same]
    · rw [← same]
      exact Nat.sub_le _ _

theorem progress_run {came : Fragment → Prop} (start r : Receiver) (past events : List ReassEvent) (faithful : Faithful cut came start)
    (progress : Progress cut past start) (cutting : AsCut cut events) (all : ∀ f, .fragment f ∈ events → came f)
    (small : clens (past ++ events) ≤ ipReassMaxPbufs) (quick : ticks (past ++ events) ≤ ipReassMaxage)
    (running : run receiverStep (some start) events = some r) : Progress cut (past ++ events) r := by
  induction events generalizing start past with
  | nil =>
    obtain rfl := Option.some.inj running
    rwa [List.append_nil]
  | cons event events ih =>
    obtain ⟨next,step,stays⟩ := faithful.step event fun f same => ⟨all f (by simp [same]),cutting f (by simp [same])⟩
    rw [run_cons,receiverStep,Option.bind_some,step] at running
    rw [List.append_cons] at small quick ⊢
    refine ih next (past ++ [event]) stays ?_ (fun f member => cutting f (by simp [member])) (fun f member => all f (by simp [member]))
      small quick running
    cases event with
    | tick =>
      refine progress.tick faithful.sane.kept ?_ step
      rw [ticks_append,ticks_append] at quick
      change ticks past + 1 + ticks events ≤ ipReassMaxage at quick
      omega
    | fragment f =>
      obtain ⟨well,k,piece⟩ := cutting f (by simp)
      refine progress.fragment faithful.sane.kept faithful.genuine well piece ?_ step
      rw [clens_append,clens_append] at small
      change clens past + (f.clen + 0) + clens events ≤ ipReassMaxPbufs at small
      omega

theorem run_handed (events : List ReassEvent) (cutting : AsCut cut events) (small : clens events ≤ ipReassMaxPbufs)
    (quick : ticks events ≤ ipReassMaxage) (key : Key) (well : WellCut (cut key))
    (all : ∀ k < (cut key).length, ∃ f, .fragment f ∈ events ∧ f.iphdr.key = key ∧ Piece (cut key) f k) (r : Receiver)
    (running : run receiverStep (some .reset) events = some r) : ∃ f d, (f,d) ∈ r.delivered ∧ f.iphdr.key = key := by
  have start : Progress cut [] .reset := ⟨Nat.le_refl _,by simp [Receiver.reset,Reass.empty],by simp,by simp [Receiver.reset,Reass.empty]⟩
  have progress := progress_run .reset r [] events faithful_reset start cutting (fun _ => id) small quick running
  obtain ⟨final,same,faithful⟩ := faithful_run .reset events faithful_reset cutting (fun _ => id)
  rw [running] at same
  obtain rfl := Option.some.inj same
  have positive : 0 < (cut key).length := Nat.lt_of_lt_of_le (by omega) well.two
  by_contra missing
  have held : ∀ k < (cut key).length, ∃ ipr ∈ r.reass.reassdatagrams, ipr.iphdr.key = key ∧ ∃ q ∈ ipr.p, q.start = offsetOf (cut key) k := by
    intro k inside
    obtain ⟨f,came,own,piece⟩ := all k inside
    rcases progress.there f came with ⟨g,d,sent,same⟩ | ⟨ipr,member,same,q,queued,start⟩
    · exact absurd ⟨g,d,sent,same.trans own⟩ missing
    · exact ⟨ipr,member,same.trans own,q,queued,by rw [start,piece.start]⟩
  obtain ⟨ipr,member,own,-⟩ := held 0 positive
  refine progress.lacks ipr member ?_
  intro k inside
  rw [own] at inside ⊢
  obtain ⟨other,place,same,q,queued,start⟩ := held k inside
  -- no two entries are of one datagram
  obtain rfl := List.inj_on_of_nodup_map faithful.sane.kept.distinct place member (same.trans own.symm)
  exact ⟨q,queued,start⟩

end

end Swip.Core
