import Swip.Core.ReassRuns
import Swip.Library.Parts

/-! Fragments as senders cut them: what is put together from them. -/
namespace Swip.Core
open Library.Run Library.Parts

abbrev Key := UInt32 × UInt32 × UInt16

/-- A datagram that needs fragments, cut into `parts`. -/
structure WellCut (parts : List (List Byte)) : Prop where
  two : 2 ≤ parts.length
  filled : ∀ part ∈ parts, part ≠ []
  short : parts.flatten.length + ipHlen ≤ 65535

/-- `f` is the fragment of number `k`. -/
structure Piece (parts : List (List Byte)) (f : Fragment) (k : Nat) : Prop where
  data : parts[k]? = some f.data
  start : f.start = offsetOf parts k
  more : f.iphdr.mf ↔ k + 1 < parts.length
  plain : f.iphdr.hl * 4 = ipHlen

section
variable {parts : List (List Byte)} {f g : Fragment} {i k : Nat}

theorem Piece.inside (piece : Piece parts f k) : k < parts.length := (List.getElem?_eq_some_iff.mp piece.data).1

theorem Piece.finish (well : WellCut parts) (piece : Piece parts f k) : f.finish = offsetOf parts (k + 1) := by
  have next := offsetOf_succ piece.data
  have bound : offsetOf parts (k + 1) ≤ parts.flatten.length := offsetOf_le_length
  have short := well.short
  have size : f.data.length = f.iphdr.len.toNat - f.iphdr.hl * 4 := by
    rw [Fragment.data,List.length_append,← f.trimmed]
    omega
  rw [Fragment.finish,piece.start,← size,← next]
  exact Nat.mod_eq_of_lt (by omega)

theorem Piece.start_lt (well : WellCut parts) (one : Piece parts f k) (two : Piece parts g i) (order : f.start < g.start) :
    k < i ∧ f.finish ≤ g.start := by
  rw [one.start,two.start] at order
  have less := lt_of_offsetOf_lt order
  refine ⟨less,?_⟩
  rw [one.finish well,two.start]
  exact offsetOf_le less

theorem Piece.same (well : WellCut parts) (one : Piece parts f k) (two : Piece parts g i) (same : f.start = g.start) : k = i := by
  rw [one.start,two.start] at same
  exact offsetOf_inj well.filled one.inside two.inside same

theorem Piece.overlaps (well : WellCut parts) (one : Piece parts f k) (two : Piece parts g i) (overlaps : Overlaps f g) : k = i := by
  rcases overlaps with same | ⟨behind,inside⟩ | ⟨before,inside⟩
  · exact one.same well two same
  · have := (two.start_lt well one behind).2
    omega
  · have := (one.start_lt well two before).2
    omega

theorem Piece.joins (well : WellCut parts) (one : Piece parts f k) (two : Piece parts g i) (joins : Joins f g) : i = k + 1 := by
  unfold Joins at joins
  rw [one.finish well,two.start] at joins
  rcases Nat.lt_or_ge (k + 1) parts.length with more | last
  · exact (offsetOf_inj well.filled more two.inside joins).symm
  · have whole : offsetOf parts (k + 1) = parts.flatten.length := offsetOf_all last
    have next := offsetOf_lt well.filled two.inside (Nat.lt_add_one i)
    have bound : offsetOf parts (i + 1) ≤ parts.flatten.length := offsetOf_le_length
    omega

/-- Fragments without holes are consecutive parts. -/
theorem chain_data (well : WellCut parts) (p : List Fragment) (pieces : ∀ g ∈ f :: p, ∃ i, Piece parts g i)
    (piece : Piece parts f k) (chain : List.IsChain Joins (f :: p)) :
    (f :: p).flatMap Fragment.data = ((parts.drop k).take (p.length + 1)).flatten ∧ Piece parts (lastFragment f p) (k + p.length) := by
  induction p generalizing f k with
  | nil => exact ⟨by simp [drop_take_succ piece.data],piece⟩
  | cons g p ih =>
    obtain ⟨joins,later⟩ := List.isChain_cons_cons.mp chain
    obtain ⟨i,next⟩ := pieces g (by simp)
    obtain rfl := piece.joins well next joins
    obtain ⟨data,last⟩ := ih (fun h member => pieces h (List.mem_cons_of_mem _ member)) next later
    refine ⟨?_,?_⟩
    · rw [List.flatMap_cons,data,drop_take_succ piece.data,List.flatten_cons,List.length_cons]
    · rw [List.length_cons,show k + (p.length + 1) = k + 1 + p.length by omega]
      exact last

end

/-! ### The entries -/

section
variable (cut : Key → List (List Byte))

/-- The entry has some of the fragments of its datagram, in order. -/
structure Genuine (ipr : IpReassdata) : Prop where
  pieces : ∀ f ∈ ipr.p, ∃ k, Piece (cut ipr.iphdr.key) f k
  sorted : ipr.p.Pairwise fun f g => f.start < g.start
  flag : ipr.lastfrag ↔ ∃ f ∈ ipr.p, f.iphdr.mf = false
  len : ipr.lastfrag → ipr.datagramLen = (cut ipr.iphdr.key).flatten.length

variable {cut} {f : Fragment} {k : Nat} {ipr : IpReassdata}

theorem Inserted.sorted {p before after : List Fragment} (inserted : Inserted p f before after)
    (sorted : p.Pairwise fun f g => f.start < g.start) : (before ++ f :: after).Pairwise fun f g => f.start < g.start := by
  rw [inserted.split,List.pairwise_append] at sorted
  obtain ⟨left,right,across⟩ := sorted
  have later : ∀ q ∈ after, f.start < q.start := by
    cases after with
    | nil => simp
    | cons head tail =>
      have first := inserted.later head rfl
      intro q member
      rcases List.mem_cons.mp member with rfl | member
      · exact first
      · exact Nat.lt_trans first ((List.pairwise_cons.mp right).1 q member)
  rw [List.pairwise_append]
  refine ⟨left,List.pairwise_cons.mpr ⟨later,right⟩,?_⟩
  intro b earlier q member
  rcases List.mem_cons.mp member with rfl | member
  · exact inserted.earlier b earlier
  · exact across b earlier q member

theorem Piece.last {parts : List (List Byte)} (well : WellCut parts) (piece : Piece parts f k) (last : f.iphdr.mf = false) :
    k + 1 = parts.length ∧ f.finish = parts.flatten.length := by
  have ends : ¬ k + 1 < parts.length := by
    rw [← piece.more,last]
    simp
  have inside := piece.inside
  refine ⟨by omega,?_⟩
  rw [piece.finish well,offsetOf_all (by omega)]

theorem Genuine.len_flagged (well : WellCut (cut f.iphdr.key)) (piece : Piece (cut f.iphdr.key) f k) (genuine : Genuine cut ipr)
    (takes : Takes f ipr) (flag : (ipr.flagged f).lastfrag) : (ipr.flagged f).datagramLen = (cut ipr.iphdr.key).flatten.length := by
  unfold IpReassdata.flagged at flag ⊢
  split_ifs at flag ⊢ with more
  · exact genuine.len flag
  · rw [takes.key]
    exact (piece.last well (Bool.eq_false_iff.mpr more)).2

theorem genuine_keeps (well : WellCut (cut f.iphdr.key)) (piece : Piece (cut f.iphdr.key) f k) : Keeps (Genuine cut) f where
  fresh := ⟨by simp [newDatagram],by simp [newDatagram],by simp [newDatagram],by simp [newDatagram]⟩
  headed ipr genuine same := by
    unfold IpReassdata.headed
    split_ifs with late
    · refine ⟨?_,genuine.sorted,genuine.flag,?_⟩
      · rw [← same]
        exact genuine.pieces
      · rw [← same]
        exact genuine.len
    · exact genuine
  freepbuf ipr genuine takes thrown := by
    have means := validate_means (ipr.flagged f) f
    rw [thrown] at means
    obtain ⟨q,member,overlaps⟩ := means
    rw [flagged_p] at member
    obtain ⟨i,other⟩ := genuine.pieces q member
    rw [takes.key] at other
    obtain rfl := piece.overlaps well other overlaps
    refine ⟨?_,?_,?_,?_⟩
    · simpa using genuine.pieces
    · simpa using genuine.sorted
    · rw [flagged_p,← genuine.flag,IpReassdata.flagged]
      split_ifs with more
      · rfl
      · -- the last fragment once more
        have last : q.iphdr.mf = false := Bool.eq_false_iff.mpr fun set => more (piece.more.mpr (other.more.mp set))
        simpa using genuine.flag.mpr ⟨q,member,last⟩
    · rw [flagged_iphdr]
      exact genuine.len_flagged well piece takes
  waits ipr p genuine takes waits := by
    obtain ⟨before,after,rfl,inserted⟩ := Validated.inserted (.inl waits)
    rw [flagged_p] at inserted
    refine ⟨?_,inserted.sorted genuine.sorted,?_,?_⟩
    · intro g member
      rw [flagged_iphdr]
      rcases mem_inserted inserted member with rfl | earlier
      · rw [takes.key]
        exact ⟨k,piece⟩
      · exact genuine.pieces g earlier
    · have members : ∀ g, g ∈ before ++ f :: after ↔ g = f ∨ g ∈ ipr.p := by
        intro g
        rw [inserted.split]
        simp only [List.mem_append,List.mem_cons]
        tauto
      simp only [members,or_and_right,exists_or,exists_eq_left,← genuine.flag]
      unfold IpReassdata.flagged
      split_ifs with more
      · simp [more]
      · simp [more]
    · rw [flagged_iphdr]
      exact genuine.len_flagged well piece takes

theorem lastFragment_mem (f : Fragment) (after : List Fragment) : lastFragment f after ∈ f :: after := List.getLast_mem _

theorem sorted_last {before after : List Fragment} (sorted : (before ++ f :: after).Pairwise fun f g => f.start < g.start)
    (g : Fragment) (member : g ∈ before ++ f :: after) : g.start ≤ (lastFragment f after).start := by
  have shape : before ++ f :: after = before ++ (f :: after).dropLast ++ [lastFragment f after] := by
    rw [List.append_assoc,lastFragment,List.dropLast_append_getLast]
  rw [shape] at sorted member
  rcases List.mem_append.mp member with early | last
  · exact Nat.le_of_lt ((List.pairwise_append.mp sorted).2.2 g early _ (List.mem_singleton_self _))
  · exact Nat.le_of_eq (congrArg Fragment.start (List.mem_singleton.mp last))

/-- The last part is there once it came, so that it is the end of the queue. -/
theorem Genuine.ends (well : WellCut (cut f.iphdr.key)) (piece : Piece (cut f.iphdr.key) f k) (genuine : Genuine cut ipr)
    (takes : Takes f ipr) {before after : List Fragment} (inserted : Inserted ipr.p f before after) (flag : (ipr.flagged f).lastfrag)
    {i : Nat} (last : Piece (cut f.iphdr.key) (lastFragment f after) i) : i + 1 = (cut f.iphdr.key).length := by
  have there : ∃ g ∈ before ++ f :: after, (∃ j, Piece (cut f.iphdr.key) g j) ∧ g.iphdr.mf = false := by
    by_cases more : f.iphdr.mf
    · rw [IpReassdata.flagged,if_pos more] at flag
      obtain ⟨g,member,ends⟩ := genuine.flag.mp flag
      refine ⟨g,?_,?_,ends⟩
      · rw [inserted.split] at member
        exact (sublist_without before after f).subset member
      · rw [← takes.key]
        exact genuine.pieces g member
    · exact ⟨f,by simp,⟨k,piece⟩,Bool.eq_false_iff.mpr more⟩
  obtain ⟨g,member,⟨j,other⟩,ends⟩ := there
  have order := sorted_last (inserted.sorted genuine.sorted) g member
  have inside := last.inside
  have final := (other.last well ends).1
  rcases Nat.lt_or_ge i j with less | fine
  · have smaller := offsetOf_lt well.filled inside less
    rw [← last.start,← other.start] at smaller
    omega
  · omega

/-- The parts of the datagram in the fragments that are taken for all of it. There may be a hole
only in front of the fragment that came last, and only if others follow it. -/
theorem Genuine.seems (well : WellCut (cut f.iphdr.key)) (piece : Piece (cut f.iphdr.key) f k) (genuine : Genuine cut ipr)
    (takes : Takes f ipr) {before after : List Fragment} (inserted : Inserted ipr.p f before after) (flag : (ipr.flagged f).lastfrag)
    (seems : Seems f before after) :
    k + after.length + 1 = (cut f.iphdr.key).length ∧ Piece (cut f.iphdr.key) (lastFragment f after) (k + after.length) ∧
      before.length ≤ k ∧ (after = [] → before.length = k) ∧ (before = [] → k = 0) ∧
      (before ++ f :: after).flatMap Fragment.data =
        ((cut f.iphdr.key).take before.length ++ (cut f.iphdr.key).drop k).flatten := by
  have pieces : ∀ g ∈ before ++ f :: after, ∃ i, Piece (cut f.iphdr.key) g i := by
    intro g member
    rcases mem_inserted inserted member with rfl | earlier
    · exact ⟨k,piece⟩
    · rw [← takes.key]
      exact genuine.pieces g earlier
  obtain ⟨right,last⟩ := chain_data well after (fun g member => pieces g (List.mem_append_right _ member)) piece seems.right
  have count := genuine.ends well piece takes inserted flag last
  have rest : ((cut f.iphdr.key).drop k).take (after.length + 1) = (cut f.iphdr.key).drop k := by
    apply List.take_of_length_le
    rw [List.length_drop]
    omega
  have zeroth : ∀ {g i}, Piece (cut f.iphdr.key) g i → g.start = 0 → i = 0 := by
    intro g i other zero
    have positive : 0 < (cut f.iphdr.key).length := Nat.lt_of_lt_of_le (by omega) well.two
    rw [other.start,← offsetOf_zero] at zero
    exact offsetOf_inj well.filled other.inside positive zero
  refine ⟨by omega,last,?_⟩
  rw [List.flatMap_append,right,rest,List.flatten_append]
  cases before with
  | nil =>
    obtain rfl := zeroth piece seems.zero
    exact ⟨Nat.le_refl _,fun _ => rfl,fun _ => rfl,rfl⟩
  | cons b bs =>
    obtain ⟨i,first⟩ := pieces b (by simp)
    obtain rfl := zeroth first seems.zero
    obtain ⟨left,end'⟩ := chain_data well bs (fun g member => pieces g (List.mem_append_left _ member)) first seems.left
    have order : lastFragment b bs ∈ b :: bs := lastFragment_mem b bs
    have less := (end'.start_lt well piece (inserted.earlier _ order)).1
    refine ⟨by rw [List.length_cons]; omega,?_,by simp,by rw [left,List.drop_zero,List.length_cons]⟩
    intro nothing
    subst nothing
    obtain ⟨-,whole⟩ := chain_data well (bs ++ [f]) pieces first (seems.middle rfl)
    have same : lastFragment b (bs ++ [f]) = f := by simp [lastFragment]
    rw [same] at whole
    have := whole.same well piece rfl
    rw [List.length_append,List.length_singleton] at this
    rw [List.length_cons]
    omega

/-- No assertion fails. -/
theorem Genuine.goes_on (well : WellCut (cut f.iphdr.key)) (piece : Piece (cut f.iphdr.key) f k) (genuine : Genuine cut ipr)
    (takes : Takes f ipr) : ipReassChainFragIntoDatagramAndValidate (ipr.flagged f) f ≠ .stopped := by
  intro stopped
  have means := validate_means (ipr.flagged f) f
  rw [stopped] at means
  obtain ⟨before,after,inserted,flag,seems,single | short⟩ := means
  all_goals rw [flagged_p] at inserted
  all_goals obtain ⟨count,last,-,-,first,-⟩ := genuine.seems well piece takes inserted flag seems
  · obtain ⟨rfl,rfl⟩ := single
    have two := well.two
    have := first rfl
    rw [List.length_nil] at count
    omega
  · apply short
    rw [genuine.len_flagged well piece takes flag,last.finish well,takes.key]
    exact offsetOf_all (by omega)

end

/-! ### Runs -/

theorem Keeps.and {P Q : IpReassdata → Prop} {f : Fragment} (one : Keeps P f) (two : Keeps Q f) : Keeps (fun ipr => P ipr ∧ Q ipr) f where
  fresh := ⟨one.fresh,two.fresh⟩
  headed ipr both same := ⟨one.headed ipr both.1 same,two.headed ipr both.2 same⟩
  freepbuf ipr both takes thrown := ⟨one.freepbuf ipr both.1 takes thrown,two.freepbuf ipr both.2 takes thrown⟩
  waits ipr p both takes waits := ⟨one.waits ipr p both.1 takes waits,two.waits ipr p both.2 takes waits⟩

theorem withChksum_full (iphdr : IpHdr) (address : Nat) (blank : iphdr.chksum = 0) :
    internetSum (iphdr.withChksum address).bytes = 65535 := by
  have zero : iphdr.bytes = iphdr.front ++ 0 :: 0 :: iphdr.addresses := by
    rw [IpHdr.bytes,blank]
    rfl
  have short : iphdr.bytes.length < 65536 := by
    rw [zero]
    simp [IpHdr.front,IpHdr.addresses,wordBytes]
  have fits : (UInt16.ofNat (inetChksum address iphdr.bytes)).toNat = inetChksum address iphdr.bytes := by
    rw [UInt16.toNat_ofNat']
    apply Nat.mod_eq_of_lt
    unfold inetChksum
    omega
  change internetSum (iphdr.front ++ (wordBytes (UInt16.ofNat (inetChksum address iphdr.bytes)).toNat ++ iphdr.addresses)) = 65535
  rw [fits,inetChksum,lwipStandardChksum_eq address _ short,zero]
  apply internetSum_filled
  simp [IpHdr.front,wordBytes]

section
variable (cut : Key → List (List Byte)) (came : Fragment → Prop)

/-- The datagram `d` that `f` completed: the parts up to some `j` and from `f` on, below the header
of a first fragment. -/
structure Assembled (f : Fragment) (d : Datagram) : Prop where
  data : ∃ j k, Piece (cut f.iphdr.key) f k ∧ j ≤ k ∧ (j < k → 0 < j ∧ k + 1 < (cut f.iphdr.key).length) ∧
    d.data = ((cut f.iphdr.key).take j ++ (cut f.iphdr.key).drop k).flatten
  header : ∃ g, came g ∧ g.start = 0 ∧ g.iphdr.key = f.iphdr.key ∧
    d.iphdr = {g.iphdr with len := .ofNat ((cut f.iphdr.key).flatten.length + ipHlen), offset := 0, chksum := d.iphdr.chksum}
  checksum : internetSum d.iphdr.bytes = 65535

variable {cut came} {f : Fragment} {k : Nat} {ipr : IpReassdata}

theorem Genuine.assembled (well : WellCut (cut f.iphdr.key)) (piece : Piece (cut f.iphdr.key) f k) (genuine : Genuine cut ipr)
    (traced : Traced came ipr) (takes : Takes f ipr) {p : List Fragment}
    (complete : ipReassChainFragIntoDatagramAndValidate (ipr.flagged f) f = .complete p) (address : Nat) :
    Assembled cut came f ⟨reassembled (ipr.flagged f) address,p.flatMap Fragment.data⟩ := by
  have means := validate_means (ipr.flagged f) f
  rw [complete] at means
  obtain ⟨before,after,rfl,inserted,flag,seems,ends⟩ := means
  rw [flagged_p] at inserted
  obtain ⟨count,last,order,appended,first,data⟩ := genuine.seems well piece takes inserted flag seems
  refine ⟨⟨before.length,k,piece,order,?_,data⟩,?_,withChksum_full _ _ rfl⟩
  · intro hole
    refine ⟨?_,?_⟩
    · apply List.length_pos_iff.mpr
      intro nothing
      have := first nothing
      omega
    · have others : 0 < after.length := by
        apply List.length_pos_iff.mpr
        intro nothing
        have := appended nothing
        omega
      omega
  · obtain ⟨g,earlier,header⟩ := traced.header
    refine ⟨g,earlier,?_,by rw [header,takes.key],?_⟩
    · rw [Fragment.start_zero,header]
      cases before with
      | nil => exact takes.off ((Fragment.start_zero f).mp seems.zero)
      | cons b bs => exact traced.first b (by rw [inserted.split]; simp) seems.zero
    · have len := genuine.len_flagged well piece takes flag
      rw [takes.key] at len
      rw [header,← len]
      unfold reassembled IpHdr.withChksum
      rw [flagged_iphdr]

/-- The fragments of a run, each one as its sender cut it. -/
def AsCut (cut : Key → List (List Byte)) (events : List ReassEvent) : Prop :=
  ∀ f, .fragment f ∈ events → WellCut (cut f.iphdr.key) ∧ ∃ k, Piece (cut f.iphdr.key) f k

theorem Genuine.aged (genuine : Genuine cut ipr) : Genuine cut ipr.aged :=
  ⟨genuine.pieces,genuine.sorted,genuine.flag,genuine.len⟩

/-- All of the entries and of the datagrams handed up. -/
structure Faithful (cut : Key → List (List Byte)) (came : Fragment → Prop) (r : Receiver) : Prop where
  sane : Sane came r.reass
  genuine : ∀ ipr ∈ r.reass.reassdatagrams, Genuine cut ipr
  assembled : ∀ f d, (f,d) ∈ r.delivered → Assembled cut came f d

theorem Faithful.step {r : Receiver} (faithful : Faithful cut came r) (event : ReassEvent)
    (cutting : ∀ f, event = .fragment f → came f ∧ WellCut (cut f.iphdr.key) ∧ ∃ k, Piece (cut f.iphdr.key) f k) :
    ∃ r', r.step event = some r' ∧ Faithful cut came r' := by
  cases event with
  | tick =>
    obtain ⟨s,result,-⟩ := ipReassTmr_spec r.reass faithful.sane.kept
    obtain ⟨sane,list⟩ := faithful.sane.tick result
    refine ⟨{r with reass := s},by simp [Receiver.step,result],sane,?_,faithful.assembled⟩
    intro ipr member
    rw [list] at member
    obtain ⟨old,inside,-,rfl⟩ := mem_survivors member
    exact (faithful.genuine old inside).aged
  | fragment f =>
    obtain ⟨here,well,k,piece⟩ := cutting f rfl
    have keeps := (genuine_keeps well piece).and (traced_keeps came f here)
    have all : ∀ ipr ∈ r.reass.reassdatagrams, Genuine cut ipr ∧ Traced came ipr :=
      fun ipr member => ⟨faithful.genuine ipr member,faithful.sane.traced ipr member⟩
    cases result : ip4Reass f r.reass with
    | none =>
      obtain ⟨ipr,good,takes,stopped⟩ := ip4Reass_stops keeps faithful.sane.kept all result
      exact absurd stopped (good.1.goes_on well piece takes)
    | some pair =>
      obtain ⟨s,d⟩ := pair
      obtain ⟨-,entries,-,delivers⟩ := ip4Reass_keeps keeps faithful.sane.kept all result
      refine ⟨⟨s,r.delivered ++ d.toList.map (f,·)⟩,by simp only [Receiver.step,result,Option.map_some],faithful.sane.fragment here result,
        fun ipr member => (entries ipr member).1,?_⟩
      intro g e member
      rcases List.mem_append.mp member with earlier | now
      · exact faithful.assembled g e earlier
      · obtain ⟨datagram,inside,same⟩ := List.mem_map.mp now
        obtain ⟨rfl,rfl⟩ := Prod.mk.inj same
        obtain ⟨ipr,p,good,takes,complete,rfl⟩ := delivers datagram (by simpa using inside)
        exact good.1.assembled well piece good.2 takes complete _

theorem faithful_run (start : Receiver) (events : List ReassEvent) (faithful : Faithful cut came start)
    (cutting : AsCut cut events) (all : ∀ f, .fragment f ∈ events → came f) :
    ∃ r, run receiverStep (some start) events = some r ∧ Faithful cut came r := by
  induction events generalizing start with
  | nil => exact ⟨start,rfl,faithful⟩
  | cons event events ih =>
    obtain ⟨r,step,next⟩ := faithful.step event fun f same => ⟨all f (by simp [same]),cutting f (by simp [same])⟩
    obtain ⟨final,running,last⟩ := ih r next (fun f member => cutting f (by simp [member])) (fun f member => all f (by simp [member]))
    refine ⟨final,?_,last⟩
    rw [run_cons,receiverStep,Option.bind_some,step]
    exact running

theorem faithful_reset : Faithful cut came .reset :=
  ⟨sane_empty came,by simp [Receiver.reset,Reass.empty],by simp [Receiver.reset]⟩

end

def sampleParts : List (List Byte) := [List.replicate 8 0,List.replicate 8 1,List.replicate 8 2,List.replicate 8 3]

theorem sample_wellCut : WellCut sampleParts := ⟨by decide,by decide,by decide⟩

theorem sample_piece (number : Nat) (small : number < 4) : Piece sampleParts (sample number) number :=
  match number, small with
  | 0, _ => ⟨rfl,rfl,by decide,rfl⟩
  | 1, _ => ⟨rfl,rfl,by decide,rfl⟩
  | 2, _ => ⟨rfl,rfl,by decide,rfl⟩
  | 3, _ => ⟨rfl,rfl,by decide,rfl⟩

def samples (numbers : List Nat) : List ReassEvent := numbers.map fun number => .fragment (sample number)

theorem samples_asCut (numbers : List Nat) (small : ∀ number ∈ numbers, number < 4) : AsCut (fun _ => sampleParts) (samples numbers) := by
  intro f member
  obtain ⟨number,inside,same⟩ := List.mem_map.mp member
  obtain rfl := ReassEvent.fragment.inj same
  exact ⟨sample_wellCut,number,sample_piece number (small number inside)⟩

section
variable {cut : Key → List (List Byte)} {came : Fragment → Prop} {f : Fragment} {k : Nat} {ipr : IpReassdata}

/-- No fragment of a datagram comes before one with a smaller offset. -/
def InOrder : ReassEvent → ReassEvent → Prop
  | .fragment f, .fragment g => f.iphdr.key = g.iphdr.key → f.start ≤ g.start
  | _, _ => True

instance : DecidableRel InOrder
  | .fragment f, .fragment g => inferInstanceAs (Decidable (f.iphdr.key = g.iphdr.key → f.start ≤ g.start))
  | .fragment _, .tick => .isTrue trivial
  | .tick, .fragment _ => .isTrue trivial
  | .tick, .tick => .isTrue trivial

/-- The fragment is not behind any that is still to come. -/
def Ahead (events : List ReassEvent) (q : Fragment) : Prop := ∀ f, .fragment f ∈ events → q.iphdr.key = f.iphdr.key → q.start ≤ f.start

theorem held_keeps (came : Fragment → Prop) (f : Fragment) (here : came f) : Keeps (fun ipr => ∀ q ∈ ipr.p, came q) f where
  fresh := by simp [newDatagram]
  headed ipr held same := by simpa using held
  freepbuf ipr held takes thrown := by simpa using held
  waits ipr p held takes waits := by
    obtain ⟨before,after,rfl,inserted⟩ := Validated.inserted (.inl waits)
    rw [flagged_p] at inserted
    intro q member
    rcases mem_inserted inserted member with rfl | earlier
    · exact here
    · exact held q earlier

theorem Genuine.whole (well : WellCut (cut f.iphdr.key)) (piece : Piece (cut f.iphdr.key) f k) (genuine : Genuine cut ipr)
    (takes : Takes f ipr) {p : List Fragment} (complete : ipReassChainFragIntoDatagramAndValidate (ipr.flagged f) f = .complete p)
    (behind : ∀ q ∈ ipr.p, q.start ≤ f.start) : p.flatMap Fragment.data = (cut f.iphdr.key).flatten := by
  have means := validate_means (ipr.flagged f) f
  rw [complete] at means
  obtain ⟨before,after,rfl,inserted,flag,seems,ends⟩ := means
  rw [flagged_p] at inserted
  have nothing : after = [] := by
    cases after with
    | nil => rfl
    | cons q after =>
      have later := inserted.later q rfl
      have := behind q (by rw [inserted.split]; simp)
      omega
  obtain ⟨-,-,-,appended,-,data⟩ := genuine.seems well piece takes inserted flag seems
  rw [data,appended nothing,List.take_append_drop]

theorem ordered_run (start r : Receiver) (events : List ReassEvent) (faithful : Faithful cut came start)
    (cutting : AsCut cut events) (all : ∀ f, .fragment f ∈ events → came f) (ordered : events.Pairwise InOrder)
    (ahead : ∀ ipr ∈ start.reass.reassdatagrams, ∀ q ∈ ipr.p, Ahead events q)
    (running : run receiverStep (some start) events = some r) :
    ∀ f d, (f,d) ∈ r.delivered → (f,d) ∈ start.delivered ∨ d.data = (cut f.iphdr.key).flatten := by
  induction events generalizing start with
  | nil =>
    obtain rfl := Option.some.inj running
    exact fun f d => .inl
  | cons event events ih =>
    obtain ⟨later,ordered⟩ := List.pairwise_cons.mp ordered
    obtain ⟨next,step,stays⟩ := faithful.step event fun f same => ⟨all f (by simp [same]),cutting f (by simp [same])⟩
    rw [run_cons,receiverStep,Option.bind_some,step] at running
    have narrower : ∀ q, Ahead (event :: events) q → Ahead events q :=
      fun q ahead f member same => ahead f (List.mem_cons_of_mem _ member) same
    have rest := fun others => ih next stays (fun f member => cutting f (by simp [member]))
      (fun f member => all f (by simp [member])) ordered others running
    cases event with
    | tick =>
      obtain ⟨result,same⟩ := step_tick step
      rw [← same]
      apply rest
      intro ipr member q inside
      rw [(faithful.sane.tick result).2] at member
      obtain ⟨old,earlier,-,rfl⟩ := mem_survivors member
      exact narrower q (ahead old earlier q inside)
    | fragment f =>
      obtain ⟨well,k,piece⟩ := cutting f (by simp)
      obtain ⟨d,result,delivered⟩ := step_fragment step
      have here : Ahead (.fragment f :: events) f := by
        intro g member same
        rcases List.mem_cons.mp member with now | member
        · rw [ReassEvent.fragment.inj now]
        · exact later _ member same
      have keeps := (genuine_keeps well piece).and
        ((traced_keeps came f (all f (by simp))).and (held_keeps (Ahead (.fragment f :: events)) f here))
      obtain ⟨-,entries,-,delivers⟩ := ip4Reass_keeps keeps faithful.sane.kept
        (fun ipr member => ⟨faithful.genuine ipr member,faithful.sane.traced ipr member,ahead ipr member⟩) result
      intro g e member
      have before := rest (fun ipr inside q held => narrower q ((entries ipr inside).2.2 q held)) g e member
      rw [delivered] at before
      rcases before with before | exactly
      · rcases List.mem_append.mp before with earlier | now
        · exact .inl earlier
        · obtain ⟨datagram,inside,same⟩ := List.mem_map.mp now
          obtain ⟨rfl,rfl⟩ := Prod.mk.inj same
          obtain ⟨ipr,p,⟨genuine,traced,held⟩,takes,complete,rfl⟩ := delivers datagram (by simpa using inside)
          refine .inr (genuine.whole well piece takes complete ?_)
          intro q queued
          exact held q queued f (by simp) ((traced.fragments q queued).2.trans takes.key)
      · exact .inr exactly

end

end Swip.Core
