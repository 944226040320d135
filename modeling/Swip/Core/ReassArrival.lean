import Swip.Core.ReassQueue

/-! What becomes of a fragment in the whole of `ip4_reass`. -/
namespace Swip.Core

/-! ### What one fragment does -/

/-- `ipr` is the entry that takes `f`, between `front` and `back`. -/
inductive Placed (f : Fragment) (s : Reass) : List IpReassdata → IpReassdata → List IpReassdata → Prop
  | fresh (unknown : ∀ ipr ∈ s.reassdatagrams, ipr.iphdr.key ≠ f.iphdr.key) :
      Placed f s [] (newDatagram f.iphdr) s.reassdatagrams
  | found {front back : List IpReassdata} {old : IpReassdata} (split : s.reassdatagrams = front ++ old :: back)
      (same : old.iphdr.key = f.iphdr.key) : Placed f s front (old.headed f) back

/-- The result for the entry `ipr` that has been told of `f`. -/
def settle (f : Fragment) (s : Reass) (front : List IpReassdata) (ipr : IpReassdata) (back : List IpReassdata) :
    Validated → Option (Reass × Option Datagram)
  | .stopped => none
  | .freepbuf => some (⟨front ++ ipr :: back,s.ipReassPbufcount,s.timeExceeded⟩,none)
  | .waits p => some (⟨front ++ {ipr with p := p} :: back,s.ipReassPbufcount + f.clen,s.timeExceeded⟩,none)
  | .complete p => some (⟨front ++ back,s.ipReassPbufcount + f.clen - pbufClen p,s.timeExceeded⟩,
      some ⟨reassembled ipr (p.headD f).address,p.flatMap Fragment.data⟩)

theorem reassInto_eq (f : Fragment) (s : Reass) (front back : List IpReassdata) (old ipr : IpReassdata) :
    reassInto f front.length ipr ⟨front ++ old :: back,s.ipReassPbufcount + f.clen,s.timeExceeded⟩ =
      settle f s front (ipr.flagged f) back (ipReassChainFragIntoDatagramAndValidate (ipr.flagged f) f) := by
  unfold reassInto
  dsimp only
  cases ipReassChainFragIntoDatagramAndValidate (ipr.flagged f) f with
  | stopped => rfl
  | freepbuf => simp [settle]
  | waits p => simp [settle]
  | complete p => simp [settle,List.eraseIdx_append_of_length_le]

theorem reassQueue_eq (f : Fragment) (s : Reass) (kept : Kept s) (room : s.ipReassPbufcount + f.clen ≤ ipReassMaxPbufs) :
    ∃ front ipr back, Placed f s front ipr back ∧ reassQueue f s =
      settle f s front (ipr.flagged f) back (ipReassChainFragIntoDatagramAndValidate (ipr.flagged f) f) := by
  unfold reassQueue
  cases found : s.reassdatagrams.findIdx? fun ipr => ipAddressesAndIdMatch ipr.iphdr f.iphdr with
  | none =>
    have unknown : ∀ ipr ∈ s.reassdatagrams, ipr.iphdr.key ≠ f.iphdr.key := by
      intro ipr member same
      exact absurd ((match_iff _ _).mpr same) (by simpa using List.findIdx?_eq_none_iff.mp found ipr member)
    -- each datagram holds a pbuf, so that the pool is never empty
    have few : s.reassdatagrams.length < mempNumReassdata := by
      have bound := length_le_pbufTotal s.reassdatagrams kept.filled
      have positive := f.clen_pos
      rw [← kept.counted] at bound
      unfold ipReassMaxPbufs at room
      unfold mempNumReassdata
      omega
    refine ⟨[],newDatagram f.iphdr,s.reassdatagrams,.fresh unknown,?_⟩
    simp only [ipReassEnqueueNewDatagram,if_pos few,Option.bind_some]
    exact reassInto_eq f s [] s.reassdatagrams (newDatagram f.iphdr) (newDatagram f.iphdr)
  | some place =>
    obtain ⟨inside,same,-⟩ := List.findIdx?_eq_some_iff_getElem.mp found
    have split : s.reassdatagrams = s.reassdatagrams.take place ++ s.reassdatagrams[place] :: s.reassdatagrams.drop (place + 1) := by
      rw [← List.drop_eq_getElem_cons inside,List.take_append_drop]
    refine ⟨_,_,_,.found split ((match_iff _ _).mp same),?_⟩
    have here : s.reassdatagrams[place]? = some s.reassdatagrams[place] := List.getElem?_eq_getElem inside
    simp only [here]
    have settled := reassInto_eq f s (s.reassdatagrams.take place) (s.reassdatagrams.drop (place + 1)) s.reassdatagrams[place]
      (s.reassdatagrams[place].headed f)
    rwa [← split,List.length_take_of_le (Nat.le_of_lt inside)] at settled

/-- The pbufs that the datagram of `fraghdr` holds. -/
def ownPbufs (fraghdr : IpHdr) (s : Reass) : Nat :=
  pbufTotal (s.reassdatagrams.filter fun ipr => ipAddressesAndIdMatch ipr.iphdr fraghdr)

theorem pbufTotal_sublist {list whole : List IpReassdata} (sublist : list.Sublist whole) : pbufTotal list ≤ pbufTotal whole := by
  induction sublist with
  | slnil => exact Nat.le_refl _
  | cons ipr _ ih => exact Nat.le_trans ih (Nat.le_add_left _ _)
  | cons_cons ipr _ ih => exact Nat.add_le_add_left ih _

/-- A fragment is refused only if its own datagram has grown too long; otherwise other datagrams
make room for it. -/
theorem ip4Reass_eq (f : Fragment) (s : Reass) (kept : Kept s) (plain : f.iphdr.hl * 4 = ipHlen) :
    ∃ s₁, Kept s₁ ∧ Removed f.iphdr s s₁ ∧
      ((ip4Reass f s = some (s₁,none) ∧ ownPbufs f.iphdr s + f.clen > ipReassMaxPbufs) ∨
        (s₁.ipReassPbufcount + f.clen ≤ ipReassMaxPbufs ∧ ip4Reass f s = reassQueue f s₁)) := by
  unfold ip4Reass
  rw [if_neg (by simpa using plain)]
  split_ifs with full
  · have turns : otherDatagrams f.iphdr s ≤ s.reassdatagrams.length := List.countP_le_length
    obtain ⟨s₁,freed,result,kept₁,removed,count,stops⟩ := removeLoop_spec f.iphdr f.clen s.reassdatagrams.length s 0 kept turns
    refine ⟨s₁,kept₁,removed,?_⟩
    have within := kept.within
    rw [ipReassRemoveOldestDatagram,result,Option.bind_some]
    simp only
    split_ifs with refused
    · refine .inl ⟨rfl,?_⟩
      rcases stops with enough | own
      · have positive := f.clen_pos
        omega
      · have mine : s₁.reassdatagrams.Sublist (s.reassdatagrams.filter fun ipr => ipAddressesAndIdMatch ipr.iphdr f.iphdr) := by
          have filtered := removed.sublist.filter fun ipr => ipAddressesAndIdMatch ipr.iphdr f.iphdr
          rwa [List.filter_eq_self.mpr own] at filtered
        have bound := pbufTotal_sublist mine
        rw [← kept₁.counted] at bound
        change pbufTotal _ + f.clen > ipReassMaxPbufs
        omega
    · exact .inr ⟨by omega,rfl⟩
  · exact ⟨s,kept,.refl f.iphdr s,.inr ⟨by omega,rfl⟩⟩

/-- All that can become of a fragment. -/
inductive Arrival (f : Fragment) (s : Reass) : Option (Reass × Option Datagram) → Prop
  | options (long : f.iphdr.hl * 4 ≠ ipHlen) : Arrival f s (some (s,none))
  | refused {s₁ : Reass} (kept : Kept s₁) (removed : Removed f.iphdr s s₁)
      (full : ownPbufs f.iphdr s + f.clen > ipReassMaxPbufs) : Arrival f s (some (s₁,none))
  | settled {s₁ : Reass} {front back : List IpReassdata} {ipr : IpReassdata} (kept : Kept s₁) (removed : Removed f.iphdr s s₁)
      (room : s₁.ipReassPbufcount + f.clen ≤ ipReassMaxPbufs) (placed : Placed f s₁ front ipr back) :
      Arrival f s (settle f s₁ front (ipr.flagged f) back (ipReassChainFragIntoDatagramAndValidate (ipr.flagged f) f))

theorem ip4Reass_arrival (f : Fragment) (s : Reass) (kept : Kept s) : Arrival f s (ip4Reass f s) := by
  by_cases plain : f.iphdr.hl * 4 = ipHlen
  · obtain ⟨s₁,kept₁,removed,⟨result,full⟩ | ⟨room,result⟩⟩ := ip4Reass_eq f s kept plain
    · rw [result]
      exact .refused kept₁ removed full
    · obtain ⟨front,ipr,back,placed,settled⟩ := reassQueue_eq f s₁ kept₁ room
      rw [result,settled]
      exact .settled kept₁ removed room placed
  · rw [ip4Reass,if_pos plain]
    exact .options plain

@[simp] theorem flagged_p (f : Fragment) (ipr : IpReassdata) : (ipr.flagged f).p = ipr.p := by
  unfold IpReassdata.flagged
  split <;> rfl

@[simp] theorem flagged_iphdr (f : Fragment) (ipr : IpReassdata) : (ipr.flagged f).iphdr = ipr.iphdr := by
  unfold IpReassdata.flagged
  split <;> rfl

@[simp] theorem flagged_timer (f : Fragment) (ipr : IpReassdata) : (ipr.flagged f).timer = ipr.timer := by
  unfold IpReassdata.flagged
  split <;> rfl

@[simp] theorem headed_p (f : Fragment) (ipr : IpReassdata) : (ipr.headed f).p = ipr.p := by
  unfold IpReassdata.headed
  split <;> rfl

@[simp] theorem headed_timer (f : Fragment) (ipr : IpReassdata) : (ipr.headed f).timer = ipr.timer := by
  unfold IpReassdata.headed
  split <;> rfl

theorem headed_key (f : Fragment) (ipr : IpReassdata) (same : ipr.iphdr.key = f.iphdr.key) :
    (ipr.headed f).iphdr.key = f.iphdr.key := by
  unfold IpReassdata.headed
  split
  · rfl
  · exact same

theorem headed_off (f : Fragment) (ipr : IpReassdata) (first : f.iphdr.off = 0) : (ipr.headed f).iphdr.off = 0 := by
  unfold IpReassdata.headed
  split_ifs with late
  · exact first
  · exact Decidable.byContradiction fun other => late ⟨first,other⟩

/-- `ipr` is of the datagram of `f`, and has the right header if `f` is the first fragment. -/
structure Takes (f : Fragment) (ipr : IpReassdata) : Prop where
  key : ipr.iphdr.key = f.iphdr.key
  off : f.iphdr.off = 0 → ipr.iphdr.off = 0

theorem Validated.inserted {ipr : IpReassdata} {f : Fragment} {p : List Fragment}
    (result : ipReassChainFragIntoDatagramAndValidate ipr f = .waits p ∨ ipReassChainFragIntoDatagramAndValidate ipr f = .complete p) :
    ∃ before after, p = before ++ f :: after ∧ Inserted ipr.p f before after := by
  have means := validate_means ipr f
  rcases result with waits | complete
  · rw [waits] at means
    obtain ⟨before,after,shape,inserted,-⟩ := means
    exact ⟨before,after,shape,inserted⟩
  · rw [complete] at means
    obtain ⟨before,after,shape,inserted,-⟩ := means
    exact ⟨before,after,shape,inserted⟩

theorem Placed.waits {f : Fragment} {s : Reass} {front back : List IpReassdata} {ipr : IpReassdata} {p before after : List Fragment}
    (placed : Placed f s front ipr back) (kept : Kept s) (room : s.ipReassPbufcount + f.clen ≤ ipReassMaxPbufs)
    (shape : p = before ++ f :: after) (inserted : Inserted ipr.p f before after) :
    Kept ⟨front ++ {ipr.flagged f with p := p} :: back,s.ipReassPbufcount + f.clen,s.timeExceeded⟩ := by
  have filled : p ≠ [] := by
    rw [shape]
    simp
  have more : pbufClen p = pbufClen ipr.p + f.clen := by
    rw [shape]
    exact inserted.clen
  cases placed with
  | fresh unknown =>
    have total : pbufClen p = f.clen := by simpa [newDatagram,pbufClen] using more
    refine ⟨?_,room,?_,?_,?_⟩
    · change s.ipReassPbufcount + f.clen = pbufClen p + pbufTotal s.reassdatagrams
      have counted := kept.counted
      omega
    · intro other member
      rcases List.mem_cons.mp member with rfl | member
      · exact filled
      · exact kept.filled other member
    · rw [List.nil_append,List.map_cons,List.nodup_cons]
      refine ⟨?_,kept.distinct⟩
      simp only [List.mem_map,not_exists,not_and,flagged_iphdr]
      exact unknown
    · intro other member
      rcases List.mem_cons.mp member with rfl | member
      · rw [flagged_timer]
        exact Nat.le_refl _
      · exact kept.young other member
  | found split same =>
    rename_i old
    refine kept.replace _ split ?_ filled ?_ ?_ room
    · change ((old.headed f).flagged f).iphdr.key = old.iphdr.key
      rw [flagged_iphdr,headed_key f old same,same]
    · change ((old.headed f).flagged f).timer ≤ ipReassMaxage
      rw [flagged_timer,headed_timer]
      exact kept.young old (by rw [split]; simp)
    · change s.ipReassPbufcount + f.clen + pbufClen old.p = s.ipReassPbufcount + pbufClen p
      rw [headed_p] at more
      omega

theorem Placed.freepbuf {f : Fragment} {s : Reass} {front back : List IpReassdata} {ipr : IpReassdata}
    (placed : Placed f s front ipr back) (kept : Kept s) (filled : ipr.p ≠ []) :
    Kept ⟨front ++ ipr.flagged f :: back,s.ipReassPbufcount,s.timeExceeded⟩ := by
  cases placed with
  | fresh unknown => exact absurd rfl filled
  | found split same =>
    rename_i old
    refine kept.replace _ split ?_ ?_ ?_ ?_ kept.within
    · rw [flagged_iphdr,headed_key f old same,same]
    · simpa using filled
    · rw [flagged_timer,headed_timer]
      exact kept.young old (by rw [split]; simp)
    · rw [IpReassdata.clen,IpReassdata.clen,flagged_p,headed_p]

theorem Placed.complete {f : Fragment} {s : Reass} {front back : List IpReassdata} {ipr : IpReassdata} {p before after : List Fragment}
    (placed : Placed f s front ipr back) (kept : Kept s) (shape : p = before ++ f :: after) (inserted : Inserted ipr.p f before after) :
    Kept ⟨front ++ back,s.ipReassPbufcount + f.clen - pbufClen p,s.timeExceeded⟩ := by
  have more : pbufClen p = pbufClen ipr.p + f.clen := by
    rw [shape]
    exact inserted.clen
  have counted := kept.counted
  cases placed with
  | fresh unknown =>
    have total : pbufClen p = f.clen := by simpa [newDatagram,pbufClen] using more
    rw [List.nil_append,total,Nat.add_sub_cancel]
    exact kept.less (List.Sublist.refl _) counted (Nat.le_refl _)
  | found split same =>
    rename_i old
    rw [headed_p] at more
    rw [split,pbufTotal_append,pbufTotal,IpReassdata.clen] at counted
    refine kept.less ?_ ?_ (by omega)
    · rw [split]
      exact sublist_without front back old
    · rw [pbufTotal_append]
      omega

section
variable (P : IpReassdata → Prop) (f : Fragment)

/-- `P` is kept of an entry that takes the fragment. -/
structure Keeps : Prop where
  fresh : P (newDatagram f.iphdr)
  headed : ∀ ipr, P ipr → ipr.iphdr.key = f.iphdr.key → P (ipr.headed f)
  freepbuf : ∀ ipr, P ipr → Takes f ipr →
    ipReassChainFragIntoDatagramAndValidate (ipr.flagged f) f = .freepbuf → P (ipr.flagged f)
  waits : ∀ ipr p, P ipr → Takes f ipr →
    ipReassChainFragIntoDatagramAndValidate (ipr.flagged f) f = .waits p → P {ipr.flagged f with p := p}

variable {P f}

theorem Placed.entry {s : Reass} {front back : List IpReassdata} {ipr : IpReassdata} (keeps : Keeps P f)
    (placed : Placed f s front ipr back) (all : ∀ ipr ∈ s.reassdatagrams, P ipr) :
    P ipr ∧ Takes f ipr ∧ (∀ other ∈ front ++ back, P other) := by
  cases placed with
  | fresh unknown => exact ⟨keeps.fresh,⟨rfl,id⟩,all⟩
  | found split same =>
    rename_i old
    rw [split] at all
    refine ⟨keeps.headed old (all old (by simp)) same,⟨headed_key f old same,headed_off f old⟩,?_⟩
    intro other member
    exact all other ((sublist_without front back old).subset member)

theorem mem_middle {front back : List IpReassdata} {ipr : IpReassdata} (here : P ipr) (others : ∀ other ∈ front ++ back, P other) :
    ∀ other ∈ front ++ ipr :: back, P other := by
  intro other member
  rcases List.mem_append.mp member with member | member
  · exact others other (List.mem_append_left _ member)
  · rcases List.mem_cons.mp member with rfl | member
    · exact here
    · exact others other (List.mem_append_right _ member)

/-- What holds of the entries holds on; a datagram comes from an entry. -/
theorem ip4Reass_keeps {s s' : Reass} {d : Option Datagram} (keeps : Keeps P f) (kept : Kept s)
    (all : ∀ ipr ∈ s.reassdatagrams, P ipr) (result : ip4Reass f s = some (s',d)) :
    Kept s' ∧ (∀ ipr ∈ s'.reassdatagrams, P ipr) ∧
      (∀ message ∈ s'.timeExceeded, message ∈ s.timeExceeded ∨ ∃ ipr ∈ s.reassdatagrams, message ∈ timeExceeded ipr) ∧
      ∀ datagram ∈ d, ∃ ipr p, P ipr ∧ Takes f ipr ∧
        ipReassChainFragIntoDatagramAndValidate (ipr.flagged f) f = .complete p ∧
        datagram = ⟨reassembled (ipr.flagged f) (p.headD f).address,p.flatMap Fragment.data⟩ := by
  have arrival := ip4Reass_arrival f s kept
  rw [result] at arrival
  generalize outcome : some (s',d) = whole at arrival
  cases arrival with
  | options long =>
    obtain ⟨rfl,rfl⟩ := Prod.mk.inj (Option.some.inj outcome)
    exact ⟨kept,all,fun _ => .inl,by simp⟩
  | refused kept₁ removed full =>
    obtain ⟨rfl,rfl⟩ := Prod.mk.inj (Option.some.inj outcome)
    exact ⟨kept₁,fun ipr member => all ipr (removed.sublist.subset member),removed.messages,by simp⟩
  | settled kept₁ removed room placed =>
    rename_i s₁ front back ipr
    obtain ⟨good,takes,others⟩ := placed.entry keeps fun ipr member => all ipr (removed.sublist.subset member)
    cases verdict : ipReassChainFragIntoDatagramAndValidate (ipr.flagged f) f with
    | stopped => simp [verdict,settle] at outcome
    | freepbuf =>
      simp only [verdict,settle] at outcome
      obtain ⟨rfl,rfl⟩ := Prod.mk.inj (Option.some.inj outcome)
      have means := validate_means (ipr.flagged f) f
      rw [verdict] at means
      obtain ⟨q,member,-⟩ := means
      rw [flagged_p] at member
      exact ⟨placed.freepbuf kept₁ (List.ne_nil_of_mem member),mem_middle (keeps.freepbuf ipr good takes verdict) others,
        removed.messages,by simp⟩
    | waits p =>
      simp only [verdict,settle] at outcome
      obtain ⟨rfl,rfl⟩ := Prod.mk.inj (Option.some.inj outcome)
      obtain ⟨before,after,shape,inserted⟩ := Validated.inserted (.inl verdict)
      rw [flagged_p] at inserted
      exact ⟨placed.waits kept₁ room shape inserted,mem_middle (keeps.waits ipr p good takes verdict) others,
        removed.messages,by simp⟩
    | complete p =>
      simp only [verdict,settle] at outcome
      obtain ⟨rfl,rfl⟩ := Prod.mk.inj (Option.some.inj outcome)
      obtain ⟨before,after,shape,inserted⟩ := Validated.inserted (.inr verdict)
      rw [flagged_p] at inserted
      refine ⟨placed.complete kept₁ shape inserted,others,removed.messages,?_⟩
      intro datagram member
      rw [Option.mem_some_iff] at member
      exact ⟨ipr,p,good,takes,verdict,member.symm⟩

/-- Only the validation of an entry can stop the device. -/
theorem ip4Reass_stops {s : Reass} (keeps : Keeps P f) (kept : Kept s) (all : ∀ ipr ∈ s.reassdatagrams, P ipr)
    (result : ip4Reass f s = none) : ∃ ipr, P ipr ∧ Takes f ipr ∧
      ipReassChainFragIntoDatagramAndValidate (ipr.flagged f) f = .stopped := by
  have arrival := ip4Reass_arrival f s kept
  rw [result] at arrival
  generalize outcome : none = whole at arrival
  cases arrival with
  | options long => simp at outcome
  | refused kept₁ removed full => simp at outcome
  | settled kept₁ removed room placed =>
    rename_i s₁ front back ipr
    obtain ⟨good,takes,-⟩ := placed.entry keeps fun ipr member => all ipr (removed.sublist.subset member)
    refine ⟨ipr,good,takes,?_⟩
    cases verdict : ipReassChainFragIntoDatagramAndValidate (ipr.flagged f) f with
    | stopped => rfl
    | freepbuf => simp [verdict,settle] at outcome
    | waits p => simp [verdict,settle] at outcome
    | complete p => simp [verdict,settle] at outcome

end

end Swip.Core
