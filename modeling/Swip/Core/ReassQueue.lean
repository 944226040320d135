import Swip.Core.Reass
import Mathlib.Data.List.Basic

/-! What a fragment, whatever it holds, does to the queues, and that the pbuf count is right. -/
namespace Swip.Core

/-- `b` begins where `a` ends. -/
def Joins (a b : Fragment) : Prop := a.finish = b.start

instance (a b : Fragment) : Decidable (Joins a b) := inferInstanceAs (Decidable (_ = _))

def Overlaps (new q : Fragment) : Prop :=
  new.start = q.start ∨ (q.start < new.start ∧ new.start < q.finish) ∨ (new.start < q.start ∧ q.start < new.finish)

/-! ### The place of a fragment -/

theorem insertLoop_cons (new q : Fragment) (prev : Option Fragment) (valid : Bool) (next : List Fragment) :
    insertLoop new prev valid (q :: next) =
      if new.start < q.start then
        match prev with
        | none => .put [] (q :: next) valid
        | some prev => if new.start < prev.finish ∨ new.finish > q.start then .freepbuf else .put [] (q :: next) valid
      else if new.start = q.start then .freepbuf
      else if new.start < q.finish then .freepbuf
      else (insertLoop new (some q) (noHole valid q prev) next).behind q := by
  cases prev <;> rfl

theorem insertLoop_stopped (new : Fragment) (p : List Fragment) (prev : Option Fragment) (valid : Bool)
    (passed : ∀ q ∈ prev, q.finish ≤ new.start) : insertLoop new prev valid p ≠ .stopped := by
  induction p generalizing prev valid with
  | nil =>
    cases prev with
    | none => simp [insertLoop]
    | some prev => simp [insertLoop,passed prev rfl]
  | cons q next ih =>
    rw [insertLoop_cons]
    split_ifs with before same inside
    · cases prev with
      | none => simp
      | some prev =>
        simp only
        split_ifs <;> simp
    · simp
    · simp
    · have later := ih (some q) (noHole valid q prev) (by simpa using Nat.le_of_not_lt inside)
      generalize insertLoop new (some q) (noHole valid q prev) next = result at later ⊢
      cases result <;> simp_all [Chained.behind]

theorem insertLoop_freepbuf (new : Fragment) (p : List Fragment) (prev : Option Fragment) (valid : Bool)
    (behind : ∀ q ∈ prev, q.start < new.start) (thrown : insertLoop new prev valid p = .freepbuf) :
    ∃ q ∈ prev.toList ++ p, Overlaps new q := by
  induction p generalizing prev valid with
  | nil =>
    cases prev with
    | none => simp [insertLoop] at thrown
    | some prev =>
      simp only [insertLoop] at thrown
      split_ifs at thrown
  | cons q next ih =>
    rw [insertLoop_cons] at thrown
    split_ifs at thrown with before same inside
    · cases prev with
      | none => simp at thrown
      | some prev =>
        simp only at thrown
        split_ifs at thrown with overlap
        rcases overlap with left | right
        · exact ⟨prev,by simp,.inr (.inl ⟨behind prev rfl,left⟩)⟩
        · exact ⟨q,by simp,.inr (.inr ⟨before,right⟩)⟩
    · exact ⟨q,by simp,.inl same⟩
    · exact ⟨q,by simp,.inr (.inl ⟨by omega,inside⟩)⟩
    · generalize rest : insertLoop new (some q) _ next = result at thrown
      cases result with
      | freepbuf =>
        obtain ⟨other,member,overlap⟩ := ih (some q) _ (by simp; omega) rest
        exact ⟨other,by simp at member ⊢; tauto,overlap⟩
      | stopped => simp [Chained.behind] at thrown
      | put => simp [Chained.behind] at thrown

/-- The fragment goes behind all that end before it. `valid` speaks of the joints up to its
predecessor, and of the one with its predecessor only if nothing follows it. -/
theorem insertLoop_put (new : Fragment) (p : List Fragment) (prev : Option Fragment) (valid : Bool)
    {before after : List Fragment} {joined : Bool} (put : insertLoop new prev valid p = .put before after joined) :
    p = before ++ after ∧ (∀ q ∈ before, q.start < new.start) ∧ (∀ q ∈ after.head?, new.start < q.start) ∧
      (joined = true ↔ valid = true ∧ List.IsChain Joins (prev.toList ++ before) ∧
        (after = [] → List.IsChain Joins (prev.toList ++ before ++ [new]))) := by
  induction p generalizing prev valid before joined with
  | nil =>
    cases prev with
    | none =>
      simp only [insertLoop,Chained.put.injEq] at put
      obtain ⟨rfl,rfl,rfl⟩ := put
      simp
    | some prev =>
      simp only [insertLoop] at put
      split_ifs at put
      simp only [Chained.put.injEq] at put
      obtain ⟨rfl,rfl,rfl⟩ := put
      simp [Joins,noHole]
  | cons q next ih =>
    rw [insertLoop_cons] at put
    split_ifs at put with smaller same inside
    · cases prev with
      | none =>
        simp only [Chained.put.injEq] at put
        obtain ⟨rfl,rfl,rfl⟩ := put
        simpa using smaller
      | some prev =>
        simp only at put
        split_ifs at put
        simp only [Chained.put.injEq] at put
        obtain ⟨rfl,rfl,rfl⟩ := put
        simpa using smaller
    · generalize rest : insertLoop new (some q) _ next = result at put
      cases result with
      | stopped => simp [Chained.behind] at put
      | freepbuf => simp [Chained.behind] at put
      | put before' after' joined' =>
        simp only [Chained.behind,Chained.put.injEq] at put
        obtain ⟨rfl,rfl,rfl⟩ := put
        obtain ⟨rfl,earlier,first,chain⟩ := ih (some q) _ rest
        refine ⟨rfl,?_,first,?_⟩
        · intro other member
          rcases List.mem_cons.mp member with rfl | member
          · omega
          · exact earlier other member
        · rw [chain]
          cases prev with
          | none => simp [noHole]
          | some prev => simp [Joins,noHole]; tauto

def lastFragment (new : Fragment) (after : List Fragment) : Fragment := (new :: after).getLast (List.cons_ne_nil new after)

theorem holeLoop_joined (new : Fragment) (after : List Fragment) (joined : List.IsChain Joins (new :: after)) :
    holeLoop new after = some (lastFragment new after) := by
  induction after generalizing new with
  | nil => rfl
  | cons q next ih =>
    obtain ⟨joins,later⟩ := List.isChain_cons_cons.mp joined
    rw [holeLoop,if_pos (show new.finish = q.start from joins),ih q later,lastFragment,lastFragment,List.getLast_cons_cons]

theorem holeLoop_hole (new : Fragment) (after : List Fragment) (hole : ¬ List.IsChain Joins (new :: after)) :
    holeLoop new after = none := by
  induction after generalizing new with
  | nil => exact absurd (List.IsChain.singleton new) hole
  | cons q next ih =>
    rw [List.isChain_cons_cons] at hole
    rw [holeLoop]
    split_ifs with joins
    · exact ih q fun later => hole ⟨joins,later⟩
    · rfl

structure Inserted (p : List Fragment) (new : Fragment) (before after : List Fragment) : Prop where
  split : p = before ++ after
  earlier : ∀ q ∈ before, q.start < new.start
  later : ∀ q ∈ after.head?, new.start < q.start

/-- The fragments are taken for a whole datagram. -/
structure Seems (new : Fragment) (before after : List Fragment) : Prop where
  left : List.IsChain Joins before
  right : List.IsChain Joins (new :: after)
  middle : after = [] → List.IsChain Joins (before ++ [new])
  zero : ((before ++ new :: after).headD new).start = 0

/-- What each result of the validation says. -/
def Validated.Means (ipr : IpReassdata) (new : Fragment) : Validated → Prop
  | stopped => ∃ before after, Inserted ipr.p new before after ∧ ipr.lastfrag ∧ Seems new before after ∧
      ((before = [] ∧ after = []) ∨ (lastFragment new after).finish ≠ ipr.datagramLen)
  | freepbuf => ∃ q ∈ ipr.p, Overlaps new q
  | waits p => ∃ before after, p = before ++ new :: after ∧ Inserted ipr.p new before after ∧
      ¬ (ipr.lastfrag ∧ Seems new before after)
  | complete p => ∃ before after, p = before ++ new :: after ∧ Inserted ipr.p new before after ∧ ipr.lastfrag ∧
      Seems new before after ∧ (lastFragment new after).finish = ipr.datagramLen

theorem validate_means (ipr : IpReassdata) (new : Fragment) :
    (ipReassChainFragIntoDatagramAndValidate ipr new).Means ipr new := by
  unfold ipReassChainFragIntoDatagramAndValidate
  cases placed : insertLoop new none true ipr.p with
  | stopped => exact absurd placed (insertLoop_stopped new ipr.p none true (by simp))
  | freepbuf =>
    have overlap := insertLoop_freepbuf new ipr.p none true (by simp) placed
    rwa [Option.toList_none,List.nil_append] at overlap
  | put before after valid =>
    obtain ⟨split,earlier,later,chain⟩ := insertLoop_put new ipr.p none true placed
    simp only [Option.toList_none,List.nil_append,true_and] at chain
    have inserted : Inserted ipr.p new before after := ⟨split,earlier,later⟩
    by_cases looks : ipr.lastfrag ∧ valid ∧ ((before ++ new :: after).headD new).start = 0
    · by_cases joined : List.IsChain Joins (new :: after)
      · have seems : Seems new before after := ⟨(chain.mp looks.2.1).1,joined,(chain.mp looks.2.1).2,looks.2.2⟩
        simp only [if_pos looks,holeLoop_joined new after joined]
        split_ifs with single ends
        · rw [List.length_append,List.length_cons] at single
          exact ⟨before,after,inserted,looks.1,seems,
            .inl ⟨List.length_eq_zero_iff.mp (by omega),List.length_eq_zero_iff.mp (by omega)⟩⟩
        · exact ⟨before,after,rfl,inserted,looks.1,seems,ends⟩
        · exact ⟨before,after,inserted,looks.1,seems,.inr ends⟩
      · simp only [if_pos looks,holeLoop_hole new after joined]
        exact ⟨before,after,rfl,inserted,fun seems => joined seems.2.right⟩
    · simp only [if_neg looks]
      refine ⟨before,after,rfl,inserted,fun seems => looks ⟨seems.1,?_,seems.2.zero⟩⟩
      exact chain.mpr ⟨seems.2.left,seems.2.middle⟩

/-! ### The pbufs are counted -/

@[simp] theorem pbufClen_append (p q : List Fragment) : pbufClen (p ++ q) = pbufClen p + pbufClen q := by
  induction p with
  | nil => simp [pbufClen]
  | cons f p ih =>
    rw [List.cons_append,pbufClen,pbufClen,ih]
    omega

theorem Fragment.clen_pos (f : Fragment) : 0 < f.clen := Nat.succ_pos _

theorem Inserted.clen {p : List Fragment} {new : Fragment} {before after : List Fragment}
    (inserted : Inserted p new before after) : pbufClen (before ++ new :: after) = pbufClen p + new.clen := by
  rw [inserted.split,pbufClen_append,pbufClen_append,pbufClen]
  omega

def pbufTotal : List IpReassdata → Nat
  | [] => 0
  | ipr :: next => ipr.clen + pbufTotal next

@[simp] theorem pbufTotal_append (front back : List IpReassdata) :
    pbufTotal (front ++ back) = pbufTotal front + pbufTotal back := by
  induction front with
  | nil => simp [pbufTotal]
  | cons ipr front ih =>
    rw [List.cons_append,pbufTotal,pbufTotal,ih]
    omega

/-- What tells the datagrams apart. -/
def IpHdr.key (iphdr : IpHdr) : UInt32 × UInt32 × UInt16 := (iphdr.src,iphdr.dest,iphdr.id)

theorem match_iff (a b : IpHdr) : ipAddressesAndIdMatch a b ↔ a.key = b.key := by
  simp [ipAddressesAndIdMatch,IpHdr.key,and_assoc]

/-- The datagrams of the queue: each has a fragment, and no two take the same ones. -/
structure Kept (s : Reass) : Prop where
  counted : s.ipReassPbufcount = pbufTotal s.reassdatagrams
  within : s.ipReassPbufcount ≤ ipReassMaxPbufs
  filled : ∀ ipr ∈ s.reassdatagrams, ipr.p ≠ []
  distinct : (s.reassdatagrams.map fun ipr => ipr.iphdr.key).Nodup
  young : ∀ ipr ∈ s.reassdatagrams, ipr.timer ≤ ipReassMaxage

theorem IpReassdata.clen_pos (ipr : IpReassdata) (filled : ipr.p ≠ []) : 0 < ipr.clen := by
  unfold IpReassdata.clen
  cases whole : ipr.p with
  | nil => exact absurd whole filled
  | cons f next =>
    have := f.clen_pos
    rw [pbufClen]
    omega

theorem length_le_pbufTotal (list : List IpReassdata) (filled : ∀ ipr ∈ list, ipr.p ≠ []) : list.length ≤ pbufTotal list := by
  induction list with
  | nil => exact Nat.zero_le _
  | cons ipr next ih =>
    have one := ipr.clen_pos (filled ipr (by simp))
    have others := ih fun other member => filled other (by simp [member])
    rw [List.length_cons,pbufTotal]
    omega

/-! ### Datagrams are dropped -/

/-- Some datagrams other than `fraghdr`'s are gone. -/
structure Removed (fraghdr : IpHdr) (s s' : Reass) : Prop where
  sublist : s'.reassdatagrams.Sublist s.reassdatagrams
  own : ∀ ipr ∈ s.reassdatagrams, ipAddressesAndIdMatch ipr.iphdr fraghdr → ipr ∈ s'.reassdatagrams
  messages : ∀ message ∈ s'.timeExceeded, message ∈ s.timeExceeded ∨ ∃ ipr ∈ s.reassdatagrams, message ∈ timeExceeded ipr

theorem Removed.refl (fraghdr : IpHdr) (s : Reass) : Removed fraghdr s s :=
  ⟨List.Sublist.refl _,fun _ member _ => member,fun _ => .inl⟩

theorem Removed.trans {fraghdr : IpHdr} {s s' s'' : Reass} (one : Removed fraghdr s s') (two : Removed fraghdr s' s'') :
    Removed fraghdr s s'' := by
  refine ⟨two.sublist.trans one.sublist,fun ipr member same => two.own ipr (one.own ipr member same) same,?_⟩
  intro message sent
  rcases two.messages message sent with earlier | ⟨ipr,member,sent⟩
  · exact one.messages message earlier
  · exact .inr ⟨ipr,one.sublist.subset member,sent⟩

theorem older_cases (r : Nat × IpReassdata) (oldest : Option (Nat × IpReassdata)) :
    older r oldest = r ∨ oldest = some (older r oldest) := by
  cases oldest with
  | none => exact .inl rfl
  | some oldest =>
    rw [older]
    split_ifs
    · exact .inl rfl
    · exact .inr rfl

theorem oldestLoop_some (fraghdr : IpHdr) (list : List IpReassdata) (i : Nat) (oldest : Option (Nat × IpReassdata))
    {place : Nat} {old : IpReassdata} (found : oldestLoop fraghdr i list oldest = some (place,old)) :
    oldest = some (place,old) ∨
      ∃ front back, list = front ++ old :: back ∧ place = i + front.length ∧ ipAddressesAndIdMatch old.iphdr fraghdr = false := by
  induction list generalizing i oldest with
  | nil => exact .inl found
  | cons r next ih =>
    have deeper : ∀ other, oldestLoop fraghdr (i + 1) next other = some (place,old) → other = some (place,old) ∨
        ∃ front back, r :: next = front ++ old :: back ∧ place = i + front.length ∧
          ipAddressesAndIdMatch old.iphdr fraghdr = false := by
      intro other found
      rcases ih (i + 1) other found with same | ⟨front,back,split,index,differs⟩
      · exact .inl same
      · exact .inr ⟨r :: front,back,by rw [split,List.cons_append],by rw [index,List.length_cons]; omega,differs⟩
    rw [oldestLoop] at found
    split_ifs at found with same
    · exact deeper _ found
    · rcases deeper _ found with now | later
      · rcases older_cases (i,r) oldest with this | that
        · rw [this] at now
          obtain ⟨rfl,rfl⟩ := Prod.mk.inj (Option.some.inj now)
          exact .inr ⟨[],next,rfl,rfl,Bool.eq_false_iff.mpr same⟩
        · exact .inl (that.trans now)
      · exact .inr later

theorem oldestLoop_none (fraghdr : IpHdr) (list : List IpReassdata) (i : Nat) (oldest : Option (Nat × IpReassdata))
    (found : oldestLoop fraghdr i list oldest = none) :
    oldest = none ∧ ∀ ipr ∈ list, ipAddressesAndIdMatch ipr.iphdr fraghdr := by
  induction list generalizing i oldest with
  | nil => exact ⟨found,by simp⟩
  | cons r next ih =>
    rw [oldestLoop] at found
    split_ifs at found with same
    · obtain ⟨nothing,all⟩ := ih (i + 1) oldest found
      exact ⟨nothing,by simpa using ⟨same,all⟩⟩
    · exact absurd (ih _ _ found).1 (by simp)

theorem Kept.less {s : Reass} (kept : Kept s) {list : List IpReassdata} {count : Nat} {messages : List (IpHdr × List Byte)}
    (sublist : list.Sublist s.reassdatagrams) (counted : count = pbufTotal list) (fewer : count ≤ s.ipReassPbufcount) :
    Kept ⟨list,count,messages⟩ where
  counted := counted
  within := Nat.le_trans fewer kept.within
  filled ipr member := kept.filled ipr (sublist.subset member)
  distinct := kept.distinct.sublist (sublist.map _)
  young ipr member := kept.young ipr (sublist.subset member)

theorem sublist_without {α : Type} (front back : List α) (x : α) : (front ++ back).Sublist (front ++ x :: back) :=
  (List.Sublist.refl front).append (List.sublist_cons_self x back)

theorem Kept.free {s : Reass} (kept : Kept s) {front back : List IpReassdata} {old : IpReassdata}
    (split : s.reassdatagrams = front ++ old :: back) :
    ∃ rest, ipReassFreeCompleteDatagram old {s with reassdatagrams := front ++ back} = some rest ∧ Kept rest ∧
      rest.reassdatagrams = front ++ back ∧ rest.ipReassPbufcount + old.clen = s.ipReassPbufcount ∧
      rest.timeExceeded = s.timeExceeded ++ timeExceeded old := by
  have counted := kept.counted
  have within : s.ipReassPbufcount ≤ 10 := kept.within
  rw [split,pbufTotal_append,pbufTotal] at counted
  have fits : old.clen ≤ 65535 ∧ old.clen ≤ s.ipReassPbufcount := ⟨by omega,by omega⟩
  refine ⟨_,if_pos fits,kept.less ?_ ?_ ?_,rfl,Nat.sub_add_cancel fits.2,rfl⟩
  · rw [split]
    exact sublist_without front back old
  · rw [pbufTotal_append]
    change s.ipReassPbufcount - old.clen = pbufTotal front + pbufTotal back
    omega
  · exact Nat.sub_le _ _

/-- Enough is freed, or all that could be. -/
theorem removeLoop_spec (fraghdr : IpHdr) (needed turns : Nat) (s : Reass) (freed : Nat) (kept : Kept s)
    (enough : otherDatagrams fraghdr s ≤ turns) :
    ∃ s' freed', removeLoop fraghdr needed turns s freed = some (s',freed') ∧ Kept s' ∧ Removed fraghdr s s' ∧
      s'.ipReassPbufcount + freed' = s.ipReassPbufcount + freed ∧
      (needed ≤ freed' ∨ ∀ ipr ∈ s'.reassdatagrams, ipAddressesAndIdMatch ipr.iphdr fraghdr) := by
  induction turns generalizing s freed with
  | zero =>
    refine ⟨s,freed,rfl,kept,.refl fraghdr s,rfl,.inr ?_⟩
    simpa [otherDatagrams] using enough
  | succ turns ih =>
    rw [removeLoop]
    cases found : oldestLoop fraghdr 0 s.reassdatagrams none with
    | none => exact ⟨s,freed,rfl,kept,.refl fraghdr s,rfl,.inr (oldestLoop_none fraghdr _ 0 none found).2⟩
    | some pair =>
      obtain ⟨place,old⟩ := pair
      rcases oldestLoop_some fraghdr _ 0 none found with impossible | ⟨front,back,split,index,differs⟩
      · simp at impossible
      obtain ⟨rest,gone,keptRest,left,count,messages⟩ := kept.free split
      have erased : s.reassdatagrams.eraseIdx place = front ++ back := by
        rw [split,index,Nat.zero_add,List.eraseIdx_append_of_length_le (Nat.le_refl _),Nat.sub_self,List.eraseIdx_cons_zero]
      have fewer : otherDatagrams fraghdr rest + 1 = otherDatagrams fraghdr s := by
        simp [otherDatagrams,split,left,differs]
        omega
      have removed : Removed fraghdr s rest := by
        refine ⟨?_,?_,?_⟩
        · rw [left,split]
          exact sublist_without front back old
        · intro ipr member same
          rw [left]
          rw [split] at member
          rcases List.mem_append.mp member with member | member
          · exact List.mem_append_left _ member
          · rcases List.mem_cons.mp member with rfl | member
            · rw [differs] at same
              exact absurd same (by simp)
            · exact List.mem_append_right _ member
        · intro message sent
          rw [messages] at sent
          exact (List.mem_append.mp sent).imp_right fun sent => ⟨old,by rw [split]; simp,sent⟩
      simp only [erased,gone,Option.bind_some]
      split_ifs with again
      · obtain ⟨s',freed',result,kept',removed',count',stops⟩ := ih rest (freed + old.clen) keptRest (by omega)
        exact ⟨s',freed',result,kept',removed.trans removed',by omega,stops⟩
      · refine ⟨rest,freed + old.clen,rfl,keptRest,removed,by omega,?_⟩
        rcases Nat.lt_or_ge (freed + old.clen) needed with short | fine
        · have none : otherDatagrams fraghdr rest = 0 := by
            have : ¬ otherDatagrams fraghdr s > 1 := fun more => again ⟨short,more⟩
            omega
          exact .inr (by simpa [otherDatagrams] using none)
        · exact .inl fine

/-! ### The timer -/

theorem Kept.replace {s : Reass} (kept : Kept s) {front back : List IpReassdata} {old : IpReassdata} (new : IpReassdata)
    (split : s.reassdatagrams = front ++ old :: back) (same : new.iphdr.key = old.iphdr.key) (filled : new.p ≠ [])
    (young : new.timer ≤ ipReassMaxage) {count : Nat} {messages : List (IpHdr × List Byte)}
    (counted : count + old.clen = s.ipReassPbufcount + new.clen) (within : count ≤ ipReassMaxPbufs) :
    Kept ⟨front ++ new :: back,count,messages⟩ where
  counted := by
    have total := kept.counted
    rw [split,pbufTotal_append,pbufTotal] at total
    change count = pbufTotal (front ++ new :: back)
    rw [pbufTotal_append,pbufTotal]
    omega
  within := within
  filled ipr member := by
    rcases List.mem_append.mp member with member | member
    · exact kept.filled ipr (by rw [split]; simp [member])
    · rcases List.mem_cons.mp member with rfl | member
      · exact filled
      · exact kept.filled ipr (by rw [split]; simp [member])
  distinct := by
    have distinct := kept.distinct
    rw [split] at distinct
    simpa [same] using distinct
  young ipr member := by
    rcases List.mem_append.mp member with member | member
    · exact kept.young ipr (by rw [split]; simp [member])
    · rcases List.mem_cons.mp member with rfl | member
      · exact young
      · exact kept.young ipr (by rw [split]; simp [member])

def IpReassdata.aged (r : IpReassdata) : IpReassdata := {r with timer := r.timer - 1}

/-- The datagrams that a tick leaves. -/
def survivors (list : List IpReassdata) : List IpReassdata := (list.filter fun r => 0 < r.timer).map IpReassdata.aged

theorem tmrLoop_spec (list : List IpReassdata) (s : Reass)
    (kept : Kept {s with reassdatagrams := s.reassdatagrams ++ list}) :
    ∃ s', tmrLoop list s = some s' ∧ Kept s' ∧ s'.reassdatagrams = s.reassdatagrams ++ survivors list ∧
      ∀ message ∈ s'.timeExceeded, message ∈ s.timeExceeded ∨ ∃ ipr ∈ list, message ∈ timeExceeded ipr := by
  induction list generalizing s with
  | nil => exact ⟨s,rfl,by simpa using kept,by simp [survivors],fun _ => .inl⟩
  | cons r next ih =>
    rw [tmrLoop]
    split_ifs with positive
    · have aged : Kept ⟨s.reassdatagrams ++ r.aged :: next,s.ipReassPbufcount,s.timeExceeded⟩ :=
        kept.replace r.aged rfl rfl (kept.filled r (by simp))
          (Nat.le_trans (Nat.sub_le _ _) (kept.young r (by simp))) rfl kept.within
      obtain ⟨s',result,kept',list',messages⟩ := ih {s with reassdatagrams := s.reassdatagrams ++ [r.aged]}
        (by simpa using aged)
      refine ⟨s',result,kept',?_,?_⟩
      · rw [list']
        simp [survivors,positive]
      · intro message sent
        exact (messages message sent).imp_right fun ⟨ipr,member,sent⟩ => ⟨ipr,by simp [member],sent⟩
    · obtain ⟨rest,gone,keptRest,left,count,sent⟩ := kept.free rfl
      have same : ipReassFreeCompleteDatagram r s = some {rest with reassdatagrams := s.reassdatagrams} := by
        unfold ipReassFreeCompleteDatagram at gone ⊢
        split_ifs at gone ⊢ with fits
        rw [← Option.some.inj gone]
      rw [same,Option.bind_some]
      obtain ⟨s',result,kept',list',messages⟩ := ih {rest with reassdatagrams := s.reassdatagrams} (by
        rw [← left]
        exact keptRest)
      refine ⟨s',result,kept',?_,?_⟩
      · rw [list']
        simp [survivors,positive]
      · intro message member
        rcases messages message member with earlier | ⟨ipr,place,member⟩
        · rw [sent] at earlier
          exact (List.mem_append.mp earlier).imp_right fun now => ⟨r,by simp,now⟩
        · exact .inr ⟨ipr,by simp [place],member⟩

theorem ipReassTmr_spec (s : Reass) (kept : Kept s) :
    ∃ s', ipReassTmr s = some s' ∧ Kept s' ∧ s'.reassdatagrams = survivors s.reassdatagrams ∧
      ∀ message ∈ s'.timeExceeded, message ∈ s.timeExceeded ∨ ∃ ipr ∈ s.reassdatagrams, message ∈ timeExceeded ipr :=
  tmrLoop_spec s.reassdatagrams {s with reassdatagrams := []} kept

end Swip.Core
