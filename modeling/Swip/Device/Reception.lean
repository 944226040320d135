import Swip.Device.SlipifFill

/-! The receive side of the interface refines the receiver of the stuffing library. Every
pool element is in one of three places: the free list, the packet being collected, or a
chain that was handed on and is still held. -/
namespace Swip.Device
open Library.Stuffing

variable {n : Nat}

def HeldChain (mem : Memory n (Option Byte)) (p : Fin n) (chain : Cells n (Option Byte)) : Prop :=
  mem.Chain (some p) chain ∧ ∀ c ∈ chain, c.2.ref = 1 ∧ c.2.type = .pool

structure Refines (rx : Reception n) (receiver : Receiver Byte) (cells : Cells n (Option Byte))
    (chains : List (Cells n (Option Byte))) : Prop where
  collecting : Collecting rx.net receiver.packet cells
  escaped : rx.net.priv.state = if receiver.escaped then .escape else .normal
  held : List.Forall₂ (HeldChain rx.net.mem) rx.held chains
  owned : (rx.net.mem.tab ++ (ids cells ++ chains.flatMap ids)).Perm (List.finRange n)

def Stores (net : Netif n) (c : Byte) : Prop :=
  net.priv.state = .escape ∨ (c ≠ slipEnd ∧ c ≠ slipEsc)

instance (net : Netif n) (c : Byte) : Decidable (Stores net c) := inferInstanceAs (Decidable (_ ∨ _))

def Available (net : Netif n) (c : Byte) : Prop :=
  Stores net c → net.priv.p = none → net.mem.tab ≠ []

instance (net : Netif n) (c : Byte) : Decidable (Available net c) := inferInstanceAs (Decidable (_ → _ → _))

theorem held_frame (mem other : Memory n (Option Byte)) (held : List (Fin n))
    (chains : List (Cells n (Option Byte))) (valid : List.Forall₂ (HeldChain mem) held chains)
    (agree : ∀ a ∈ chains.flatMap ids, other.cell a = mem.cell a) :
    List.Forall₂ (HeldChain other) held chains := by
  induction valid with
  | nil => exact .nil
  | @cons p chain held chains head _ ih =>
    refine .cons ⟨head.1.frame ?_,head.2⟩ (ih ?_)
    · intro a member
      exact agree a (by simp [member])
    · intro a member
      exact agree a (by rw [List.flatMap_cons]; exact List.mem_append_right _ member)

theorem Refines.apart {rx : Reception n} {receiver : Receiver Byte} {cells : Cells n (Option Byte)}
    {chains : List (Cells n (Option Byte))} (refines : Refines rx receiver cells chains) :
    (rx.net.mem.tab ++ (ids cells ++ chains.flatMap ids)).Nodup :=
  refines.owned.nodup_iff.mpr (List.nodup_finRange n)

theorem Refines.outside {rx : Reception n} {receiver : Receiver Byte} {cells : Cells n (Option Byte)}
    {chains : List (Cells n (Option Byte))} (refines : Refines rx receiver cells chains) (a : Fin n)
    (member : a ∈ chains.flatMap ids) : a ∉ rx.net.mem.tab ++ ids cells := by
  have apart := refines.apart
  rw [← List.append_assoc] at apart
  intro inside
  exact (List.nodup_append.mp apart).2.2 a inside a member rfl

theorem Refines.initial (n : Nat) : Refines (slipifInit n) .idle [] [] := by
  refine ⟨⟨.filled [] [] .nil trivial rfl,rfl,by simp [Receiver.idle]⟩,rfl,.nil,?_⟩
  simp [slipifInit]

theorem Refines.begun {rx : Reception n} {receiver : Receiver Byte} {cells : Cells n (Option Byte)}
    {chains : List (Cells n (Option Byte))} (refines : Refines rx receiver cells chains) :
    rx.net.priv.q = none ↔ receiver.packet = [] := by
  obtain ⟨filling,_,_⟩ := refines.collecting
  generalize rx.net.priv.p = p at filling
  generalize rx.net.priv.i = i at filling
  generalize receiver.packet = packet at filling
  cases filling with
  | filled _ _ chain shaped content =>
    have length : 96 * cells.length = packet.length := by
      rw [← shaped.uniform.payloads_length,content,List.length_map]
    constructor
    · intro none
      rw [none] at chain
      cases chain
      exact List.eq_nil_of_length_eq_zero (by simpa using length.symm)
    · rintro rfl
      obtain rfl : cells = [] := List.eq_nil_of_length_eq_zero (by simpa using length)
      exact chain.link_none
  | filling full l last before current chain shaped content written begun room =>
    obtain ⟨q,link⟩ := chain.link_some (by simp)
    simp [link,begun]

/-- Sixteen pbufs of 96 bytes hold more than the limit, so a packet never uses up a pool that
nobody else draws on. -/
theorem Refines.supply {rx : Reception 16} {receiver : Receiver Byte} {cells : Cells 16 (Option Byte)}
    {chains : List (Cells 16 (Option Byte))} (refines : Refines rx receiver cells chains) (alone : rx.held = [])
    (full : rx.net.priv.p = none) : rx.net.mem.tab ≠ [] := by
  intro empty
  obtain ⟨⟨filling,_,bounded⟩,_,held,owned⟩ := refines
  rw [alone] at held
  cases held
  have all : cells.length = 16 := by simpa [empty,ids] using owned.length_eq
  rw [full] at filling
  generalize rx.net.priv.i = i at filling
  generalize receiver.packet = packet at filling bounded
  cases filling with
  | filled _ _ chain shaped content =>
    have length : 96 * cells.length = packet.length := by
      rw [← shaped.uniform.payloads_length,content,List.length_map]
    unfold slipMaxSize at bounded
    omega

theorem refines_take (rx : Reception n) (receiver : Receiver Byte) (cells : Cells n (Option Byte))
    (chains : List (Cells n (Option Byte))) (refines : Refines rx receiver cells chains) (c : Byte)
    (available : rx.net.priv.p = none → rx.net.mem.tab ≠ []) :
    ∃ after others, slipifTake {rx.net with priv := {rx.net.priv with state := .normal}} c = some after ∧
      Refines {rx with net := after} (Receiver.store slipMaxSize {receiver with escaped := false} c) others chains ∧
      after.linkDrop = rx.net.linkDrop := by
  have apart := refines.apart
  have outside := refines.outside
  obtain ⟨collecting,_,held,owned⟩ := refines
  rw [← List.append_assoc] at apart
  obtain ⟨after,others,taken,collected,extended⟩ := slipifTake_collecting
    {rx.net with priv := {rx.net.priv with state := .normal}} c receiver.packet cells
    ⟨collecting.filling,collecting.count,collecting.bounded⟩ (List.nodup_append.mp apart).1 available
  rw [store_take slipMaxSize false receiver.packet c collecting.bounded]
  refine ⟨after,others,taken,⟨collected,extended.state,?_,?_⟩,extended.drop⟩
  · apply held_frame rx.net.mem _ _ _ held
    intro a member
    exact extended.same a (outside a member)
  · rw [← List.append_assoc] at owned ⊢
    exact (extended.owned.append_right _).trans owned

theorem refines_end (rx : Reception n) (packet : List Byte) (cells : Cells n (Option Byte))
    (chains : List (Cells n (Option Byte))) (refines : Refines rx ⟨false,packet⟩ cells chains)
    (nonempty : packet ≠ []) :
    ∃ net p chain, slipifRxbyte rx.net slipEnd = some (net,some p) ∧
      payloadFrom net.mem n (some p) = packet.map some ∧
      Library.Pieces.Cut 96 (packet.map some) (contentsFrom net.mem n (some p)) ∧
      Refines ⟨net,rx.held ++ [p]⟩ .idle [] (chains ++ [chain]) ∧
      net.linkDrop = rx.net.linkDrop := by
  have outside := refines.outside
  obtain ⟨collecting,escaped,held,owned⟩ := refines
  obtain ⟨mem,chain,trimmed,linked,cut,same,pooled,tab,frame⟩ :=
    pbufRealloc_collected rx.net packet cells collecting nonempty
  have content : bytes chain = packet.map some := (contents_flatten chain).symm.trans cut.flatten
  have taken : chain ≠ [] := by
    rintro rfl
    exact nonempty (List.map_eq_nil_iff.mp content.symm)
  obtain ⟨p,link⟩ := linked.link_some taken
  rw [link] at linked
  have positive : rx.net.priv.recved > 0 := by
    rw [collecting.count]
    exact List.length_pos_iff.mpr nonempty
  have normal : rx.net.priv.state = .normal := escaped
  let priv : SlipifPriv n := {rx.net.priv with p := none, q := none, i := 0, recved := 0}
  let net : Netif n := {rx.net with mem := mem, priv := priv, linkRecv := rx.net.linkRecv + 1}
  refine ⟨net,p,chain,?_,(payloadFrom_chain linked n linked.length_le).trans content,?_,?_,rfl⟩
  · simp only [slipifRxbyte,normal,if_pos positive,trimmed,if_true,Option.bind_eq_bind,Option.bind_some,
      net,priv]
    rw [link]
  · rw [contentsFrom_chain linked n linked.length_le]
    exact cut
  · refine ⟨⟨.filled [] [] .nil trivial rfl,rfl,by simp [Receiver.idle]⟩,normal,?_,?_⟩
    · apply List.rel_append (held_frame rx.net.mem mem _ _ held ?_) (.cons ⟨linked,pooled⟩ .nil)
      intro a member
      apply frame
      intro inside
      exact outside a member (by simp [inside])
    · change (mem.tab ++ ([] ++ _)).Perm _
      rw [tab]
      refine .trans ?_ owned
      apply List.Perm.append_left
      simp only [List.nil_append,List.flatMap_append,List.flatMap_singleton,same]
      exact List.perm_append_comm

private theorem held_split (mem : Memory n (Option Byte)) (before after : List (Fin n)) (p : Fin n)
    (chains : List (Cells n (Option Byte))) (valid : List.Forall₂ (HeldChain mem) (before ++ p :: after) chains) :
    ∃ first chain second, chains = first ++ chain :: second ∧ List.Forall₂ (HeldChain mem) before first ∧
      HeldChain mem p chain ∧ List.Forall₂ (HeldChain mem) after second := by
  induction before generalizing chains with
  | nil =>
    cases valid with
    | @cons _ chain _ second head tail => exact ⟨[],chain,second,rfl,.nil,head,tail⟩
  | cons q before ih =>
    cases valid with
    | @cons _ other _ rest head tail =>
      obtain ⟨first,chain,second,rfl,left,middle,right⟩ := ih rest tail
      exact ⟨other :: first,chain,second,rfl,.cons head left,middle,right⟩

theorem Filling.frame {mem other : Memory n (Option Byte)} {q p : Option (Fin n)} {i : Nat} {received : List Byte}
    {cells : Cells n (Option Byte)} (filling : Filling mem q p i received cells)
    (agree : ∀ a ∈ ids cells, other.cell a = mem.cell a) : Filling other q p i received cells := by
  cases filling with
  | filled cells received chain shaped content => exact .filled _ _ (chain.frame agree) shaped content
  | filling full l last before current chain shaped content written begun room =>
    exact .filling full l last before current (chain.frame agree) shaped content written begun room

theorem refines_free (rx : Reception n) (receiver : Receiver Byte) (cells : Cells n (Option Byte))
    (before after : List (Fin n)) (p : Fin n) (chains : List (Cells n (Option Byte)))
    (refines : Refines rx receiver cells chains) (held : rx.held = before ++ p :: after) :
    ∃ mem count others, pbufFree rx.net.mem (some p) = some (mem,count) ∧
      Refines ⟨{rx.net with mem := mem},before ++ after⟩ receiver cells others := by
  have apart := refines.apart
  obtain ⟨collecting,escaped,valid,owned⟩ := refines
  rw [held] at valid
  obtain ⟨first,chain,second,rfl,left,⟨linked,pooled⟩,right⟩ := held_split rx.net.mem before after p chains valid
  obtain ⟨mem,count,freed,_,same,_,tab⟩ := pbufFree_all rx.net.mem p chain linked (fun c member => (pooled c member).1)
  have pool : poolIds chain = ids chain := by
    rw [poolIds,List.filter_eq_self.mpr]
    intro c member
    simpa using (pooled c member).2
  have moved : (rx.net.mem.tab ++ (ids cells ++ (first ++ chain :: second).flatMap ids)).Perm
      (ids chain ++ (rx.net.mem.tab ++ (ids cells ++ (first ++ second).flatMap ids))) := by
    rw [List.perm_iff_count]
    intro a
    simp only [List.flatMap_append,List.flatMap_cons,List.count_append]
    omega
  have outside : ∀ a ∈ ids cells ++ (first ++ second).flatMap ids, a ∉ ids chain := by
    intro a member inside
    have split := moved.nodup_iff.mp apart
    exact (List.nodup_append.mp split).2.2 a inside a (List.mem_append_right _ member) rfl
  refine ⟨mem,count,first ++ second,freed,⟨⟨?_,collecting.count,collecting.bounded⟩,escaped,?_,?_⟩⟩
  · apply collecting.filling.frame
    intro a member
    exact same a (outside a (List.mem_append_left _ member))
  · apply held_frame rx.net.mem mem _ _ (List.rel_append left right)
    intro a member
    exact same a (outside a (List.mem_append_right _ member))
  · change (mem.tab ++ _).Perm _
    rw [tab,pool,List.append_assoc]
    exact ((List.reverse_perm _).append_right _).trans (moved.symm.trans owned)

theorem refines_deliver (rx : Reception n) (packet : List Byte) (cells : Cells n (Option Byte))
    (chains : List (Cells n (Option Byte))) (refines : Refines rx ⟨false,packet⟩ cells chains) (accepted : Bool)
    (nonempty : packet ≠ []) :
    ∃ after left, slipifRxbyteInput rx slipEnd accepted = some (after,some (packet.map some)) ∧
      Refines after .idle [] left ∧ after.net.linkDrop = rx.net.linkDrop := by
  obtain ⟨net,p,chain,ended,content,_,passed,drop⟩ := refines_end rx packet cells chains refines nonempty
  cases accepted with
  | true =>
    refine ⟨_,_,?_,passed,drop⟩
    simp [slipifRxbyteInput,ended,content]
  | false =>
    obtain ⟨mem,count,others,freed,returned⟩ := refines_free _ .idle [] rx.held [] p (chains ++ [chain]) passed rfl
    refine ⟨_,others,?_,returned,drop⟩
    simp [slipifRxbyteInput,ended,content,freed]

/-- One byte at `slipif_rxbyte_input`. It never faults, does what the abstract receiver
does, and hands on what that delivers. -/
theorem refines_input (rx : Reception n) (receiver : Receiver Byte) (cells : Cells n (Option Byte))
    (chains : List (Cells n (Option Byte))) (refines : Refines rx receiver cells chains) (c : Byte) (accepted : Bool)
    (available : Available rx.net c) :
    ∃ after others left, slipifRxbyteInput rx c accepted =
        some (after,(receiver.receive slipCode slipMaxSize c).2.map (List.map some)) ∧
      Refines after (receiver.receive slipCode slipMaxSize c).1 others left ∧
      ((receiver.receive slipCode slipMaxSize c).2 = none → after.held = rx.held ∧ left = chains) ∧
      after.net.linkDrop = rx.net.linkDrop := by
  rcases receiver with ⟨escaped,packet⟩
  cases escaped with
  | true =>
    have state : rx.net.priv.state = .escape := refines.escaped
    obtain ⟨after,others,taken,kept,drop⟩ := refines_take rx _ cells chains refines (unescape slipCode c)
      (available (.inl state))
    refine ⟨{rx with net := after},others,chains,?_,kept,fun _ => ⟨rfl,rfl⟩,drop⟩
    have same : (if c = slipEscEnd then slipEnd else if c = slipEscEsc then slipEsc else c) =
        unescape slipCode c := rfl
    simp [slipifRxbyteInput,slipifRxbyte,state,same,taken,Receiver.receive]
  | false =>
    have state : rx.net.priv.state = .normal := refines.escaped
    by_cases fin : c = slipEnd
    · subst fin
      rw [show Receiver.receive slipCode slipMaxSize ⟨false,packet⟩ slipEnd = _ from
        receive_fin slipCode slipMaxSize packet]
      by_cases empty : packet = []
      · subst empty
        have none : ¬ rx.net.priv.recved > 0 := by simp [refines.collecting.count]
        refine ⟨rx,cells,chains,?_,refines,fun _ => ⟨rfl,rfl⟩,rfl⟩
        simp [slipifRxbyteInput,slipifRxbyte,state,none]
      · obtain ⟨after,left,passed,kept,drop⟩ := refines_deliver rx packet cells chains refines accepted empty
        exact ⟨after,[],left,by simp [passed,empty],kept,by simp [empty],drop⟩
    · have open_ : Receiver.receive slipCode slipMaxSize ⟨false,packet⟩ c =
          if c = slipEsc then (⟨true,packet⟩,none) else (Receiver.store slipMaxSize ⟨false,packet⟩ c,none) := by
        simp only [Receiver.receive,Bool.false_eq_true,if_false]
        rw [if_neg (show c ≠ slipCode.fin from fin)]
        rfl
      rw [open_]
      by_cases esc : c = slipEsc
      · subst esc
        let priv : SlipifPriv n := {rx.net.priv with state := .escape}
        refine ⟨{rx with net := {rx.net with priv := priv}},cells,chains,?_,
          ⟨⟨refines.collecting.filling,refines.collecting.count,refines.collecting.bounded⟩,rfl,refines.held,
            refines.owned⟩,fun _ => ⟨rfl,rfl⟩,rfl⟩
        simp [slipifRxbyteInput,slipifRxbyte,state,priv,fin]
      · obtain ⟨after,others,taken,kept,drop⟩ := refines_take rx _ cells chains refines c
          (available (.inr ⟨fin,esc⟩))
        rw [if_neg esc]
        refine ⟨{rx with net := after},others,chains,?_,kept,fun _ => ⟨rfl,rfl⟩,drop⟩
        simp only [← state] at taken
        simp [slipifRxbyteInput,slipifRxbyte,state,taken,fin,esc]

theorem refines_release (rx : Reception n) (receiver : Receiver Byte) (cells : Cells n (Option Byte))
    (chains : List (Cells n (Option Byte))) (refines : Refines rx receiver cells chains) (k : Nat) :
    ∃ after others, releaseHeld rx k = some after ∧ Refines after receiver cells others ∧
      after.net.priv = rx.net.priv ∧ after.net.linkDrop = rx.net.linkDrop ∧ (rx.held = [] → after.held = []) := by
  cases found : rx.held[k]? with
  | none => exact ⟨rx,chains,by simp [releaseHeld,found],refines,rfl,rfl,id⟩
  | some p =>
    obtain ⟨inside,value⟩ := List.getElem?_eq_some_iff.mp found
    have split : rx.held = rx.held.take k ++ p :: rx.held.drop (k + 1) := by
      rw [← value]
      simp
    obtain ⟨mem,count,others,freed,kept⟩ := refines_free rx receiver cells _ _ p chains refines split
    rw [← List.eraseIdx_eq_take_drop_succ] at kept
    refine ⟨_,others,by simp [releaseHeld,found,freed],kept,rfl,rfl,?_⟩
    intro empty
    simp [empty]

end Swip.Device
