import Mathlib.Data.List.Basic
import Mathlib.Data.List.Induction
import Mathlib.Algebra.Group.Nat.Even

/-! Byte stuffing over an arbitrary alphabet: a delimiter closes every frame, and an
escape followed by a substitute stands for a delimiter or an escape inside it. The
receiver is the abstract one: whether an escape is open, and the packet so far. -/
namespace Swip.Library.Stuffing

structure Alphabet (α : Type*) where
  fin : α
  esc : α
  escFin : α
  escEsc : α
  esc_ne_fin : esc ≠ fin
  escFin_ne_fin : escFin ≠ fin
  escEsc_ne_fin : escEsc ≠ fin
  escFin_ne_esc : escFin ≠ esc
  escEsc_ne_esc : escEsc ≠ esc
  escEsc_ne_escFin : escEsc ≠ escFin

variable {α : Type*} [DecidableEq α] (code : Alphabet α)

def Ordinary (c : α) : Prop := c ≠ code.fin ∧ c ≠ code.esc ∧ c ≠ code.escFin ∧ c ≠ code.escEsc

instance (c : α) : Decidable (Ordinary code c) := inferInstanceAs (Decidable (_ ∧ _))

def stuff (c : α) : List α :=
  if c = code.fin then [code.esc,code.escFin]
  else if c = code.esc then [code.esc,code.escEsc]
  else [c]

def body (packet : List α) : List α := packet.flatMap (stuff code)

def frame (packet : List α) : List α := code.fin :: (body code packet ++ [code.fin])

def unescape (c : α) : α :=
  if c = code.escFin then code.fin else if c = code.escEsc then code.esc else c

def unstuff : List α → List α
  | [] => []
  | [c] => if c = code.esc then [] else [c]
  | c :: d :: rest =>
    if c = code.esc then unescape code d :: unstuff rest else c :: unstuff (d :: rest)

def Paired : List α → Prop
  | [] => True
  | c :: rest =>
    (c = code.esc → ∃ d, rest.head? = some d ∧ (d = code.escFin ∨ d = code.escEsc)) ∧ Paired rest

instance decidablePaired : (stream : List α) → Decidable (Paired code stream)
  | [] => inferInstanceAs (Decidable True)
  | c :: rest =>
    have := decidablePaired rest
    inferInstanceAs (Decidable ((c = code.esc → ∃ d ∈ rest.head?, d = code.escFin ∨ d = code.escEsc) ∧ Paired code rest))

/-- The stretches closed by a delimiter, in order. What follows the last delimiter is
left out: no packet comes of it yet. -/
def stretches : List α → List α → List (List α)
  | _, [] => []
  | before, c :: rest =>
    if c = code.fin then before :: stretches [] rest else stretches (before ++ [c]) rest

theorem stretches_open (before stretch : List α) (inside : code.fin ∉ stretch) :
    stretches code before stretch = [] := by
  induction stretch generalizing before with
  | nil => rfl
  | cons c rest ih =>
    simp only [List.mem_cons,not_or] at inside
    simp only [stretches,if_neg (Ne.symm inside.1),ih _ inside.2]

theorem stretches_closed (before stretch rest : List α) (inside : code.fin ∉ stretch) :
    stretches code before (stretch ++ code.fin :: rest) =
      (before ++ stretch) :: stretches code [] rest := by
  induction stretch generalizing before with
  | nil => simp [stretches]
  | cons c stretch ih =>
    simp only [List.mem_cons,not_or] at inside
    simp only [List.cons_append,stretches,if_neg (Ne.symm inside.1),ih _ inside.2]
    simp

/-- A stream is one open stretch, or a closed stretch and a stream. -/
theorem stream_induction {motive : List α → Prop} (stream : List α)
    (tail : ∀ stretch, code.fin ∉ stretch → motive stretch)
    (closed : ∀ stretch rest, code.fin ∉ stretch → motive rest →
      motive (stretch ++ code.fin :: rest)) : motive stream := by
  suffices all : ∀ before, code.fin ∉ before → motive (before ++ stream) by
    simpa using all [] (by simp)
  induction stream with
  | nil => intro before inside; simpa using tail before inside
  | cons c rest ih =>
    intro before inside
    by_cases delimiter : c = code.fin
    · subst delimiter
      exact closed before rest inside (by simpa using ih [] (by simp))
    · have longer := ih (before ++ [c]) (by simp [inside,Ne.symm delimiter])
      simpa using longer

omit [DecidableEq α] in
theorem paired_append (first second : List α) (paired : Paired code (first ++ second)) :
    Paired code second := by
  induction first with
  | nil => exact paired
  | cons c first ih => exact ih paired.2

omit [DecidableEq α] in
theorem paired_closed (stretch rest : List α) (paired : Paired code (stretch ++ code.fin :: rest)) :
    Paired code stretch := by
  induction stretch with
  | nil => trivial
  | cons c stretch ih =>
    refine ⟨?_,ih paired.2⟩
    intro escape
    obtain ⟨d,next,substitute⟩ := paired.1 escape
    cases stretch with
    | nil =>
      have same : code.fin = d := by simpa using next
      rcases substitute with fin | esc
      · exact absurd (fin.symm.trans same.symm) code.escFin_ne_fin
      · exact absurd (esc.symm.trans same.symm) code.escEsc_ne_fin
    | cons e stretch => exact ⟨d,by simpa using next,substitute⟩

theorem stuff_inside (c : α) : code.fin ∉ stuff code c := by
  unfold stuff
  split_ifs with fin esc
  · simp [code.esc_ne_fin.symm,code.escFin_ne_fin.symm]
  · simp [code.esc_ne_fin.symm,code.escEsc_ne_fin.symm]
  · simpa using Ne.symm fin

theorem body_inside (packet : List α) : code.fin ∉ body code packet := by
  simp only [body,List.mem_flatMap,not_exists,not_and]
  exact fun c _ => stuff_inside code c

theorem body_cons (c : α) (packet : List α) :
    body code (c :: packet) = stuff code c ++ body code packet := rfl

theorem body_paired (packet : List α) : Paired code (body code packet) := by
  induction packet with
  | nil => trivial
  | cons c packet ih =>
    rw [body_cons]
    unfold stuff
    split_ifs with fin esc
    · exact ⟨fun _ => ⟨_,rfl,.inl rfl⟩,fun escape => absurd escape code.escFin_ne_esc,ih⟩
    · exact ⟨fun _ => ⟨_,rfl,.inr rfl⟩,fun escape => absurd escape code.escEsc_ne_esc,ih⟩
    · exact ⟨fun escape => absurd escape esc,ih⟩

@[simp] theorem unstuff_nil : unstuff code [] = [] := rfl

theorem unstuff_plain (c : α) (rest : List α) (plain : c ≠ code.esc) :
    unstuff code (c :: rest) = c :: unstuff code rest := by
  cases rest with
  | nil => simp [unstuff,plain]
  | cons d rest => simp [unstuff,plain]

theorem unstuff_pair (d : α) (rest : List α) :
    unstuff code (code.esc :: d :: rest) = unescape code d :: unstuff code rest := by
  simp [unstuff]

theorem unescape_escFin : unescape code code.escFin = code.fin := by simp [unescape]

theorem unescape_escEsc : unescape code code.escEsc = code.esc := by
  simp [unescape,code.escEsc_ne_escFin]

theorem unstuff_body (packet : List α) : unstuff code (body code packet) = packet := by
  induction packet with
  | nil => rfl
  | cons c packet ih =>
    rw [body_cons]
    unfold stuff
    split_ifs with fin esc
    · simp [unstuff_pair,unescape_escFin,fin,ih]
    · simp [unstuff_pair,unescape_escEsc,esc,ih]
    · simp [unstuff_plain code c _ esc,ih]

theorem paired_induction {motive : List α → Prop} (stretch : List α) (paired : Paired code stretch)
    (nil : motive [])
    (plain : ∀ c rest, c ≠ code.esc → motive rest → motive (c :: rest))
    (pair : ∀ d rest, d = code.escFin ∨ d = code.escEsc → motive rest →
      motive (code.esc :: d :: rest)) : motive stretch := by
  induction length : stretch.length using Nat.strong_induction_on generalizing stretch with
  | _ n ih =>
    match stretch, paired with
    | [], _ => exact nil
    | c :: rest, paired =>
      by_cases escape : c = code.esc
      · obtain ⟨d,next,substitute⟩ := paired.1 escape
        obtain ⟨rest,rfl⟩ : ∃ others, rest = d :: others := by
          cases rest with
          | nil => simp at next
          | cons e others => exact ⟨others,by simpa using next⟩
        subst escape
        exact pair d rest substitute
          (ih rest.length (by simp at length; omega) rest paired.2.2 rfl)
      · exact plain c rest escape (ih rest.length (by simp at length; omega) rest paired.2 rfl)

theorem unstuff_eq_nil (stretch : List α) (paired : Paired code stretch) :
    unstuff code stretch = [] ↔ stretch = [] := by
  refine paired_induction code (motive := fun stretch => unstuff code stretch = [] ↔ stretch = [])
    stretch paired (by simp) ?_ ?_
  · intro c rest plain _
    simp [unstuff_plain code c rest plain]
  · intro d rest _ _
    simp [unstuff_pair]

/-- What symbols stand for if an escape stays open up to the next symbol that is none, and
whether one is open behind them. -/
def carry : Bool → List α → List α × Bool
  | escaped, [] => ([],escaped)
  | escaped, c :: rest =>
    if c = code.esc then carry true rest
    else ((if escaped then unescape code c else c) :: (carry false rest).1,(carry false rest).2)

theorem carry_nonempty (escaped : Bool) (stretch : List α) (c : α) (member : c ∈ stretch) (other : c ≠ code.esc) :
    (carry code escaped stretch).1 ≠ [] := by
  induction stretch generalizing escaped with
  | nil => simp at member
  | cons d rest ih =>
    by_cases esc : d = code.esc
    · rw [carry,if_pos esc]
      rcases List.mem_cons.mp member with same | later
      · exact absurd (same.trans esc) other
      · exact ih true later
    · rw [carry,if_neg esc]
      exact List.cons_ne_nil _ _

/-- The packets of stretches of which one hands an open escape to the next: those of the
stretches with an ordinary symbol. -/
def carriedPackets : Bool → List (List α) → List (List α)
  | _, [] => []
  | escaped, stretch :: later =>
    (if ∃ c ∈ stretch, Ordinary code c then [(carry code escaped stretch).1] else []) ++
      carriedPackets (carry code escaped stretch).2 later

structure Receiver (α : Type*) where
  escaped : Bool
  packet : List α

def Receiver.idle : Receiver α := ⟨false,[]⟩

section Receive
variable (limit : Nat)

/-- Symbols beyond `limit + 1` are dropped. -/
def Receiver.store (receiver : Receiver α) (c : α) : Receiver α :=
  if receiver.packet.length ≤ limit then {receiver with packet := receiver.packet ++ [c]} else receiver

def Receiver.receive (receiver : Receiver α) (c : α) : Receiver α × Option (List α) :=
  if receiver.escaped then
    (Receiver.store limit {receiver with escaped := false} (unescape code c),none)
  else if c = code.fin then
    if receiver.packet = [] then (receiver,none) else ({receiver with packet := []},some receiver.packet)
  else if c = code.esc then ({receiver with escaped := true},none)
  else (receiver.store limit c,none)

def Receiver.receiveAll (receiver : Receiver α) : List α → Receiver α × List (List α)
  | [] => (receiver,[])
  | c :: rest =>
    let (next,packet) := receiver.receive code limit c
    let (last,packets) := Receiver.receiveAll next rest
    (last,packet.toList ++ packets)

theorem receiveAll_append (receiver : Receiver α) (first second : List α) :
    receiver.receiveAll code limit (first ++ second) =
      (((receiver.receiveAll code limit first).1.receiveAll code limit second).1,
        (receiver.receiveAll code limit first).2 ++
          ((receiver.receiveAll code limit first).1.receiveAll code limit second).2) := by
  induction first generalizing receiver with
  | nil => rfl
  | cons c first ih => simp [Receiver.receiveAll,ih]

omit [DecidableEq α] in
private theorem take_append_take (bound : Nat) (first second : List α) :
    (first.take bound ++ second).take bound = (first ++ second).take bound := by
  rcases Nat.le_total first.length bound with short | long
  · rw [List.take_of_length_le short]
  · have full : (first.take bound).length = bound := List.length_take_of_le long
    rw [List.take_append_of_le_length (by omega),List.take_append_of_le_length long,List.take_take]
    simp

omit [DecidableEq α] in
theorem store_take (escaped : Bool) (packet : List α) (c : α) (bounded : packet.length ≤ limit + 1) :
    Receiver.store limit ⟨escaped,packet⟩ c = ⟨escaped,(packet ++ [c]).take (limit + 1)⟩ := by
  unfold Receiver.store
  split_ifs with room
  · rw [List.take_of_length_le (by simpa using room)]
  · have full : packet.length = limit + 1 := by simp only at room; omega
    simp [← full]

theorem receive_stretch (stretch packet : List α) (paired : Paired code stretch)
    (inside : code.fin ∉ stretch) (bounded : packet.length ≤ limit + 1) :
    Receiver.receiveAll code limit ⟨false,packet⟩ stretch =
      (⟨false,(packet ++ unstuff code stretch).take (limit + 1)⟩,[]) := by
  revert packet inside
  refine paired_induction code (motive := fun stretch => ∀ packet, code.fin ∉ stretch →
    packet.length ≤ limit + 1 → Receiver.receiveAll code limit ⟨false,packet⟩ stretch =
      (⟨false,(packet ++ unstuff code stretch).take (limit + 1)⟩,[])) stretch paired ?_ ?_ ?_
  · intro packet _ bounded
    simp [Receiver.receiveAll,List.take_of_length_le bounded]
  · intro c rest plain ih packet inside bounded
    simp only [List.mem_cons,not_or] at inside
    have stored := ih ((packet ++ [c]).take (limit + 1)) inside.2 (List.length_take_le _ _)
    rw [take_append_take] at stored
    simp [Receiver.receiveAll,Receiver.receive,Ne.symm inside.1,plain,
      store_take limit false packet c bounded,stored,unstuff_plain code c rest plain]
  · intro d rest _ ih packet inside bounded
    simp only [List.mem_cons,not_or] at inside
    have stored := ih ((packet ++ [unescape code d]).take (limit + 1)) inside.2.2
      (List.length_take_le _ _)
    rw [take_append_take] at stored
    simp [Receiver.receiveAll,Receiver.receive,code.esc_ne_fin,
      store_take limit false packet _ bounded,stored,unstuff_pair]

theorem receive_fin (packet : List α) :
    Receiver.receive code limit ⟨false,packet⟩ code.fin =
      (.idle,if packet = [] then none else some packet) := by
  by_cases empty : packet = [] <;> simp [Receiver.receive,Receiver.idle,empty]

theorem receive_frame (before packet : List α) (short : packet.length ≤ limit + 1)
    (nonempty : packet ≠ []) :
    Receiver.receiveAll code limit ⟨false,before⟩ (frame code packet) =
      (.idle,(if before = [] then [] else [before]) ++ [packet]) := by
  have stretch := receive_stretch code limit (body code packet) [] (body_paired code packet)
    (body_inside code packet) (by simp)
  rw [unstuff_body,List.nil_append,List.take_of_length_le short] at stretch
  have opened := receiveAll_append code limit ⟨false,[]⟩ (body code packet) [code.fin]
  rw [stretch] at opened
  simp only [Receiver.receiveAll,receive_fin,if_neg nonempty,Option.toList_some] at opened
  simp only [frame,Receiver.receiveAll,receive_fin,Receiver.idle] at opened ⊢
  rw [opened]
  by_cases empty : before = [] <;> simp [empty]

theorem receive_frames (packets : List (List α)) (short : ∀ packet ∈ packets, packet.length ≤ limit + 1)
    (nonempty : ∀ packet ∈ packets, packet ≠ []) :
    Receiver.idle.receiveAll code limit (packets.flatMap (frame code)) = (.idle,packets) := by
  induction packets with
  | nil => rfl
  | cons packet packets ih =>
    have first : Receiver.idle.receiveAll code limit (frame code packet) = (.idle,[packet]) := by
      have alone := receive_frame code limit [] packet (short packet (by simp)) (nonempty packet (by simp))
      rwa [if_pos rfl,List.nil_append] at alone
    have others := ih (fun other member => short other (by simp [member]))
      (fun other member => nonempty other (by simp [member]))
    rw [List.flatMap_cons,receiveAll_append,first,others]
    rfl

/-- The packets a stream with paired escapes stands for: one for every stretch that is closed
and not empty. -/
def packetsOf (stream : List α) : List (List α) :=
  ((stretches code [] stream).filter (· ≠ [])).map (unstuff code)

theorem packetsOf_open (stretch : List α) (inside : code.fin ∉ stretch) : packetsOf code stretch = [] := by
  simp [packetsOf,stretches_open code [] stretch inside]

theorem packetsOf_closed (stretch rest : List α) (inside : code.fin ∉ stretch) :
    packetsOf code (stretch ++ code.fin :: rest) =
      (if stretch = [] then [] else [unstuff code stretch]) ++ packetsOf code rest := by
  rw [packetsOf,stretches_closed code [] stretch rest inside,List.nil_append]
  by_cases empty : stretch = [] <;> simp [packetsOf,empty]

theorem receive_stream (stream : List α) (paired : Paired code stream)
    (short : ∀ stretch ∈ stretches code [] stream, (unstuff code stretch).length ≤ limit + 1) :
    (Receiver.idle.receiveAll code limit stream).2 = packetsOf code stream := by
  induction stream using stream_induction code with
  | tail stretch inside =>
    have collected := receive_stretch code limit stretch [] paired inside (by simp)
    rw [packetsOf_open code stretch inside,Receiver.idle,collected]
  | closed stretch rest inside ih =>
    have before := paired_closed code stretch rest paired
    have collected := receive_stretch code limit stretch [] before inside (by simp)
    rw [stretches_closed code [] stretch rest inside] at short
    have fits : (unstuff code stretch).length ≤ limit + 1 := short _ (by simp)
    rw [List.nil_append,List.take_of_length_le fits] at collected
    have others := ih (paired_append code stretch _ paired).2 (fun other member => short other (by simp [member]))
    have nothing := unstuff_eq_nil code stretch before
    rw [receiveAll_append,packetsOf_closed code stretch rest inside]
    simp only [Receiver.idle] at others ⊢
    simp only [collected,Receiver.receiveAll,receive_fin,Receiver.idle,others,List.nil_append]
    by_cases empty : stretch = [] <;> simp [nothing,empty]

theorem receiveAll_prefix (receiver : Receiver α) (first stream : List α) (inside : first <+: stream) :
    (receiver.receiveAll code limit first).2 <+: (receiver.receiveAll code limit stream).2 := by
  obtain ⟨second,rfl⟩ := inside
  rw [receiveAll_append]
  exact List.prefix_append _ _

theorem receive_begins (receiver : Receiver α) (c : α) (empty : receiver.packet = [])
    (begun : (receiver.receive code limit c).1.packet ≠ []) :
    receiver.escaped = true ∨ (c ≠ code.fin ∧ c ≠ code.esc) := by
  by_contra neither
  simp only [not_or,Bool.not_eq_true,not_and_or,not_not] at neither
  obtain ⟨closed,framing⟩ := neither
  apply begun
  by_cases fin : c = code.fin
  · simp [Receiver.receive,closed,fin,empty]
  · have esc := framing.resolve_left fin
    simp [Receiver.receive,closed,esc,code.esc_ne_fin,empty]

theorem receive_silent (receiver : Receiver α) (c : α) (begun : (receiver.receive code limit c).1.packet ≠ []) :
    (receiver.receive code limit c).2 = none := by
  unfold Receiver.receive at begun ⊢
  split_ifs at begun ⊢ <;> first | rfl | exact absurd rfl begun

/-- Inside an open escape the leading delimiter is taken as data and what came before is
glued to the frame's packet. -/
theorem receive_frame_escaped (before packet : List α) (short : before.length ≤ limit + 1) :
    Receiver.receiveAll code limit ⟨true,before⟩ (frame code packet) =
      (.idle,[(before ++ code.fin :: packet).take (limit + 1)]) := by
  have unchanged : unescape code code.fin = code.fin := by
    simp [unescape,code.escFin_ne_fin.symm,code.escEsc_ne_fin.symm]
  have stretch := receive_stretch code limit (body code packet)
    ((before ++ [code.fin]).take (limit + 1)) (body_paired code packet)
    (body_inside code packet) (List.length_take_le _ _)
  rw [unstuff_body,take_append_take,List.append_assoc,List.singleton_append] at stretch
  have opened := receiveAll_append code limit ⟨false,(before ++ [code.fin]).take (limit + 1)⟩
    (body code packet) [code.fin]
  have nonempty : (before ++ code.fin :: packet).take (limit + 1) ≠ [] := by simp
  rw [stretch] at opened
  simp only [Receiver.receiveAll,receive_fin,if_neg nonempty,Option.toList_some] at opened
  simp only [frame,Receiver.receiveAll,Receiver.receive,if_true,unchanged,
    store_take limit false before _ short,opened]
  simp

def openEscapes (stream : List α) : Nat := (stream.reverse.takeWhile (· = code.esc)).length

theorem openEscapes_snoc (stream : List α) (c : α) :
    openEscapes code (stream ++ [c]) = if c = code.esc then openEscapes code stream + 1 else 0 := by
  by_cases escape : c = code.esc <;> simp [openEscapes,escape]

theorem receive_escaped (receiver : Receiver α) (c : α) :
    (receiver.receive code limit c).1.escaped = (!receiver.escaped && decide (c = code.esc)) := by
  have stored (r : Receiver α) (d : α) : (r.store limit d).escaped = r.escaped := by
    unfold Receiver.store; split_ifs <;> rfl
  unfold Receiver.receive
  cases escaped : receiver.escaped with
  | true => simp [stored]
  | false =>
    by_cases fin : c = code.fin
    · have different : ¬ code.fin = code.esc := code.esc_ne_fin.symm
      by_cases empty : receiver.packet = [] <;> simp [fin,empty,different,escaped]
    · by_cases esc : c = code.esc <;> simp [fin,esc,stored,escaped,code.esc_ne_fin]

/-- After a stream an escape is open exactly when the stream ends in an odd run of
escapes: two in a row are taken as one escaped symbol. -/
theorem receiveAll_escaped (stream : List α) :
    ((Receiver.idle (α := α)).receiveAll code limit stream).1.escaped = true ↔
      ¬ Even (openEscapes code stream) := by
  induction stream using List.reverseRecOn with
  | nil => simp [Receiver.receiveAll,Receiver.idle,openEscapes]
  | append_singleton stream c ih =>
    rw [receiveAll_append,openEscapes_snoc]
    simp only [Receiver.receiveAll,receive_escaped]
    by_cases escape : c = code.esc
    · simp only [escape,decide_true,Bool.and_true,Bool.not_eq_true',if_true,Nat.even_add_one,
        ← Bool.not_eq_true,ih]
    · simp [escape]

omit [DecidableEq α] in
theorem store_bounded (receiver : Receiver α) (c : α) (bounded : receiver.packet.length ≤ limit + 1) :
    (receiver.store limit c).packet.length ≤ limit + 1 := by
  unfold Receiver.store
  split_ifs with room
  · simpa using room
  · exact bounded

theorem receive_bounded (receiver : Receiver α) (c : α) (bounded : receiver.packet.length ≤ limit + 1) :
    (receiver.receive code limit c).1.packet.length ≤ limit + 1 := by
  unfold Receiver.receive
  split_ifs
  · exact store_bounded limit _ _ bounded
  · exact bounded
  · simp
  · exact bounded
  · exact store_bounded limit _ _ bounded

theorem receiveAll_bounded (receiver : Receiver α) (stream : List α)
    (bounded : receiver.packet.length ≤ limit + 1) :
    (receiver.receiveAll code limit stream).1.packet.length ≤ limit + 1 := by
  induction stream generalizing receiver with
  | nil => exact bounded
  | cons c stream ih => exact ih _ (receive_bounded code limit receiver c bounded)

section Tagged
variable {τ : Type*}

/-- The packets of a stream of tagged symbols, each with the tag of the delimiter that
completed it. -/
def Receiver.deliveries (receiver : Receiver α) : List (τ × α) → List (τ × List α)
  | [] => []
  | (tag,c) :: rest =>
    (receiver.receive code limit c).2.toList.map (tag,·) ++
      Receiver.deliveries (receiver.receive code limit c).1 rest

theorem deliveries_append (receiver : Receiver α) (first second : List (τ × α)) :
    receiver.deliveries code limit (first ++ second) =
      receiver.deliveries code limit first ++
        (receiver.receiveAll code limit (first.map Prod.snd)).1.deliveries code limit second := by
  induction first generalizing receiver with
  | nil => rfl
  | cons head first ih => simp [Receiver.deliveries,Receiver.receiveAll,ih]

theorem deliveries_packets (receiver : Receiver α) (stream : List (τ × α)) :
    (receiver.deliveries code limit stream).map Prod.snd =
      (receiver.receiveAll code limit (stream.map Prod.snd)).2 := by
  induction stream generalizing receiver with
  | nil => rfl
  | cons head stream ih => simp [Receiver.deliveries,Receiver.receiveAll,ih,Function.comp_def]

end Tagged

end Receive

end Swip.Library.Stuffing
