import Swip.Bridge.Slip

/-! `decode` called once for every chunk of a stream, against one call for the whole of it.
The object keeps `packet` and `escaped` from call to call but forgets `started`, so a packet
whose END is the first byte of its chunk to set the flag is dropped. -/
namespace Swip.Bridge
open Library.Stuffing Slip

def decodeChunks (self : Slip) : List (List Byte) → Except Slip (Slip × List (List Byte))
  | [] => .ok (self,[])
  | chunk :: chunks => do
    let (self,packetlist) ← (self.appendData chunk).decode
    let (self,later) ← decodeChunks self chunks
    return (self,packetlist ++ later)

def Starts (c : Byte) : Prop := c = slipEnd ∨ Ordinary slipCode c

instance (c : Byte) : Decidable (Starts c) := inferInstanceAs (Decidable (_ ∨ _))

/-- The object after one turn of the loop that does not raise. -/
def Slip.turn (self : Slip) (c : Byte) : Slip where
  started := self.started || decide (Starts c)
  escaped := if c = slipEsc then true else if c = slipEnd then self.escaped else false
  stream := self.stream
  packet :=
    if c = slipEnd then []
    else if c = slipEsc then self.packet
    else self.packet ++ [if self.escaped then unescape slipCode c else c]

def Slip.finished (self : Slip) (c : Byte) : List (List Byte) :=
  if c = slipEnd ∧ self.started = true then [self.packet] else []

def Slip.after (self : Slip) (bytes : List Byte) : Slip := bytes.foldl Slip.turn self

def Slip.finishedAll (self : Slip) : List Byte → List (List Byte)
  | [] => []
  | c :: rest => self.finished c ++ (self.turn c).finishedAll rest

theorem decodeChar_turn (self : Slip) (packetlist : List (List Byte)) (c : Byte)
    (fits : escapeAfter self.escaped [c] ≠ none) :
    decodeChar (self,packetlist) c = .ok (self.turn c,packetlist ++ self.finished c) := by
  rcases self with ⟨started,escaped,stream,packet⟩
  by_cases fin : c = slipEnd
  · subst fin
    have plain : slipEnd ≠ slipEsc := by decide
    cases started <;> simp [decodeChar,Slip.turn,Slip.finished,Starts,plain]
  by_cases esc : c = slipEsc
  · subst esc
    have quiet : ¬ Starts slipEsc := by decide
    simp [decodeChar,Slip.turn,Slip.finished,quiet,fin]
  by_cases substitute : c = slipEscEnd ∨ c = slipEscEsc
  · have quiet : ¬ Starts c := by rcases substitute with rfl | rfl <;> decide
    rcases substitute with rfl | rfl <;> cases escaped <;> simp [decodeChar,Slip.turn,Slip.finished,quiet,fin,esc] <;> rfl
  have neither := not_or.mp substitute
  have ordinary : Ordinary slipCode c := ⟨fin,esc,neither.1,neither.2⟩
  have starts : Starts c := .inr ordinary
  cases escaped with
  | true => simp [escapeAfter,fin,esc,neither] at fits
  | false => simp [decodeChar,Slip.turn,Slip.finished,starts,fin,esc,neither]

theorem turn_escaped (self : Slip) (c : Byte) (fits : escapeAfter self.escaped [c] ≠ none) :
    escapeAfter self.escaped [c] = some (self.turn c).escaped := by
  rcases decodeChar_escaped self [] c with ⟨_,_,none⟩ | ⟨next,packets,turned,flag⟩
  · exact absurd none fits
  · rw [decodeChar_turn self [] c fits] at turned
    obtain ⟨rfl,_⟩ : self.turn c = next ∧ _ := by simpa using turned
    exact flag

theorem decode_loop (self : Slip) (packetlist : List (List Byte)) (bytes : List Byte)
    (fits : escapeAfter self.escaped bytes ≠ none) :
    bytes.foldlM decodeChar (self,packetlist) = .ok (self.after bytes,packetlist ++ self.finishedAll bytes) ∧
      escapeAfter self.escaped bytes = some (self.after bytes).escaped := by
  induction bytes generalizing self packetlist with
  | nil => simp [Slip.after,Slip.finishedAll,escapeAfter,pure,Except.pure]
  | cons c rest ih =>
    have split := escapeAfter_append self.escaped [c] rest
    rw [List.singleton_append] at split
    have first : escapeAfter self.escaped [c] ≠ none := by
      intro raised
      simp [split,raised] at fits
    have flag := turn_escaped self c first
    rw [split,flag] at fits ⊢
    obtain ⟨looped,last⟩ := ih (self.turn c) (packetlist ++ self.finished c) fits
    refine ⟨?_,last⟩
    rw [List.foldlM_cons,decodeChar_turn self packetlist c first]
    change rest.foldlM decodeChar _ = _
    rw [looped,List.append_assoc]
    rfl

theorem escapeAfter_paired (bytes : List Byte) (paired : Paired slipCode bytes) : escapeAfter false bytes = some false := by
  refine paired_induction slipCode (motive := fun bytes => escapeAfter false bytes = some false) bytes paired rfl ?_ ?_
  · intro c rest plain ih
    change c ≠ slipEsc at plain
    simp only [escapeAfter,if_neg plain,ih,Bool.false_eq_true,if_false,ite_self]
  · intro d rest substitute ih
    rcases substitute with rfl | rfl <;> exact ih

/-- Wherever a stream of pairs is cut, the loop does not raise in what comes next. -/
theorem paired_fits (before chunk later : List Byte) (paired : Paired slipCode (before ++ (chunk ++ later))) :
    escapeAfter (Slip.init.after before).escaped chunk ≠ none := by
  have closed := escapeAfter_paired _ paired
  rw [escapeAfter_append] at closed
  have first : escapeAfter Slip.init.escaped before ≠ none := by
    intro raised
    change escapeAfter false before = none at raised
    simp [raised] at closed
  have flag := (decode_loop .init [] before first).2
  change escapeAfter false before = _ at flag
  rw [flag,Option.bind_some,escapeAfter_append] at closed
  intro raised
  simp [raised] at closed

/-- Two objects that differ at most in `started` and in what is left of `stream`. -/
structure Twins (one other : Slip) : Prop where
  escaped : one.escaped = other.escaped
  packet : one.packet = other.packet

theorem Twins.turn {one other : Slip} (twins : Twins one other) (c : Byte) : Twins (one.turn c) (other.turn c) := by
  obtain ⟨escaped,packet⟩ := twins
  constructor <;> simp [Slip.turn,escaped,packet]

theorem Twins.after {one other : Slip} (twins : Twins one other) (bytes : List Byte) :
    Twins (one.after bytes) (other.after bytes) := by
  induction bytes generalizing one other with
  | nil => exact twins
  | cons c rest ih => exact ih (twins.turn c)

theorem Twins.finishedAll {one other : Slip} (twins : Twins one other) (started : one.started = other.started)
    (bytes : List Byte) : one.finishedAll bytes = other.finishedAll bytes := by
  induction bytes generalizing one other with
  | nil => rfl
  | cons c rest ih =>
    have next : (one.turn c).started = (other.turn c).started := by simp [Slip.turn,started]
    simp only [Slip.finishedAll,ih (twins.turn c) next]
    simp [Slip.finished,started,twins.packet]

/-- The END at which a chunk loses a packet: the first byte of the chunk that sets `started`
is an END, an earlier chunk had set it before, and a byte other than END precedes it. -/
def Loses (before chunk : List Byte) : Prop :=
  ∃ lead rest, chunk = lead ++ slipEnd :: rest ∧ (∀ c ∈ lead, ¬ Starts c) ∧ (∃ c ∈ before, Starts c) ∧
    (before ++ lead).getLast? ≠ some slipEnd

def nonempty (packets : List (List Byte)) : List (List Byte) := packets.filter (· ≠ [])

theorem after_started (self : Slip) (bytes : List Byte) :
    (self.after bytes).started = true ↔ self.started = true ∨ ∃ c ∈ bytes, Starts c := by
  induction bytes generalizing self with
  | nil => simp [Slip.after]
  | cons c rest ih =>
    change ((self.turn c).after rest).started = true ↔ _
    rw [ih]
    simp [Slip.turn,or_assoc]

/-- Before an END the packet is empty only at the start of the stream or after another END. -/
theorem after_last (before rest : List Byte) (paired : Paired slipCode (before ++ slipEnd :: rest))
    (begun : before ≠ []) : before.getLast? = some slipEnd ↔ (Slip.init.after before).packet = [] := by
  obtain ⟨earlier,last,rfl⟩ := List.eq_nil_or_concat before |>.resolve_left begun
  have plain : last ≠ slipEsc := by
    rintro rfl
    rw [List.concat_eq_append,List.append_assoc] at paired
    obtain ⟨d,next,substitute⟩ := (paired_append slipCode _ _ paired).1 rfl
    obtain rfl : slipEnd = d := by simpa using next
    revert substitute
    decide
  simp only [Slip.after,List.concat_eq_append,List.foldl_append,List.foldl_cons,List.foldl_nil,
    List.getLast?_append,List.getLast?_singleton]
  by_cases fin : last = slipEnd
  · simp [Slip.turn,fin]
  · simp [Slip.turn,fin,plain]

theorem loses_end (before rest : List Byte) :
    Loses before (slipEnd :: rest) ↔ (∃ c ∈ before, Starts c) ∧ before.getLast? ≠ some slipEnd := by
  constructor
  · intro ⟨lead,others,order,quiet,begun,last⟩
    cases lead with
    | nil => exact ⟨begun,by simpa using last⟩
    | cons c lead =>
      obtain rfl : slipEnd = c := by simpa using (List.cons.inj order).1
      exact absurd (.inl rfl) (quiet slipEnd (by simp))
  · intro ⟨begun,last⟩
    exact ⟨[],rest,rfl,by simp,begun,by simpa using last⟩

theorem loses_skip (before rest : List Byte) (c : Byte) (other : c ≠ slipEnd) :
    Loses before (c :: rest) ↔ ¬ Starts c ∧ Loses (before ++ [c]) rest := by
  constructor
  · intro ⟨lead,others,order,quiet,begun,last⟩
    cases lead with
    | nil => exact absurd (List.cons.inj order).1 other
    | cons d lead =>
      obtain ⟨rfl,tail⟩ := List.cons.inj order
      obtain ⟨start,member,starts⟩ := begun
      refine ⟨quiet c (by simp),lead,others,tail,fun d member => quiet d (by simp [member]),?_,by simpa using last⟩
      exact ⟨start,by simp [member],starts⟩
  · intro ⟨silent,lead,others,order,quiet,⟨start,member,starts⟩,last⟩
    refine ⟨c :: lead,others,by rw [order]; rfl,?_,⟨start,?_,starts⟩,by simpa using last⟩
    · intro d member
      rcases List.mem_cons.mp member with rfl | member
      · exact silent
      · exact quiet d member
    · rcases List.mem_append.mp member with earlier | here
      · exact earlier
      · exact absurd starts (by rw [List.mem_singleton.mp here]; exact silent)

/-- One chunk, decoded by the object that has forgotten `started` and by the one that has not:
up to the first byte that sets the flag neither finishes a packet, after it they agree. -/
theorem chunk_finished (before chunk later : List Byte) (paired : Paired slipCode (before ++ (chunk ++ later)))
    (one : Slip) (twins : Twins one (Slip.init.after before)) (forgotten : one.started = false) :
    (nonempty (one.finishedAll chunk)).Sublist (nonempty ((Slip.init.after before).finishedAll chunk)) ∧
      (nonempty (one.finishedAll chunk) = nonempty ((Slip.init.after before).finishedAll chunk) ↔
        ¬ Loses before chunk) := by
  induction chunk generalizing before one with
  | nil => simp [Slip.finishedAll,Loses]
  | cons c rest ih =>
    have grown : Slip.init.after (before ++ [c]) = (Slip.init.after before).turn c := by simp [Slip.after]
    by_cases starts : Starts c
    · have agree := (twins.turn c).finishedAll (by simp [Slip.turn,starts]) rest
      by_cases fin : c = slipEnd
      · subst fin
        simp only [Slip.finishedAll,agree,loses_end]
        have silent : one.finished slipEnd = [] := by simp [Slip.finished,forgotten]
        rw [silent,List.nil_append]
        have started := after_started .init before
        by_cases begun : ∃ d ∈ before, Starts d
        · have finished : (Slip.init.after before).finished slipEnd = [(Slip.init.after before).packet] := by
            simp [Slip.finished,started.mpr (.inr begun)]
          have longer : before ≠ [] := by
            rintro rfl
            simp at begun
          have last := after_last before _ paired longer
          rw [finished,ne_eq,last]
          by_cases empty : (Slip.init.after before).packet = []
          · simp [nonempty,empty,begun]
          · simp [nonempty,empty,begun]
        · have finished : (Slip.init.after before).finished slipEnd = [] := by
            have stopped : ¬ (Slip.init.after before).started = true := by
              rw [started]
              exact not_or.mpr ⟨by decide,begun⟩
            simp [Slip.finished,stopped]
          simp [finished,begun]
      · have silent (self : Slip) : self.finished c = [] := by simp [Slip.finished,fin]
        simp [Slip.finishedAll,silent,agree,loses_skip before rest c fin,starts]
    · have fin : c ≠ slipEnd := fun fin => starts (.inl fin)
      have silent (self : Slip) : self.finished c = [] := by simp [Slip.finished,fin]
      have same : (one.turn c).started = false := by simp [Slip.turn,forgotten,starts]
      have next := ih (before ++ [c]) (by simpa using paired) (one.turn c) (by rw [grown]; exact twins.turn c) same
      rw [grown] at next
      simpa [Slip.finishedAll,silent,loses_skip before rest c fin,starts] using next

theorem after_stream (self : Slip) (stream bytes : List Byte) :
    ({self with stream := stream} : Slip).after bytes = {self.after bytes with stream := stream} := by
  induction bytes generalizing self with
  | nil => rfl
  | cons c rest ih => exact ih (self.turn c)

theorem finishedAll_append (self : Slip) (first second : List Byte) :
    self.finishedAll (first ++ second) = self.finishedAll first ++ (self.after first).finishedAll second := by
  induction first generalizing self with
  | nil => rfl
  | cons c first ih => simp [Slip.finishedAll,Slip.after,ih]

theorem nonempty_append (first second : List (List Byte)) :
    nonempty (first ++ second) = nonempty first ++ nonempty second := List.filter_append ..

theorem decode_appended (self : Slip) (chunk : List Byte) (idle : self.stream = [])
    (fits : escapeAfter self.escaped chunk ≠ none) :
    (self.appendData chunk).decode =
      .ok ({self.after chunk with stream := [], started := false},self.finishedAll chunk) := by
  have appended : self.appendData chunk = {self with stream := chunk} := by simp [appendData,idle]
  have twins : Twins {self with stream := chunk} self := ⟨rfl,rfl⟩
  have looped := (decode_loop {self with stream := chunk} [] chunk fits).1
  rw [after_stream,twins.finishedAll rfl] at looped
  rw [appended,decode,looped]
  rfl

/-- When each half is part of the other list's half, the joined lists agree only half by half. -/
theorem sublists_joined {α : Type*} (first second whole rest : List α) (one : first.Sublist whole)
    (two : second.Sublist rest) : first ++ second = whole ++ rest ↔ first = whole ∧ second = rest := by
  constructor
  · intro equal
    have lengths := congrArg List.length equal
    have short := one.length_le
    have shorter := two.length_le
    simp only [List.length_append] at lengths
    exact ⟨one.eq_of_length (by omega),two.eq_of_length (by omega)⟩
  · intro ⟨same,alike⟩
    rw [same,alike]

theorem cut_cons (before chunk : List Byte) (chunks : List (List Byte)) :
    (∀ earlier part later, chunk :: chunks = earlier ++ part :: later → ¬ Loses (before ++ earlier.flatten) part) ↔
      ¬ Loses before chunk ∧ ∀ earlier part later, chunks = earlier ++ part :: later →
        ¬ Loses (before ++ chunk ++ earlier.flatten) part := by
  constructor
  · intro whole
    refine ⟨by simpa using whole [] chunk chunks rfl,?_⟩
    intro earlier part later order
    have inner := whole (chunk :: earlier) part later (by rw [order]; rfl)
    simpa using inner
  · intro ⟨first,others⟩ earlier part later order
    cases earlier with
    | nil =>
      obtain ⟨rfl,rfl⟩ := List.cons.inj order
      simpa using first
    | cons head earlier =>
      obtain ⟨rfl,tail⟩ := List.cons.inj order
      simpa using others earlier part later tail

theorem chunks_finished (before : List Byte) (chunks : List (List Byte))
    (paired : Paired slipCode (before ++ chunks.flatten)) (one : Slip) (twins : Twins one (Slip.init.after before))
    (forgotten : one.started = false) (idle : one.stream = []) :
    ∃ last packets, decodeChunks one chunks = .ok (last,packets) ∧
      (nonempty packets).Sublist (nonempty ((Slip.init.after before).finishedAll chunks.flatten)) ∧
      (nonempty packets = nonempty ((Slip.init.after before).finishedAll chunks.flatten) ↔
        ∀ earlier chunk later, chunks = earlier ++ chunk :: later → ¬ Loses (before ++ earlier.flatten) chunk) := by
  induction chunks generalizing before one with
  | nil => exact ⟨one,[],rfl,List.Sublist.refl _,by simp [Slip.finishedAll]⟩
  | cons chunk chunks ih =>
    rw [List.flatten_cons] at paired
    have grown : (Slip.init.after before).after chunk = Slip.init.after (before ++ chunk) := by simp [Slip.after]
    have fits : escapeAfter one.escaped chunk ≠ none := by
      rw [twins.escaped]
      exact paired_fits before chunk chunks.flatten paired
    obtain ⟨part,kept⟩ := chunk_finished before chunk chunks.flatten paired one twins forgotten
    obtain ⟨last,packets,decoded,others,rest⟩ := ih (before ++ chunk) (by simpa using paired)
      {one.after chunk with stream := [], started := false}
      ⟨by rw [← grown]; exact (twins.after chunk).escaped,by rw [← grown]; exact (twins.after chunk).packet⟩ rfl rfl
    refine ⟨last,one.finishedAll chunk ++ packets,?_,?_,?_⟩
    · simp only [decodeChunks,decode_appended one chunk idle fits,decoded,bind,Except.bind,pure,Except.pure]
    · rw [List.flatten_cons,finishedAll_append,grown,nonempty_append,nonempty_append]
      exact part.append others
    · rw [List.flatten_cons,finishedAll_append,grown,nonempty_append,nonempty_append,
        sublists_joined _ _ _ _ part others,kept,rest,cut_cons]

/-- Decoding chunk by chunk returns the packets that decoding the whole stream returns. -/
def Agree (chunks : List (List Byte)) : Prop :=
  ∃ one other parts whole, decodeChunks .init chunks = .ok (one,parts) ∧
    (Slip.init.appendData chunks.flatten).decode = .ok (other,whole) ∧ nonempty parts = nonempty whole

theorem decode_chunks_iff (chunks : List (List Byte)) (paired : Paired slipCode chunks.flatten) :
    Agree chunks ↔ ∀ earlier chunk later, chunks = earlier ++ chunk :: later → ¬ Loses earlier.flatten chunk := by
  obtain ⟨one,parts,decoded,_,exactly⟩ := chunks_finished [] chunks paired .init ⟨rfl,rfl⟩ rfl rfl
  have whole := decode_appended .init chunks.flatten rfl (by
    change escapeAfter false chunks.flatten ≠ none
    rw [escapeAfter_paired _ paired]
    exact Option.some_ne_none _)
  simp only [List.nil_append] at exactly
  rw [← exactly]
  constructor
  · intro ⟨_,_,_,_,first,second,same⟩
    rw [decoded] at first
    rw [whole] at second
    cases first
    cases second
    exact same
  · intro same
    exact ⟨_,_,_,_,decoded,whole,same⟩

/-- A cut inside an escape pair loses nothing: the second chunk has an ordinary byte before its END. -/
theorem decode_chunks_after_ends :
    Paired slipCode [0xC0,0x41,0xDB,0xDC,0x42,0xC0] ∧ Agree [[0xC0,0x41,0xDB],[0xDC,0x42,0xC0]] ∧
      decodeChunks .init [[0xC0,0x41,0xDB],[0xDC,0x42,0xC0]] = .ok (.init,[[0x41,0xC0,0x42]]) := by
  have paired : Paired slipCode [[0xC0,0x41,0xDB],[0xDC,0x42,0xC0]].flatten := by decide
  have first : ¬ Loses [] [0xC0,0x41,0xDB] := by
    rw [show (0xC0 : Byte) = slipEnd from rfl,loses_end]
    simp
  have second : ¬ Loses [0xC0,0x41,0xDB] [0xDC,0x42,0xC0] := by
    rw [loses_skip _ _ 0xDC (by decide),loses_skip _ _ 0x42 (by decide)]
    have starts : Starts 0x42 := by decide
    simp [starts]
  have nowhere : ∀ earlier chunk later, [[0xC0,0x41,0xDB],[0xDC,0x42,0xC0]] = earlier ++ chunk :: later →
      ¬ Loses earlier.flatten chunk := by
    have cuts := (cut_cons [] [0xC0,0x41,0xDB] [[0xDC,0x42,0xC0]]).mpr
      ⟨first,(cut_cons [0xC0,0x41,0xDB] [0xDC,0x42,0xC0] []).mpr ⟨second,by simp⟩⟩
    simpa using cuts
  exact ⟨paired,(decode_chunks_iff _ paired).mpr nowhere,rfl⟩

/-- A cut between the last byte of a packet and its END loses the packet. -/
theorem decode_chunks_drops : ¬ ∀ chunks, Paired slipCode chunks.flatten → Agree chunks := by
  intro agree
  obtain ⟨_,_,_,_,first,second,same⟩ := agree [[0x41],[0xC0]] (by decide)
  cases first
  cases second
  exact absurd same (by decide)

end Swip.Bridge
