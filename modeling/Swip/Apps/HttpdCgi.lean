import Swip.Apps.Httpd
import Mathlib.Data.List.TakeWhile

/-! What the parameters of a query come to. The parser ends the pieces of the query in place
and keeps pointers to them; here the pieces are lists, and the pointers are shown to lead
to them. -/
namespace Swip.Apps
open Library.CString

/-! ### Pairs -/

def pairs (query : List Byte) : List (List Byte) :=
  (query.splitOn (chr '&')).take lwipHttpdMaxCgiParameters

def pairName (pair : List Byte) : List Byte := pair.takeWhile (· ≠ chr '=')

def pairValue (pair : List Byte) : Option (List Byte) :=
  if chr '=' ∈ pair then some (pair.dropWhile (· ≠ chr '=')).tail else none

theorem pairName_whole (pair : List Byte) (absent : chr '=' ∉ pair) : pairName pair = pair :=
  List.takeWhile_eq_self_iff.mpr (ne_of_absent pair absent)

theorem pairName_split (name value : List Byte) (absent : chr '=' ∉ name) :
    pairName (name ++ chr '=' :: value) = name := by
  rw [pairName,List.takeWhile_append_of_pos (ne_of_absent name absent)]
  simp

theorem pairValue_split (name value : List Byte) (absent : chr '=' ∉ name) :
    pairValue (name ++ chr '=' :: value) = some value := by
  rw [pairValue,if_pos (by simp),List.dropWhile_append_of_pos (ne_of_absent name absent)]
  simp

/-- The pointers of a request lead to the names and values of these pairs. -/
structure Decoded (mem : List Byte) (filled : CgiParams) (pieces : List (List Byte)) : Prop where
  count : filled.count = pieces.length
  names : filled.params.map (Option.map (strAt 0 mem)) = pieces.map (some ∘ pairName)
  values : filled.paramVals.map (Option.map (strAt 0 mem)) = pieces.map pairValue

theorem decoded_empty (mem : List Byte) : Decoded mem .empty [] := ⟨rfl,rfl,rfl⟩

/-- Ending the name at its `=` fixes both strings, whatever happens to the memory after the
pair. -/
theorem cut_equals (before pair rest : List Byte) (clean : 0 ∉ pair) :
    ∃ ended value, cut 0 (before ++ (pair ++ 0 :: rest)) before.length (chr '=') =
        (before ++ (ended ++ 0 :: rest),value) ∧ ended.length = pair.length ∧
      ∀ later, strAt 0 (before ++ (ended ++ 0 :: later)) before.length = pairName pair ∧
        value.map (strAt 0 (before ++ (ended ++ 0 :: later))) = pairValue pair := by
  by_cases carried : chr '=' ∈ pair
  · obtain ⟨name,value,rfl,absent⟩ := List.eq_append_cons_of_mem carried
    simp only [List.mem_append,List.mem_cons,not_or] at clean
    refine ⟨name ++ 0 :: value,some (before ++ (name ++ [0])).length,?_,by simp,?_⟩
    · rw [List.append_assoc,List.cons_append,cut_found before name _ _ clean.1 (by decide) absent]
      simp
    · intro later
      rw [pairName_split name value absent,pairValue_split name value absent]
      constructor
      · rw [List.append_assoc,List.cons_append]
        exact strAt_within before name _ clean.1
      · have moved : before ++ (name ++ 0 :: value ++ 0 :: later) = (before ++ (name ++ [0])) ++ (value ++ 0 :: later) := by
          simp
        rw [Option.map_some,moved,strAt_within _ value later clean.2.2]
  · refine ⟨pair,none,cut_absent before pair rest _ clean carried,rfl,?_⟩
    intro later
    rw [pairName_whole pair carried,pairValue,if_neg carried]
    exact ⟨strAt_within before pair later clean,rfl⟩

theorem extractLoop_none (loop : Nat) (mem : List Byte) : extractLoop loop mem none = (mem,.empty) := by
  cases loop <;> rfl

/-- The loop invariant: the memory up to the current pair is final, and the rest of the query
and its terminator are as they came. -/
theorem extractLoop_decoded (loop : Nat) (before query tail : List Byte) (clean : 0 ∉ query)
    (single : chr ' ' ∉ query) :
    ∃ after filled, extractLoop loop (before ++ (query ++ 0 :: tail)) (some before.length) = (before ++ after,filled) ∧
      Decoded (before ++ after) filled ((query.splitOn (chr '&')).take loop) := by
  induction loop generalizing before query with
  | zero => exact ⟨query ++ 0 :: tail,.empty,rfl,decoded_empty _⟩
  | succ loop ih =>
    by_cases delimited : chr '&' ∈ query
    · obtain ⟨pair,rest,rfl,absent⟩ := List.eq_append_cons_of_mem delimited
      simp only [List.mem_append,List.mem_cons,not_or] at clean single
      obtain ⟨ended,value,cutted,length,strings⟩ := cut_equals before pair (rest ++ 0 :: tail) clean.1
      obtain ⟨after,later,looped,count,names,values⟩ := ih (before ++ (ended ++ [0])) rest clean.2.2 single.2.2
      have regroup : ∀ s : List Byte, (before ++ (ended ++ [0])) ++ s = before ++ (ended ++ 0 :: s) := by simp
      rw [regroup] at looped names values
      refine ⟨ended ++ 0 :: after,⟨later.count + 1,some before.length :: later.params,value :: later.paramVals⟩,?_,?_⟩
      · have start : (before ++ (pair ++ [0])).length = (before ++ (ended ++ [0])).length := by simp [length]
        rw [extractLoop,List.append_assoc,List.cons_append,
          cut_found before pair _ _ clean.1 (by decide) absent]
        simp only [reduceCtorEq,if_false,cutted,start,looped,regroup]
      · rw [List.splitOn_append_cons_self_of_not_mem absent,List.take_succ_cons]
        exact ⟨by simp [count],by simp [names,(strings after).1],by simp [values,(strings after).2]⟩
    · obtain ⟨ended,value,cutted,_,strings⟩ := cut_equals before query tail clean
      refine ⟨ended ++ 0 :: tail,⟨1,[some before.length],[value]⟩,?_,?_⟩
      · rw [extractLoop,cut_absent before query tail _ clean delimited]
        simp only [if_true,cut_absent before query tail _ clean single,cutted,extractLoop_none]
        rfl
      · rw [List.splitOn_eq_singleton delimited,List.take_succ_cons,List.take_nil]
        exact ⟨rfl,by simp [(strings tail).1],by simp [(strings tail).2]⟩

/-! ### LEDs -/

def ledName : Pin → List Byte
  | .boardLed0 => cstr "led0"
  | .boardLed1 => cstr "led1"

/-- The value a pair gives the LED of this name. -/
def ledSetting (name pair : List Byte) : Option Nat :=
  if pairName pair = name then
    if pairValue pair = some (cstr "0") then some 0
    else if pairValue pair = some (cstr "1") then some 1
    else none
  else none

/-- The last setting counts. -/
def ledValue (name : List Byte) (pieces : List (List Byte)) (previous : Nat) : Nat :=
  (pieces.filterMap (ledSetting name)).getLast?.getD previous

theorem ledValue_cons (name pair : List Byte) (pieces : List (List Byte)) (previous : Nat) :
    ledValue name (pair :: pieces) previous = ledValue name pieces ((ledSetting name pair).getD previous) := by
  unfold ledValue
  cases setting : ledSetting name pair with
  | none => rw [List.filterMap_cons_none setting,Option.getD_none]
  | some value =>
    rw [List.filterMap_cons_some setting,List.getLast?_cons,Option.getD_some,Option.getD_some]

/-- What `ledEntry` does, in terms of the pair. -/
def ledStep (name : List Byte) (pin : Pin) (outputs : Outputs) (pair : List Byte) : Except Fault Outputs :=
  if pairName pair = name ∧ pairValue pair = none then .error .nullPointer
  else .ok (Function.update outputs pin ((ledSetting name pair).getD (outputs pin)))

theorem ledEntry_step (mem : List Byte) (pcParam pcValue : List (Option Nat)) (name pair : List Byte) (pin : Pin)
    (outputs : Outputs) (i : Nat) (param value : Option Nat) (param_at : pcParam[i]? = some param)
    (value_at : pcValue[i]? = some value) (named : param.map (strAt 0 mem) = some (pairName pair))
    (valued : value.map (strAt 0 mem) = pairValue pair) :
    ledEntry mem pcParam pcValue name pin outputs i = ledStep name pin outputs pair := by
  obtain ⟨p,rfl,atName⟩ := Option.map_eq_some_iff.mp named
  have nameRead : readEntry pcParam i = .ok (some p) := by rw [readEntry,param_at]
  have valueRead : readEntry pcValue i = .ok value := by rw [readEntry,value_at]
  by_cases same : pairName pair = name
  · cases value with
    | none =>
      have missing : pairValue pair = none := valued.symm
      simp [ledEntry,nameRead,valueRead,strcmpEq,atName,same,ledStep,missing,bind,Except.bind]
    | some v =>
      have found : pairValue pair = some (strAt 0 mem v) := valued.symm
      have entered : ledEntry mem pcParam pcValue name pin outputs i =
          .ok (if strAt 0 mem v = cstr "1" then pinSetOutputValue (if strAt 0 mem v = cstr "0"
            then pinSetOutputValue outputs pin 0 else outputs) pin 1
            else if strAt 0 mem v = cstr "0" then pinSetOutputValue outputs pin 0 else outputs) := by
        simp [ledEntry,nameRead,valueRead,strcmpEq,atName,same,bind,Except.bind,pure,Except.pure]
      have differ : cstr "0" ≠ cstr "1" := by decide
      have stepped : ledStep name pin outputs pair = .ok (Function.update outputs pin
          ((ledSetting name pair).getD (outputs pin))) := by
        rw [ledStep,if_neg (by simp [found])]
      rw [entered,stepped,ledSetting,if_pos same,found]
      -- the two comparisons exclude each other
      by_cases zero : strAt 0 mem v = cstr "0"
      · simp [zero,differ,pinSetOutputValue]
      · by_cases one : strAt 0 mem v = cstr "1"
        · simp [one,differ.symm,pinSetOutputValue]
        · simp [zero,one]
  · simp [ledEntry,nameRead,strcmpEq,atName,same,ledStep,ledSetting,bind,Except.bind,pure,Except.pure]

private theorem foldlM_range {α β : Type} (pieces : List α) (byIndex : β → Nat → Except Fault β)
    (byPiece : β → α → Except Fault β) (start : β)
    (agree : ∀ state i piece, pieces[i]? = some piece → byIndex state i = byPiece state piece) :
    (List.range pieces.length).foldlM byIndex start = pieces.foldlM byPiece start := by
  induction pieces generalizing byIndex start with
  | nil => rfl
  | cons piece pieces ih =>
    rw [List.length_cons,List.range_succ_eq_map,List.foldlM_cons,List.foldlM_cons,
      agree start 0 piece (by simp)]
    congr 1
    funext state
    rw [List.foldlM_map]
    apply ih
    intro state i other found
    exact agree state (i + 1) other (by simpa using found)

theorem ledLoop_decoded (mem : List Byte) (filled : CgiParams) (pieces : List (List Byte))
    (decoded : Decoded mem filled pieces) (name : List Byte) (pin : Pin) (outputs : Outputs) :
    (List.range filled.count).foldlM (ledEntry mem filled.params filled.paramVals name pin) outputs =
      pieces.foldlM (ledStep name pin) outputs := by
  obtain ⟨count,names,values⟩ := decoded
  rw [count]
  apply foldlM_range
  intro state i pair found
  have nameAt := congrArg (·[i]?) names
  have valueAt := congrArg (·[i]?) values
  simp only [List.getElem?_map,found,Option.map_some,Function.comp_apply,Option.map_eq_some_iff] at nameAt valueAt
  obtain ⟨param,param_at,named⟩ := nameAt
  obtain ⟨value,value_at,valued⟩ := valueAt
  exact ledEntry_step mem _ _ name pair pin state i param value param_at value_at
    (Option.map_eq_some_iff.mpr named) valued

/-- A pair without `=` has its name and no value. -/
theorem bare_iff (name pair : List Byte) (plain : chr '=' ∉ name) :
    (pairName pair = name ∧ pairValue pair = none) ↔ pair = name := by
  constructor
  · rintro ⟨rfl,missing⟩
    by_cases carried : chr '=' ∈ pair
    · simp [pairValue,carried] at missing
    · exact (pairName_whole pair carried).symm
  · rintro rfl
    exact ⟨pairName_whole pair plain,if_neg plain⟩

theorem ledFold_ok (name : List Byte) (pin : Pin) (plain : chr '=' ∉ name) (pieces : List (List Byte))
    (outputs : Outputs) (absent : name ∉ pieces) :
    pieces.foldlM (ledStep name pin) outputs =
      .ok (Function.update outputs pin (ledValue name pieces (outputs pin))) := by
  induction pieces generalizing outputs with
  | nil => simp [ledValue,pure,Except.pure]
  | cons pair pieces ih =>
    simp only [List.mem_cons,not_or] at absent
    have valued : ¬ (pairName pair = name ∧ pairValue pair = none) := by
      rw [bare_iff name pair plain]
      exact Ne.symm absent.1
    rw [List.foldlM_cons,ledStep,if_neg valued]
    change pieces.foldlM (ledStep name pin) _ = _
    rw [ih _ absent.2,ledValue_cons,Function.update_self,Function.update_idem]

theorem ledFold_null (name : List Byte) (pin : Pin) (plain : chr '=' ∉ name) (pieces : List (List Byte))
    (outputs : Outputs) (bare : name ∈ pieces) :
    pieces.foldlM (ledStep name pin) outputs = .error .nullPointer := by
  induction pieces generalizing outputs with
  | nil => simp at bare
  | cons pair pieces ih =>
    rw [List.foldlM_cons,ledStep]
    by_cases here : pair = name
    · rw [if_pos ((bare_iff name pair plain).mpr here)]
      rfl
    · rw [if_neg (mt (bare_iff name pair plain).mp here)]
      exact ih _ ((List.mem_cons.mp bare).resolve_left (Ne.symm here))

theorem extractDudz_ok (mem : List Byte) (filled : CgiParams) (pieces : List (List Byte))
    (decoded : Decoded mem filled pieces) (outputs : Outputs) (carried : ∀ pin, ledName pin ∉ pieces) :
    extractDudz mem filled.count filled.params filled.paramVals outputs =
      .ok (fun pin => ledValue (ledName pin) pieces (outputs pin),cstr "/dudz.html") := by
  have first := ledFold_ok (ledName .boardLed0) .boardLed0 (by decide) pieces outputs (carried _)
  have second := ledFold_ok (ledName .boardLed1) .boardLed1 (by decide) pieces
    (Function.update outputs .boardLed0 (ledValue (ledName .boardLed0) pieces (outputs .boardLed0))) (carried _)
  simp only [ledName] at first second
  simp only [extractDudz,ledLoop_decoded mem filled pieces decoded,first,second,bind,Except.bind,pure,Except.pure]
  congr 2
  funext pin
  cases pin <;> rfl

theorem extractDudz_null (mem : List Byte) (filled : CgiParams) (pieces : List (List Byte))
    (decoded : Decoded mem filled pieces) (outputs : Outputs) (pin : Pin) (bare : ledName pin ∈ pieces) :
    extractDudz mem filled.count filled.params filled.paramVals outputs = .error .nullPointer := by
  simp only [extractDudz,ledLoop_decoded mem filled pieces decoded]
  by_cases first : ledName .boardLed0 ∈ pieces
  · rw [ledFold_null (cstr "led0") .boardLed0 (by decide) pieces outputs first]
    rfl
  · rw [ledFold_ok (cstr "led0") .boardLed0 (by decide) pieces outputs first]
    have second : ledName .boardLed1 ∈ pieces := by
      cases pin with
      | boardLed0 => contradiction
      | boardLed1 => exact bare
    simp only [bind,Except.bind,ledFold_null (cstr "led1") .boardLed1 (by decide) pieces _ second]

/-! ### From the URI to the handler -/

/-- An empty query has one empty pair, which is not even recorded. -/
theorem extractUriParameters_decoded (before query tail : List Byte) (clean : 0 ∉ query) (single : chr ' ' ∉ query) :
    ∃ mem filled pieces, extractUriParameters (before ++ (query ++ 0 :: tail)) (some before.length) = (mem,filled) ∧
      Decoded mem filled pieces ∧ (pieces = pairs query ∨ pieces = [] ∧ pairs query = [[]]) := by
  cases query with
  | nil =>
    refine ⟨before ++ (0 :: tail),.empty,[],?_,decoded_empty _,.inr ⟨rfl,rfl⟩⟩
    simp [extractUriParameters]
  | cons c query =>
    have begun : c ≠ 0 := by
      rintro rfl
      exact clean (by simp)
    obtain ⟨after,filled,looped,decoded⟩ :=
      extractLoop_decoded lwipHttpdMaxCgiParameters before (c :: query) tail clean single
    refine ⟨before ++ after,filled,_,?_,decoded,.inl rfl⟩
    rw [extractUriParameters,if_neg (by simpa using begun),looped]

theorem fsOpen_example (rest : List Byte) : fsOpen (cstr "/example.cgi?" ++ rest) = none := by
  have others : ∀ file ∈ fsRoot, file.take 13 ≠ cstr "/example.cgi?" := by decide
  rw [fsOpen,List.find?_eq_none]
  intro file member same
  apply others file member
  rw [of_decide_eq_true same]
  exact List.take_left' (by decide)

theorem defaultLoop_none (front : List Byte) (clean : 0 ∉ front) (begun : front ≠ [])
    (unknown : ∀ rest, fsOpen (front ++ rest) = none) (names : List (List Byte)) (rest : List Byte) :
    (defaultLoop front.length names (front ++ rest)).2 = none := by
  induction names generalizing rest with
  | nil => rfl
  | cons name names ih =>
    have positive : front.length > 0 := List.length_pos_iff.mpr begun
    simp only [defaultLoop,if_pos positive,memcpy_behind,strAt_front _ _ clean,unknown]
    exact ih _

/-- A query that ends in `/` sends the server through its default names first, in vain. -/
theorem defaultFile_example (buf query : List Byte) (clean : 0 ∉ query) :
    (defaultFile buf (cstr "/example.cgi?" ++ query)).2 = none := by
  unfold defaultFile
  split
  next ended =>
    have continued : query ≠ [] := by
      rintro rfl
      exact absurd ended (by decide)
    have positive : 0 < query.length := List.length_pos_iff.mpr continued
    have base : (cstr "/example.cgi?").length = 13 := by decide
    obtain ⟨more,size⟩ : ∃ more, min (sizeofHttpUriBuf - 1) ((cstr "/example.cgi?" ++ query).length - 1) = 13 + more := by
      refine ⟨min 50 (query.length - 1),?_⟩
      rw [List.length_append,base,sizeofHttpUriBuf]
      omega
    have shorter : more ≤ query.length := by
      rw [List.length_append,base,sizeofHttpUriBuf] at size
      omega
    let front := cstr "/example.cgi?" ++ query.take more
    have copied : (cstr "/example.cgi?" ++ query).take (13 + more) = front := by
      rw [← base,List.take_length_add_append]
    have length : front.length = 13 + more := by simp [front,base,shorter]
    have plain : 0 ∉ front := by
      simp only [front,List.mem_append,not_or]
      exact ⟨by decide,fun member => clean (List.mem_of_mem_take member)⟩
    simp only [size,copied,if_pos (show 13 + more > 0 by omega)]
    rw [← length,memcpy,List.take_zero,List.nil_append,List.append_assoc]
    apply defaultLoop_none front plain
    · rw [← List.length_pos_iff]
      omega
    · intro rest
      rw [List.append_assoc]
      exact fsOpen_example _
  next => rfl

def exampleUri (query : List Byte) : List Byte := cstr "/example.cgi" ++ chr '?' :: query

theorem httpFindFile_example (globals : Globals) (before query tail : List Byte) (clean : 0 ∉ query)
    (single : chr ' ' ∉ query) :
    ∃ buf mem filled pieces, Decoded mem filled pieces ∧
      (pieces = pairs query ∨ pieces = [] ∧ pairs query = [[]]) ∧
      httpFindFile globals (before ++ (exampleUri query ++ 0 :: tail)) before.length =
        (extractDudz mem filled.count filled.params filled.paramVals globals.outputs).map
          fun (outputs,name) => (⟨buf,outputs⟩,fsOpen name <|> httpGet404File) := by
  let base := cstr "/example.cgi"
  have whole : strAt 0 (before ++ (base ++ chr '?' :: query ++ 0 :: tail)) before.length = cstr "/example.cgi?" ++ query := by
    have joined : cstr "/example.cgi?" = base ++ [chr '?'] := by decide
    rw [strAt_within,joined,List.append_assoc,List.singleton_append]
    simp only [List.mem_append,List.mem_cons,not_or]
    exact ⟨by decide,by decide,clean⟩
  have missed := defaultFile_example globals.httpUriBuf query clean
  have ended : cut 0 (before ++ (base ++ chr '?' :: query ++ 0 :: tail)) before.length (chr '?') =
      ((before ++ (base ++ [0])) ++ (query ++ 0 :: tail),some (before ++ (base ++ [0])).length) := by
    rw [List.append_assoc,List.cons_append,cut_found before base _ _ (by decide) (by decide) (by decide)]
    simp
  have isolated : strAt 0 ((before ++ (base ++ [0])) ++ (query ++ 0 :: tail)) before.length = base := by
    rw [List.append_assoc,List.append_assoc]
    exact strAt_within before base _ (by decide)
  obtain ⟨mem,filled,pieces,extracted,decoded,same⟩ :=
    extractUriParameters_decoded (before ++ (base ++ [0])) query tail clean single
  refine ⟨(defaultFile globals.httpUriBuf (cstr "/example.cgi?" ++ query)).1,mem,filled,pieces,decoded,same,?_⟩
  have handler : myCGI.find? (fun cgi => cgi.pcCGIName = base) = some ⟨base,extractDudz⟩ := by simp [myCGI,base]
  change httpFindFile globals (before ++ (base ++ chr '?' :: query ++ 0 :: tail)) before.length = _
  simp only [httpFindFile,whole,missed,ended,isolated,handler,extracted]
  rfl

/-- Whether one of the pairs is a bare LED name does not depend on the empty pair of an empty
query, and neither do the values. -/
theorem pieces_led (query : List Byte) (pieces : List (List Byte))
    (same : pieces = pairs query ∨ pieces = [] ∧ pairs query = [[]]) (pin : Pin) :
    (ledName pin ∈ pieces ↔ ledName pin ∈ pairs query) ∧
      ∀ previous, ledValue (ledName pin) pieces previous = ledValue (ledName pin) (pairs query) previous := by
  rcases same with rfl | ⟨rfl,alone⟩
  · exact ⟨Iff.rfl,fun _ => rfl⟩
  · rw [alone]
    cases pin with
    | boardLed0 => exact ⟨by decide,fun _ => rfl⟩
    | boardLed1 => exact ⟨by decide,fun _ => rfl⟩

theorem httpFindFile_leds (globals : Globals) (before query tail : List Byte) (clean : 0 ∉ query)
    (single : chr ' ' ∉ query) (valued : ∀ pin, ledName pin ∉ pairs query) :
    ∃ buf, httpFindFile globals (before ++ (exampleUri query ++ 0 :: tail)) before.length =
      .ok (⟨buf,fun pin => ledValue (ledName pin) (pairs query) (globals.outputs pin)⟩,some (cstr "/dudz.html")) := by
  obtain ⟨buf,mem,filled,pieces,decoded,same,found⟩ := httpFindFile_example globals before query tail clean single
  have absent : ∀ pin, ledName pin ∉ pieces := by
    intro pin
    rw [(pieces_led query pieces same pin).1]
    exact valued pin
  have file : (fsOpen (cstr "/dudz.html") <|> httpGet404File) = some (cstr "/dudz.html") := by decide
  refine ⟨buf,?_⟩
  rw [found,extractDudz_ok mem filled pieces decoded globals.outputs absent]
  simp only [Except.map,file,(pieces_led query pieces same _).2]

theorem httpFindFile_null (globals : Globals) (before query tail : List Byte) (clean : 0 ∉ query)
    (single : chr ' ' ∉ query) (pin : Pin) (bare : ledName pin ∈ pairs query) :
    httpFindFile globals (before ++ (exampleUri query ++ 0 :: tail)) before.length = .error .nullPointer := by
  obtain ⟨buf,mem,filled,pieces,decoded,same,found⟩ := httpFindFile_example globals before query tail clean single
  rw [found,extractDudz_null mem filled pieces decoded globals.outputs pin
    ((pieces_led query pieces same pin).1.mpr bare)]
  rfl

theorem led_handler_safe_iff (globals : Globals) (before query tail : List Byte) (clean : 0 ∉ query)
    (single : chr ' ' ∉ query) :
    (∀ fault, httpFindFile globals (before ++ (exampleUri query ++ 0 :: tail)) before.length ≠ .error fault) ↔
      ∀ pin, ledName pin ∉ pairs query := by
  constructor
  · intro safe pin bare
    exact safe _ (httpFindFile_null globals before query tail clean single pin bare)
  · intro valued fault failed
    obtain ⟨buf,found⟩ := httpFindFile_leds globals before query tail clean single valued
    rw [found] at failed
    cases failed

theorem led_handler_safe_switch : 0 ∉ cstr "led0=1&&x&led1=" ∧ chr ' ' ∉ cstr "led0=1&&x&led1=" ∧
    ∀ fault, httpFindFile ⟨List.replicate 64 0,fun _ => 0⟩
      (cstr "GET\x00" ++ (exampleUri (cstr "led0=1&&x&led1=") ++ 0 :: cstr "HTTP/1.0\r\n\r\n")) 4 ≠ .error fault := by
  refine ⟨by decide,by decide,?_⟩
  apply (led_handler_safe_iff _ (cstr "GET\x00") (cstr "led0=1&&x&led1=") _ (by decide) (by decide)).mpr
  intro pin
  cases pin <;> decide

theorem bare_led_null : 0 ∉ cstr "led0" ∧ chr ' ' ∉ cstr "led0" ∧
    httpFindFile ⟨List.replicate 64 0,fun _ => 0⟩
      (cstr "GET\x00" ++ (exampleUri (cstr "led0") ++ 0 :: cstr "HTTP/1.0\r\n\r\n")) 4 = .error .nullPointer :=
  ⟨by decide,by decide,rfl⟩

theorem ledValue_unnamed (name : List Byte) (pieces : List (List Byte)) (previous : Nat)
    (unnamed : ∀ pair ∈ pieces, pairName pair ≠ name) : ledValue name pieces previous = previous := by
  rw [ledValue,List.filterMap_eq_nil_iff.mpr]
  · rfl
  · intro pair member
    exact if_neg (unnamed pair member)

end Swip.Apps
