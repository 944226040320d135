import Mathlib.Data.List.Basic

/-! Strings that end at a terminator, as `string.h` finds them in memory. A pointer is an
index into the memory; what lies before it or after the terminator does not matter. -/
namespace Swip.Library.CString

variable {α : Type*}

def memcpy (mem : List α) (i : Nat) (source : List α) : List α :=
  mem.take i ++ source ++ mem.drop (i + source.length)

theorem memcpy_behind (front rest source : List α) :
    memcpy (front ++ rest) front.length source = front ++ (source ++ rest.drop source.length) := by
  rw [memcpy,List.take_left,List.drop_append,List.append_assoc]
  simp

variable [DecidableEq α] (nul : α)

def strAt (mem : List α) (i : Nat) : List α := (mem.drop i).takeWhile (· ≠ nul)

/-- The search is for a symbol other than the terminator. -/
def strchr (mem : List α) (i : Nat) (c : α) : Option Nat :=
  ((strAt nul mem i).findIdx? (· = c)).map (i + ·)

/-- Ends the string at the first `c` in it. The result has the pointer behind that place. -/
def cut (mem : List α) (i : Nat) (c : α) : List α × Option Nat :=
  match strchr nul mem i c with
  | none => (mem,none)
  | some j => (mem.set j nul,some (j + 1))

/-- The first place of the token in the data, up to a terminator. -/
def strnstr (token : List α) : List α → Option Nat
  | [] => none
  | c :: rest =>
    if c = nul ∨ (c :: rest).length < token.length then none
    else if (c :: rest).take token.length = token then some 0
    else (strnstr token rest).map (· + 1)

variable {nul}

theorem ne_of_absent (s : List α) (clean : nul ∉ s) : ∀ c ∈ s, decide (c ≠ nul) = true := by
  intro c member
  simp only [decide_eq_true_eq]
  rintro rfl
  exact clean member

theorem strAt_within (before s tail : List α) (clean : nul ∉ s) :
    strAt nul (before ++ (s ++ nul :: tail)) before.length = s := by
  rw [strAt,List.drop_left,List.takeWhile_append_of_pos (ne_of_absent s clean)]
  simp

theorem strAt_front (front rest : List α) (clean : nul ∉ front) :
    strAt nul (front ++ rest) 0 = front ++ strAt nul rest 0 := by
  simp only [strAt,List.drop_zero]
  exact List.takeWhile_append_of_pos (ne_of_absent front clean)

theorem strchr_found (before first rest : List α) (c : α) (clean : nul ∉ first) (other : c ≠ nul)
    (absent : c ∉ first) :
    strchr nul (before ++ (first ++ c :: rest)) before.length c = some (before.length + first.length) := by
  have reached : (strAt nul (before ++ (first ++ c :: rest)) before.length).findIdx? (· = c) =
      some first.length := by
    rw [strAt,List.drop_left,List.takeWhile_append_of_pos (ne_of_absent first clean),List.takeWhile_cons,
      if_pos (by simpa using other),List.findIdx?_append,List.findIdx?_eq_none_iff.mpr]
    · simp [List.findIdx?_cons]
    · intro d member
      simp only [decide_eq_false_iff_not]
      rintro rfl
      exact absent member
  rw [strchr,reached]
  rfl

theorem strchr_absent (before s tail : List α) (c : α) (clean : nul ∉ s) (absent : c ∉ s) :
    strchr nul (before ++ (s ++ nul :: tail)) before.length c = none := by
  rw [strchr,strAt_within before s tail clean,List.findIdx?_eq_none_iff.mpr,Option.map_none]
  intro d member
  simp only [decide_eq_false_iff_not]
  rintro rfl
  exact absent member

theorem cut_found (before first rest : List α) (c : α) (clean : nul ∉ first) (other : c ≠ nul)
    (absent : c ∉ first) :
    cut nul (before ++ (first ++ c :: rest)) before.length c =
      (before ++ (first ++ nul :: rest),some (before ++ (first ++ [nul])).length) := by
  rw [cut,strchr_found before first rest c clean other absent]
  simp [List.set_append_right,Nat.add_assoc]

theorem cut_absent (before s tail : List α) (c : α) (clean : nul ∉ s) (absent : c ∉ s) :
    cut nul (before ++ (s ++ nul :: tail)) before.length c = (before ++ (s ++ nul :: tail),none) := by
  rw [cut,strchr_absent before s tail c clean absent]

theorem strnstr_some_iff (token data : List α) (begun : token ≠ []) (clean : nul ∉ data) :
    (strnstr nul token data).isSome ↔ token <:+: data := by
  induction data with
  | nil => simp [strnstr,begun]
  | cons c rest ih =>
    simp only [List.mem_cons,not_or] at clean
    rw [strnstr,List.infix_cons_iff,List.prefix_iff_eq_take]
    by_cases short : (c :: rest).length < token.length
    · rw [if_pos (.inr short)]
      have front : token ≠ (c :: rest).take token.length := by
        intro same
        have length := congrArg List.length same
        rw [List.length_take] at length
        omega
      have later : ¬ token <:+: rest := by
        intro inside
        have length := inside.length_le
        rw [List.length_cons] at short
        omega
      simp [front,later]
    · rw [if_neg (by simp only [not_or]; exact ⟨Ne.symm clean.1,short⟩)]
      split_ifs with found
      · simp [found]
      · simp [Ne.symm found,ih clean.2]

theorem strnstr_single (first rest : List α) (c : α) (clean : nul ∉ first) (other : c ≠ nul) (absent : c ∉ first) :
    strnstr nul [c] (first ++ c :: rest) = some first.length := by
  induction first with
  | nil => simp [strnstr,other]
  | cons d first ih =>
    simp only [List.mem_cons,not_or] at clean absent
    rw [List.cons_append,strnstr,if_neg (by simp [Ne.symm clean.1]),if_neg (by simp [Ne.symm absent.1]),
      ih clean.2 absent.2]
    rfl

end Swip.Library.CString
