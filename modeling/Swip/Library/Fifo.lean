import Mathlib.Data.List.Basic

/-! A bounded queue whose `post` fails when it is full. A log of posts keeps what became of
each symbol. -/
namespace Swip.Library

structure Fifo (capacity : Nat) (α : Type*) where
  waiting : List α
  bounded : waiting.length ≤ capacity

namespace Fifo
variable {capacity : Nat} {α : Type*}

def empty : Fifo capacity α := ⟨[],Nat.zero_le _⟩

theorem post_bounded (fifo : Fifo capacity α) (x : α) (room : fifo.waiting.length < capacity) :
    (fifo.waiting ++ [x]).length ≤ capacity := by
  rw [List.length_append,List.length_singleton]
  exact room

def post (fifo : Fifo capacity α) (x : α) : Fifo capacity α × Bool :=
  if room : fifo.waiting.length < capacity then (⟨fifo.waiting ++ [x],post_bounded fifo x room⟩,true)
  else (fifo,false)

def pend (fifo : Fifo capacity α) : Option (α × Fifo capacity α) :=
  match fifo with
  | ⟨[],_⟩ => none
  | ⟨x :: rest,bounded⟩ => some (x,⟨rest,Nat.le_of_succ_le bounded⟩)

def postAll (fifo : Fifo capacity α) : List α → Fifo capacity α × List (α × Bool)
  | [] => (fifo,[])
  | x :: rest => (((fifo.post x).1.postAll rest).1,(x,(fifo.post x).2) :: ((fifo.post x).1.postAll rest).2)

/-- Each symbol of a series of posts, next to the number waiting when it is posted. -/
def met (fifo : Fifo capacity α) : List α → List (α × Nat)
  | [] => []
  | x :: rest => (x,fifo.waiting.length) :: (fifo.post x).1.met rest

def accepted (log : List (α × Bool)) : List α := (log.filter Prod.snd).map Prod.fst

@[simp] theorem accepted_nil : accepted ([] : List (α × Bool)) = [] := rfl

theorem accepted_cons (x : α) (taken : Bool) (log : List (α × Bool)) :
    accepted ((x,taken) :: log) = (if taken then [x] else []) ++ accepted log := by
  cases taken <;> rfl

@[simp] theorem accepted_append (first second : List (α × Bool)) :
    accepted (first ++ second) = accepted first ++ accepted second := by
  simp [accepted]

theorem accepted_all (log : List (α × Bool)) (all : ∀ entry ∈ log, entry.2 = true) :
    accepted log = log.map Prod.fst := by
  rw [accepted,List.filter_eq_self.mpr all]

theorem post_waiting (fifo : Fifo capacity α) (x : α) :
    (fifo.post x).1.waiting = fifo.waiting ++ (if (fifo.post x).2 then [x] else []) := by
  unfold Fifo.post
  split_ifs <;> simp_all

theorem pend_waiting (fifo : Fifo capacity α) :
    (fifo.pend = none ∧ fifo.waiting = []) ∨
      ∃ x rest, fifo.pend = some (x,rest) ∧ fifo.waiting = x :: rest.waiting := by
  rcases fifo with ⟨_ | ⟨x,rest⟩,bounded⟩
  · exact .inl ⟨rfl,rfl⟩
  · exact .inr ⟨x,_,rfl,rfl⟩

@[simp] theorem postAll_logged (fifo : Fifo capacity α) (xs : List α) : (fifo.postAll xs).2.map Prod.fst = xs := by
  induction xs generalizing fifo with
  | nil => rfl
  | cons x rest ih => simp [Fifo.postAll,ih]

theorem postAll_waiting (fifo : Fifo capacity α) (xs : List α) :
    (fifo.postAll xs).1.waiting = fifo.waiting ++ accepted (fifo.postAll xs).2 := by
  induction xs generalizing fifo with
  | nil => simp [Fifo.postAll]
  | cons x rest ih => simp [Fifo.postAll,ih,post_waiting,accepted_cons]

@[simp] theorem met_symbols (fifo : Fifo capacity α) (xs : List α) : (fifo.met xs).map Prod.fst = xs := by
  induction xs generalizing fifo with
  | nil => rfl
  | cons x rest ih => simp [Fifo.met,ih]

/-- A post fails exactly when the queue is full. -/
theorem postAll_met (fifo : Fifo capacity α) (xs : List α) :
    accepted (fifo.postAll xs).2 = ((fifo.met xs).filter (fun entry => entry.2 ≠ capacity)).map Prod.fst := by
  induction xs generalizing fifo with
  | nil => rfl
  | cons x rest ih =>
    have bounded := fifo.bounded
    by_cases room : fifo.waiting.length < capacity
    · have other : fifo.waiting.length ≠ capacity := by omega
      have taken : (fifo.post x).2 = true := by simp [Fifo.post,room]
      simp [Fifo.postAll,Fifo.met,accepted_cons,taken,other,ih]
    · have full : fifo.waiting.length = capacity := by omega
      have failed : (fifo.post x).2 = false := by simp [Fifo.post,room]
      simp [Fifo.postAll,Fifo.met,accepted_cons,failed,full,ih]

theorem postAll_full (fifo : Fifo capacity α) (xs : List α) (x : α)
    (failed : (x,false) ∈ (fifo.postAll xs).2) : (fifo.postAll xs).1.waiting.length = capacity := by
  induction xs generalizing fifo with
  | nil => simp [Fifo.postAll] at failed
  | cons y rest ih =>
    simp only [Fifo.postAll,List.mem_cons] at failed ⊢
    rcases failed with first | later
    · have full : ¬ fifo.waiting.length < capacity := by
        intro room
        simp [Fifo.post,room] at first
      have unchanged : (fifo.post y).1 = fifo := by simp [Fifo.post,full]
      have grown := congrArg List.length (postAll_waiting (fifo.post y).1 rest)
      have bounded := ((fifo.post y).1.postAll rest).1.bounded
      rw [List.length_append,unchanged] at grown
      rw [unchanged] at bounded ⊢
      omega
    · exact ih (fifo.post y).1 later

end Fifo

end Swip.Library
