import Mathlib.Data.List.Basic

/-! Runs of an event-driven machine. A machine is a total step function; an event
that the environment cannot raise in a state leaves the state unchanged, so every
list of events is a run and statements about all runs range over all lists. -/
namespace Swip.Library.Run

variable {σ ε : Type*} (step : σ → ε → σ)

def run (initial : σ) (events : List ε) : σ := events.foldl step initial

@[simp] theorem run_nil (initial : σ) : run step initial [] = initial := rfl

@[simp] theorem run_cons (initial : σ) (event : ε) (events : List ε) :
    run step initial (event :: events) = run step (step initial event) events := rfl

theorem run_append (initial : σ) (first second : List ε) :
    run step initial (first ++ second) = run step (run step initial first) second :=
  List.foldl_append

theorem run_stuck (state : σ) (stuck : ∀ event, step state event = state) (events : List ε) :
    run step state events = state := by
  induction events with
  | nil => rfl
  | cons event events ih => rw [run_cons,stuck,ih]

/-- The condition holds of every step of the run, in the state the step starts from. -/
def Along (condition : σ → ε → Prop) : σ → List ε → Prop
  | _, [] => True
  | state, event :: events => condition state event ∧ Along condition (step state event) events

instance decidableAlong (condition : σ → ε → Prop) [∀ state event, Decidable (condition state event)] :
    (initial : σ) → (events : List ε) → Decidable (Along step condition initial events)
  | _, [] => .isTrue trivial
  | state, event :: events =>
    have := decidableAlong condition (step state event) events
    inferInstanceAs (Decidable (condition state event ∧ Along step condition (step state event) events))

theorem along_forall (condition : ε → Prop) (initial : σ) (events : List ε) (all : ∀ event ∈ events, condition event) :
    Along step (fun _ event => condition event) initial events := by
  induction events generalizing initial with
  | nil => trivial
  | cons event events ih =>
    exact ⟨all event (by simp),ih (step initial event) (fun other member => all other (by simp [member]))⟩

/-- An invariant kept by every step that meets the condition holds after every run
whose steps all meet it. -/
theorem invariant_along (condition : σ → ε → Prop) (invariant : σ → Prop)
    (kept : ∀ state event, invariant state → condition state event → invariant (step state event))
    (initial : σ) (events : List ε) (start : invariant initial)
    (met : Along step condition initial events) : invariant (run step initial events) := by
  induction events generalizing initial with
  | nil => exact start
  | cons event events ih =>
    exact ih (step initial event) (kept initial event start met.1) met.2

theorem run_invariant (invariant : σ → Prop) (kept : ∀ state event, invariant state → invariant (step state event))
    (initial : σ) (events : List ε) (start : invariant initial) : invariant (run step initial events) := by
  induction events generalizing initial with
  | nil => exact start
  | cons event events ih => exact ih (step initial event) (kept initial event start)

/-- Where a step leaves a good state exactly if it meets the condition, the states of a run are
all good exactly if its steps all meet it. What is `kept` may depend on the states being good. -/
theorem always_iff_along (condition : σ → ε → Prop) (kept good : σ → Prop)
    (turns : ∀ state event, kept state → good state →
      kept (step state event) ∧ (good (step state event) ↔ condition state event))
    (initial : σ) (events : List ε) (start : kept initial) (fine : good initial) :
    (∀ early, early <+: events → good (run step initial early)) ↔ Along step condition initial events := by
  induction events generalizing initial with
  | nil =>
    simp only [List.prefix_nil,forall_eq,run_nil,Along,iff_true]
    exact fine
  | cons event events ih =>
    obtain ⟨stays,exactly⟩ := turns initial event start fine
    constructor
    · intro always
      have next : good (step initial event) := always [event] (by simp)
      refine ⟨exactly.mp next,(ih (step initial event) stays next).mp ?_⟩
      intro early within
      exact always (event :: early) (List.cons_prefix_cons.mpr ⟨rfl,within⟩)
    · intro ⟨met,later⟩ early within
      cases early with
      | nil => exact fine
      | cons head early =>
        obtain ⟨rfl,rest⟩ := List.cons_prefix_cons.mp within
        exact (ih (step initial head) stays (exactly.mpr met)).mpr later early rest

theorem related_run {ρ : Type*} (other : ρ → ε → ρ) (related : σ → ρ → Prop)
    (kept : ∀ state twin event, related state twin → related (step state event) (other twin event))
    (initial : σ) (twin : ρ) (events : List ε) (start : related initial twin) :
    related (run step initial events) (run other twin events) := by
  induction events generalizing initial twin with
  | nil => exact start
  | cons event events ih => exact ih (step initial event) (other twin event) (kept initial twin event start)

/-- A condition on the steps of a machine that may have stopped for good. -/
def WhileRunning (condition : σ → ε → Prop) (state : Option σ) (event : ε) : Prop :=
  ∀ s ∈ state, condition s event

instance (condition : σ → ε → Prop) [∀ state event, Decidable (condition state event)] (state : Option σ) (event : ε) :
    Decidable (WhileRunning condition state event) :=
  inferInstanceAs (Decidable (∀ s ∈ state, condition s event))

inductive Interleaves {α : Type*} : List α → List α → List α → Prop
  | nil : Interleaves [] [] []
  | left (x : α) {first second merged : List α} (before : Interleaves first second merged) :
      Interleaves (first ++ [x]) second (merged ++ [x])
  | right (x : α) {first second merged : List α} (before : Interleaves first second merged) :
      Interleaves first (second ++ [x]) (merged ++ [x])

theorem Interleaves.mem {α : Type*} {first second merged : List α} (order : Interleaves first second merged) {x : α}
    (member : x ∈ merged) : x ∈ first ∨ x ∈ second := by
  induction order with
  | nil => simp at member
  | left y _ ih =>
    rcases List.mem_append.mp member with earlier | last
    · exact (ih earlier).imp_left (List.mem_append_left [y])
    · exact .inl (List.mem_append_right _ last)
  | right y _ ih =>
    rcases List.mem_append.mp member with earlier | last
    · exact (ih earlier).imp_right (List.mem_append_left [y])
    · exact .inr (List.mem_append_right _ last)

theorem Interleaves.length {α : Type*} {first second merged : List α} (order : Interleaves first second merged) :
    merged.length = first.length + second.length := by
  induction order with
  | nil => rfl
  | left x _ ih => simp [ih]; omega
  | right x _ ih => simp [ih]; omega

end Swip.Library.Run
