import Kirenenko.Lib.Run

namespace Kirenenko
set_option autoImplicit true

/-- How a basic block ends. -/
inductive Terminator where
  | ret | resume | br | switch | indirectbr | invoke | unreachable
deriving Repr, DecidableEq

/-- An activation of a function: what its entry code was given, the value of the variable when it
began, and the value it keeps. -/
structure Activation (V A : Type) where
  arg : A
  start : V
  saved : V
deriving Repr, DecidableEq

/-- Code that a pass puts around the body of every function to save, change and restore one
variable: what an activation keeps, what it stores on entry, and what it stores before a
terminator. -/
structure SaveRestore (V A : Type) where
  save : A → V → V
  enter : A → V → V
  leave : Terminator → V → V → V

/-- The variable, the activations and the exception in flight. `unwound` has the activations it has
left since it was last thrown, and `back` the value before the call that control comes back from. -/
structure CallState (V A : Type) where
  value : V
  stack : List (Activation V A)
  flying : Bool
  unwound : List (Activation V A)
  back : Option V
deriving Repr, DecidableEq

inductive CallEvent (A : Type) where
  | enter (a : A)
  | terminate (t : Terminator)
  | throw
  | unwind
  | land
deriving Repr, DecidableEq

def CallState.start (v : V) : CallState V A :=
  { value := v, stack := [], flying := false, unwound := [], back := none }

section
variable {V A : Type} (m : SaveRestore V A)

/-- The end of a block of the activation on top of the stack. -/
def SaveRestore.terminate (s : CallState V A) (t : Terminator) (f : Activation V A)
    (rest : List (Activation V A)) : CallState V A :=
  let value := m.leave t f.saved s.value
  match t with
  | .ret => { s with value := value, stack := rest, back := some f.start }
  | .resume =>
    { s with value := value, stack := rest, flying := true, unwound := [], back := some f.start }
  | .br | .switch | .indirectbr | .invoke | .unreachable => { s with value := value }

/-- One event. An exception leaves a frame without a landing pad and runs none of its code. -/
def SaveRestore.step (s : CallState V A) : CallEvent A → CallState V A
  | .enter a =>
    { s with
      value := m.enter a s.value
      stack := { arg := a, start := s.value, saved := m.save a s.value } :: s.stack
      back := none }
  | .terminate t =>
    match s.stack with
    | [] => s
    | f :: rest => m.terminate s t f rest
  | .throw => { s with flying := true, unwound := [], back := none }
  | .unwind =>
    match s.stack with
    | [] => s
    | f :: rest => { s with stack := rest, unwound := f :: s.unwound, back := some f.start }
  | .land => { s with flying := false, unwound := [] }

/-- The events that can happen: code runs only while no exception is in flight. -/
def CallEvent.Enabled (s : CallState V A) : CallEvent A → Prop
  | .enter _ | .throw => s.flying = false
  | .terminate t => s.flying = false ∧ s.stack ≠ [] ∧ t ≠ .unreachable
  | .unwind | .land => s.flying = true ∧ s.stack ≠ []

instance (s : CallState V A) [DecidableEq A] [DecidableEq V] :
    (e : CallEvent A) → Decidable (e.Enabled s)
  | .enter _ | .throw => inferInstanceAs (Decidable (s.flying = false))
  | .terminate t =>
    inferInstanceAs (Decidable (s.flying = false ∧ s.stack ≠ [] ∧ t ≠ .unreachable))
  | .unwind | .land => inferInstanceAs (Decidable (s.flying = true ∧ s.stack ≠ []))

/-- What holds of the variable at all times and of the entry of an activation holds of all
activations on the stack. -/
structure Kept (I : V → Prop) (J : Activation V A → Prop) (s : CallState V A) : Prop where
  value : I s.value
  stack : ∀ f ∈ s.stack, J f

theorem SaveRestore.terminate_kept {I : V → Prop} {J : Activation V A → Prop}
    (hleave : ∀ t f v, J f → I v → I (m.leave t f.saved v)) {s : CallState V A}
    (hstack : s.stack = f :: rest) (h : Kept I J s) : Kept I J (m.terminate s t f rest) := by
  have hf : J f := h.stack f (by simp [hstack])
  have hvalue := hleave t f s.value hf h.value
  have hrest : ∀ g ∈ rest, J g := fun g hg => h.stack g (by simp [hstack, hg])
  cases t with
  | ret | resume => exact ⟨hvalue, hrest⟩
  | br | switch | indirectbr | invoke | unreachable => exact ⟨hvalue, h.stack⟩

theorem SaveRestore.step_kept {I : V → Prop} {J : Activation V A → Prop}
    (henter : ∀ a v, I v → I (m.enter a v) ∧ J { arg := a, start := v, saved := m.save a v })
    (hleave : ∀ t f v, J f → I v → I (m.leave t f.saved v)) {s : CallState V A}
    (h : Kept I J s) : Kept I J (m.step s e) := by
  cases e with
  | enter a =>
    obtain ⟨hvalue, hframe⟩ := henter a s.value h.value
    refine ⟨hvalue, fun f hf => ?_⟩
    rcases List.mem_cons.1 hf with rfl | hf
    · exact hframe
    · exact h.stack f hf
  | terminate t =>
    simp only [SaveRestore.step]
    split
    · exact h
    · next f rest hstack => exact m.terminate_kept hleave hstack h
  | throw => exact ⟨h.value, h.stack⟩
  | unwind =>
    simp only [SaveRestore.step]
    split
    · exact h
    · next f rest hstack =>
      exact ⟨h.value, fun g hg => h.stack g (by simp [hstack, hg])⟩
  | land => exact ⟨h.value, h.stack⟩

theorem SaveRestore.run_kept {I : V → Prop} {J : Activation V A → Prop}
    (henter : ∀ a v, I v → I (m.enter a v) ∧ J { arg := a, start := v, saved := m.save a v })
    (hleave : ∀ t f v, J f → I v → I (m.leave t f.saved v)) (hv : I v)
    (events : List (CallEvent A)) : Kept I J (events.foldl m.step (.start v)) := by
  have hstart : Kept I J (.start v : CallState V A) := ⟨hv, by simp [CallState.start]⟩
  exact List.foldlRecOn events m.step hstart fun s h e _ => m.step_kept henter hleave h

end

end Kirenenko
