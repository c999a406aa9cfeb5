import Kirenenko.Lib.CallStack

namespace Kirenenko
set_option autoImplicit true

/-- `isa<ReturnInst>(Inst) || isa<ResumeInst>(Inst)`. -/
def Terminator.isReturnOrResume : Terminator → Bool
  | .ret | .resume => true
  | .br | .switch | .indirectbr | .invoke | .unreachable => false

/-- The code around a function with the constant `CID`: `LCS` is the value of
`__taint_trace_callstack` on entry. -/
def addContextRecording : SaveRestore UInt32 UInt32 where
  save := fun _ lcs => lcs
  enter := fun cid lcs => lcs ^^^ cid
  leave := fun inst lcs callStack => if inst.isReturnOrResume then lcs else callStack

/-- The initial value xor-ed with the constants of some activations. -/
def contextOf (init : UInt32) (stack : List (Activation UInt32 UInt32)) : UInt32 :=
  stack.foldr (fun f ctx => ctx ^^^ f.arg) init

@[simp] theorem contextOf_nil : contextOf init [] = init := rfl

@[simp] theorem contextOf_cons : contextOf init (f :: stack) = contextOf init stack ^^^ f.arg := rfl

/-- While code runs, the variable has the constants of the activations on the stack, and back in a
caller it has the value it had there before the call. -/
def InContext (init : UInt32) (s : CallState UInt32 UInt32) : Prop :=
  s.flying = false → s.value = contextOf init s.stack ∧ ∀ b ∈ s.back, s.value = b

instance : Decidable (InContext init s) :=
  have : Decidable (∀ b ∈ s.back, s.value = b) := Option.decidableForallMem _
  inferInstanceAs (Decidable
    (s.flying = false → s.value = contextOf init s.stack ∧ ∀ b ∈ s.back, s.value = b))

/-- The constants of the frames that an exception has left without running their code cancel out
where it reaches a landing pad. -/
def CleanLanding (s : CallState UInt32 UInt32) (e : CallEvent UInt32) : Prop :=
  e = .land → contextOf 0 s.unwound = 0

instance : Decidable (CleanLanding s e) :=
  inferInstanceAs (Decidable (e = .land → contextOf 0 s.unwound = 0))

/-- Every activation began, and keeps, the context of the activations below it. -/
def Nested (init : UInt32) : List (Activation UInt32 UInt32) → Prop
  | [] => True
  | f :: rest => f.start = contextOf init rest ∧ f.saved = contextOf init rest ∧ Nested init rest

/-- The variable lacks only the constants of the frames the exception in flight has left. -/
structure Tracked (init : UInt32) (s : CallState UInt32 UInt32) : Prop where
  nested : Nested init s.stack
  value : s.value = contextOf init s.stack ^^^ contextOf 0 s.unwound
  unwound : s.flying = false → s.unwound = []
  back : ∀ b ∈ s.back, b = contextOf init s.stack

theorem tracked_start (init : UInt32) : Tracked init (.start init) := by
  constructor <;> simp [CallState.start, Nested]

theorem Tracked.value_eq (h : Tracked init s) (hs : s.unwound = []) :
    s.value = contextOf init s.stack := by
  rw [h.value, hs]
  simp

theorem Tracked.inContext (h : Tracked init s) : InContext init s := by
  intro hfly
  have hvalue := h.value_eq (h.unwound hfly)
  refine ⟨hvalue, fun b hb => ?_⟩
  rw [h.back b hb]
  exact hvalue

theorem Tracked.enter (h : Tracked init s) (hfly : s.flying = false) (cid : UInt32) :
    Tracked init (addContextRecording.step s (.enter cid)) := by
  have hnil := h.unwound hfly
  have hvalue := h.value_eq hnil
  constructor
  · exact ⟨hvalue, hvalue, h.nested⟩
  · simp [SaveRestore.step, addContextRecording, hvalue, hnil]
  · exact h.unwound
  · simp [SaveRestore.step]

theorem Tracked.terminate (h : Tracked init s) (hfly : s.flying = false)
    (hstack : s.stack = f :: rest) : Tracked init (addContextRecording.terminate s t f rest) := by
  have hnil := h.unwound hfly
  have hnested := h.nested
  rw [hstack] at hnested
  obtain ⟨hstart, hsaved, hrest⟩ := hnested
  cases t with
  | ret | resume =>
    constructor
    · exact hrest
    · simp [SaveRestore.terminate, addContextRecording, Terminator.isReturnOrResume, hsaved, hnil]
    · simp [SaveRestore.terminate, hnil]
    · simp [SaveRestore.terminate, hstart]
  | br | switch | indirectbr | invoke | unreachable => exact ⟨h.nested, h.value, h.unwound, h.back⟩

theorem Tracked.throw (h : Tracked init s) (hfly : s.flying = false) :
    Tracked init (addContextRecording.step s .throw) := by
  have hnil := h.unwound hfly
  have hvalue := h.value_eq hnil
  constructor
  · exact h.nested
  · simp [SaveRestore.step, hvalue]
  · simp [SaveRestore.step]
  · simp [SaveRestore.step]

theorem Tracked.unwind (h : Tracked init s) (hfly : s.flying = true)
    (hstack : s.stack = f :: rest) : Tracked init (addContextRecording.step s .unwind) := by
  have hnested := h.nested
  rw [hstack] at hnested
  obtain ⟨hstart, _, hrest⟩ := hnested
  have hvalue : s.value = contextOf init rest ^^^ (contextOf 0 s.unwound ^^^ f.arg) := by
    rw [h.value, hstack, contextOf_cons, UInt32.xor_assoc, UInt32.xor_comm f.arg]
  simp only [SaveRestore.step, hstack]
  constructor
  · exact hrest
  · exact hvalue
  · simp [hfly]
  · simp [hstart]

theorem Tracked.land (h : Tracked init s) (hclean : contextOf 0 s.unwound = 0) :
    Tracked init (addContextRecording.step s .land) := by
  have hvalue := h.value
  rw [hclean] at hvalue
  constructor
  · exact h.nested
  · simpa [SaveRestore.step] using hvalue
  · simp [SaveRestore.step]
  · exact h.back

/-- An event keeps the context tracked, unless it is the landing of an exception that has left
frames behind. -/
theorem Tracked.step (h : Tracked init s) (henabled : e.Enabled s) (hclean : CleanLanding s e) :
    Tracked init (addContextRecording.step s e) := by
  cases e with
  | enter cid => exact h.enter henabled cid
  | terminate t =>
    obtain ⟨hfly, hne, _⟩ := henabled
    obtain ⟨f, rest, hstack⟩ := List.exists_cons_of_ne_nil hne
    simp only [SaveRestore.step, hstack]
    exact h.terminate hfly hstack
  | throw => exact h.throw henabled
  | unwind =>
    obtain ⟨hfly, hne⟩ := henabled
    obtain ⟨f, rest, hstack⟩ := List.exists_cons_of_ne_nil hne
    exact h.unwind hfly hstack
  | land => exact h.land (hclean rfl)

theorem not_inContext_land (h : Tracked init s) (hclean : ¬CleanLanding s e) :
    ¬InContext init (addContextRecording.step s e) := by
  obtain ⟨rfl, hne⟩ := Classical.not_imp.1 hclean
  intro hin
  have hvalue : s.value = contextOf init s.stack ^^^ 0 := by
    rw [UInt32.xor_zero]
    exact (hin rfl).1
  rw [h.value] at hvalue
  exact hne ((UInt32.xor_right_inj _).1 hvalue)

/-- Over every tree of calls, the context is that of the activations on the stack exactly when no
exception reaches a landing pad past frames whose constants do not cancel out. -/
theorem context_of_stack (init : UInt32) (events : List (CallEvent UInt32))
    (hrun : EachStep addContextRecording.step (fun s e => e.Enabled s) (.start init) events) :
    Throughout addContextRecording.step (InContext init) (.start init) events ↔
      EachStep addContextRecording.step CleanLanding (.start init) events :=
  throughout_iff_each addContextRecording.step (fun _ h => h.inContext)
    (fun _ _ h he hc => h.step he hc) (fun _ _ h _ hc => not_inContext_land h hc)
    (tracked_start init) hrun

/-- A call whose cleanup runs and resumes, caught in its caller. -/
def cleanupRun : List (CallEvent UInt32) :=
  [.enter 5, .terminate .invoke, .enter 7, .throw, .land, .terminate .resume, .land,
    .terminate .ret]

theorem context_of_stack_cleanup :
    EachStep addContextRecording.step (fun s e => e.Enabled s) (.start 9) cleanupRun ∧
      Throughout addContextRecording.step (InContext 9) (.start 9) cleanupRun := by
  have hrun : EachStep addContextRecording.step (fun s e => e.Enabled s) (.start 9) cleanupRun := by
    decide
  exact ⟨hrun, (context_of_stack 9 cleanupRun hrun).2 (by decide)⟩

/-- A function without a landing pad throws, and its caller catches. -/
def escapeRun : List (CallEvent UInt32) :=
  [.enter 5, .terminate .invoke, .enter 7, .throw, .unwind, .land]

/-- The constant of the function stays in the context of the caller. -/
theorem caught_past_frame :
    EachStep addContextRecording.step (fun s e => e.Enabled s) (.start 0) escapeRun ∧
      (escapeRun.foldl addContextRecording.step (.start 0)).value = 5 ^^^ 7 ∧
      contextOf 0 (escapeRun.foldl addContextRecording.step (.start 0)).stack = 5 ∧
      ¬Throughout addContextRecording.step (InContext 0) (.start 0) escapeRun :=
  ⟨by decide, by decide, by decide, by decide⟩

end Kirenenko
