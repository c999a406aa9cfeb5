import Kirenenko.Pass.SolverReaction

namespace Kirenenko
set_option autoImplicit true

/-- A well-typed program with the file it reads and the runtime it is linked with, ready to run. The
table is as `InitializeTaintFile` leaves it. -/
structure Session where
  z : Z3
  host : Host
  input : TaintedInput
  context : List TraceSite → Option Nat → Nat × Nat
  place : Nat → Nat
  program : List IrFunction
  types : List IrTyping
  main : IrFunction
  args : List Nat
  memory : IrMemory
  history : TableHistory
  lawful : z.Lawful
  keepsConsts : z.KeepsConsts
  file : input.isStdin = false
  placed : ∀ n, place n < 2 ^ 64
  formed : ∀ f ∈ program, f.WellFormed
  typed : ModuleTyped types program
  entry : ∃ (k : Nat) (τ : IrTyping),
    program[k]? = some main ∧ types[k]? = some τ ∧ τ.Fits args
  allocated : Steps (TableStep z) .initial (preallocate input.buf.length) history

def Session.reaction (c : Session) : Reaction SolverState :=
  solverReaction c.z c.host c.input c.context

def Session.irHost (c : Session) : IrHost := ⟨c.place, c.input.buf⟩

def Session.store (c : Session) : LabelStore SolverState where
  shadow _ := 0
  table := c.history.table
  solver := .start c.input c.history.table

/-- The input as the solver sees it. -/
def Session.env (c : Session) : Env := inputEnv c.input.bytes

/-- The state after `n` steps of the program and of its labels. -/
def Session.run (c : Session) (n : Nat) : Except Stop (TaggedState SolverState) :=
  TaggedState.start c.main c.args c.memory c.store >>=
    TaggedState.run c.reaction c.irHost c.program n

/-- All loads of the run are exact. -/
def Session.Exact (c : Session) : Prop := ∀ n s, c.run n = .ok s → s.Exact

def Session.Stands (c : Session) (s : TaggedState SolverState) : Prop :=
  RunStands c.env c.z c.input.buf.length (SolverSound c.input) c.types s

theorem inputByte_inputEnv (h : i < 2 ^ 32) (bytes : Nat → UInt8) :
    inputByte i (inputEnv bytes) = (bytes i).toNat := by
  unfold inputByte
  rw [Nat.mod_eq_of_lt h]
  exact Nat.mod_eq_of_lt (UInt8.toNat_lt _)

theorem Session.soundTable (c : Session) :
    SoundTable c.env c.z c.input.buf.length c.history.table := .preallocated c.allocated

theorem Session.hostInput (c : Session) : HostInput c.env c.input.buf.length c.irHost where
  place := c.placed
  length := rfl
  bytes i hi := by
    have hsmall := c.soundTable.small
    exact inputByte_inputEnv (by omega) _

theorem Session.stands_start (c : Session)
    (h : TaggedState.start c.main c.args c.memory c.store = .ok s) : c.Stands s := by
  obtain ⟨k, τ, hmain, hτ, hfits⟩ := c.entry
  have hstore : StoreStands c.env c.z c.input.buf.length (SolverSound c.input) c.store
      c.memory.mem :=
    ⟨c.soundTable, fun a => .zero (UInt8.toNat_lt _), .start _ _⟩
  exact .start c.typed hmain hτ hfits hstore h

theorem Session.stands (c : Session) (hex : c.Exact) (h : c.run n = .ok s) : c.Stands s := by
  obtain ⟨s₀, hs₀, h⟩ := except_bind_ok.1 h
  refine (c.stands_start hs₀).run c.lawful
    (solverReaction_sound c.lawful c.keepsConsts c.file c.context) c.hostInput c.typed ?_ h
  intro k s hk
  apply hex k s
  rw [Session.run, hs₀]
  exact hk

/-- The expression of a label, when there is one, evaluates to a value on the input. -/
def Session.Evaluates (c : Session) (t : LabelTable) (label v : Nat) : Prop :=
  ∀ mem e deps t', serialize c.z mem (label + 1) label ∅ t = .ok (e, deps) t' →
    e.eval c.env = v

theorem Session.evaluates (c : Session) (ht : SoundTable c.env c.z size t)
    (hs : Kirenenko.Stands c.env c.z t label w v) : c.Evaluates t label v := by
  intro mem e deps t' he
  exact (ht.expression c.keepsConsts hs he).2.eval

/-- In every state of a session, what the labels of the memory and of the branches come to on the
input is what the program has there. -/
theorem session_labels_evaluate (c : Session) (hex : c.Exact) (h : c.run n = .ok s) :
    (∀ a, c.Evaluates s.store.table (s.store.shadow a) (s.values.memory.mem a).toNat) ∧
      ∀ call ∈ s.traceCalls, c.Evaluates s.store.table call.label call.value := by
  have hs := c.stands hex h
  refine ⟨fun a => c.evaluates hs.store.table (hs.store.cells a), ?_⟩
  intro call hcall
  have htells := hs.traceCalls call hcall
  cases call with
  | cond stack label r => exact c.evaluates hs.store.table htells
  | cmp stack k label size c1 c2 =>
    obtain ⟨_, _, _, hst⟩ := htells
    exact c.evaluates hs.store.table hst

theorem Session.ended (c : Session) (hex : c.Exact)
    (h : TaggedEnds c.reaction c.irHost c.program c.main c.args c.memory c.store (.ok o)) :
    ∃ s, c.Stands s ∧ s.outcome = some o := by
  unfold TaggedEnds at h
  cases hs₀ : TaggedState.start c.main c.args c.memory c.store with
  | error e =>
    rw [hs₀] at h
    cases h
  | ok s₀ =>
    rw [hs₀] at h
    obtain ⟨n, s, hn, hdone⟩ := h
    have hrun : c.run n = .ok s := by
      rw [Session.run, hs₀]
      exact hn
    exact ⟨s, c.stands hex hrun, hdone⟩

/-- When the instrumented program is done, every constraint that the runtime has recorded holds on
the input, and the labels of the result and of the memory come to the result and the memory. -/
theorem instrumented_constraints_hold (c : Session) (hex : c.Exact)
    (h : CodeEnds c.reaction c.irHost (c.program.map IrFunction.instrument) c.main.instrument
      c.args c.memory c.store (.ok o)) :
    (∀ e, Recorded o.labels.solver e → e.eval c.env = 1) ∧
      (∀ x label, o.result = some (x, label) → c.Evaluates o.labels.table label x) ∧
      ∀ a, c.Evaluates o.labels.table (o.labels.shadow a) (o.memory.mem a).toNat := by
  obtain ⟨k, τ, hmain, _, _⟩ := c.entry
  rw [codeEnds_iff _ _ _ c.formed _ (List.mem_of_getElem? hmain)] at h
  obtain ⟨s, hs, hdone⟩ := c.ended hex h
  unfold TaggedState.outcome at hdone
  split at hdone
  case isFalse => cases hdone
  cases hdone
  refine ⟨?_, ?_, fun a => c.evaluates hs.store.table (hs.store.cells a)⟩
  · rintro e ⟨off, d, hd, he⟩
    exact (hs.store.solver.slices off d e hd he).1
  · intro x label hx
    obtain ⟨y, hy, hpair⟩ := Option.map_eq_some_iff.1 hx
    cases hpair
    obtain ⟨w, hw⟩ := hs.result x hy
    exact c.evaluates hs.store.table hw

instance {σ : Type} (slots : List Nat) (l : Locals) (mem : Nat → UInt8) (S : LabelStore σ)
    (i : IrInst) : Decidable (i.ExactAt slots l mem S) :=
  match i with
  | .load w ptr => inferInstanceAs (Decidable (variableOf slots ptr = none → ∀ p ∈ l.read 64 ptr,
    LoadsExactly S.table (fun i => mem (p + i)) (fun i => S.shadow (p + i)) (storeSize w)))
  | .binary _ _ _ _ | .cast _ _ _ _ | .icmp _ _ _ _ | .select _ _ _ _ | .gep _ _ _ | .alloca _
  | .store _ _ _ | .memset _ _ _ | .memTransfer _ _ _ | .pread _ _ _ | .call _ _ _ =>
    isTrue trivial

instance {σ : Type} (s : TaggedState σ) : Decidable s.Exact :=
  inferInstanceAs (Decidable (∀ F ∈ s.values.frames.head?, ∀ x ∈ F.rest.head?, _))

theorem TaggedState.step_outcome {σ : Type} {R : Reaction σ} {host : IrHost}
    {m : List IrFunction} {s : TaggedState σ} {o : Outcome σ} (h : s.outcome = some o) :
    TaggedState.step R host m s = .ok s := by
  obtain ⟨⟨frames, M, out⟩, gs, S, label⟩ := s
  cases frames with
  | nil => rfl
  | cons F fs => cases h

theorem Session.codeEnds {c : Session} (h : c.run n = .ok s) (hdone : s.outcome = some o) :
    CodeEnds c.reaction c.irHost (c.program.map IrFunction.instrument) c.main.instrument c.args
      c.memory c.store (.ok o) := by
  obtain ⟨k, τ, hmain, _, _⟩ := c.entry
  obtain ⟨s₀, hs₀, hn⟩ := except_bind_ok.1 h
  rw [codeEnds_iff _ _ _ c.formed _ (List.mem_of_getElem? hmain), TaggedEnds, hs₀]
  exact ⟨n, s, hn, hdone⟩

/-- It is enough to look at the states until the program is done. -/
theorem Session.exact_of_done {c : Session} (hk : c.run k = .ok s) (hdone : s.outcome = some o)
    (hcheck : ∀ n ≤ k, ((c.run n).toOption.all fun s => decide s.Exact) = true) : c.Exact := by
  intro n s' h
  have hexact : ∀ m ≤ k, ∀ u, c.run m = .ok u → u.Exact := by
    intro m hm u hu
    have hu' := hcheck m hm
    rw [hu] at hu'
    exact of_decide_eq_true hu'
  rcases Nat.le_total n k with hn | hn
  · exact hexact n hn s' h
  · obtain ⟨s₀, hs₀, hk'⟩ := except_bind_ok.1 hk
    obtain ⟨s₁, hs₁, hn'⟩ := except_bind_ok.1 h
    rw [hs₀] at hs₁
    cases hs₁
    have hstay := stepsOf_le hn hk' (TaggedState.step_outcome hdone)
    cases hn'.symm.trans hstay
    exact hexact k (Nat.le_refl k) _ hk

theorem ok_of_toOption {x : Except ε α} (h : x.toOption = some a) : x = .ok a := by
  cases x with
  | error e => cases h
  | ok b =>
    cases h
    rfl

def doubleATypes : List IrTyping :=
  [⟨[8], fun _ => 8, fun _ => 0⟩,
    ⟨[], fun id => [64, 64, 8, 1, 8, 8].getD id 0, fun _ => 8⟩]

/-- A session on a file that starts with an `A`. -/
def doubleASession : Session where
  z := .idle
  host := ⟨fun _ => true, fun _ => .full⟩
  input := ⟨false, [65]⟩
  context := fun stack _ => (stack.length, 0)
  place := fun _ => kAppAddr
  program := [doubleByte, doubleA]
  types := doubleATypes
  main := doubleA
  args := []
  memory := ⟨fun _ => 0, 0⟩
  history := ⟨oneByteStore.table, []⟩
  lawful := Z3.idle_lawful
  keepsConsts := fun _ => Finset.Subset.refl _
  file := rfl
  placed := fun _ => by decide
  formed := doubleA_formed
  typed := by decide
  entry := ⟨1, _, rfl, rfl, fun i w x h => by cases i <;> cases h⟩
  allocated := .cons (.create rfl) .nil

theorem doubleASession_done :
    ∃ s o, doubleASession.run 10 = .ok s ∧ s.outcome = some o ∧
      (o.labels.solver.dep 0).any (fun d => decide (d.exprDeps.card = 1)) = true := by
  have h : (((doubleASession.run 10).toOption.bind TaggedState.outcome).any fun o =>
      (o.labels.solver.dep 0).any fun d => decide (d.exprDeps.card = 1)) = true := by
    decide +kernel
  obtain ⟨o, ho, hd⟩ := (Option.any_eq_true _ _).1 h
  obtain ⟨s, hs, ho⟩ := Option.bind_eq_some_iff.1 ho
  exact ⟨s, o, ok_of_toOption hs, ho, hd⟩

theorem doubleASession_exact : doubleASession.Exact := by
  obtain ⟨s, o, hrun, hdone, _⟩ := doubleASession_done
  exact Session.exact_of_done hrun hdone (by decide +kernel)

theorem session_labels_evaluate_doubleA :
    ∃ s, doubleASession.run 4 = .ok s ∧
      s.traceCalls.map (fun call => (call.label, call.value)) = [(2, 1)] ∧
      ∀ call ∈ s.traceCalls, doubleASession.Evaluates s.store.table call.label call.value := by
  have h : ((doubleASession.run 4).toOption.any fun s =>
      s.traceCalls.map (fun call => (call.label, call.value)) = [(2, 1)]) = true := by
    decide +kernel
  obtain ⟨s, hs, hcalls⟩ := (Option.any_eq_true _ _).1 h
  have hrun := ok_of_toOption hs
  exact ⟨s, hrun, of_decide_eq_true hcalls,
    (session_labels_evaluate doubleASession doubleASession_exact hrun).2⟩

theorem instrumented_constraints_hold_doubleA :
    ∃ o, CodeEnds doubleASession.reaction doubleASession.irHost
        ([doubleByte, doubleA].map IrFunction.instrument) doubleA.instrument [] ⟨fun _ => 0, 0⟩
        doubleASession.store (.ok o) ∧
      (∃ e, Recorded o.labels.solver e) ∧
      ∀ e, Recorded o.labels.solver e →
        e.eval (inputEnv (TaintedInput.bytes ⟨false, [65]⟩)) = 1 := by
  obtain ⟨s, o, hrun, hdone, hdep⟩ := doubleASession_done
  have hends := Session.codeEnds hrun hdone
  refine ⟨o, hends, ?_, (instrumented_constraints_hold _ doubleASession_exact hends).1⟩
  obtain ⟨d, hd, hcard⟩ := (Option.any_eq_true _ _).1 hdep
  obtain ⟨e, he⟩ := Finset.card_eq_one.1 (of_decide_eq_true hcard)
  exact ⟨e, 0, d, hd, he ▸ Finset.mem_singleton_self e⟩

end Kirenenko
