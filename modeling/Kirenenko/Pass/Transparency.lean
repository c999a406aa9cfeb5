import Kirenenko.Pass.Refinement

namespace Kirenenko
set_option autoImplicit true

section
variable {σ : Type} {R : Reaction σ} {host : IrHost} {id : Nat} {i : IrInst}
  {F : IrFrame} {g : LabelFrame} {fs : List IrFrame} {gs : List LabelFrame}
  {M : IrMemory} {S : LabelStore σ} {l : Locals}

theorem LabelStore.trace_defined {mem : Nat → UInt8} {call : TraceCall} :
    S.trace R mem call ≠ .error .undefined := by
  unfold LabelStore.trace
  cases R.react call mem S.solver S.table <;> intro h <;> cases h

theorem foldlM_trace_defined (mem : Nat → UInt8) (calls : List TraceCall) (S : LabelStore σ) :
    calls.foldlM (LabelStore.trace R mem) S ≠ .error .undefined := by
  induction calls generalizing S with
  | nil =>
    intro h
    cases h
  | cons call calls ih =>
    rw [List.foldlM_cons]
    cases hc : S.trace R mem call with
    | error e =>
      intro h
      cases h
      exact LabelStore.trace_defined hc
    | ok S' => exact ih S'

theorem runtime_defined (x : Except Fault α) : runtime x ≠ .error .undefined := by
  cases x <;> intro h <;> cases h

theorem except_bind_error {x : Except ε α} {f : α → Except ε β} (h : x >>= f = .error e) :
    x = .error e ∨ ∃ a, x = .ok a ∧ f a = .error e := by
  cases x with
  | ok a => exact .inr ⟨a, rfl, h⟩
  | error e' => exact .inl (congrArg Except.error (Except.error.inj h))

theorem bind_pure_error {x : Except ε α} {f : α → β} (h : (x >>= fun a => pure (f a)) = .error e) :
    x = .error e := by
  rcases except_bind_error h with h | ⟨a, -, h⟩
  · exact h
  · cases h

theorem combine_defined (g : LabelFrame) (id l1 l2 op : Nat) (pos : Position) :
    S.combine g id l1 l2 op pos ≠ .error .undefined := by
  intro h
  exact runtime_defined _ (bind_pure_error h)

section
variable {x : Except Stop α} {f : β → Except Stop γ}

theorem FailsWith.of_ok {y : Except Stop β} : FailsWith .undefined (.ok a : Except Stop α) y := by
  intro h
  cases h

theorem FailsWith.of_defined {y : Except Stop β} (h : x ≠ .error .undefined) :
    FailsWith .undefined x y := fun hx => (h hx).elim

theorem FailsWith.unread {v : Option β} (h : ∀ b, FailsWith .undefined x (f b)) :
    FailsWith .undefined x (defined v >>= f) := by
  refine .bind_right ?_ h
  intro e he
  cases v <;> cases he
  rfl

end

theorem labelInst_undefined (i : IrInst) :
    FailsWith .undefined (labelInst R host slots id stack l M.mem g S i)
      (execInst host slots id l M i) := by
  cases i with
  | binary op w u v =>
    refine .unread fun _ => .bind fun x => .bind fun y => .unread fun v => ?_
    exact .of_defined (combine_defined g _ _ _ _ _)
  | cast op w w' u =>
    refine .unread fun _ => .unread fun _ => .unread fun _ => .bind fun x => ?_
    exact .of_defined (combine_defined g _ _ _ _ _)
  | icmp p w u v =>
    refine .unread fun _ => .bind fun x => .bind fun y => ?_
    exact .of_defined (combine_defined g _ _ _ _ _)
  | select w c u v =>
    refine .unread fun _ => .bind fun k => .of_defined fun h => ?_
    exact LabelStore.trace_defined (bind_pure_error h)
  | gep base index scale => exact .of_ok
  | alloca w => exact .of_ok
  | load w ptr =>
    refine .unread fun _ => ?_
    simp only [labelInst]
    cases variableOf slots ptr with
    | some a => exact .of_ok
    | none =>
      refine .bind fun p => .bind fun _ => .of_defined fun h => ?_
      exact runtime_defined _ (bind_pure_error h)
  | store w v ptr =>
    refine .unread fun _ => .unread fun x => ?_
    simp only [labelInst]
    cases variableOf slots ptr with
    | some a => exact .of_ok
    | none =>
      refine .bind fun p => .bind fun _ => .of_defined fun h => ?_
      exact runtime_defined _ (bind_pure_error h)
  | memset dest v len =>
    exact .bind fun p => .unread fun x => .bind fun n => .bind fun _ => .of_ok
  | memTransfer dest src len =>
    refine .bind fun p => .bind fun q => .bind fun n => .bind fun _ => .bind fun _ => ?_
    exact .of_ok
  | pread buf count offset =>
    exact .bind fun p => .bind fun n => .bind fun o => .bind fun _ => .of_ok
  | call callee args ret => exact fun _ => rfl

theorem traced_undefined {term : IrTerm}
    (h : term.traced R stack mem l g S = .error .undefined) :
    term.target l = .error .undefined := by
  rcases except_bind_error h with h | ⟨calls, -, h⟩
  · cases term with
    | condBr q x y =>
      rcases except_bind_error h with h | ⟨k, -, h⟩
      · rw [IrTerm.target, h]
        rfl
      · cases h
    | switch w q cases default =>
      rcases except_bind_error h with h | ⟨k, -, h⟩
      · rw [IrTerm.target, h]
        rfl
      · cases h
    | br | ret => cases h
  · exact absurd h (foldlM_trace_defined mem calls S)

theorem IrState.step_call (m : List IrFunction)
    (hrest : F.rest = (id, .call callee args ret) :: rest) :
    IrState.step host m ⟨F :: fs, M, out⟩ =
      defined m[callee]? >>= fun G => defined (argValues F.locals args) >>= fun xs =>
        G.start xs ret >>= fun F' => .ok ⟨F' :: F :: fs, M, out⟩ := by
  unfold IrState.step
  simp only [hrest]
  rfl

theorem labelReturn_length (label : Option Nat) (fs : List IrFrame) (gs : List LabelFrame) :
    (labelReturn label fs gs).length = gs.length := by
  cases fs with
  | nil => rfl
  | cons F fs =>
    cases gs with
    | nil => rfl
    | cons g gs =>
      cases label <;> cases hrest : F.rest <;> simp only [labelReturn, hrest, List.length_cons]

theorem returnTo_length (h : returnTo x fs = .ok fs') : fs'.length = fs.length := by
  cases fs with
  | nil =>
    cases h
    rfl
  | cons F fs =>
    rw [returnTo] at h
    split at h
    · cases h
      rfl
    · cases h

/-- The plain program beside the program with its labels. -/
def SameValues (s : TaggedState σ) (v : IrState) : Prop :=
  s.values = v ∧ s.frames.length = v.frames.length

theorem TaggedState.step_values_ret (R : Reaction σ) (host : IrHost) (m : List IrFunction)
    (hrest : F.rest = []) (hterm : F.term = .ret v) (hgs : gs.length = fs.length) :
    Related SameValues (TaggedState.step R host m ⟨⟨F :: fs, M, out⟩, g :: gs, S, label⟩)
      (IrState.step host m ⟨F :: fs, M, out⟩) := by
  rw [TaggedState.step_ret m hrest hterm, IrState.step_ret m hrest hterm]
  refine .bind_same fun x _ => .bind_same fun fs' hto => ⟨rfl, ?_⟩
  exact (labelReturn_length _ fs gs).trans (hgs.trans (returnTo_length hto).symm)

theorem TaggedState.step_values_call (R : Reaction σ) (host : IrHost) (m : List IrFunction)
    (hrest : F.rest = (id, .call callee args ret) :: rest) (hgs : gs.length = fs.length) :
    Related SameValues (TaggedState.step R host m ⟨⟨F :: fs, M, out⟩, g :: gs, S, label⟩)
      (IrState.step host m ⟨F :: fs, M, out⟩) := by
  rw [TaggedState.step_call m hrest, IrState.step_call m hrest]
  exact .bind_same fun G _ => .bind_same fun xs _ => .bind_same fun F' _ =>
    ⟨rfl, congrArg (· + 2) hgs⟩

theorem TaggedState.step_values_jump (R : Reaction σ) (host : IrHost) (m : List IrFunction)
    (hrest : F.rest = []) (hterm : ∀ v, F.term ≠ .ret v) (hgs : gs.length = fs.length) :
    (∃ f, TaggedState.step R host m ⟨⟨F :: fs, M, out⟩, g :: gs, S, label⟩ =
        .error (.fault f)) ∨
      Related SameValues (TaggedState.step R host m ⟨⟨F :: fs, M, out⟩, g :: gs, S, label⟩)
        (IrState.step host m ⟨F :: fs, M, out⟩) := by
  rw [TaggedState.step_jump m hrest hterm, IrState.step_jump m hrest hterm]
  cases htraced : F.term.traced R (⟨F.func.name, F.block, none⟩ :: fs.map IrFrame.site) M.mem
      F.locals g S with
  | error e =>
    cases e with
    | fault f => exact .inl ⟨f, rfl⟩
    | undefined =>
      rw [traced_undefined htraced]
      exact .inr rfl
  | ok S' =>
    right
    rw [except_ok_bind]
    exact .bind_same fun t _ => .bind_same fun F' _ => ⟨rfl, congrArg (· + 1) hgs⟩

theorem TaggedState.step_values_inst (R : Reaction σ) (host : IrHost) (m : List IrFunction)
    (hrest : F.rest = (id, i) :: rest) (hi : ∀ callee args ret, i ≠ .call callee args ret)
    (hgs : gs.length = fs.length) :
    (∃ f, TaggedState.step R host m ⟨⟨F :: fs, M, out⟩, g :: gs, S, label⟩ =
        .error (.fault f)) ∨
      Related SameValues (TaggedState.step R host m ⟨⟨F :: fs, M, out⟩, g :: gs, S, label⟩)
        (IrState.step host m ⟨F :: fs, M, out⟩) := by
  rw [TaggedState.step_inst m hrest hi, IrState.step_inst m hrest hi, labelledInst]
  cases hlabel : labelInst R host F.func.promoted id
      (⟨F.func.name, F.block, some id⟩ :: fs.map IrFrame.site) F.locals M.mem g S i with
  | error e =>
    cases e with
    | fault f => exact .inl ⟨f, rfl⟩
    | undefined =>
      rw [labelInst_undefined i hlabel]
      exact .inr rfl
  | ok x =>
    right
    simp only [except_ok_bind, bind_assoc]
    exact .bind_same fun y _ => ⟨rfl, congrArg (· + 1) hgs⟩

/-- A step of the program and of its labels is a step of the program, unless the runtime stops
it. -/
theorem TaggedState.step_values (R : Reaction σ) (host : IrHost) (m : List IrFunction)
    {s : TaggedState σ} (h : SameValues s v) :
    (∃ f, s.step R host m = .error (.fault f)) ∨
      Related SameValues (s.step R host m) (v.step host m) := by
  obtain ⟨⟨frames, M, out⟩, labels, S, label⟩ := s
  obtain ⟨rfl, hlen⟩ := h
  cases frames with
  | nil =>
    cases labels with
    | nil => exact .inr ⟨rfl, rfl⟩
    | cons g gs => cases hlen
  | cons F fs =>
    cases labels with
    | nil => cases hlen
    | cons g gs =>
      have hgs : gs.length = fs.length := Nat.succ.inj hlen
      cases hrest : F.rest with
      | nil =>
        by_cases hret : ∃ v, F.term = .ret v
        · obtain ⟨v, hterm⟩ := hret
          exact .inr (TaggedState.step_values_ret R host m hrest hterm hgs)
        · exact TaggedState.step_values_jump R host m hrest (fun v hv => hret ⟨v, hv⟩) hgs
      | cons x rest =>
        obtain ⟨id, i⟩ := x
        by_cases hi : ∃ callee args ret, i = .call callee args ret
        · obtain ⟨callee, args, ret, rfl⟩ := hi
          exact .inr (TaggedState.step_values_call R host m hrest hgs)
        · exact TaggedState.step_values_inst R host m hrest
            (fun callee args ret he => hi ⟨callee, args, ret, he⟩) hgs

/-- How the plain program ends, if it can be started. -/
def PlainEnds (host : IrHost) (m : List IrFunction) (main : IrFunction) (args : List Nat)
    (memory : IrMemory) (o : Except Stop (Option Nat × IrMemory)) : Prop :=
  match IrState.start main args memory with
  | .ok s => EndsIn (IrState.step host m) IrState.outcome s o
  | .error e => o = .error e

def Outcome.values (o : Outcome σ) : Option Nat × IrMemory := (o.result.map Prod.fst, o.memory)

theorem SameValues.outcome_eq {s : TaggedState σ} (h : SameValues s v) :
    s.outcome.map Outcome.values = v.outcome := by
  obtain ⟨rfl, -⟩ := h
  unfold TaggedState.outcome IrState.outcome
  split
  · simp only [Option.map_some, Outcome.values, Option.map_map]
    congr 2
    exact Option.map_id'
  · rfl

/-- Instrumentation does not change what a program computes, and it makes nothing undefined: the
runtime may stop the program, and otherwise it ends as it would without instrumentation. -/
theorem instrument_transparent (R : Reaction σ) (host : IrHost) (m : List IrFunction)
    (hm : ∀ f ∈ m, f.WellFormed) (main : IrFunction) (hmain : main ∈ m) (args : List Nat)
    (memory : IrMemory) (S : LabelStore σ) :
    (∀ o, CodeEnds R host (m.map IrFunction.instrument) main.instrument args memory S (.ok o) →
        PlainEnds host m main args memory (.ok o.values)) ∧
      (CodeEnds R host (m.map IrFunction.instrument) main.instrument args memory S
          (.error .undefined) →
        PlainEnds host m main args memory (.error .undefined)) ∧
      ∀ p, PlainEnds host m main args memory p →
        (∃ f, CodeEnds R host (m.map IrFunction.instrument) main.instrument args memory S
          (.error (.fault f))) ∨
        ∃ o, CodeEnds R host (m.map IrFunction.instrument) main.instrument args memory S o ∧
          o.map Outcome.values = p := by
  simp only [codeEnds_iff R host m hm main hmain]
  unfold TaggedEnds PlainEnds TaggedState.start IrState.start
  cases main.start args main.ret with
  | error e =>
    refine ⟨?_, ?_, fun p hp => .inr ⟨.error e, rfl, hp.symm⟩⟩
    · intro o ho
      cases ho
    · intro h
      cases h
      rfl
  | ok F =>
    have hsame : SameValues (⟨⟨[F], memory, none⟩, [⟨fun _ => 0, fun _ => 0, fun _ => 0⟩], S, 0⟩ :
        TaggedState σ) ⟨[F], memory, none⟩ := ⟨rfl, rfl⟩
    have hstep : ∀ (s : TaggedState σ) v, SameValues s v →
        (∃ e, (∃ f, e = Stop.fault f) ∧ s.step R host m = .error e) ∨
          Related SameValues (s.step R host m) (v.step host m) := by
      intro s v hv
      exact (TaggedState.step_values R host m hv).imp_left fun ⟨f, hf⟩ => ⟨_, ⟨f, rfl⟩, hf⟩
    have hdone : ∀ (s : TaggedState σ) v, SameValues s v →
        s.outcome.map Outcome.values = v.outcome := fun s v hv => hv.outcome_eq
    refine ⟨?_, ?_, ?_⟩
    · intro o ho
      rcases EndsIn.lockstep ho hstep hdone hsame with ⟨_, _, he⟩ | hends
      · cases he
      · exact hends
    · intro h
      rcases EndsIn.lockstep h hstep hdone hsame with ⟨_, ⟨f, rfl⟩, he⟩ | hends
      · cases he
      · exact hends
    · intro p hp
      rcases EndsIn.lockstep_back hp hstep hdone hsame with ⟨_, ⟨f, rfl⟩, he⟩ | hends
      · exact .inl ⟨f, he⟩
      · exact .inr hends

end

theorem doubleA_ends : ∃ memory,
    PlainEnds ⟨fun _ => kAppAddr, [65]⟩ [doubleByte, doubleA] doubleA [] ⟨fun _ => 0, 0⟩
      (.ok (some 130, memory)) :=
  ⟨_, 10, _, rfl, rfl⟩

theorem instrument_transparent_doubleA : ∃ memory,
    (∃ f, CodeEnds idleReaction ⟨fun _ => kAppAddr, [65]⟩
        ([doubleByte, doubleA].map IrFunction.instrument) doubleA.instrument [] ⟨fun _ => 0, 0⟩
        oneByteStore (.error (.fault f))) ∨
      ∃ o, CodeEnds idleReaction ⟨fun _ => kAppAddr, [65]⟩
        ([doubleByte, doubleA].map IrFunction.instrument) doubleA.instrument [] ⟨fun _ => 0, 0⟩
        oneByteStore o ∧ o.map Outcome.values = .ok (some 130, memory) := by
  obtain ⟨memory, hplain⟩ := doubleA_ends
  exact ⟨memory, (instrument_transparent _ _ _ doubleA_formed _
    (List.mem_cons_of_mem _ List.mem_cons_self) _ _ _).2.2 _ hplain⟩

end Kirenenko
