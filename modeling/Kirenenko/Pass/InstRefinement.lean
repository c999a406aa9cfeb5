import Kirenenko.Pass.Tracking

namespace Kirenenko
set_option autoImplicit true

theorem combinedLabel_zero (t : LabelTable) {pos : Position}
    (hop : pos.op op ≠ Operators.fsize.code) : combinedLabel t 0 0 op pos = .ok (0, t) := by
  unfold combinedLabel
  by_cases hw : pos.resultWidth > 64
  · rw [if_pos hw]
  · have hconst : ConstUnion (swapOperands (pos.key (some 0) (some 0) op)) :=
      ⟨rfl, Nat.one_pos, hop⟩
    rw [if_neg hw, taintUnion_eq, if_pos hconst]

theorem binaryShadowOp_ne_fsize (op : BinaryOps) (w : Nat) (a b : Operand) :
    binaryShadowOp op w a b ≠ Operators.fsize.code := by
  unfold binaryShadowOp
  split
  · decide
  · exact op.opcode_common.2.2.2

section
variable {σ : Type} {R : Reaction σ} {host : IrHost} {callers stack : List TraceSite}
  {f : IrFunction} {b id : Nat} {before after : List Nat} {blk : IrBlock}
  {done rest : List (Nat × IrInst)} {i : IrInst} {l : Locals} {g g' : LabelFrame}
  {c c' : CodeFrame} {s : CodeStore σ} {S : LabelStore σ} {tail : List Code}

/-- An instruction of the program and of its labels. -/
def labelledInst (R : Reaction σ) (host : IrHost) (slots : List Nat) (id : Nat)
    (stack : List TraceSite) (l : Locals) (m : IrMemory) (g : LabelFrame) (S : LabelStore σ)
    (i : IrInst) : Except Stop ((LabelFrame × LabelStore σ) × (Locals × IrMemory)) := do
  let x ← labelInst R host slots id stack l m.mem g S i
  let y ← execInst host slots id l m i
  return (x, y)

/-- What an instruction and the code for it leave behind. -/
structure Carried (f : IrFunction) (b : Nat) (blk : IrBlock) (done : List (Nat × IrInst))
    (c : CodeFrame) (s : CodeStore σ) (tail : List Code)
    (x : (LabelFrame × LabelStore σ) × (Locals × IrMemory)) (y : CodeFrame × CodeStore σ) :
    Prop where
  carries : Carries f b blk done x.2.1 x.1.1 y.1
  rest : y.1.rest = tail
  term : y.1.term = c.term
  store : y.2 = { s with memory := x.2.2, labels := x.1.2 }

theorem Carries.exec_app (h : Carries f b blk done l g c)
    (p : f.Place before b after blk done ((id, i) :: rest)) (hf : f.WellFormed)
    (hc : c.Updates id c') (hlocals : c'.locals = l) (hg : g.Updates id g')
    (hid : c'.eval (f.shadow (.inst id)) = some (g'.regs id))
    (hslots : ∀ y, execInst host f.promoted id l s.memory i = .ok y →
      ∀ a x, y.1.vars a = some x → c'.slots a = some (g'.vars a)) :
    Related (Carried f b blk (done ++ [(id, i)]) c s tail)
      (do let y ← execInst host f.promoted id l s.memory i
          return ((g', S), y))
      (execCodes R host callers tail c' (s.withLabels S) [.app id i]) := by
  have hexec : execCodes R host callers tail c' (s.withLabels S) [.app id i] =
      execInst host c'.func.slots id c'.locals s.memory i >>= fun y =>
        .ok ({ c' with locals := y.1, rest := tail }, { s with memory := y.2, labels := S }) := by
    simp only [execCodes, execCode, CodeStore.withLabels]
    cases execInst host c'.func.slots id c'.locals s.memory i <;> rfl
  have hslotsEq : c'.func.slots = f.promoted := by
    rw [hc.func, h.func]
    rfl
  rw [hexec, hslotsEq, hlocals]
  cases hy : execInst host f.promoted id l s.memory i with
  | error e => exact rfl
  | ok y =>
    have hc' : c.Updates id { c' with locals := y.1, rest := tail } :=
      ⟨hc.func, hc.block, hc.term, hc.args, hc.shadows⟩
    exact ⟨h.next p hf hc' hg hid (hslots y hy), rfl, hc.term, rfl⟩

/-- What `combineShadows` finds at its place when the program runs. -/
def UnionSite.position (site : UnionSite) (l : Locals) : Except Stop Position := do
  let x ← defined (l.read site.op1.1 site.op1.2)
  let y ← readOptional l site.op2
  return ⟨site.resultWidth, site.operandWidth, site.predicate, x, y⟩

theorem UnionSite.position_ok {site : UnionSite} (h : site.position l = .ok pos) :
    pos.resultWidth = site.resultWidth ∧ pos.predicate = site.predicate := by
  obtain ⟨x, -, h⟩ := except_bind_ok.1 h
  obtain ⟨y, -, h⟩ := except_bind_ok.1 h
  cases h
  exact ⟨rfl, rfl⟩

theorem execCodes_taintUnion {site : UnionSite} (h1 : c.eval v1 = some l1)
    (h2 : c.eval v2 = some l2) (codes : List Code) :
    execCodes R host callers tail c s (.taintUnion id v1 v2 op site :: codes) = (do
      let pos ← site.position c.locals
      let x ← runtime (taintUnion s.labels.table (pos.key (some l1) (some l2) op))
      execCodes R host callers tail { c.setShadow id x.1 with rest := codes ++ tail }
        (s.withTable x.2) codes) := by
  simp only [execCodes, execCode, UnionSite.position, h1, h2, defined_some_bind]
  cases c.locals.read site.op1.1 site.op1.2 with
  | none => rfl
  | some x =>
    cases readOptional c.locals site.op2 with
    | error e => simp only [defined_some_bind, except_error_bind]
    | ok y =>
      simp only [defined_some_bind, except_ok_bind, pure, Except.pure]
      cases runtime (taintUnion s.labels.table _) <;> rfl

/-- The code for an instruction does what the instruction means for values and labels. -/
def Refined (R : Reaction σ) (host : IrHost) (callers : List TraceSite) (f : IrFunction) (b : Nat)
    (blk : IrBlock) (done : List (Nat × IrInst)) (id : Nat) (i : IrInst) (l : Locals)
    (g : LabelFrame) (c : CodeFrame) (s : CodeStore σ) (tail : List Code) : Prop :=
  Related (Carried f b blk (done ++ [(id, i)]) c s tail)
    (labelledInst R host f.promoted id (⟨f.name, b, some id⟩ :: callers) l s.memory g s.labels i)
    (execCodes R host callers tail c s (TaintVisitor.visitInst f.shadow f.promoted id i).1)

/-- The instructions whose label `combineShadows` computes. -/
theorem Carries.combine {site : UnionSite} (h : Carries f b blk done l g c)
    (p : f.Place before b after blk done ((id, i) :: rest)) (hf : f.WellFormed)
    (hvisit : TaintVisitor.visitInst f.shadow f.promoted id i =
      TaintVisitor.before id i (TaintVisitor.combineShadows id v1 v2 op site))
    (h1 : c.eval v1 = some l1) (h2 : c.eval v2 = some l2)
    (hlabel : labelInst R host f.promoted id (⟨f.name, b, some id⟩ :: callers) l s.memory.mem g
      s.labels i = site.position l >>= s.labels.combine g id l1 l2 op)
    (hop : ∀ pos : Position, pos.predicate = site.predicate → pos.op op ≠ Operators.fsize.code)
    (hundefined : ∀ e, site.position l = .error e →
      execInst host f.promoted id l s.memory i = .error e)
    (hvars : ∀ y, execInst host f.promoted id l s.memory i = .ok y → y.1.vars = l.vars) :
    Refined R host callers f b blk done id i l g c s tail := by
  have hshadow : f.shadow (.inst id) = (TaintVisitor.combineShadows id v1 v2 op site).2 := by
    rw [p.shadow_inst hf, hvisit]
    rfl
  have hslots : ∀ y, execInst host f.promoted id l s.memory i = .ok y →
      ∀ a x, y.1.vars a = some x → c.slots a = some (g.vars a) := by
    intro y hy a x ha
    rw [hvars y hy] at ha
    exact h.slots a x ha
  unfold Refined labelledInst
  rw [hlabel]
  -- Without a call, the label is the constant zero whatever the place.
  have hplain : (∀ pos, site.position l = .ok pos →
        combinedLabel s.labels.table l1 l2 op pos = .ok (0, s.labels.table)) →
      f.shadow (.inst id) = .zero →
      Related (Carried f b blk (done ++ [(id, i)]) c s tail)
        (do let x ← site.position l >>= s.labels.combine g id l1 l2 op
            let y ← execInst host f.promoted id l s.memory i
            return (x, y))
        (execCodes R host callers tail c s [.app id i]) := by
    intro hlabel hzero
    have hstep : Related (Carried f b blk (done ++ [(id, i)]) c s tail)
        (do let y ← execInst host f.promoted id l s.memory i
            return ((g.set id 0, s.labels), y))
        (execCodes R host callers tail c (s.withLabels s.labels) [.app id i]) :=
      h.exec_app p hf (.refl id c) h.locals (.set id 0 g)
        (by rw [hzero, g.set_regs_self]; rfl) hslots
    cases hpos : site.position l with
    | error e =>
      rw [hundefined e hpos] at hstep
      exact hstep
    | ok pos =>
      simp only [except_ok_bind, LabelStore.combine, hlabel pos hpos, runtime_ok_bind]
      exact hstep
  rw [hvisit]
  unfold TaintVisitor.combineShadows at hshadow ⊢
  by_cases hz : v1 = .zero ∧ v2 = .zero
  · rw [if_pos hz] at hshadow ⊢
    rw [hz.1] at h1 hshadow
    rw [hz.2] at h2
    cases h1
    cases h2
    refine hplain (fun pos hpos => ?_) hshadow
    exact combinedLabel_zero _ (hop pos (UnionSite.position_ok hpos).2)
  · rw [if_neg hz] at hshadow ⊢
    by_cases hw : site.resultWidth > 64
    · rw [if_pos hw] at hshadow ⊢
      refine hplain (fun pos hpos => if_pos ?_) hshadow
      rw [(UnionSite.position_ok hpos).1]
      exact hw
    · rw [if_neg hw] at hshadow ⊢
      rw [TaintVisitor.before, List.singleton_append, execCodes_taintUnion h1 h2, h.locals]
      cases hpos : site.position l with
      | error e => exact rfl
      | ok pos =>
        have hlabel : combinedLabel s.labels.table l1 l2 op pos =
            taintUnion s.labels.table (pos.key (some l1) (some l2) op) := by
          refine if_neg ?_
          rw [(UnionSite.position_ok hpos).1]
          exact hw
        simp only [except_ok_bind, LabelStore.combine, hlabel]
        cases taintUnion s.labels.table (pos.key (some l1) (some l2) op) with
        | error e => exact rfl
        | ok x =>
          simp only [runtime_ok_bind]
          refine h.exec_app p hf ⟨rfl, rfl, rfl, rfl, ?_⟩ h.locals (.set id x.1 g) ?_ hslots
          · exact (CodeFrame.Updates.setShadow id x.1 c).shadows
          · rw [hshadow, g.set_regs_self]
            exact c.eval_setShadow_self id x.1

theorem Carries.binary (h : Carries f b blk done l g c)
    (p : f.Place before b after blk done ((id, .binary op w u v) :: rest)) (hf : f.WellFormed) :
    Refined R host callers f b blk done id (.binary op w u v) l g c s tail := by
  have hu := h.eval_shadow (p.usable hf List.mem_cons_self)
  have hv := h.eval_shadow (p.usable hf (List.mem_cons_of_mem _ List.mem_cons_self))
  refine h.combine p hf rfl hu hv ?_ ?_ ?_ ?_
  · simp only [labelInst, UnionSite.position, readOptional]
    cases l.read w u with
    | none => rfl
    | some x => cases l.read w v <;> rfl
  · intro pos hpos
    simp only [Position.op, hpos]
    exact binaryShadowOp_ne_fsize _ _ _ _
  · intro e he
    simp only [UnionSite.position, readOptional, execInst] at he ⊢
    cases hx : l.read w u with
    | none =>
      rw [hx] at he
      cases he
      cases integerWidth w <;> rfl
    | some x =>
      cases hy : l.read w v with
      | none =>
        rw [hx, hy] at he
        cases he
        cases integerWidth w <;> rfl
      | some y =>
        rw [hx, hy] at he
        cases he
  · intro y hy
    obtain ⟨_, -, hy⟩ := except_bind_ok.1 hy
    obtain ⟨_, -, hy⟩ := except_bind_ok.1 hy
    obtain ⟨_, -, hy⟩ := except_bind_ok.1 hy
    obtain ⟨_, -, hy⟩ := except_bind_ok.1 hy
    cases hy
    rfl

theorem Carries.icmp (h : Carries f b blk done l g c)
    (p : f.Place before b after blk done ((id, .icmp q w u v) :: rest)) (hf : f.WellFormed) :
    Refined R host callers f b blk done id (.icmp q w u v) l g c s tail := by
  have hu := h.eval_shadow (p.usable hf List.mem_cons_self)
  have hv := h.eval_shadow (p.usable hf (List.mem_cons_of_mem _ List.mem_cons_self))
  refine h.combine p hf rfl hu hv ?_ ?_ ?_ ?_
  · simp only [labelInst, UnionSite.position, readOptional]
    cases l.read w u with
    | none => rfl
    | some x => cases l.read w v <;> rfl
  · intro pos hpos
    simp only [Position.op, hpos]
    exact cmpOp_ne_fsize q
  · intro e he
    simp only [UnionSite.position, readOptional, execInst] at he ⊢
    cases hx : l.read w u with
    | none =>
      rw [hx] at he
      cases he
      cases integerWidth w <;> rfl
    | some x =>
      cases hy : l.read w v with
      | none =>
        rw [hx, hy] at he
        cases he
        cases integerWidth w <;> rfl
      | some y =>
        rw [hx, hy] at he
        cases he
  · intro y hy
    obtain ⟨_, -, hy⟩ := except_bind_ok.1 hy
    obtain ⟨_, -, hy⟩ := except_bind_ok.1 hy
    obtain ⟨_, -, hy⟩ := except_bind_ok.1 hy
    cases hy
    rfl

theorem Carries.cast (h : Carries f b blk done l g c)
    (p : f.Place before b after blk done ((id, .cast op w w' u) :: rest)) (hf : f.WellFormed) :
    Refined R host callers f b blk done id (.cast op w w' u) l g c s tail := by
  have hu := h.eval_shadow (p.usable hf List.mem_cons_self)
  refine h.combine p hf rfl hu rfl ?_ ?_ ?_ ?_
  · simp only [labelInst, UnionSite.position, readOptional]
    cases l.read w u <;> rfl
  · intro pos hpos
    simp only [Position.op, hpos]
    exact op.opcode_cast.2
  · intro e he
    simp only [UnionSite.position, readOptional, execInst] at he ⊢
    cases hx : l.read w u with
    | none =>
      rw [hx] at he
      cases he
      cases integerWidth w with
      | none => rfl
      | some _ =>
        cases integerWidth w' with
        | none => rfl
        | some _ => cases (if op.Valid w w' then some () else none) <;> rfl
    | some x =>
      rw [hx] at he
      cases he
  · intro y hy
    obtain ⟨_, -, hy⟩ := except_bind_ok.1 hy
    obtain ⟨_, -, hy⟩ := except_bind_ok.1 hy
    obtain ⟨_, -, hy⟩ := except_bind_ok.1 hy
    obtain ⟨_, -, hy⟩ := except_bind_ok.1 hy
    cases hy
    rfl

theorem LabelStore.trace_unlabelled (S : LabelStore σ) (mem : Nat → UInt8) {call : TraceCall}
    (h : call.label = 0) : S.trace R mem call = .ok S := by
  unfold LabelStore.trace
  rw [R.unlabelled call mem S.solver S.table h, runtime_ok_bind]
  rfl

theorem execCodes_cons (code : Code) (codes : List Code) :
    execCodes R host callers tail c s (code :: codes) =
      execCode R host callers c s code >>= fun x =>
        execCodes R host callers tail { x.1 with rest := codes ++ tail } x.2 codes := rfl

theorem eval_zero (h : c.eval .zero = some label) : label = 0 := (Option.some.inj h).symm

theorem Carries.condition_app (h : Carries f b blk done l g c)
    (p : f.Place before b after blk done ((id, i) :: rest)) (hf : f.WellFormed)
    (hc : c.Updates id c') (hlocals : c'.locals = l) (hg : g.Updates id g')
    (hid : c'.eval (f.shadow (.inst id)) = some (g'.regs id))
    (hslots : ∀ y, execInst host f.promoted id l s.memory i = .ok y →
      ∀ a x, y.1.vars a = some x → c'.slots a = some (g'.vars a))
    (hv : c'.eval v = some label) (hk : l.read 1 u = some k) :
    Related (Carried f b blk (done ++ [(id, i)]) c s tail)
      (do let S ← s.labels.trace R s.memory.mem (.cond (⟨f.name, b, some id⟩ :: callers) label k)
          let y ← execInst host f.promoted id l s.memory i
          return ((g', S), y))
      (execCodes R host callers tail c' s
        (TaintVisitor.visitCondition (some id) v u ++ [.app id i])) := by
  unfold TaintVisitor.visitCondition
  by_cases hz : v = .zero
  · rw [hz] at hv
    rw [if_pos hz, LabelStore.trace_unlabelled _ _ (eval_zero hv)]
    exact h.exec_app p hf hc hlocals hg hid hslots
  · have hname : c'.func.name = f.name := by
      rw [hc.func, h.func]
      rfl
    rw [if_neg hz, List.singleton_append, execCodes_cons]
    simp only [execCode, hv, hlocals, hk, defined_some_bind, hname, hc.block, h.block]
    cases s.labels.trace R s.memory.mem (.cond (⟨f.name, b, some id⟩ :: callers) label k) with
    | error e => exact rfl
    | ok S =>
      have hc' : c.Updates id { c' with rest := [.app id i] ++ tail } :=
        ⟨hc.func, hc.block, hc.term, hc.args, hc.shadows⟩
      exact h.exec_app p hf hc' hlocals hg hid hslots

theorem Carries.select (h : Carries f b blk done l g c)
    (p : f.Place before b after blk done ((id, .select w q u v) :: rest)) (hf : f.WellFormed) :
    Refined R host callers f b blk done id (.select w q u v) l g c s tail := by
  have hu := h.eval_shadow (p.usable hf List.mem_cons_self)
  have hv := h.eval_shadow (p.usable hf (List.mem_cons_of_mem _ List.mem_cons_self))
  have hqUse := p.usable hf (List.mem_cons_of_mem _ (List.mem_cons_of_mem _ List.mem_cons_self))
  have hq := h.eval_shadow hqUse
  have hshadow := p.shadow_inst hf
  have hslots : ∀ y, execInst host f.promoted id l s.memory (.select w q u v) = .ok y →
      ∀ a x, y.1.vars a = some x → c.slots a = some (g.vars a) := by
    intro y hy a x ha
    obtain ⟨_, -, hy⟩ := except_bind_ok.1 hy
    obtain ⟨_, -, hy⟩ := except_bind_ok.1 hy
    obtain ⟨_, -, hy⟩ := except_bind_ok.1 hy
    obtain ⟨_, -, hy⟩ := except_bind_ok.1 hy
    cases hy
    exact h.slots a x ha
  unfold Refined labelledInst
  simp only [labelInst, TaintVisitor.visitInst, TaintVisitor.visitSelectInst] at hshadow ⊢
  cases hk : l.read 1 q with
  | none =>
    have hslotsEq : c.func.slots = f.promoted := by
      rw [h.func]
      rfl
    have hexec : execInst host f.promoted id l s.memory (.select w q u v) = .error .undefined := by
      simp only [execInst, hk]
      cases integerWidth w <;> rfl
    have hcode : execCodes R host callers tail c s
        ((if f.shadow u = f.shadow v then (([] : List Code), f.shadow u)
          else ([.select id q (f.shadow u) (f.shadow v)], .inst id)).1 ++
          TaintVisitor.visitCondition (some id) (f.shadow q) q ++
          [.app id (.select w q u v)]) = .error .undefined := by
      unfold TaintVisitor.visitCondition
      split <;> split <;> simp only [List.nil_append, List.append_nil, List.cons_append,
        execCodes, execCode, h.locals, hk, hq, hslotsEq, hexec,
        defined_none_bind, defined_some_bind, except_error_bind]
    rw [hcode]
    exact rfl
  | some k =>
    simp only [defined_some_bind]
    by_cases huv : f.shadow u = f.shadow v
    · have hlabel : g.label u = g.label v := by
        rw [huv] at hu
        exact Option.some.inj (hu.symm.trans hv)
      rw [if_pos huv] at hshadow ⊢
      rw [hlabel, ite_self]
      simp only [bind_assoc, pure_bind]
      exact h.condition_app p hf (.refl id c) h.locals (.set id (g.label v) g)
        (by rw [hshadow, g.set_regs_self]; exact hlabel ▸ hu) hslots hq hk
    · rw [if_neg huv] at hshadow ⊢
      rw [List.append_assoc, List.singleton_append, execCodes_cons]
      simp only [execCode, h.locals, hk, hu, hv, defined_some_bind, bind_assoc, pure_bind]
      have hc := CodeFrame.Updates.setShadow id (if k = 1 then g.label u else g.label v) c
      refine h.condition_app p hf ⟨rfl, rfl, rfl, rfl, hc.shadows⟩ h.locals (.set id _ g) ?_ hslots
        ?_ hk
      · rw [hshadow, g.set_regs_self]
        exact c.eval_setShadow_self id _
      · cases q with
        | const q => exact hq
        | arg n => exact hq
        | inst j => exact (p.eval_kept hf hc (hqUse.1 j rfl)).trans hq

theorem Carries.gep (h : Carries f b blk done l g c)
    (p : f.Place before b after blk done ((id, .gep base index scale) :: rest))
    (hf : f.WellFormed) :
    Refined R host callers f b blk done id (.gep base index scale) l g c s tail := by
  refine h.exec_app p hf (.refl id c) h.locals (.set id 0 g) ?_ ?_
  · rw [p.shadow_inst hf, g.set_regs_self]
    rfl
  · intro y hy a x ha
    obtain ⟨_, -, hy⟩ := except_bind_ok.1 hy
    obtain ⟨_, -, hy⟩ := except_bind_ok.1 hy
    cases hy
    exact h.slots a x ha

theorem Carries.alloca (h : Carries f b blk done l g c)
    (p : f.Place before b after blk done ((id, .alloca w) :: rest)) (hf : f.WellFormed) :
    Refined R host callers f b blk done id (.alloca w) l g c s tail := by
  have hid : ∀ c' : CodeFrame, c'.eval (f.shadow (.inst id)) = some ((g.set id 0).regs id) := by
    intro c'
    rw [p.shadow_inst hf, g.set_regs_self]
    rfl
  unfold Refined
  simp only [TaintVisitor.visitInst, TaintVisitor.visitAllocaInst]
  by_cases hs : id ∈ f.promoted
  · rw [if_pos hs, List.singleton_append, execCodes_cons]
    refine h.exec_app p hf ⟨rfl, rfl, rfl, rfl, fun _ _ => rfl⟩ h.locals (.set id 0 g) (hid _) ?_
    intro y hy a x ha
    simp only [execInst, if_pos hs] at hy
    cases hy
    change Function.update l.vars id none a = some x at ha
    by_cases hai : a = id
    · rw [hai, Function.update_self] at ha
      cases ha
    · rw [Function.update_of_ne hai] at ha
      exact (Function.update_of_ne hai _ _).trans (h.slots a x ha)
  · rw [if_neg hs, List.nil_append]
    refine h.exec_app p hf (.refl id c) h.locals (.set id 0 g) (hid _) ?_
    intro y hy a x ha
    simp only [execInst, if_neg hs] at hy
    cases hy
    exact h.slots a x ha

theorem Carries.load (h : Carries f b blk done l g c)
    (p : f.Place before b after blk done ((id, .load w ptr) :: rest)) (hf : f.WellFormed) :
    Refined R host callers f b blk done id (.load w ptr) l g c s tail := by
  have hshadow := p.shadow_inst hf
  have hslots : ∀ y, execInst host f.promoted id l s.memory (.load w ptr) = .ok y →
      ∀ a x, y.1.vars a = some x → c.slots a = some (g.vars a) := by
    intro y hy a x ha
    obtain ⟨_, -, hy⟩ := except_bind_ok.1 hy
    cases hvar : variableOf f.promoted ptr with
    | some _ =>
      simp only [hvar] at hy
      obtain ⟨_, -, hy⟩ := except_bind_ok.1 hy
      cases hy
      exact h.slots a x ha
    | none =>
      simp only [hvar] at hy
      obtain ⟨_, -, hy⟩ := except_bind_ok.1 hy
      obtain ⟨_, -, hy⟩ := except_bind_ok.1 hy
      cases hy
      exact h.slots a x ha
  unfold Refined labelledInst
  simp only [labelInst, TaintVisitor.visitInst, TaintVisitor.visitLoadInst] at hshadow ⊢
  cases hvar : variableOf f.promoted ptr with
  | some a =>
    simp only [hvar] at hshadow ⊢
    rw [execCodes_cons]
    simp only [execCode, except_ok_bind]
    cases hx : l.vars a with
    | none =>
      have hexec : execInst host f.promoted id l s.memory (.load w ptr) = .error .undefined := by
        simp only [execInst, hvar, hx]
        cases integerWidth w <;> rfl
      have hslotsEq : c.func.slots = f.promoted := by
        rw [h.func]
        rfl
      rw [hexec]
      cases c.slots a with
      | none => exact rfl
      | some label =>
        simp only [defined_some_bind, execCodes, execCode, CodeFrame.setShadow, pure, Except.pure,
          except_ok_bind, hslotsEq, h.locals, hexec, except_error_bind]
        exact rfl
    | some x =>
      rw [h.slots a x hx, defined_some_bind]
      refine h.exec_app p hf ⟨rfl, rfl, rfl, rfl, ?_⟩ h.locals (.set id (g.vars a) g) ?_ hslots
      · exact (CodeFrame.Updates.setShadow id _ c).shadows
      · rw [hshadow, g.set_regs_self]
        exact c.eval_setShadow_self id _
  | none =>
    simp only [hvar] at hshadow ⊢
    rw [execCodes_cons]
    simp only [execCode, h.locals]
    cases hptr : l.read 64 ptr with
    | none => exact rfl
    | some a =>
      simp only [defined_some_bind]
      cases happ : appRange a (storeSize w) with
      | none => exact rfl
      | some _ =>
        simp only [defined_some_bind]
        cases taintUnionLoad s.labels.table (fun i => s.memory.mem (a + i))
            (fun i => s.labels.shadow (a + i)) (storeSize w) with
        | error e => exact rfl
        | ok x =>
          refine h.exec_app p hf ⟨rfl, rfl, rfl, rfl, ?_⟩ h.locals (.set id x.1 g) ?_ hslots
          · exact (CodeFrame.Updates.setShadow id _ c).shadows
          · rw [hshadow, g.set_regs_self]
            exact c.eval_setShadow_self id _

theorem Carries.eval_void (h : Carries f b blk done l g c)
    (p : f.Place before b after blk done ((id, i) :: rest)) (hf : f.WellFormed)
    (hi : (TaintVisitor.visitInst f.shadow f.promoted id i).2 = none) (c' : CodeFrame) :
    c'.eval (f.shadow (.inst id)) = some (g.regs id) := by
  have hshadow := p.shadow_inst hf
  rw [hi] at hshadow
  rw [h.unlabelled id hshadow, hshadow]
  rfl

theorem taintUnionStore_zero (t : LabelTable) (ls : Nat → Nat) (n : Nat) :
    taintUnionStore t 0 ls n = .ok (fun i => if i < n then 0 else ls i, t) := if_pos (.inr rfl)

theorem Carries.store (h : Carries f b blk done l g c)
    (p : f.Place before b after blk done ((id, .store w u ptr) :: rest)) (hf : f.WellFormed) :
    Refined R host callers f b blk done id (.store w u ptr) l g c s tail := by
  have hu := h.eval_shadow (p.usable hf List.mem_cons_self)
  have hid := h.eval_void p hf rfl
  unfold Refined labelledInst
  simp only [labelInst, TaintVisitor.visitInst, TaintVisitor.visitStoreInst]
  cases hvar : variableOf f.promoted ptr with
  | some a =>
    rw [execCodes_cons]
    simp only [execCode, hu, defined_some_bind]
    refine h.exec_app p hf ⟨rfl, rfl, rfl, rfl, fun _ _ => rfl⟩ h.locals ⟨rfl, fun _ _ => rfl⟩
      (hid _) ?_
    intro y hy a' x ha
    obtain ⟨_, -, hy⟩ := except_bind_ok.1 hy
    obtain ⟨v, -, hy⟩ := except_bind_ok.1 hy
    simp only [hvar] at hy
    cases hy
    change Function.update l.vars a (some v) a' = some x at ha
    change Function.update c.slots a (some (g.label u)) a' =
      some (Function.update g.vars a (g.label u) a')
    by_cases haa : a' = a
    · rw [haa, Function.update_self, Function.update_self]
    · rw [Function.update_of_ne haa] at ha
      rw [Function.update_of_ne haa, Function.update_of_ne haa]
      exact h.slots a' x ha
  | none =>
    have hslots : ∀ y, execInst host f.promoted id l s.memory (.store w u ptr) = .ok y →
        ∀ a x, y.1.vars a = some x → c.slots a = some (g.vars a) := by
      intro y hy a x ha
      obtain ⟨_, -, hy⟩ := except_bind_ok.1 hy
      obtain ⟨_, -, hy⟩ := except_bind_ok.1 hy
      simp only [hvar] at hy
      obtain ⟨_, -, hy⟩ := except_bind_ok.1 hy
      obtain ⟨_, -, hy⟩ := except_bind_ok.1 hy
      cases hy
      exact h.slots a x ha
    have happ : ∀ a ls t, Related (Carried f b blk (done ++ [(id, .store w u ptr)]) c s tail)
        (do let y ← execInst host f.promoted id l s.memory (.store w u ptr)
            return ((g, { s.labels with
              shadow := written a ls (storeSize w) s.labels.shadow, table := t }), y))
        (execCodes R host callers tail { c with rest := [.app id (.store w u ptr)] ++ tail }
          ((s.withTable t).withShadow (written a ls (storeSize w) s.labels.shadow))
          [.app id (.store w u ptr)]) := by
      intro a ls t
      exact h.exec_app p hf ⟨rfl, rfl, rfl, rfl, fun _ _ => rfl⟩ h.locals (.refl id g) (hid _)
        hslots
    simp only
    by_cases hz : f.shadow u = .zero
    · rw [hz] at hu
      have hlabel := eval_zero hu
      rw [if_pos hz, execCodes_cons]
      simp only [execCode, h.locals, hlabel]
      cases l.read 64 ptr with
      | none => exact rfl
      | some a =>
        simp only [defined_some_bind]
        cases appRange a (storeSize w) with
        | none => exact rfl
        | some _ =>
          simp only [defined_some_bind, taintUnionStore_zero, runtime_ok_bind]
          have hcells : written a (fun i => if i < storeSize w then 0
              else s.labels.shadow (a + i)) (storeSize w) s.labels.shadow =
              written a (fun _ => 0) (storeSize w) s.labels.shadow :=
            written_congr fun i hi => if_pos hi
          rw [hcells]
          exact happ a (fun _ => 0) s.labels.table
    · rw [if_neg hz, execCodes_cons]
      simp only [execCode, h.locals, hu, defined_some_bind]
      cases l.read 64 ptr with
      | none => exact rfl
      | some a =>
        simp only [defined_some_bind]
        cases appRange a (storeSize w) with
        | none => exact rfl
        | some _ =>
          simp only [defined_some_bind]
          cases taintUnionStore s.labels.table (g.label u) (fun i => s.labels.shadow (a + i))
              (storeSize w) with
          | error e => exact rfl
          | ok x => exact happ a x.1 x.2

theorem Carries.memset (h : Carries f b blk done l g c)
    (p : f.Place before b after blk done ((id, .memset dest u len) :: rest))
    (hf : f.WellFormed) :
    Refined R host callers f b blk done id (.memset dest u len) l g c s tail := by
  have hu := h.eval_shadow (p.usable hf List.mem_cons_self)
  have hid := h.eval_void p hf rfl
  have hslots : ∀ y, execInst host f.promoted id l s.memory (.memset dest u len) = .ok y →
      ∀ a x, y.1.vars a = some x → c.slots a = some (g.vars a) := by
    intro y hy a x ha
    obtain ⟨_, -, hy⟩ := except_bind_ok.1 hy
    obtain ⟨_, -, hy⟩ := except_bind_ok.1 hy
    obtain ⟨_, -, hy⟩ := except_bind_ok.1 hy
    obtain ⟨_, -, hy⟩ := except_bind_ok.1 hy
    cases hy
    exact h.slots a x ha
  unfold Refined labelledInst
  simp only [labelInst, TaintVisitor.visitInst, TaintVisitor.visitMemSetInst]
  rw [execCodes_cons]
  simp only [execCode, h.locals, hu, defined_some_bind]
  cases l.read 64 dest with
  | none => exact rfl
  | some a =>
    simp only [defined_some_bind]
    cases l.read 64 len with
    | none => exact rfl
    | some n =>
      simp only [defined_some_bind]
      cases appRange a n with
      | none => exact rfl
      | some _ =>
        exact h.exec_app p hf ⟨rfl, rfl, rfl, rfl, fun _ _ => rfl⟩ h.locals (.refl id g) (hid _)
          hslots

theorem Carries.memTransfer (h : Carries f b blk done l g c)
    (p : f.Place before b after blk done ((id, .memTransfer dest src len) :: rest))
    (hf : f.WellFormed) :
    Refined R host callers f b blk done id (.memTransfer dest src len) l g c s tail := by
  have hid := h.eval_void p hf rfl
  have hslots : ∀ y, execInst host f.promoted id l s.memory (.memTransfer dest src len) = .ok y →
      ∀ a x, y.1.vars a = some x → c.slots a = some (g.vars a) := by
    intro y hy a x ha
    obtain ⟨_, -, hy⟩ := except_bind_ok.1 hy
    obtain ⟨_, -, hy⟩ := except_bind_ok.1 hy
    obtain ⟨_, -, hy⟩ := except_bind_ok.1 hy
    obtain ⟨_, -, hy⟩ := except_bind_ok.1 hy
    obtain ⟨_, -, hy⟩ := except_bind_ok.1 hy
    cases hy
    exact h.slots a x ha
  unfold Refined labelledInst
  simp only [labelInst, TaintVisitor.visitInst, TaintVisitor.visitMemTransferInst]
  rw [execCodes_cons]
  simp only [execCode, h.locals]
  cases l.read 64 dest with
  | none => exact rfl
  | some a =>
    simp only [defined_some_bind]
    cases l.read 64 src with
    | none => exact rfl
    | some a' =>
      simp only [defined_some_bind]
      cases l.read 64 len with
      | none => exact rfl
      | some n =>
        simp only [defined_some_bind]
        cases appRange a n with
        | none => exact rfl
        | some _ =>
          simp only [defined_some_bind]
          cases appRange a' n with
          | none => exact rfl
          | some _ =>
            exact h.exec_app p hf ⟨rfl, rfl, rfl, rfl, fun _ _ => rfl⟩ h.locals (.refl id g)
              (hid _) hslots

theorem Carries.pread (h : Carries f b blk done l g c)
    (p : f.Place before b after blk done ((id, .pread buf count offset) :: rest))
    (hf : f.WellFormed) :
    Refined R host callers f b blk done id (.pread buf count offset) l g c s tail := by
  unfold Refined labelledInst
  simp only [labelInst, TaintVisitor.visitInst]
  rw [execCodes_cons]
  simp only [execCode, execInst, h.locals]
  cases hb : l.read 64 buf with
  | none => exact rfl
  | some a =>
    simp only [defined_some_bind]
    cases hn : l.read 64 count with
    | none => exact rfl
    | some n =>
      simp only [defined_some_bind]
      cases ho : l.read 64 offset with
      | none => exact rfl
      | some o =>
        simp only [defined_some_bind]
        cases appRange a (preadResult host.content n o) with
        | none => exact rfl
        | some _ =>
          have hc : c.Updates id { c.setShadow id 0 with
              locals := l.set id (preadResult host.content n o), rest := tail } :=
            ⟨rfl, rfl, rfl, rfl, (CodeFrame.Updates.setShadow id 0 c).shadows⟩
          refine ⟨h.next p hf hc (.set id 0 g) ?_ h.slots, rfl, rfl, rfl⟩
          rw [p.shadow_inst hf]
          exact (c.eval_setShadow_self id 0).trans (congrArg some (g.set_regs_self id 0).symm)

theorem Carries.inst (h : Carries f b blk done l g c)
    (p : f.Place before b after blk done ((id, i) :: rest)) (hf : f.WellFormed)
    (hi : ∀ callee args ret, i ≠ .call callee args ret) :
    Refined R host callers f b blk done id i l g c s tail := by
  cases i with
  | binary op w u v => exact h.binary p hf
  | cast op w w' u => exact h.cast p hf
  | icmp q w u v => exact h.icmp p hf
  | select w q u v => exact h.select p hf
  | gep base index scale => exact h.gep p hf
  | alloca w => exact h.alloca p hf
  | load w ptr => exact h.load p hf
  | store w u ptr => exact h.store p hf
  | memset dest u len => exact h.memset p hf
  | memTransfer dest src len => exact h.memTransfer p hf
  | pread buf count offset => exact h.pread p hf
  | call callee args ret => exact absurd rfl (hi callee args ret)

end

end Kirenenko
