import Kirenenko.Pass.EmittedCode
import Kirenenko.Pass.NodeValue

namespace Kirenenko
set_option autoImplicit true

theorem defined_none_bind (f : α → Except Stop β) : defined none >>= f = .error .undefined := rfl

theorem defined_some_bind (a : α) (f : α → Except Stop β) : defined (some a) >>= f = f a := rfl

theorem runtime_ok_bind (a : α) (f : α → Except Stop β) : runtime (.ok a) >>= f = f a := rfl

theorem except_error_bind (e : ε) (f : α → Except ε β) : Except.error e >>= f = .error e := rfl

def Code.isCall : Code → Bool
  | .app _ (.call _ _ _) => true
  | _ => false

section
variable {σ : Type}

/-- A stretch of code without calls, in front of the code that follows it. -/
def execCodes (R : Reaction σ) (host : IrHost) (callers : List TraceSite) (tail : List Code) :
    CodeFrame → CodeStore σ → List Code → Except Stop (CodeFrame × CodeStore σ)
  | f, s, [] => .ok ({ f with rest := tail }, s)
  | f, s, c :: cs => do
    let (f, s) ← execCode R host callers f s c
    execCodes R host callers tail { f with rest := cs ++ tail } s cs

variable {R : Reaction σ} {host : IrHost}

theorem CodeState.step_code {m : List CodeFunction} {f : CodeFrame} (hc : ¬c.isCall)
    (h : f.rest = c :: rest) : CodeState.step R host m ⟨f :: fs, s, out⟩ =
      execCode R host (fs.map CodeFrame.site) f s c >>= fun x =>
        .ok ⟨{ x.1 with rest := rest } :: fs, x.2, out⟩ := by
  unfold CodeState.step
  simp only [h]
  cases c with
  | app id i =>
    cases i with
    | call callee args ret => exact absurd rfl hc
    | _ => rfl
  | _ => rfl

theorem CodeState.run_codes (m : List CodeFunction) {f : CodeFrame} {codes tail : List Code}
    (hc : ∀ c ∈ codes, ¬c.isCall) (h : f.rest = codes ++ tail) :
    CodeState.run R host m codes.length ⟨f :: fs, s, out⟩ =
      execCodes R host (fs.map CodeFrame.site) tail f s codes >>= fun x =>
        .ok ⟨x.1 :: fs, x.2, out⟩ := by
  induction codes generalizing f s with
  | nil =>
    have hf : f = { f with rest := tail } := by
      rw [List.nil_append] at h
      rw [← h]
    exact congrArg (fun f => Except.ok (⟨f :: fs, s, out⟩ : CodeState σ)) hf
  | cons c codes ih =>
    change CodeState.step R host m ⟨f :: fs, s, out⟩ >>= CodeState.run R host m codes.length = _
    rw [CodeState.step_code (hc c List.mem_cons_self) h, execCodes]
    cases execCode R host (fs.map CodeFrame.site) f s c with
    | error e => rfl
    | ok x => exact ih (fun c h => hc c (List.mem_cons_of_mem _ h)) rfl

end

section
variable {f : IrFunction} {b id j : Nat} {before after : List Nat} {blk : IrBlock}
  {done rest : List (Nat × IrInst)} {i : IrInst} {l : Locals} {g g' : LabelFrame}
  {c c' : CodeFrame}

/-- An activation of instrumented code that carries the labels of an activation: the shadow of
every value that may still be used holds the label of the value. -/
structure Carries (f : IrFunction) (b : Nat) (blk : IrBlock) (done : List (Nat × IrInst))
    (l : Locals) (g : LabelFrame) (c : CodeFrame) : Prop where
  func : c.func = f.instrument
  block : c.block = b
  locals : c.locals = l
  shadows : ∀ j, f.Available b (blk.phis.map IrPhi.id ++ done.map Prod.fst) j →
    c.eval (f.shadow (.inst j)) = some (g.regs j)
  unlabelled : ∀ j, f.shadow (.inst j) = .zero → g.regs j = 0
  args : ∀ k ∈ f.shadowArgs, c.args k = some (g.args k)
  slots : ∀ a x, l.vars a = some x → c.slots a = some (g.vars a)

/-- An operand that may be used at a place: it is available there, and its shadow was loaded if it
is an argument. -/
def IrFunction.Usable (f : IrFunction) (b : Nat) (done : List Nat) (v : IrValue) : Prop :=
  (∀ j, v = .inst j → f.Available b done j) ∧ ∀ k, v = .arg k → k ∈ f.shadowArgs

theorem Carries.eval_shadow (h : Carries f b blk done l g c)
    (hv : f.Usable b (blk.phis.map IrPhi.id ++ done.map Prod.fst) v) :
    c.eval (f.shadow v) = some (g.label v) := by
  cases v with
  | const v => rfl
  | arg k => exact h.args k (hv.2 k rfl)
  | inst j => exact h.shadows j (hv.1 j rfl)

theorem IrFunction.Place.usable (p : f.Place before b after blk done ((id, i) :: rest))
    (h : f.WellFormed) (hv : v ∈ i.shadowOperands) :
    f.Usable b (blk.phis.map IrPhi.id ++ done.map Prod.fst) v := by
  constructor
  · rintro j rfl
    exact h.operands b blk p.block done id i rest p.body j (i.shadowOperands_subset _ hv)
  · rintro k rfl
    refine (f.mem_shadowArgs k).2 ⟨b, ?_, blk, p.block, .inl ?_⟩
    · rw [p.order]
      exact List.mem_append_right _ List.mem_cons_self
    · refine List.mem_append_left _ (List.mem_flatMap.2 ⟨(id, i), ?_, hv⟩)
      rw [p.body]
      exact List.mem_append_right _ List.mem_cons_self

/-- An activation in which the shadow of one instruction may be new, and the values. -/
structure CodeFrame.Updates (id : Nat) (c c' : CodeFrame) : Prop where
  func : c'.func = c.func
  block : c'.block = c.block
  term : c'.term = c.term
  args : c'.args = c.args
  shadows : ∀ j, j ≠ id → c'.shadows j = c.shadows j

structure LabelFrame.Updates (id : Nat) (g g' : LabelFrame) : Prop where
  args : g'.args = g.args
  regs : ∀ j, j ≠ id → g'.regs j = g.regs j

theorem CodeFrame.Updates.refl (id : Nat) (c : CodeFrame) : c.Updates id c :=
  ⟨rfl, rfl, rfl, rfl, fun _ _ => rfl⟩

theorem CodeFrame.Updates.setShadow (id label : Nat) (c : CodeFrame) :
    c.Updates id (c.setShadow id label) :=
  ⟨rfl, rfl, rfl, rfl, fun _ hj => Function.update_of_ne hj _ _⟩

theorem LabelFrame.Updates.refl (id : Nat) (g : LabelFrame) : g.Updates id g :=
  ⟨rfl, fun _ _ => rfl⟩

theorem LabelFrame.Updates.set (id label : Nat) (g : LabelFrame) :
    g.Updates id (g.set id label) :=
  ⟨rfl, fun _ hj => Function.update_of_ne hj _ _⟩

theorem LabelFrame.set_regs_self (g : LabelFrame) (id label : Nat) :
    (g.set id label).regs id = label := Function.update_self _ _ _

theorem CodeFrame.eval_setShadow_self (c : CodeFrame) (id label : Nat) :
    (c.setShadow id label).eval (.inst id) = some label := Function.update_self _ _ _

/-- The code of the next instruction leaves the shadows alone that are in use before it. -/
theorem IrFunction.Place.eval_kept (p : f.Place before b after blk done ((id, i) :: rest))
    (hf : f.WellFormed) (hc : c.Updates id c')
    (hj : f.Available b (blk.phis.map IrPhi.id ++ done.map Prod.fst) j) :
    c'.eval (f.shadow (.inst j)) = c.eval (f.shadow (.inst j)) := by
  have hnodup := hf.ids_nodup
  rw [p.ids, List.nodup_append] at hnodup
  have hnew : id ∉ visitedAt f before blk done := fun hv =>
    hnodup.2.2 id hv id (List.mem_append_left _ List.mem_cons_self) rfl
  cases hs : f.shadow (.inst j) with
  | zero => rfl
  | arg k => exact congrFun hc.args k
  | inst r =>
    refine hc.shadows r fun hr => hnew ?_
    rw [← hr]
    exact p.shadow_visited hf (hj.visited p.order) hs

theorem Carries.next (h : Carries f b blk done l g c)
    (p : f.Place before b after blk done ((id, i) :: rest)) (hf : f.WellFormed)
    (hc : c.Updates id c') (hg : g.Updates id g')
    (hid : c'.eval (f.shadow (.inst id)) = some (g'.regs id))
    (hslots : ∀ a x, c'.locals.vars a = some x → c'.slots a = some (g'.vars a)) :
    Carries f b blk (done ++ [(id, i)]) c'.locals g' c' := by
  refine ⟨hc.func.trans h.func, hc.block.trans h.block, rfl, ?_, ?_, ?_, hslots⟩
  · intro j hj
    by_cases hji : j = id
    · rw [hji]
      exact hid
    · have hold : f.Available b (blk.phis.map IrPhi.id ++ done.map Prod.fst) j := by
        refine hj.imp_right fun hmem => ?_
        rw [List.map_append, ← List.append_assoc] at hmem
        exact (List.mem_append.1 hmem).resolve_right fun h => hji (List.mem_singleton.1 h)
      rw [hg.regs j hji, ← h.shadows j hold]
      exact p.eval_kept hf hc hold
  · intro j hz
    by_cases hji : j = id
    · rw [hji] at hz ⊢
      rw [hz] at hid
      exact (Option.some.inj hid).symm
    · rw [hg.regs j hji]
      exact h.unlabelled j hz
  · intro k hk
    rw [hc.args, hg.args]
    exact h.args k hk

end

end Kirenenko
