import Kirenenko.Pass.FrameRefinement

namespace Kirenenko
set_option autoImplicit true

/-- The code that an activation has still to run. -/
def IrFrame.code (f : IrFrame) : List Code :=
  f.func.bodyCode f.rest ++ TaintVisitor.visitTerminator f.func.shadow f.term

/-- The code that follows a call. -/
def afterCall (id : Nat) (ret : Option Nat) : List Code :=
  ret.elim [] fun _ => [.loadRetvalTls id]

structure FrameRel (f : IrFrame) (g : LabelFrame) (c : CodeFrame) (code : List Code) :
    Prop where
  formed : f.func.WellFormed
  visited : f.block ∈ f.func.visitOrder
  carries : ∃ blk done, f.func.blocks[f.block]? = some blk ∧ blk.body = done ++ f.rest ∧
    blk.term = f.term ∧ Carries f.func f.block blk done f.locals g c
  term : c.term = f.term
  rest : c.rest = code

/-- The activations that wait for a result of the given type. -/
inductive CallersRel : Option Nat → List IrFrame → List LabelFrame → List CodeFrame → Prop where
  | nil : CallersRel ret [] [] []
  | cons {f : IrFrame} {id : Nat} : f.rest = (id, .call callee args ret) :: rest →
      FrameRel f g c
        (.app id (.call callee args ret) :: (afterCall id ret ++ { f with rest := rest }.code)) →
      CallersRel f.func.ret fs gs cs → CallersRel ret (f :: fs) (g :: gs) (c :: cs)

inductive StackRel : List IrFrame → List LabelFrame → List CodeFrame → Prop where
  | nil : StackRel [] [] []
  | cons {f : IrFrame} : FrameRel f g c f.code → CallersRel f.func.ret fs gs cs →
      StackRel (f :: fs) (g :: gs) (c :: cs)

section
variable {σ : Type} {R : Reaction σ} {host : IrHost} {id : Nat} {i : IrInst}
  {F : IrFrame} {g : LabelFrame} {c : CodeFrame} {fs : List IrFrame} {gs : List LabelFrame}
  {cs : List CodeFrame} {M : IrMemory} {S : LabelStore σ} {rest : List (Nat × IrInst)}

/-- A state of the instrumented program that carries the labels of the program. -/
structure StateRel (s : TaggedState σ) (c : CodeState σ) : Prop where
  frames : StackRel s.values.frames s.frames c.frames
  memory : c.store.memory = s.values.memory
  labels : c.store.labels = s.store
  result : c.result = s.values.result
  resultLabel : s.values.frames = [] → s.values.result.isSome → c.store.retvalTls = s.resultLabel

theorem FrameRel.name (h : FrameRel F g c code) : c.func.name = F.func.name := by
  obtain ⟨_, _, -, -, -, hc⟩ := h.carries
  rw [hc.func]
  rfl

theorem FrameRel.block (h : FrameRel F g c code) : c.block = F.block := by
  obtain ⟨_, _, -, -, -, hc⟩ := h.carries
  exact hc.block

theorem CallersRel.sites (h : CallersRel ret fs gs cs) :
    cs.map CodeFrame.site = fs.map IrFrame.site := by
  induction h with
  | nil => rfl
  | cons hrest hf _ ih =>
    rw [List.map_cons, List.map_cons, ih]
    congr 1
    rw [CodeFrame.site, IrFrame.site, hf.rest, hf.name, hf.block, hrest]
    rfl

theorem IrState.step_inst (m : List IrFunction) (hrest : F.rest = (id, i) :: rest)
    (hi : ∀ callee args ret, i ≠ .call callee args ret) :
    IrState.step host m ⟨F :: fs, M, out⟩ =
      execInst host F.func.promoted id F.locals M i >>= fun y =>
        .ok ⟨{ F with rest := rest, locals := y.1 } :: fs, y.2, out⟩ := by
  unfold IrState.step
  simp only [hrest]
  cases i with
  | call callee args ret => exact absurd rfl (hi callee args ret)
  | _ => rfl

theorem TaggedState.step_inst (m : List IrFunction)
    (hrest : F.rest = (id, i) :: rest) (hi : ∀ callee args ret, i ≠ .call callee args ret) :
    TaggedState.step R host m ⟨⟨F :: fs, M, out⟩, g :: gs, S, label⟩ =
      labelledInst R host F.func.promoted id
          (⟨F.func.name, F.block, some id⟩ :: fs.map IrFrame.site) F.locals M g S i >>= fun x =>
        .ok ⟨⟨{ F with rest := rest, locals := x.2.1 } :: fs, x.2.2, out⟩, x.1.1 :: gs, x.1.2,
          label⟩ := by
  have hstep : TaggedState.step R host m ⟨⟨F :: fs, M, out⟩, g :: gs, S, label⟩ =
      labelInst R host F.func.promoted id (⟨F.func.name, F.block, some id⟩ :: fs.map IrFrame.site)
          F.locals M.mem g S i >>= fun x =>
        IrState.step host m ⟨F :: fs, M, out⟩ >>= fun v =>
          .ok ⟨v, x.1 :: gs, x.2, label⟩ := by
    unfold TaggedState.step
    simp only [hrest, List.map_cons, IrFrame.site, List.head?_cons, Option.map_some]
    cases i with
    | call callee args ret => exact absurd rfl (hi callee args ret)
    | _ => rfl
  rw [hstep, IrState.step_inst m hrest hi]
  unfold labelledInst
  cases labelInst R host F.func.promoted id
      (⟨F.func.name, F.block, some id⟩ :: fs.map IrFrame.site) F.locals M.mem g S i with
  | error e => rfl
  | ok x => cases execInst host F.func.promoted id F.locals M i <;> rfl

theorem TaintVisitor.visitInst_codes (sh : IrValue → Shadow) (slots : List Nat) (id : Nat)
    (hi : ∀ callee args ret, i ≠ .call callee args ret) :
    (visitInst sh slots id i).1 ≠ [] ∧ ∀ code ∈ (visitInst sh slots id i).1, ¬code.isCall := by
  have hbefore : ∀ v1 v2 op site, (before id i (combineShadows id v1 v2 op site)).1 ≠ [] ∧
      ∀ code ∈ (before id i (combineShadows id v1 v2 op site)).1, ¬code.isCall := by
    intro v1 v2 op site
    have happ : ¬(Code.app id i).isCall := by
      cases i with
      | call callee args ret => exact absurd rfl (hi callee args ret)
      | _ => simp [Code.isCall]
    unfold combineShadows before
    refine ⟨List.append_ne_nil_of_right_ne_nil _ (List.cons_ne_nil _ _), ?_⟩
    intro code hcode
    rcases List.mem_append.1 hcode with hcode | hcode
    · split at hcode
      · cases hcode
      · split at hcode
        · cases hcode
        · cases List.mem_singleton.1 hcode
          simp [Code.isCall]
    · cases List.mem_singleton.1 hcode
      exact happ
  cases i with
  | binary op w u v => exact hbefore _ _ _ _
  | cast op w w' u => exact hbefore _ _ _ _
  | icmp q w u v => exact hbefore _ _ _ _
  | select w q u v =>
    simp only [visitInst, visitSelectInst, visitCondition]
    split <;> split <;> simp [Code.isCall]
  | alloca w =>
    simp only [visitInst, visitAllocaInst]
    split <;> simp [Code.isCall]
  | load w ptr =>
    simp only [visitInst, visitLoadInst]
    split <;> simp [Code.isCall]
  | store w u ptr =>
    simp only [visitInst, visitStoreInst]
    split
    · simp [Code.isCall]
    · split <;> simp [Code.isCall]
  | call callee args ret => exact absurd rfl (hi callee args ret)
  | _ => simp [visitInst, visitMemSetInst, visitMemTransferInst, Code.isCall]

theorem IrFrame.code_cons (hrest : F.rest = (id, i) :: rest) :
    F.code = (TaintVisitor.visitInst F.func.shadow F.func.promoted id i).1 ++
      { F with rest := rest }.code := by
  unfold IrFrame.code IrFunction.bodyCode
  rw [hrest, List.flatMap_cons, List.append_assoc]

theorem FrameRel.step_inst (h : FrameRel F g c F.code)
    (hcs : CallersRel F.func.ret fs gs cs) (m : List IrFunction)
    (hrest : F.rest = (id, i) :: rest) (hi : ∀ callee args ret, i ≠ .call callee args ret) :
    ∃ k, 0 < k ∧ Related StateRel
      (TaggedState.step R host m ⟨⟨F :: fs, M, out⟩, g :: gs, S, label⟩)
      (CodeState.run R host (m.map IrFunction.instrument) k
        ⟨c :: cs, ⟨M, S, argTls, retvalTls⟩, out⟩) := by
  obtain ⟨blk, done, hblk, hbody, hterm, hc⟩ := h.carries
  rw [hrest] at hbody
  obtain ⟨before, after, p⟩ := IrFunction.exists_place h.visited hblk hbody
  obtain ⟨hne, hcalls⟩ := TaintVisitor.visitInst_codes F.func.shadow F.func.promoted id hi
  refine ⟨_, List.length_pos_of_ne_nil hne, ?_⟩
  have hcode := h.rest.trans (IrFrame.code_cons hrest)
  rw [TaggedState.step_inst m hrest hi, CodeState.run_codes _ hcalls hcode, hcs.sites]
  have hinst : Refined R host (fs.map IrFrame.site) F.func F.block blk done id i F.locals g c
      ⟨M, S, argTls, retvalTls⟩ { F with rest := rest }.code := hc.inst p h.formed hi
  unfold Refined at hinst
  refine Related.bind hinst ?_
  intro x y hxy
  refine ⟨.cons ⟨h.formed, h.visited, ?_, hxy.term.trans h.term, hxy.rest⟩ hcs, ?_, ?_, rfl, ?_⟩
  · refine ⟨blk, done ++ [(id, i)], hblk, ?_, hterm, hxy.carries⟩
    rw [hbody, List.append_assoc]
    rfl
  · rw [hxy.store]
  · rw [hxy.store]
  · intro hnil
    cases hnil

theorem IrState.step_jump (m : List IrFunction) (hrest : F.rest = [])
    (hret : ∀ v, F.term ≠ .ret v) :
    IrState.step host m ⟨F :: fs, M, out⟩ = F.term.target F.locals >>= fun t =>
      F.jump t >>= fun F' => .ok ⟨F' :: fs, M, out⟩ := by
  unfold IrState.step
  simp only [hrest]
  cases hterm : F.term with
  | ret v => exact absurd hterm (hret v)
  | _ => rfl

theorem TaggedState.step_jump (m : List IrFunction) (hrest : F.rest = [])
    (hret : ∀ v, F.term ≠ .ret v) :
    TaggedState.step R host m ⟨⟨F :: fs, M, out⟩, g :: gs, S, label⟩ =
      F.term.traced R (⟨F.func.name, F.block, none⟩ :: fs.map IrFrame.site) M.mem F.locals g S >>=
        fun S => F.term.target F.locals >>= fun t => F.jump t >>= fun F' =>
          .ok ⟨⟨F' :: fs, M, out⟩, g.jump F t :: gs, S, label⟩ := by
  have hstep : TaggedState.step R host m ⟨⟨F :: fs, M, out⟩, g :: gs, S, label⟩ =
      F.term.traced R (⟨F.func.name, F.block, none⟩ :: fs.map IrFrame.site) M.mem F.locals g S >>=
        fun S => F.term.target F.locals >>= fun t =>
          IrState.step host m ⟨F :: fs, M, out⟩ >>= fun v =>
            .ok ⟨v, g.jump F t :: gs, S, label⟩ := by
    unfold TaggedState.step IrTerm.traced
    simp only [hrest, List.map_cons, IrFrame.site, List.head?_nil, Option.map_none, bind_assoc]
    cases hterm : F.term with
    | ret v => exact absurd hterm (hret v)
    | _ => rfl
  rw [hstep, IrState.step_jump m hrest hret]
  cases F.term.traced R (⟨F.func.name, F.block, none⟩ :: fs.map IrFrame.site) M.mem F.locals g
    S with
  | error e => rfl
  | ok S =>
    cases F.term.target F.locals with
    | error e => rfl
    | ok t =>
      simp only [except_ok_bind]
      cases F.jump t <;> rfl

theorem CodeState.step_jump (m : List CodeFunction) {s : CodeStore σ} (hrest : c.rest = [])
    (hret : ∀ v, c.term ≠ .ret v) :
    CodeState.step R host m ⟨c :: cs, s, out⟩ = c.term.target c.locals >>= fun t =>
      c.jump t >>= fun c' => .ok ⟨c' :: cs, s, out⟩ := by
  unfold CodeState.step
  simp only [hrest]
  cases hterm : c.term with
  | ret v => exact absurd hterm (hret v)
  | _ => rfl

theorem TaintVisitor.visitTerminator_codes (sh : IrValue → Shadow) (term : IrTerm) :
    ∀ code ∈ visitTerminator sh term, ¬code.isCall := by
  intro code hcode
  cases term with
  | br t => cases hcode
  | condBr q x y =>
    simp only [visitTerminator, visitCondition] at hcode
    split at hcode
    · cases hcode
    · cases List.mem_singleton.1 hcode
      simp [Code.isCall]
  | switch w q cases default =>
    simp only [visitTerminator, visitSwitchInst] at hcode
    split at hcode
    · cases hcode
    · obtain ⟨y, -, rfl⟩ := List.mem_map.1 hcode
      simp [Code.isCall]
  | ret v =>
    obtain ⟨y, -, rfl⟩ := List.mem_map.1 hcode
    simp [Code.isCall]

theorem IrFunction.WellFormed.instrument_block {f : IrFunction} (hf : f.WellFormed)
    (hb : b ∈ f.visitOrder) (hblk : f.blocks[b]? = some blk) :
    f.instrument.block b = some
      { phis := blk.phis
        shadowPhis := blk.phis.map fun φ => (φ.id, φ.incoming.map fun x => (x.1, f.shadow x.2))
        body := (if b = 0 then f.shadowArgs.map .loadArgTls else []) ++ f.blockCode blk
        term := blk.term } := by
  simp only [IrFunction.instrument, hblk, hf.visited_code hb hblk, Option.bind_eq_bind,
    Option.bind_some]
  rfl

theorem IrFunction.instrument_block_none {f : IrFunction} (hblk : f.blocks[b]? = none) :
    f.instrument.block b = none := by
  simp only [IrFunction.instrument, hblk, Option.bind_eq_bind, Option.bind_none]

theorem FrameRel.jump {t : Nat} (h : FrameRel F g c code) (hrest : F.rest = [])
    (ht : F.term.target F.locals = .ok t) :
    Related (fun F' c' => F'.func = F.func ∧ FrameRel F' (g.jump F t) c' F'.code)
      (F.jump t) (c.jump t) := by
  obtain ⟨blk, done, hblk, hbody, hterm, hc⟩ := h.carries
  rw [hrest, List.append_nil] at hbody
  subst hbody
  have hsucc : t ∈ F.func.successors F.block := by
    rw [IrFunction.successors, hblk]
    change t ∈ blk.term.successors
    rw [hterm]
    exact IrTerm.target_mem ht
  have hvisited := F.func.visitOrder_spec.2.2.2 F.block h.visited t hsucc
  have hentry : t ≠ 0 := by
    rintro rfl
    exact h.formed.entry F.block hsucc
  unfold IrFrame.jump CodeFrame.jump LabelFrame.jump
  rw [hc.func, hc.locals, hc.block]
  cases htblk : F.func.blocks[t]? with
  | none =>
    rw [IrFunction.instrument_block_none htblk]
    exact rfl
  | some tblk =>
    rw [h.formed.instrument_block hvisited htblk]
    simp only [defined_some_bind]
    cases hx : phiValues F.locals F.block tblk.phis with
    | none => exact rfl
    | some xs =>
      obtain ⟨hshadows, hnew⟩ := hc.jump h.formed h.visited hblk hsucc htblk hx
        ((if t = 0 then F.func.shadowArgs.map Code.loadArgTls else []) ++ F.func.blockCode tblk)
        tblk.term
      rw [hc.func] at hnew
      rw [hshadows]
      refine ⟨rfl, h.formed, hvisited, ⟨tblk, [], htblk, rfl, rfl, hnew⟩, rfl, ?_⟩
      rw [if_neg hentry, List.nil_append]
      rfl

theorem FrameRel.step_jump (h : FrameRel F g c F.code) (hcs : CallersRel F.func.ret fs gs cs)
    (m : List IrFunction) (hrest : F.rest = []) (hret : ∀ v, F.term ≠ .ret v) :
    ∃ k, 0 < k ∧ Related StateRel
      (TaggedState.step R host m ⟨⟨F :: fs, M, out⟩, g :: gs, S, label⟩)
      (CodeState.run R host (m.map IrFunction.instrument) k
        ⟨c :: cs, ⟨M, S, argTls, retvalTls⟩, out⟩) := by
  obtain ⟨blk, done, hblk, hbody, hterm, hc⟩ := h.carries
  rw [hrest, List.append_nil] at hbody
  subst hbody
  have hcode : c.rest = TaintVisitor.visitTerminator F.func.shadow F.term ++ [] := by
    rw [h.rest, IrFrame.code, hrest, List.append_nil]
    rfl
  refine ⟨(TaintVisitor.visitTerminator F.func.shadow F.term).length + 1, Nat.succ_pos _, ?_⟩
  rw [TaggedState.step_jump m hrest hret, CodeState.run, stepsOf_add]
  change Related StateRel _ (CodeState.run R host _ _ _ >>= _)
  rw [CodeState.run_codes _ (TaintVisitor.visitTerminator_codes F.func.shadow F.term) hcode,
    hcs.sites]
  have hstep : ∀ s : CodeStore σ, stepsOf (CodeState.step R host (m.map IrFunction.instrument)) 1
      ⟨{ c with rest := [] } :: cs, s, out⟩ = F.term.target F.locals >>= fun t =>
        c.jump t >>= fun c' => .ok ⟨c' :: cs, s, out⟩ := by
    intro s
    rw [stepsOf_one, CodeState.step_jump _ rfl (by rw [h.term]; exact hret), ← hc.locals, ← h.term]
    rfl
  rw [← hterm] at hret hstep ⊢
  cases ht : blk.term.target F.locals with
  | error e =>
    obtain ⟨rfl, htraced, hcodes⟩ := hc.terminator_undefined h.formed h.visited hblk hret ht R host
      (fs.map IrFrame.site) ⟨M, S, argTls, retvalTls⟩
    rw [htraced]
    rcases hcodes with hcodes | hcodes
    · rw [hcodes]
      exact rfl
    · rw [hcodes]
      simp only [except_ok_bind, hstep, ht]
      exact rfl
  | ok t =>
    rw [hc.terminator h.formed h.visited hblk ht]
    cases blk.term.traced R (⟨F.func.name, F.block, none⟩ :: fs.map IrFrame.site) M.mem F.locals
        g S with
    | error e => exact rfl
    | ok S' =>
      simp only [except_ok_bind, pure, Except.pure, hstep, ht]
      refine (h.jump hrest (hterm ▸ ht)).bind ?_
      intro F' c' hjump
      refine ⟨.cons hjump.2 (hjump.1 ▸ hcs), rfl, rfl, rfl, ?_⟩
      intro hnil
      cases hnil

theorem Carries.withRest {f : IrFunction} (h : Carries f b blk done l g c) (codes : List Code) :
    Carries f b blk done l g { c with rest := codes } :=
  ⟨h.func, h.block, h.locals, h.shadows, h.unlabelled, h.args, h.slots⟩

theorem CallersRel.cons_inv (h : CallersRel ret (F :: fs) gs cs) :
    ∃ id callee args rest g gs' c cs', gs = g :: gs' ∧ cs = c :: cs' ∧
      F.rest = (id, .call callee args ret) :: rest ∧
      FrameRel F g c
        (.app id (.call callee args ret) :: (afterCall id ret ++ { F with rest := rest }.code)) ∧
      CallersRel F.func.ret fs gs' cs' := by
  cases h with
  | cons hrest hf hcs => exact ⟨_, _, _, _, _, _, _, _, rfl, rfl, hrest, hf, hcs⟩

theorem FrameRel.returned_void (hrest : F.rest = (id, .call callee args none) :: rest)
    (h : FrameRel F g c (.app id (.call callee args none) :: { F with rest := rest }.code)) :
    FrameRel { F with rest := rest } g { c with rest := { F with rest := rest }.code }
      { F with rest := rest }.code := by
  obtain ⟨blk, done, hblk, hbody, hterm, hc⟩ := h.carries
  rw [hrest] at hbody
  obtain ⟨before, after, p⟩ := IrFunction.exists_place h.visited hblk hbody
  refine ⟨h.formed, h.visited, ⟨blk, done ++ [(id, .call callee args none)], hblk, ?_, hterm, ?_⟩,
    h.term, rfl⟩
  · rw [hbody, List.append_assoc]
    rfl
  · have hc' : c.Updates id { c with rest := { F with rest := rest }.code } :=
      ⟨rfl, rfl, rfl, rfl, fun _ _ => rfl⟩
    have hnext := hc.next p h.formed hc' (.refl id g) (hc.eval_void p h.formed rfl _)
      (hc.locals ▸ hc.slots)
    exact hc.locals ▸ hnext

theorem FrameRel.returned_value (hrest : F.rest = (id, .call callee args (some w)) :: rest)
    (h : FrameRel F g c (.app id (.call callee args (some w)) :: .loadRetvalTls id ::
      { F with rest := rest }.code)) (x label : Nat) :
    FrameRel { F with rest := rest, locals := F.locals.set id x } (g.set id label)
      { c.setShadow id label with
          rest := { F with rest := rest }.code, locals := F.locals.set id x }
      { F with rest := rest }.code := by
  obtain ⟨blk, done, hblk, hbody, hterm, hc⟩ := h.carries
  rw [hrest] at hbody
  obtain ⟨before, after, p⟩ := IrFunction.exists_place h.visited hblk hbody
  refine ⟨h.formed, h.visited,
    ⟨blk, done ++ [(id, .call callee args (some w))], hblk, ?_, hterm, ?_⟩, h.term, rfl⟩
  · rw [hbody, List.append_assoc]
    rfl
  · have hc' : c.Updates id { c.setShadow id label with
        rest := { F with rest := rest }.code, locals := F.locals.set id x } :=
      ⟨rfl, rfl, rfl, rfl, (CodeFrame.Updates.setShadow id label c).shadows⟩
    refine hc.next p h.formed hc' (.set id label g) ?_ hc.slots
    rw [p.shadow_inst h.formed]
    exact (c.eval_setShadow_self id label).trans (congrArg some (g.set_regs_self id label).symm)

theorem CallersRel.returned {x : Option Nat} {label : Option Nat}
    (h : CallersRel ret (F :: fs) gs cs) (hx : x.isSome = ret.isSome)
    (hlabel : label.isSome = ret.isSome) (R : Reaction σ) (host : IrHost) (out : Option Nat)
    (s : CodeStore σ) (hs : ∀ n, label = some n → s.retvalTls = n) (m : List CodeFunction) :
    ∃ fs' cs' k cs'', returnTo x (F :: fs) = .ok fs' ∧ returnToCode x cs = .ok cs' ∧
      CodeState.run R host m k ⟨cs', s, out⟩ = .ok ⟨cs'', s, out⟩ ∧ fs' ≠ [] ∧
      StackRel fs' (labelReturn label (F :: fs) gs) cs'' := by
  obtain ⟨id, callee, args, rest, g, gs, c, cs, rfl, rfl, hrest, hf, hcs⟩ := h.cons_inv
  cases ret with
  | none =>
    cases x with
    | some _ => cases hx
    | none =>
      cases label with
      | some _ => cases hlabel
      | none =>
        refine ⟨{ F with rest := rest } :: fs,
          { c with rest := { F with rest := rest }.code } :: cs, 0, _, ?_, ?_, rfl,
          List.cons_ne_nil _ _, .cons (hf.returned_void hrest) hcs⟩
        · simp only [returnTo, hrest]
          rfl
        · simp only [returnToCode, hf.rest]
          rfl
  | some w =>
    cases x with
    | none => cases hx
    | some x =>
      cases label with
      | none => cases hlabel
      | some n =>
        have hcl : c.locals = F.locals := by
          obtain ⟨_, _, -, -, -, hc⟩ := hf.carries
          exact hc.locals
        have hgs : labelReturn (some n) (F :: fs) (g :: gs) = g.set id n :: gs := by
          simp only [labelReturn, hrest]
        rw [hgs]
        refine ⟨{ F with rest := rest, locals := F.locals.set id x } :: fs,
          { c with rest := .loadRetvalTls id :: { F with rest := rest }.code,
                   locals := F.locals.set id x } :: cs, 1, _, ?_, ?_, ?_, List.cons_ne_nil _ _,
          .cons (hf.returned_value hrest x n) hcs⟩
        · simp only [returnTo, hrest]
          rfl
        · simp only [returnToCode, hf.rest, hcl]
          rfl
        · rw [CodeState.run, stepsOf_one, ← hs n rfl]
          rfl

theorem returnValue_isSome {l : Locals} (h : returnValue l type v = .ok x) :
    x.isSome = type.isSome ∧ v.isSome = type.isSome := by
  cases type with
  | none =>
    cases v with
    | none =>
      cases h
      exact ⟨rfl, rfl⟩
    | some v => cases h
  | some w =>
    cases v with
    | none => cases h
    | some v =>
      obtain ⟨y, -, h⟩ := except_bind_ok.1 h
      cases h
      exact ⟨rfl, rfl⟩

theorem IrState.step_ret (m : List IrFunction) (hrest : F.rest = []) (hterm : F.term = .ret v) :
    IrState.step host m ⟨F :: fs, M, out⟩ = returnValue F.locals F.func.ret v >>= fun x =>
      returnTo x fs >>= fun fs' => .ok ⟨fs', M, if fs.isEmpty then x else out⟩ := by
  unfold IrState.step
  simp only [hrest, hterm]
  rfl

theorem TaggedState.step_ret (m : List IrFunction) (hrest : F.rest = [])
    (hterm : F.term = .ret v) :
    TaggedState.step R host m ⟨⟨F :: fs, M, out⟩, g :: gs, S, label⟩ =
      returnValue F.locals F.func.ret v >>= fun x => returnTo x fs >>= fun fs' =>
        .ok ⟨⟨fs', M, if fs.isEmpty then x else out⟩,
          labelReturn (v.map fun v => g.label v.2) fs gs, S,
          if fs.isEmpty then (v.map fun v => g.label v.2).getD 0 else label⟩ := by
  have hstep : TaggedState.step R host m ⟨⟨F :: fs, M, out⟩, g :: gs, S, label⟩ =
      IrState.step host m ⟨F :: fs, M, out⟩ >>= fun values =>
        .ok ⟨values, labelReturn (v.map fun v => g.label v.2) fs gs, S,
          if fs.isEmpty then (v.map fun v => g.label v.2).getD 0 else label⟩ := by
    unfold TaggedState.step
    simp only [hrest, hterm]
    rfl
  rw [hstep, IrState.step_ret m hrest hterm]
  cases returnValue F.locals F.func.ret v with
  | error e => rfl
  | ok x =>
    simp only [except_ok_bind]
    cases returnTo x fs <;> rfl

theorem CodeState.step_ret (m : List CodeFunction) {s : CodeStore σ} (hrest : c.rest = [])
    (hterm : c.term = .ret v) :
    CodeState.step R host m ⟨c :: cs, s, out⟩ = returnValue c.locals c.func.ret v >>= fun x =>
      returnToCode x cs >>= fun cs' => .ok ⟨cs', s, if cs.isEmpty then x else out⟩ := by
  unfold CodeState.step
  simp only [hrest, hterm]
  rfl

theorem CallersRel.isEmpty_eq (h : CallersRel ret fs gs cs) : cs.isEmpty = fs.isEmpty := by
  cases h <;> rfl

theorem FrameRel.step_ret (h : FrameRel F g c F.code) (hcs : CallersRel F.func.ret fs gs cs)
    (m : List IrFunction) (hrest : F.rest = []) (hterm : F.term = .ret v) :
    ∃ k, 0 < k ∧ Related StateRel
      (TaggedState.step R host m ⟨⟨F :: fs, M, out⟩, g :: gs, S, label⟩)
      (CodeState.run R host (m.map IrFunction.instrument) k
        ⟨c :: cs, ⟨M, S, argTls, retvalTls⟩, out⟩) := by
  obtain ⟨blk, done, hblk, hbody, hblkTerm, hc⟩ := h.carries
  rw [hrest, List.append_nil] at hbody
  subst hbody
  have hcode : c.rest = TaintVisitor.visitTerminator F.func.shadow F.term ++ [] := by
    rw [h.rest, IrFrame.code, hrest, List.append_nil]
    rfl
  -- The label of the result is in the variable for it.
  obtain ⟨tls, htls, hlabel⟩ : ∃ tls, execCodes R host (fs.map IrFrame.site) [] c
      ⟨M, S, argTls, retvalTls⟩ (TaintVisitor.visitTerminator F.func.shadow F.term) =
        .ok ({ c with rest := [] }, ⟨M, S, argTls, tls⟩) ∧
      ∀ n, (v.map fun v => g.label v.2) = some n → tls = n := by
    rw [hterm]
    cases v with
    | none => exact ⟨retvalTls, rfl, fun n hn => by cases hn⟩
    | some v =>
      have hv := hc.eval_shadow (h.formed.term_usable (v := v.2) h.visited hblk
        (by rw [hblkTerm, hterm]; exact List.mem_cons_self))
      refine ⟨g.label v.2, ?_, fun n hn => Option.some.inj hn⟩
      simp only [TaintVisitor.visitTerminator, Option.toList_some, List.map_cons, List.map_nil]
      rw [execCodes_cons]
      simp only [execCode, hv, defined_some_bind]
      rfl
  have hstep : stepsOf (CodeState.step R host (m.map IrFunction.instrument)) 1
      ⟨{ c with rest := [] } :: cs, ⟨M, S, argTls, tls⟩, out⟩ =
        returnValue F.locals F.func.ret v >>= fun x => returnToCode x cs >>= fun cs' =>
          .ok ⟨cs', ⟨M, S, argTls, tls⟩, if fs.isEmpty then x else out⟩ := by
    rw [stepsOf_one, CodeState.step_ret (c := { c with rest := [] }) _ rfl (h.term.trans hterm),
      hc.func, hc.locals, hcs.isEmpty_eq]
    rfl
  have hrun : ∀ k, CodeState.run R host (m.map IrFunction.instrument)
      ((TaintVisitor.visitTerminator F.func.shadow F.term).length + (1 + k))
      ⟨c :: cs, ⟨M, S, argTls, retvalTls⟩, out⟩ =
        (returnValue F.locals F.func.ret v >>= fun x => returnToCode x cs >>= fun cs' =>
          .ok ⟨cs', ⟨M, S, argTls, tls⟩, if fs.isEmpty then x else out⟩) >>=
        CodeState.run R host (m.map IrFunction.instrument) k := by
    intro k
    rw [CodeState.run, stepsOf_add]
    change CodeState.run R host _ _ _ >>= _ = _
    rw [CodeState.run_codes _ (TaintVisitor.visitTerminator_codes F.func.shadow F.term) hcode,
      hcs.sites, htls]
    simp only [except_ok_bind]
    rw [stepsOf_add, hstep]
  have hpos : ∀ k, 0 < (TaintVisitor.visitTerminator F.func.shadow F.term).length + (1 + k) := by
    intro k
    omega
  rw [TaggedState.step_ret m hrest hterm]
  cases hx : returnValue F.locals F.func.ret v with
  | error e =>
    refine ⟨_, hpos 0, ?_⟩
    rw [hrun 0, hx]
    exact rfl
  | ok x =>
    obtain ⟨hxSome, hvSome⟩ := returnValue_isSome hx
    cases hfs : fs with
    | nil =>
      subst hfs
      cases hcs
      refine ⟨_, hpos 0, ?_⟩
      rw [hrun 0, hx]
      refine ⟨.nil, rfl, rfl, rfl, ?_⟩
      intro _ hsome
      change x.isSome at hsome
      rw [hxSome, ← hvSome] at hsome
      obtain ⟨u, rfl⟩ := Option.isSome_iff_exists.1 hsome
      exact hlabel _ rfl
    | cons F' fs' =>
      subst hfs
      have hlabelSome : (v.map fun v => g.label v.2).isSome = F.func.ret.isSome := by
        rw [Option.isSome_map, hvSome]
      obtain ⟨fs'', cs', k, cs'', hto, hcode, hk, hne, hstack⟩ :=
        hcs.returned hxSome hlabelSome R host out ⟨M, S, argTls, tls⟩ hlabel
          (m.map IrFunction.instrument)
      refine ⟨_, hpos k, ?_⟩
      rw [hrun k, hx]
      simp only [except_ok_bind, hto, hcode]
      change Related StateRel _ (CodeState.run R host _ k ⟨cs', ⟨M, S, argTls, tls⟩, out⟩)
      rw [hk]
      exact ⟨hstack, rfl, rfl, rfl, fun hnil => absurd hnil hne⟩

theorem TaggedState.step_call (m : List IrFunction)
    (hrest : F.rest = (id, .call callee args ret) :: rest) :
    TaggedState.step R host m ⟨⟨F :: fs, M, out⟩, g :: gs, S, label⟩ =
      defined m[callee]? >>= fun G => defined (argValues F.locals args) >>= fun xs =>
        G.start xs ret >>= fun F' =>
          .ok ⟨⟨F' :: F :: fs, M, out⟩, g.start args :: g :: gs, S, label⟩ := by
  unfold TaggedState.step IrState.step
  simp only [hrest]
  cases m[callee]? with
  | none => rfl
  | some G =>
    cases argValues F.locals args with
    | none => rfl
    | some xs =>
      simp only [defined_some_bind]
      cases G.start xs ret <;> rfl

theorem CodeState.step_call (m : List CodeFunction) {s : CodeStore σ}
    (hrest : c.rest = .app id (.call callee args ret) :: codes) :
    CodeState.step R host m ⟨c :: cs, s, out⟩ =
      defined m[callee]? >>= fun G => defined (argValues c.locals args) >>= fun xs =>
        G.start xs ret >>= fun c' => .ok ⟨c' :: c :: cs, s, out⟩ := by
  unfold CodeState.step
  simp only [hrest]
  rfl

theorem argValues_length {l : Locals} {args : List (Nat × IrValue)}
    (h : argValues l args = some xs) : xs.length = args.length := by
  induction args generalizing xs with
  | nil =>
    cases h
    rfl
  | cons a args ih =>
    simp only [argValues, List.mapM_cons, Option.bind_eq_bind, Option.bind_eq_some_iff] at h
    obtain ⟨x, -, ys, hys, h⟩ := h
    cases h
    exact congrArg (· + 1) (ih hys)

theorem IrFrame.code_call (hrest : F.rest = (id, .call callee args ret) :: rest) :
    F.code = args.zipIdx.map (fun x => Code.storeArgTls x.2 (F.func.shadow x.1.2)) ++
      .app id (.call callee args ret) :: (afterCall id ret ++ { F with rest := rest }.code) := by
  rw [IrFrame.code_cons hrest]
  cases ret with
  | none => simp [TaintVisitor.visitInst, TaintVisitor.visitCallSite, afterCall]
  | some w => simp [TaintVisitor.visitInst, TaintVisitor.visitCallSite, afterCall]

theorem IrFunction.WellFormed.shadowArgs_lt {G : IrFunction} (hG : G.WellFormed)
    (hk : k ∈ G.shadowArgs) : k < G.params := by
  obtain ⟨b, -, blk, hblk, hk⟩ := (G.mem_shadowArgs k).1 hk
  apply hG.params b blk hblk k
  unfold IrBlock.operands
  rcases hk with hk | hk
  · rcases List.mem_append.1 hk with hk | hk
    · obtain ⟨x, hx, hk⟩ := List.mem_flatMap.1 hk
      exact List.mem_append_left _ (List.mem_append_right _
        (List.mem_flatMap.2 ⟨x, hx, x.2.shadowOperands_subset _ hk⟩))
    · exact List.mem_append_right _ hk
  · exact List.mem_append_left _ (List.mem_append_left _ hk)

theorem IrFunction.WellFormed.entered {G : IrFunction} (hG : G.WellFormed) (xs : List Nat)
    {s : CodeStore σ} (hargs : ∀ k, k < xs.length → s.argTls k = g.args k)
    (hregs : ∀ j, g.regs j = 0) (type : Option Nat) (R : Reaction σ) (host : IrHost)
    (m : List CodeFunction) :
    (G.start xs type = .error .undefined ∧ G.instrument.start xs type = .error .undefined) ∨
      ∃ F c c', G.start xs type = .ok F ∧ G.instrument.start xs type = .ok c ∧
        F.func.ret = type ∧ FrameRel F g c' F.code ∧
        ∀ cs out, CodeState.run R host m G.shadowArgs.length ⟨c :: cs, s, out⟩ =
          .ok ⟨c' :: cs, s, out⟩ := by
  have hparams : G.instrument.params = G.params := rfl
  have hret : G.instrument.ret = G.ret := rfl
  unfold IrFunction.start CodeFunction.start
  rw [hparams, hret]
  by_cases htype : xs.length = G.params ∧ G.ret = type
  · rw [if_pos htype]
    cases hblk : G.blocks[0]? with
    | none =>
      rw [IrFunction.instrument_block_none hblk]
      exact .inl ⟨rfl, rfl⟩
    | some blk =>
      have hvisited := G.visitOrder_spec.2.2.1
      rw [hG.instrument_block hvisited hblk]
      refine .inr ⟨_, _, ⟨G.instrument, 0, G.blockCode blk, blk.term, .enter xs, fun _ => none,
        fun i => if i ∈ G.shadowArgs then some (s.argTls i) else none, fun _ => none⟩, rfl, rfl,
        htype.2, ⟨hG, hvisited, ⟨blk, [], hblk, rfl, rfl, ?_⟩, rfl, rfl⟩, ?_⟩
      · refine .start hG hblk rfl rfl rfl hregs ?_
        intro k hk
        have hlt := hG.shadowArgs_lt hk
        rw [← htype.1] at hlt
        exact (if_pos hk).trans (congrArg some (hargs k hlt))
      · intro cs out
        have hcalls : ∀ code ∈ G.shadowArgs.map Code.loadArgTls, ¬code.isCall := by
          intro code hcode
          obtain ⟨k, -, rfl⟩ := List.mem_map.1 hcode
          simp [Code.isCall]
        have hlen : G.shadowArgs.length = (G.shadowArgs.map Code.loadArgTls).length :=
          (List.length_map _).symm
        rw [hlen, CodeState.run_codes m hcalls rfl, execCodes_loadArgTls]
        rfl
  · rw [if_neg htype]
    exact .inl ⟨rfl, rfl⟩

theorem FrameRel.step_call (h : FrameRel F g c F.code) (hcs : CallersRel F.func.ret fs gs cs)
    (m : List IrFunction) (hm : ∀ f ∈ m, f.WellFormed)
    (hrest : F.rest = (id, .call callee args ret) :: rest) :
    ∃ k, 0 < k ∧ Related StateRel
      (TaggedState.step R host m ⟨⟨F :: fs, M, out⟩, g :: gs, S, label⟩)
      (CodeState.run R host (m.map IrFunction.instrument) k
        ⟨c :: cs, ⟨M, S, argTls, retvalTls⟩, out⟩) := by
  obtain ⟨blk, done, hblk, hbody, hterm, hc⟩ := h.carries
  have hcode := h.rest.trans (IrFrame.code_call hrest)
  rw [hrest] at hbody
  obtain ⟨before, after, p⟩ := IrFunction.exists_place h.visited hblk hbody
  have hroom : args.length ≤ argTlsSize := by
    apply h.formed.args F.block blk hblk id callee args ret
    rw [hbody]
    exact List.mem_append_right _ List.mem_cons_self
  have heval : ∀ k a, args[k]? = some a →
      c.eval (F.func.shadow a.2) = some ((g.start args).args (0 + k)) := by
    intro k a ha
    have hmem : a.2 ∈ (IrInst.call callee args ret).shadowOperands :=
      List.mem_map.2 ⟨a, List.mem_of_getElem? ha, rfl⟩
    rw [hc.eval_shadow (p.usable h.formed hmem), Nat.zero_add]
    simp only [LabelFrame.start, ha]
    rfl
  have hcalls : ∀ code ∈ args.zipIdx.map fun x => Code.storeArgTls x.2 (F.func.shadow x.1.2),
      ¬code.isCall := by
    intro code hcode
    obtain ⟨x, -, rfl⟩ := List.mem_map.1 hcode
    simp [Code.isCall]
  have hlen : (args.zipIdx.map fun x => Code.storeArgTls x.2 (F.func.shadow x.1.2)).length =
      args.length := by
    rw [List.length_map, List.length_zipIdx]
  have hcaller : FrameRel F g
      { c with rest := .app id (.call callee args ret) ::
          (afterCall id ret ++ { F with rest := rest }.code) }
      (.app id (.call callee args ret) :: (afterCall id ret ++ { F with rest := rest }.code)) := by
    refine ⟨h.formed, h.visited, ⟨blk, done, hblk, ?_, hterm, hc.withRest _⟩, h.term, rfl⟩
    rw [hbody, hrest]
  have hrun : ∀ k, CodeState.run R host (m.map IrFunction.instrument) (args.length + (1 + k))
      ⟨c :: cs, ⟨M, S, argTls, retvalTls⟩, out⟩ =
      (defined (m[callee]?.map IrFunction.instrument) >>= fun G =>
        defined (argValues F.locals args) >>= fun xs => G.start xs ret >>= fun c' =>
          .ok ⟨c' :: { c with rest := .app id (.call callee args ret) ::
              (afterCall id ret ++ { F with rest := rest }.code) } :: cs,
            ⟨M, S, writeLoop 0 (g.start args).args 0 args.length argTls, retvalTls⟩, out⟩) >>=
        CodeState.run R host (m.map IrFunction.instrument) k := by
    intro k
    rw [CodeState.run, stepsOf_add, ← hlen]
    change CodeState.run R host _ _ _ >>= _ = _
    rw [CodeState.run_codes _ hcalls hcode, execCodes_storeArgTls args 0 heval (by omega)]
    simp only [except_ok_bind]
    rw [stepsOf_add, stepsOf_one, CodeState.step_call _ hcaller.rest, List.getElem?_map, hlen,
      hc.locals]
  have hpos : ∀ k, 0 < args.length + (1 + k) := by
    intro k
    omega
  rw [TaggedState.step_call m hrest]
  cases hcallee : m[callee]? with
  | none =>
    refine ⟨_, hpos 0, ?_⟩
    rw [hrun 0, hcallee]
    exact rfl
  | some G =>
    cases hxs : argValues F.locals args with
    | none =>
      refine ⟨_, hpos 0, ?_⟩
      rw [hrun 0, hcallee, hxs]
      exact rfl
    | some xs =>
      have htls : ∀ k, k < xs.length →
          writeLoop 0 (g.start args).args 0 args.length argTls k = (g.start args).args k := by
        intro k hk
        rw [argValues_length hxs] at hk
        rw [writeLoop_eq]
        have hin : written 0 (g.start args).args args.length argTls (0 + k) = _ :=
          written_inside _ argTls hk
        rwa [Nat.zero_add] at hin
      have hregs : ∀ j, (g.start args).regs j = 0 := fun j => rfl
      rcases (hm G (List.mem_of_getElem? hcallee)).entered xs
          (s := ⟨M, S, writeLoop 0 (g.start args).args 0 args.length argTls, retvalTls⟩) htls hregs
          ret R host (m.map IrFunction.instrument) with
        ⟨hstart, hstart'⟩ | ⟨F', c', c'', hstart, hstart', hret, hframe, hloads⟩
      · refine ⟨_, hpos 0, ?_⟩
        rw [hrun 0, hcallee, hxs]
        simp only [defined_some_bind, Option.map_some, hstart, hstart']
        exact rfl
      · refine ⟨_, hpos G.shadowArgs.length, ?_⟩
        rw [hrun, hcallee, hxs]
        simp only [defined_some_bind, Option.map_some, hstart, hstart', except_ok_bind, hloads]
        refine ⟨.cons hframe ?_, rfl, rfl, rfl, ?_⟩
        · rw [hret]
          exact .cons hrest hcaller hcs
        · intro hnil
          cases hnil

theorem CodeState.step_done (m : List CodeFunction) {s : CodeState σ} (h : s.frames = []) :
    CodeState.step R host m s = .ok s := by
  unfold CodeState.step
  rw [h]

/-- Every step of the program and of its labels is some steps of the instrumented program. -/
theorem instrument_implements (R : Reaction σ) (host : IrHost) (m : List IrFunction)
    (hm : ∀ f ∈ m, f.WellFormed) :
    Implements StateRel (TaggedState.step R host m)
      (CodeState.step R host (m.map IrFunction.instrument)) := by
  rintro ⟨⟨frames, M, out⟩, labels, S, label⟩ ⟨codes, ⟨memory, store, argTls, retvalTls⟩, out'⟩
    ⟨hframes, hmemory, hlabels, hresult, hlabel⟩
  cases hmemory
  cases hlabels
  cases hresult
  cases hframes with
  | nil =>
    refine ⟨1, Nat.one_pos, ?_⟩
    rw [stepsOf_one, CodeState.step_done _ rfl]
    exact ⟨.nil, rfl, rfl, rfl, hlabel⟩
  | @cons g c fs gs cs F h hcs =>
    cases hrest : F.rest with
    | nil =>
      cases hterm : F.term with
      | ret v => exact h.step_ret hcs m hrest hterm
      | br t => exact h.step_jump hcs m hrest (by rw [hterm]; intro v hv; cases hv)
      | condBr q x y => exact h.step_jump hcs m hrest (by rw [hterm]; intro v hv; cases hv)
      | switch w q xs x => exact h.step_jump hcs m hrest (by rw [hterm]; intro v hv; cases hv)
    | cons x rest =>
      obtain ⟨id, i⟩ := x
      by_cases hi : ∃ callee args ret, i = .call callee args ret
      · obtain ⟨callee, args, ret, rfl⟩ := hi
        exact h.step_call hcs m hm hrest
      · exact h.step_inst hcs m hrest fun callee args ret he => hi ⟨callee, args, ret, he⟩

theorem StateRel.outcome_eq {s : TaggedState σ} {k : CodeState σ} (h : StateRel s k) :
    s.outcome = k.outcome := by
  obtain ⟨⟨frames, M, out⟩, labels, S, label⟩ := s
  obtain ⟨codes, ⟨memory, store, argTls, retvalTls⟩, out'⟩ := k
  obtain ⟨hframes, hmemory, hlabels, hresult, hlabel⟩ := h
  cases hmemory
  cases hlabels
  cases hresult
  cases hframes with
  | nil =>
    cases out with
    | none => rfl
    | some x =>
      cases hlabel rfl rfl
      rfl
  | cons => rfl

theorem CodeState.step_outcome (m : List CodeFunction) {s : CodeState σ} {o : Outcome σ}
    (h : s.outcome = some o) : CodeState.step R host m s = .ok s := by
  apply CodeState.step_done
  unfold CodeState.outcome at h
  cases hs : s.frames with
  | nil => rfl
  | cons c cs =>
    rw [hs] at h
    cases h

/-- How the program with its labels ends, if it can be started. -/
def TaggedEnds (R : Reaction σ) (host : IrHost) (m : List IrFunction) (main : IrFunction)
    (args : List Nat) (memory : IrMemory) (S : LabelStore σ) (o : Except Stop (Outcome σ)) : Prop :=
  match TaggedState.start main args memory S with
  | .ok s => EndsIn (TaggedState.step R host m) TaggedState.outcome s o
  | .error e => o = .error e

/-- How the instrumented program ends, if it can be started. -/
def CodeEnds (R : Reaction σ) (host : IrHost) (m : List CodeFunction) (main : CodeFunction)
    (args : List Nat) (memory : IrMemory) (S : LabelStore σ) (o : Except Stop (Outcome σ)) : Prop :=
  match CodeState.start main args memory S with
  | .ok s => EndsIn (CodeState.step R host m) CodeState.outcome s o
  | .error e => o = .error e

theorem IrFunction.WellFormed.started {main : IrFunction} (hmain : main.WellFormed)
    (R : Reaction σ) (host : IrHost) (m : List CodeFunction) (args : List Nat)
    (memory : IrMemory) (S : LabelStore σ) :
    Related (fun s c => ∃ k c', CodeState.run R host m k c = .ok c' ∧ StateRel s c')
      (TaggedState.start main args memory S)
      (CodeState.start main.instrument args memory S) := by
  have hret : main.instrument.ret = main.ret := rfl
  unfold TaggedState.start CodeState.start IrState.start
  rw [hret]
  rcases hmain.entered args (g := ⟨fun _ => 0, fun _ => 0, fun _ => 0⟩)
      (s := ⟨memory, S, fun _ => 0, 0⟩) (fun _ _ => rfl) (fun _ => rfl) main.ret R host m with
    ⟨hstart, hstart'⟩ | ⟨F, c, c', hstart, hstart', -, hframe, hloads⟩
  · rw [hstart, hstart']
    exact rfl
  · rw [hstart, hstart']
    refine ⟨_, _, hloads [] none, .cons hframe .nil, rfl, rfl, rfl, ?_⟩
    intro hnil
    cases hnil

theorem codeEnds_iff (R : Reaction σ) (host : IrHost) (m : List IrFunction)
    (hm : ∀ f ∈ m, f.WellFormed) (main : IrFunction) (hmain : main ∈ m) (args : List Nat)
    (memory : IrMemory) (S : LabelStore σ) (o : Except Stop (Outcome σ)) :
    CodeEnds R host (m.map IrFunction.instrument) main.instrument args memory S o ↔
      TaggedEnds R host m main args memory S o := by
  have hstarted := (hm main hmain).started R host (m.map IrFunction.instrument) args memory S
  unfold CodeEnds TaggedEnds
  cases hs : TaggedState.start main args memory S with
  | error e =>
    cases hc : CodeState.start main.instrument args memory S with
    | error e' =>
      rw [hs, hc] at hstarted
      cases hstarted
      exact Iff.rfl
    | ok c =>
      rw [hs, hc] at hstarted
      exact hstarted.elim
  | ok s =>
    cases hc : CodeState.start main.instrument args memory S with
    | error e' =>
      rw [hs, hc] at hstarted
      exact hstarted.elim
    | ok c =>
      rw [hs, hc] at hstarted
      obtain ⟨k, c', hk, hrel⟩ := hstarted
      have hends := (instrument_implements R host m hm).endsIn_iff hrel
        (fun _ _ => StateRel.outcome_eq) (fun _ _ => CodeState.step_outcome _) o
      exact (EndsIn.of_steps (fun _ _ => CodeState.step_outcome _) hk o).trans hends.symm

/-- What the two programs have in common: the activations with their values, the memory, and all
that the runtime keeps. -/
structure SameView (s : TaggedState σ) (c : CodeState σ) : Prop where
  blocks : c.frames.map (fun f => (f.func.name, f.block)) =
    s.values.frames.map fun f => (f.func.name, f.block)
  locals : c.frames.map CodeFrame.locals = s.values.frames.map IrFrame.locals
  memory : c.store.memory = s.values.memory
  labels : c.store.labels = s.store
  outcome : c.outcome = s.outcome

theorem FrameRel.agrees (h : FrameRel F g c code) :
    (c.func.name, c.block) = (F.func.name, F.block) ∧ c.locals = F.locals := by
  obtain ⟨_, _, -, -, -, hc⟩ := h.carries
  refine ⟨?_, hc.locals⟩
  rw [h.name, h.block]

theorem CallersRel.agrees (h : CallersRel ret fs gs cs) :
    cs.map (fun f => (f.func.name, f.block)) = fs.map (fun f => (f.func.name, f.block)) ∧
      cs.map CodeFrame.locals = fs.map IrFrame.locals := by
  induction h with
  | nil => exact ⟨rfl, rfl⟩
  | cons _ hf _ ih =>
    exact ⟨congrArg₂ (· :: ·) hf.agrees.1 ih.1, congrArg₂ (· :: ·) hf.agrees.2 ih.2⟩

theorem StateRel.agrees {s : TaggedState σ} {k : CodeState σ} (h : StateRel s k) :
    SameView s k := by
  have hout := h.outcome_eq.symm
  obtain ⟨⟨frames, M, out⟩, labels, S, label⟩ := s
  obtain ⟨codes, ⟨memory, store, argTls, retvalTls⟩, out'⟩ := k
  have hframes : StackRel frames labels codes := h.frames
  cases hframes with
  | nil => exact ⟨rfl, rfl, h.memory, h.labels, hout⟩
  | cons hf hcs =>
    exact ⟨congrArg₂ (· :: ·) hf.agrees.1 hcs.agrees.1, congrArg₂ (· :: ·) hf.agrees.2 hcs.agrees.2,
      h.memory, h.labels, hout⟩

/-- The instrumented program follows the program with its labels through every run, finite or not:
after any number of steps there is a later point of the instrumented run at which both have the
same activations, values, memory, shadow memory, table and solver state, or have stopped with the
same error. -/
theorem instrument_simulates (R : Reaction σ) (host : IrHost) (m : List IrFunction)
    (hm : ∀ f ∈ m, f.WellFormed) (main : IrFunction) (hmain : main ∈ m) (args : List Nat)
    (memory : IrMemory) (S : LabelStore σ) :
    Related (fun s c => ∀ n, ∃ k, n ≤ k ∧ Related SameView (TaggedState.run R host m n s)
        (CodeState.run R host (m.map IrFunction.instrument) k c))
      (TaggedState.start main args memory S)
      (CodeState.start main.instrument args memory S) := by
  have hstarted := (hm main hmain).started R host (m.map IrFunction.instrument) args memory S
  revert hstarted
  cases TaggedState.start main args memory S with
  | error e => cases CodeState.start main.instrument args memory S <;> exact id
  | ok s =>
    cases CodeState.start main.instrument args memory S with
    | error e => exact id
    | ok c =>
      rintro ⟨k, c', hk, hrel⟩ n
      obtain ⟨k', hle, hr⟩ := (instrument_implements R host m hm).run hrel n
      refine ⟨k + k', by omega, ?_⟩
      have hadd : CodeState.run R host (m.map IrFunction.instrument) (k + k') c =
          CodeState.run R host (m.map IrFunction.instrument) k' c' := by
        rw [CodeState.run, stepsOf_add]
        change CodeState.run R host _ k c >>= _ = _
        rw [hk]
        rfl
      rw [hadd]
      exact hr.mono fun s c h => h.agrees

end

/-- A function that doubles a byte. -/
def doubleByte : IrFunction where
  name := "double_byte"
  params := 1
  ret := some 8
  blocks := [⟨[], [(0, .binary .Add 8 (.arg 0) (.arg 0))], .ret (some (8, .inst 0))⟩]

/-- A program that doubles the first byte of its input if it is an `A`. -/
def doubleA : IrFunction where
  name := "main"
  params := 0
  ret := some 8
  blocks := [
    ⟨[], [(0, .alloca 8), (1, .pread (.inst 0) (.const 1) (.const 0)), (2, .load 8 (.inst 0)),
      (3, .icmp .eq 8 (.inst 2) (.const 65))], .condBr (.inst 3) 1 2⟩,
    ⟨[], [(4, .call 0 [(8, .inst 2)] (some 8))], .br 3⟩,
    ⟨[], [], .br 3⟩,
    ⟨[⟨5, 8, [(1, .inst 4), (2, .inst 2)]⟩], [], .ret (some (8, .inst 5))⟩]

theorem doubleA_formed : ∀ f ∈ [doubleByte, doubleA], f.WellFormed := by
  intro f hf
  rcases List.mem_cons.1 hf with rfl | hf
  · exact .of_check (by decide)
  · cases List.mem_singleton.1 hf
    exact .of_check (by decide)

/-- One input byte with its label. -/
def oneByteStore : LabelStore SolverState where
  shadow _ := 0
  table := ((dfsanCreateLabel .initial 0).toOption.map Prod.snd).getD .initial
  solver := .start ⟨false, [65]⟩ .initial

def idleReaction : Reaction SolverState :=
  solverReaction .idle ⟨fun _ => true, fun _ => .full⟩ ⟨false, [65]⟩
    fun stack _ => (stack.length, 0)

theorem instrument_simulates_doubleA :
    Related (fun s c => ∀ n, ∃ k, n ≤ k ∧ Related SameView
        (TaggedState.run idleReaction ⟨fun _ => kAppAddr, [65]⟩ [doubleByte, doubleA] n s)
        (CodeState.run idleReaction ⟨fun _ => kAppAddr, [65]⟩
          ([doubleByte, doubleA].map IrFunction.instrument) k c))
      (TaggedState.start doubleA [] ⟨fun _ => 0, 0⟩ oneByteStore)
      (CodeState.start doubleA.instrument [] ⟨fun _ => 0, 0⟩ oneByteStore) :=
  instrument_simulates _ _ _ doubleA_formed _ (List.mem_cons_of_mem _ List.mem_cons_self) _ _ _

end Kirenenko
