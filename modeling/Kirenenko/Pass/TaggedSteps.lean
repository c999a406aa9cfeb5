import Kirenenko.Pass.Refinement

namespace Kirenenko
set_option autoImplicit true

section
variable {σ : Type}

/-- What an instruction does to a program and its labels when it has a result. -/
inductive TaggedInst (R : Reaction σ) (host : IrHost) (slots : List Nat) (id : Nat)
    (stack : List TraceSite) (l : Locals) (m : IrMemory) (g : LabelFrame) (S : LabelStore σ) :
    IrInst → Locals → IrMemory → LabelFrame → LabelStore σ → Prop where
  | binary : 1 ≤ w ∧ w ≤ 64 → l.read w a = some x → l.read w b = some y →
      op.exec w x y = some v →
      combinedLabel S.table (g.label a) (g.label b) (binaryShadowOp op w a.operand b.operand)
        ⟨w, w, none, x, some y⟩ = .ok (label, t) →
      TaggedInst R host slots id stack l m g S (.binary op w a b) (l.set id v) m (g.set id label)
        { S with table := t }
  | cast : 1 ≤ w ∧ w ≤ 64 → 1 ≤ w' ∧ w' ≤ 64 → op.Valid w w' → l.read w a = some x →
      combinedLabel S.table (g.label a) 0 op.opcode.code ⟨w', w, none, x, none⟩ = .ok (label, t) →
      TaggedInst R host slots id stack l m g S (.cast op w w' a) (l.set id (op.exec w w' x)) m
        (g.set id label) { S with table := t }
  | icmp : 1 ≤ w ∧ w ≤ 64 → l.read w a = some x → l.read w b = some y →
      combinedLabel S.table (g.label a) (g.label b) Operators.ICmp.code
        ⟨1, w, some p, x, some y⟩ = .ok (label, t) →
      TaggedInst R host slots id stack l m g S (.icmp p w a b) (l.set id (p.exec w x y).toNat) m
        (g.set id label) { S with table := t }
  | select : 1 ≤ w ∧ w ≤ 64 → l.read 1 c = some k → l.read w a = some x → l.read w b = some y →
      S.trace R m.mem (.cond stack (g.label c) k) = .ok S' →
      TaggedInst R host slots id stack l m g S (.select w c a b)
        (l.set id (if k = 1 then x else y)) m
        (g.set id (if k = 1 then g.label a else g.label b)) S'
  | gep : l.read 64 base = some x → l.read 64 index = some y →
      TaggedInst R host slots id stack l m g S (.gep base index scale)
        (l.set id ((x + y * scale) % 2 ^ 64)) m (g.set id 0) S
  | promoted : id ∈ slots →
      TaggedInst R host slots id stack l m g S (.alloca w) ((l.set id 0).setVar id none) m
        (g.set id 0) S
  | alloca : id ∉ slots →
      TaggedInst R host slots id stack l m g S (.alloca w) (l.set id (host.place m.allocas))
        { m with allocas := m.allocas + 1 } (g.set id 0) S
  | loadVar : 1 ≤ w ∧ w ≤ 64 → variableOf slots ptr = some a → l.vars a = some v →
      TaggedInst R host slots id stack l m g S (.load w ptr) (l.set id v) m (g.set id (g.vars a)) S
  | load : 1 ≤ w ∧ w ≤ 64 → variableOf slots ptr = none → l.read 64 ptr = some p →
      appRange p (storeSize w) = some () →
      taintUnionLoad S.table (fun i => m.mem (p + i)) (fun i => S.shadow (p + i)) (storeSize w) =
        .ok (label, t) →
      TaggedInst R host slots id stack l m g S (.load w ptr)
        (l.set id (loadBytes m.mem p (storeSize w) % 2 ^ w)) m (g.set id label)
        { S with table := t }
  | storeVar : 1 ≤ w ∧ w ≤ 64 → l.read w v = some x → variableOf slots ptr = some a →
      TaggedInst R host slots id stack l m g S (.store w v ptr) (l.setVar a (some x)) m
        (g.setVar a (g.label v)) S
  | store : 1 ≤ w ∧ w ≤ 64 → l.read w v = some x → variableOf slots ptr = none →
      l.read 64 ptr = some p → appRange p (storeSize w) = some () →
      taintUnionStore S.table (g.label v) (fun i => S.shadow (p + i)) (storeSize w) =
        .ok (ls, t) →
      TaggedInst R host slots id stack l m g S (.store w v ptr) l
        { m with mem := storeBytes m.mem p (storeSize w) x } g
        { S with shadow := written p ls (storeSize w) S.shadow, table := t }
  | memset : l.read 64 dest = some p → l.read 8 v = some x → l.read 64 len = some n →
      appRange p n = some () →
      TaggedInst R host slots id stack l m g S (.memset dest v len) l
        { m with mem := written p (fun _ => UInt8.ofNat x) n m.mem } g
        { S with shadow := written p (fun _ => g.label v) n S.shadow }
  | memTransfer : l.read 64 dest = some p → l.read 64 src = some q → l.read 64 len = some n →
      appRange p n = some () → appRange q n = some () →
      TaggedInst R host slots id stack l m g S (.memTransfer dest src len) l
        { m with mem := written p (fun i => m.mem (q + i)) n m.mem } g
        { S with shadow := written p (fun i => S.shadow (q + i)) n S.shadow }
  | pread : l.read 64 buf = some p → l.read 64 count = some n → l.read 64 offset = some o →
      appRange p (preadResult host.content n o) = some () →
      TaggedInst R host slots id stack l m g S (.pread buf count offset)
        (l.set id (preadResult host.content n o))
        ⟨written p (fun i => host.content.getD (o + i) 0) (preadResult host.content n o) m.mem,
          m.allocas⟩
        (g.set id 0)
        ⟨written p (fun i => (o + i + constOffset) % 2 ^ 32) (preadResult host.content n o)
          S.shadow, S.table, S.solver⟩

/-- What a step does to a program and its labels: one instruction, a call, a return, or a jump with
the branches it tells the runtime of. -/
inductive TaggedStep (R : Reaction σ) (host : IrHost) (m : List IrFunction) :
    TaggedState σ → TaggedState σ → Prop where
  | inst {F : IrFrame} {id : Nat} : F.rest = (id, i) :: rest →
      TaggedInst R host F.func.promoted id (⟨F.func.name, F.block, some id⟩ :: fs.map IrFrame.site)
        F.locals M g S i l' M' g' S' →
      TaggedStep R host m ⟨⟨F :: fs, M, out⟩, g :: gs, S, label⟩
        ⟨⟨{ F with rest := rest, locals := l' } :: fs, M', out⟩, g' :: gs, S', label⟩
  | call {F : IrFrame} {id : Nat} : F.rest = (id, .call callee args ret) :: rest →
      m[callee]? = some G → argValues F.locals args = some xs → G.start xs ret = .ok F' →
      TaggedStep R host m ⟨⟨F :: fs, M, out⟩, g :: gs, S, label⟩
        ⟨⟨F' :: F :: fs, M, out⟩, g.start args :: g :: gs, S, label⟩
  | ret {F : IrFrame} : F.rest = [] → F.term = .ret v → returnValue F.locals F.func.ret v = .ok x →
      returnTo x fs = .ok fs' →
      TaggedStep R host m ⟨⟨F :: fs, M, out⟩, g :: gs, S, label⟩
        ⟨⟨fs', M, if fs.isEmpty then x else out⟩,
          labelReturn (v.map fun v => g.label v.2) fs gs, S,
          if fs.isEmpty then (v.map fun v => g.label v.2).getD 0 else label⟩
  | jump {F : IrFrame} : F.rest = [] → (∀ v, F.term ≠ .ret v) →
      F.term.traceCalls (⟨F.func.name, F.block, none⟩ :: fs.map IrFrame.site) F.locals g =
        .ok calls →
      calls.foldlM (LabelStore.trace R M.mem) S = .ok S' → F.term.target F.locals = .ok t →
      F.jump t = .ok F' →
      TaggedStep R host m ⟨⟨F :: fs, M, out⟩, g :: gs, S, label⟩
        ⟨⟨F' :: fs, M, out⟩, g.jump F t :: gs, S', label⟩
  | done {s : TaggedState σ} : s.values.frames = [] ∨ s.frames = [] → TaggedStep R host m s s

variable {R : Reaction σ} {host : IrHost} {l l' : Locals} {g g' : LabelFrame}
  {m m' : IrMemory} {S S' : LabelStore σ} {id : Nat}

/-- The two halves of an instruction read the same operands, and together they are the
instruction. -/
def HalvesAgree (R : Reaction σ) (host : IrHost) (slots : List Nat) (id : Nat)
    (stack : List TraceSite) (l : Locals) (m : IrMemory) (g : LabelFrame) (S : LabelStore σ)
    (i : IrInst) : Prop :=
  Agree (fun p q => TaggedInst R host slots id stack l m g S i q.1 q.2 p.1 p.2)
    (labelInst R host slots id stack l m.mem g S i) (execInst host slots id l m i)

section
variable {slots : List Nat} {stack : List TraceSite} {op : BinaryOps} {cast : CastOps}
  {a b c ptr v dest src len : IrValue}

theorem halvesAgree_binary : HalvesAgree R host slots id stack l m g S (.binary op w a b) := by
  refine .bind_right fun _ hw => .bind fun x hx => .bind fun y hy => ?_
  refine .bind_right fun v hv => .bind_left fun r hc => .ok ?_
  exact .binary (integerWidth_ok hw) (defined_ok.1 hx) (defined_ok.1 hy) (defined_ok.1 hv)
    (runtime_ok.1 hc)

theorem halvesAgree_cast : HalvesAgree R host slots id stack l m g S (.cast cast w w' a) := by
  refine .bind_right fun _ hw => .bind_right fun _ hw' => .bind_right fun _ hv => ?_
  refine .bind fun x hx => .bind_left fun r hc => .ok ?_
  have hvalid : cast.Valid w w' := by
    by_contra hn
    rw [if_neg hn] at hv
    cases hv
  exact .cast (integerWidth_ok hw) (integerWidth_ok hw') hvalid (defined_ok.1 hx) (runtime_ok.1 hc)

theorem halvesAgree_icmp : HalvesAgree R host slots id stack l m g S (.icmp p w a b) := by
  refine .bind_right fun _ hw => .bind fun x hx => .bind fun y hy => ?_
  refine .bind_left fun r hc => .ok ?_
  exact .icmp (integerWidth_ok hw) (defined_ok.1 hx) (defined_ok.1 hy) (runtime_ok.1 hc)

theorem halvesAgree_select : HalvesAgree R host slots id stack l m g S (.select w c a b) := by
  refine .bind_right fun _ hw => .bind fun k hk => .bind_left fun S' ht => ?_
  refine .bind_right fun x hx => .bind_right fun y hy => .ok ?_
  exact .select (integerWidth_ok hw) (defined_ok.1 hk) (defined_ok.1 hx) (defined_ok.1 hy) ht

theorem halvesAgree_gep : HalvesAgree R host slots id stack l m g S (.gep a b scale) := by
  refine .bind_right fun x hx => .bind_right fun y hy => .ok ?_
  exact .gep (defined_ok.1 hx) (defined_ok.1 hy)

theorem halvesAgree_alloca : HalvesAgree R host slots id stack l m g S (.alloca w) := by
  unfold HalvesAgree
  rw [execInst]
  split
  · next hs => exact Agree.ok (.promoted hs)
  · next hs => exact Agree.ok (.alloca hs)

theorem halvesAgree_load : HalvesAgree R host slots id stack l m g S (.load w ptr) := by
  refine .bind_right fun _ hw => ?_
  simp only [labelInst]
  cases hv : variableOf slots ptr with
  | some a =>
    refine .bind_right fun x hx => .ok ?_
    exact .loadVar (integerWidth_ok hw) hv (defined_ok.1 hx)
  | none =>
    refine .bind fun p hp => .bind fun _ hr => .bind_left fun r hc => .ok ?_
    exact .load (integerWidth_ok hw) hv (defined_ok.1 hp) (defined_ok.1 hr) (runtime_ok.1 hc)

theorem halvesAgree_store : HalvesAgree R host slots id stack l m g S (.store w v ptr) := by
  refine .bind_right fun _ hw => .bind_right fun x hx => ?_
  simp only [labelInst]
  cases hv : variableOf slots ptr with
  | some a => exact .ok (.storeVar (integerWidth_ok hw) (defined_ok.1 hx) hv)
  | none =>
    refine .bind fun p hp => .bind fun _ hr => .bind_left fun r hc => .ok ?_
    exact .store (integerWidth_ok hw) (defined_ok.1 hx) hv (defined_ok.1 hp) (defined_ok.1 hr)
      (runtime_ok.1 hc)

theorem halvesAgree_memset : HalvesAgree R host slots id stack l m g S (.memset dest v len) := by
  refine .bind fun p hp => .bind_right fun x hx => .bind fun n hn => .bind fun _ hr => .ok ?_
  exact .memset (defined_ok.1 hp) (defined_ok.1 hx) (defined_ok.1 hn) (defined_ok.1 hr)

theorem halvesAgree_memTransfer :
    HalvesAgree R host slots id stack l m g S (.memTransfer dest src len) := by
  refine .bind fun p hp => .bind fun q hq => .bind fun n hn => ?_
  refine .bind fun _ hr => .bind fun _ hr' => .ok ?_
  exact .memTransfer (defined_ok.1 hp) (defined_ok.1 hq) (defined_ok.1 hn) (defined_ok.1 hr)
    (defined_ok.1 hr')

theorem halvesAgree_pread : HalvesAgree R host slots id stack l m g S (.pread a b c) := by
  refine .bind fun p hp => .bind fun n hn => .bind fun o ho => .bind fun _ hr => .ok ?_
  exact .pread (defined_ok.1 hp) (defined_ok.1 hn) (defined_ok.1 ho) (defined_ok.1 hr)

theorem halvesAgree (i : IrInst) : HalvesAgree R host slots id stack l m g S i := by
  cases i with
  | binary => exact halvesAgree_binary
  | cast => exact halvesAgree_cast
  | icmp => exact halvesAgree_icmp
  | select => exact halvesAgree_select
  | gep => exact halvesAgree_gep
  | alloca => exact halvesAgree_alloca
  | load => exact halvesAgree_load
  | store => exact halvesAgree_store
  | memset => exact halvesAgree_memset
  | memTransfer => exact halvesAgree_memTransfer
  | pread => exact halvesAgree_pread
  | call =>
    intro p q hp
    cases hp

end

theorem taggedStep_ok {m : List IrFunction} {s s' : TaggedState σ}
    (h : TaggedState.step R host m s = .ok s') :
    TaggedStep R host m s s' := by
  obtain ⟨⟨frames, M, out⟩, gs, S, label⟩ := s
  cases frames with
  | nil =>
    cases h
    exact .done (.inl rfl)
  | cons F fs =>
    cases gs with
    | nil =>
      cases h
      exact .done (.inr rfl)
    | cons g gs =>
      cases hrest : F.rest with
      | nil =>
        by_cases hret : ∀ v, F.term ≠ .ret v
        · rw [TaggedState.step_jump m hrest hret] at h
          obtain ⟨S', htraced, h⟩ := except_bind_ok.1 h
          obtain ⟨calls, hcalls, htraced⟩ := except_bind_ok.1 htraced
          obtain ⟨t, ht, h⟩ := except_bind_ok.1 h
          obtain ⟨F', hF', h⟩ := except_bind_ok.1 h
          cases h
          exact .jump hrest hret hcalls htraced ht hF'
        · obtain ⟨v, hv⟩ := not_forall_not.1 hret
          rw [TaggedState.step_ret m hrest hv] at h
          obtain ⟨x, hx, h⟩ := except_bind_ok.1 h
          obtain ⟨fs', hfs, h⟩ := except_bind_ok.1 h
          cases h
          exact .ret hrest hv hx hfs
      | cons p rest =>
        obtain ⟨id, i⟩ := p
        by_cases hi : ∀ callee args ret, i ≠ .call callee args ret
        · rw [TaggedState.step_inst m hrest hi] at h
          obtain ⟨⟨⟨g', S'⟩, l', M'⟩, hx, h⟩ := except_bind_ok.1 h
          cases h
          obtain ⟨⟨g₁, S₁⟩, hlabel, hx⟩ := except_bind_ok.1 hx
          obtain ⟨⟨l₁, M₁⟩, hexec, hx⟩ := except_bind_ok.1 hx
          cases hx
          exact .inst hrest (halvesAgree i _ _ hlabel hexec)
        · obtain ⟨callee, args, ret, rfl⟩ : ∃ callee args ret, i = .call callee args ret := by
            simpa only [not_forall, not_not] using hi
          rw [TaggedState.step_call m hrest] at h
          obtain ⟨G, hG, h⟩ := except_bind_ok.1 h
          obtain ⟨xs, hxs, h⟩ := except_bind_ok.1 h
          obtain ⟨F', hF', h⟩ := except_bind_ok.1 h
          cases h
          exact .call hrest (defined_ok.1 hG) (defined_ok.1 hxs) hF'

section
variable {F : IrFrame} {s : TaggedState σ} {m : List IrFunction} {M : IrMemory}

theorem TaggedStep.inst_inv (h : TaggedStep R host m ⟨⟨F :: fs, M, out⟩, g :: gs, S, label⟩ s)
    (hrest : F.rest = (id, i) :: rest) (hi : ∀ callee args ret, i ≠ .call callee args ret) :
    ∃ l' M' g' S', TaggedInst R host F.func.promoted id
        (⟨F.func.name, F.block, some id⟩ :: fs.map IrFrame.site) F.locals M g S i l' M' g' S' ∧
      s = ⟨⟨{ F with rest := rest, locals := l' } :: fs, M', out⟩, g' :: gs, S', label⟩ := by
  cases h with
  | inst hr hinst =>
    rw [hrest] at hr
    cases hr
    exact ⟨_, _, _, _, hinst, rfl⟩
  | call hr =>
    rw [hrest] at hr
    cases hr
    exact (hi _ _ _ rfl).elim
  | ret hr =>
    rw [hrest] at hr
    cases hr
  | jump hr =>
    rw [hrest] at hr
    cases hr
  | done hd => rcases hd with hd | hd <;> cases hd

theorem TaggedStep.call_inv (h : TaggedStep R host m ⟨⟨F :: fs, M, out⟩, g :: gs, S, label⟩ s)
    (hrest : F.rest = (id, .call callee args r) :: rest) :
    ∃ G xs F', m[callee]? = some G ∧ argValues F.locals args = some xs ∧
      G.start xs r = .ok F' ∧
      s = ⟨⟨F' :: F :: fs, M, out⟩, g.start args :: g :: gs, S, label⟩ := by
  cases h with
  | inst hr hinst =>
    rw [hrest] at hr
    cases hr
    cases hinst
  | call hr hG hx hs =>
    rw [hrest] at hr
    cases hr
    exact ⟨_, _, _, hG, hx, hs, rfl⟩
  | ret hr =>
    rw [hrest] at hr
    cases hr
  | jump hr =>
    rw [hrest] at hr
    cases hr
  | done hd => rcases hd with hd | hd <;> cases hd

theorem TaggedStep.ret_inv (h : TaggedStep R host m ⟨⟨F :: fs, M, out⟩, g :: gs, S, label⟩ s)
    (hrest : F.rest = []) (hterm : F.term = .ret v) :
    ∃ x fs', returnValue F.locals F.func.ret v = .ok x ∧ returnTo x fs = .ok fs' ∧
      s = ⟨⟨fs', M, if fs.isEmpty then x else out⟩, labelReturn (v.map fun v => g.label v.2) fs gs,
        S, if fs.isEmpty then (v.map fun v => g.label v.2).getD 0 else label⟩ := by
  cases h with
  | inst hr =>
    rw [hrest] at hr
    cases hr
  | call hr =>
    rw [hrest] at hr
    cases hr
  | ret _ ht hx hfs =>
    rw [hterm] at ht
    cases ht
    exact ⟨_, _, hx, hfs, rfl⟩
  | jump _ ht => exact (ht v hterm).elim
  | done hd => rcases hd with hd | hd <;> cases hd

theorem TaggedStep.jump_inv (h : TaggedStep R host m ⟨⟨F :: fs, M, out⟩, g :: gs, S, label⟩ s)
    (hrest : F.rest = []) (hterm : ∀ v, F.term ≠ .ret v) :
    ∃ calls S' t F', F.term.traceCalls (⟨F.func.name, F.block, none⟩ :: fs.map IrFrame.site)
        F.locals g = .ok calls ∧ calls.foldlM (LabelStore.trace R M.mem) S = .ok S' ∧
      F.term.target F.locals = .ok t ∧ F.jump t = .ok F' ∧
      s = ⟨⟨F' :: fs, M, out⟩, g.jump F t :: gs, S', label⟩ := by
  cases h with
  | inst hr =>
    rw [hrest] at hr
    cases hr
  | call hr =>
    rw [hrest] at hr
    cases hr
  | ret _ ht => exact (hterm _ ht).elim
  | jump _ _ hc hS ht hF => exact ⟨_, _, _, _, hc, hS, ht, hF, rfl⟩
  | done hd => rcases hd with hd | hd <;> cases hd

theorem TaggedStep.done_inv {s s' : TaggedState σ} (h : TaggedStep R host m s s')
    (hs : s.frames = []) : s' = s := by
  cases h with
  | done => rfl
  | _ => cases hs

end

end

end Kirenenko
