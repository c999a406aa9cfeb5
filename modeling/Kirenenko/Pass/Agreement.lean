import Kirenenko.Pass.NodeValue
import Kirenenko.Runtime.HashConsing

namespace Kirenenko
set_option autoImplicit true

/-- What can happen while an instrumented program runs: its instructions, and between them
labels being serialized or flagged by the branches. -/
inductive ShadowEvent where
  | instr (i : Instr)
  | serialize (label : Nat) (deps : Finset Nat)
  | flip (label : Nat)

inductive ShadowStep (z : Z3) (mem : Memory) (input : Int → UInt8) :
    ShadowState → ShadowEvent → ShadowState → Prop where
  | instr : execInstr input s i = .ok s' → ShadowStep z mem input s (.instr i) s'
  | serialize : label ≤ s.table.lastLabel →
      ShadowStep z mem input s (.serialize label deps)
        { s with table := finalState (serialize z mem (label + 1) label deps s.table) }
  | flip : label ≤ s.table.lastLabel →
      ShadowStep z mem input s (.flip label) { s with table := s.table.flip label }

section
variable {env : Env} {z : Z3} {mem : Memory} {t t' : LabelTable} {s s' : ShadowState}

/-- A register holds a value of its width, and the shadow agrees with the value. -/
structure SlotOk (env : Env) (z : Z3) (mem : Memory) (t : LabelTable) (r : Slot) : Prop where
  width : 1 ≤ r.width ∧ r.width ≤ 64
  value : r.value < 2 ^ r.width
  shadow : Agrees env z mem t r.label r.width r.value

theorem SlotOk.extends (h : SlotOk env z mem t r) (ho : Ordered t) (hg : Extends t t') :
    SlotOk env z mem t' r :=
  ⟨h.width, h.value, h.shadow.extends ho hg⟩

structure ShadowInv (env : Env) (z : Z3) (mem : Memory) (s : ShadowState) : Prop where
  inv : ∃ S, TableInv s.table S
  cached : WellCached z mem s.table
  regs : ∀ r ∈ s.regs, SlotOk env z mem s.table r

theorem ShadowInv.initial : ShadowInv env z mem .initial where
  inv := ⟨_, .initial⟩
  cached := .initial z mem
  regs _ h := by cases h

theorem ShadowInv.ordered (h : ShadowInv env z mem s) : Ordered s.table := by
  obtain ⟨S, hS⟩ := h.inv
  exact hS.ordered

theorem ShadowInv.push (h : ShadowInv env z mem s) (hinv : ∃ S, TableInv t S)
    (hg : Extends s.table t) (hc : WellCached z mem t) (hw : 1 ≤ w ∧ w ≤ 64) (hv : v < 2 ^ w)
    (hag : Agrees env z mem t (sh.getD 0) w v) : ShadowInv env z mem (s.push w v (sh, t)) where
  inv := hinv
  cached := hc
  regs r hr := by
    rcases List.mem_append.1 hr with hr | hr
    · exact (h.regs r hr).extends h.ordered hg
    · cases List.mem_singleton.1 hr
      exact ⟨hw, hv, hag⟩

theorem readOperand_ok (h : readOperand regs w a = some x) :
    (∃ v, a = .const v ∧ x = ⟨w, v % 2 ^ w, none⟩) ∨ x ∈ regs ∧ x.width = w := by
  cases a with
  | const v =>
    cases h
    exact .inl ⟨v, rfl, rfl⟩
  | reg r =>
    obtain ⟨hr, hw⟩ := Option.filter_eq_some_iff.1 h
    exact .inr ⟨List.mem_of_getElem? hr, of_decide_eq_true hw⟩

theorem ShadowInv.operand (h : ShadowInv env z mem s) (hw : 1 ≤ w ∧ w ≤ 64)
    (hr : readOperand s.regs w a = some x) :
    x.width = w ∧ SlotOk env z mem s.table x := by
  rcases readOperand_ok hr with ⟨v, _, rfl⟩ | ⟨hx, hxw⟩
  · exact ⟨rfl, hw, Nat.mod_lt _ (Nat.two_pow_pos w), .zero _ _⟩
  · exact ⟨hxw, h.regs x hx⟩

/-- A result is not labelled if no operand is, and else has the label of its record. -/
theorem combineShadows_ok (hS : TableInv t S) (hp : pos.resultWidth ≤ 64)
    (hL : pos.op op ≠ Operators.Load.code) (hF : pos.op op ≠ Operators.fsize.code)
    (h1 : v1.getD 0 ≤ t.lastLabel) (h2 : v2.getD 0 ≤ t.lastLabel)
    (hr : combineShadows t v1 v2 op pos = .ok (sh, t')) :
    (v1.getD 0 = 0 ∧ v2.getD 0 = 0) ∧ sh.getD 0 = 0 ∧ t' = t ∨
      ¬(v1.getD 0 = 0 ∧ v2.getD 0 = 0) ∧ sh.getD 0 ≠ 0 ∧
        UnionReturns t (pos.key v1 v2 op) (sh.getD 0) t' ∧
        t'.key (sh.getD 0) = canonical (pos.key v1 v2 op) := by
  unfold combineShadows at hr
  by_cases h0 : v1 = none ∧ v2 = none
  · rw [if_pos h0] at hr
    cases hr
    rw [h0.1, h0.2]
    exact .inl ⟨⟨rfl, rfl⟩, rfl, rfl⟩
  rw [if_neg h0, if_neg (by omega)] at hr
  obtain ⟨⟨l, t''⟩, hu, hr⟩ := except_bind_ok.1 hr
  cases hr
  have hconst : ConstUnion (swapOperands (pos.key v1 v2 op)) ↔ v1.getD 0 = 0 ∧ v2.getD 0 = 0 := by
    unfold ConstUnion constOffset
    rw [swapOperands_op]
    rcases swapOperands_cases (pos.key v1 v2 op) with ⟨e1, e2⟩ | ⟨_, e1, e2⟩
    · rw [e1, e2]
      exact ⟨fun h => ⟨h.1, Nat.lt_one_iff.1 h.2.1⟩, fun h => ⟨h.1, Nat.lt_one_iff.2 h.2, hF⟩⟩
    · rw [e1, e2]
      exact ⟨fun h => ⟨Nat.lt_one_iff.1 h.2.1, h.1⟩, fun h => ⟨h.2, Nat.lt_one_iff.2 h.1, hF⟩⟩
  by_cases hc : ConstUnion (swapOperands (pos.key v1 v2 op))
  · rw [taintUnion_eq, if_pos hc] at hu
    cases hu
    exact .inl ⟨hconst.1 hc, rfl, rfl⟩
  · have ha : Allocated t (pos.key v1 v2 op) := ⟨h1, fun _ => h2⟩
    have hret := hS.union_returns ha (ha.not_init hS.ordered hL) hu
    rcases hret.key with ⟨_, hc'⟩ | ⟨hl, hk⟩
    · exact absurd hc' hc
    · exact .inr ⟨fun h => hc (hconst.2 h), Nat.ne_of_gt hl, hret, hk⟩

theorem ShadowInv.combine (h : ShadowInv env z mem s)
    (hr : combineShadows s.table v1 v2 op pos = .ok (sh, t)) (hw : 1 ≤ w ∧ w ≤ 64) (hv : v < 2 ^ w)
    (hp : pos.resultWidth ≤ 64) (hL : pos.op op ≠ Operators.Load.code)
    (hF : pos.op op ≠ Operators.fsize.code)
    (h1 : Agrees env z mem s.table (v1.getD 0) w1 x1)
    (h2 : Agrees env z mem s.table (v2.getD 0) w2 x2)
    (hnode : ∀ key sub e, (∀ e, sub (v1.getD 0) = .ok e → HasValue env e w1 x1) →
      (∀ e, sub (v2.getD 0) = .ok e → HasValue env e w2 x2) →
      nodeTerm z mem key (canonical (pos.key v1 v2 op)) sub = .ok e → HasValue env e w v) :
    ShadowInv env z mem (s.push w v (sh, t)) := by
  obtain ⟨S, hS⟩ := h.inv
  rcases combineShadows_ok hS hp hL hF h1.label h2.label hr with ⟨_, h0, rfl⟩ | ⟨_, _, hret, _⟩
  · refine h.push h.inv (.refl _) h.cached hw hv ?_
    rw [h0]
    exact .zero w v
  · refine h.push hret.inv hret.grows (hret.cached z mem h.cached) hw hv (hret.agrees ?_)
    intro e he
    exact hnode _ _ e (h1.extends hS.ordered hret.grows).value
      (h2.extends hS.ordered hret.grows).value he

theorem BinaryOps.exec_lt {op : BinaryOps} (hx : x < 2 ^ w) (hy : y < 2 ^ w)
    (h : op.exec w x y = some v) : v < 2 ^ w := by
  rw [← BinaryOps.eval_bvOp hx hy h]
  exact BvOp.eval_lt _ _ _ _

theorem CastOps.exec_lt {op : CastOps} (hle : w ≤ 64) (hx : x < 2 ^ w) (hw : op.Valid w w') :
    op.exec w w' x < 2 ^ w' := by
  cases op with
  | Trunc | PtrToInt => exact Nat.mod_lt _ (Nat.two_pow_pos w')
  | ZExt => exact Nat.lt_of_lt_of_le hx (Nat.pow_le_pow_right (by decide) (Nat.le_of_lt hw))
  | IntToPtr =>
    obtain rfl : w' = 64 := hw
    exact Nat.lt_of_lt_of_le hx (Nat.pow_le_pow_right (by decide) hle)
  | BitCast =>
    obtain rfl : w = w' := hw
    exact hx
  | AddrSpaceCast =>
    obtain ⟨rfl, rfl⟩ : w = 64 ∧ w' = 64 := hw
    exact hx
  | SExt => exact unsigned_lt _ _

/-- Values of at most 64 bits survive the conversions of the instrumentation. -/
theorem value_mod (hw : 1 ≤ w ∧ w ≤ 64) (hx : x < 2 ^ w) : x % 2 ^ 64 = x :=
  Nat.mod_eq_of_lt (Nat.lt_of_lt_of_le hx (Nat.pow_le_pow_right (by decide) hw.2))

theorem width_mod (hw : 1 ≤ w ∧ w ≤ 64) : w % 2 ^ 8 = w := Nat.mod_eq_of_lt (by omega)

theorem ShadowInv.input (h : ShadowInv env z mem s) {input : Int → UInt8}
    (henv : env (.int ((o % 2 ^ 64).toNat % 2 ^ 32)) 8 = (input o).toNat)
    (hr : dfsanCreateLabel s.table o = .ok (l, t)) :
    ShadowInv env z mem (s.push 8 (input o).toNat (some l, t)) := by
  obtain ⟨S, hS⟩ := h.inv
  rcases hS.dfsanCreateLabel o with ⟨_, he⟩ | ⟨hroom, info, hinfo, he⟩
  · rw [he] at hr
    cases hr
  rw [he] at hr
  cases hr
  have hinv := hS.create hroom hinfo.key
  have hlt : (input o).toNat < 2 ^ 8 := (input o).toNat_lt
  have hg := extended_extends s.table info
  refine h.push ⟨_, hinv⟩ hg (h.cached.grow hS.ordered hg fun _ _ => extended_expr hinfo.expr)
    (by decide) hlt ⟨Nat.le_refl _, ?_⟩
  intro e he
  change termOf z mem (s.table.extended info) (s.table.lastLabel + 1) = .ok e at he
  have hlo : constOffset ≤ s.table.lastLabel + 1 := Nat.le_add_left _ _
  rw [termOf_eq hinv.ordered hlo (Nat.le_refl _), extended_key_new, hinfo.key, nodeTerm_raw rfl,
    ofZ3_eq_ok] at he
  obtain ⟨sym, hsym, he⟩ := except_bind_ok.1 he
  unfold intSymbol at hsym
  split at hsym
  · cases hsym
    obtain ⟨rfl, σ, hσ⟩ := checked_eq_ok.1 he
    refine ⟨.inl rfl, ?_⟩
    change env _ 8 % 2 ^ 8 = _
    rw [henv, Nat.mod_eq_of_lt hlt]
  · cases hsym

theorem isConstantOne_ok (h : isConstantOne w a = true)
    (hr : readOperand regs w a = some x) : x.label = 0 ∧ x.value = 1 := by
  cases a with
  | const v =>
    cases hr
    exact ⟨rfl, eq_of_beq h⟩
  | reg r => cases h

theorem ShadowInv.binary (h : ShadowInv env z mem s) (hz : z.Lawful) (hw : 1 ≤ w ∧ w ≤ 64)
    (ha : readOperand s.regs w a = some x) (hb : readOperand s.regs w b = some y)
    (hv : op.exec w x.value y.value = some v)
    (hr : combineBinaryOperatorShadows s.table op w a b x y = .ok (sh, t)) :
    ShadowInv env z mem (s.push w v (sh, t)) := by
  obtain ⟨hxw, _, hxv, hxs⟩ := h.operand hw ha
  obtain ⟨hyw, _, hyv, hys⟩ := h.operand hw hb
  rw [hxw] at hxv hxs
  rw [hyw] at hyv hys
  have hlt := BinaryOps.exec_lt hxv hyv hv
  unfold combineBinaryOperatorShadows binaryShadowOp at hr
  by_cases hnot : w = 1 ∧ op = .Xor ∧ (isConstantOne w b ∨ isConstantOne w a)
  · rw [if_pos hnot] at hr
    refine h.combine hr hw hlt hw.2 (by change Operators.Not.code ≠ _; decide)
      (by change Operators.Not.code ≠ _; decide) hxs hys ?_
    intro key sub e h1 h2 he
    obtain ⟨rfl, rfl, hone⟩ := hnot
    cases hv
    simp only [Position.key, Position.op, Position.size, Option.getD_some, value_mod hw hxv,
      value_mod hw hyv, width_mod hw] at he
    refine not_node ?_ h1 h2 he
    rcases hone with hone | hone
    · exact .inr (isConstantOne_ok hone hb)
    · exact .inl (isConstantOne_ok hone ha)
  · rw [if_neg hnot] at hr
    refine h.combine hr hw hlt hw.2 op.opcode_common.2.2.1 op.opcode_common.2.2.2 hxs hys ?_
    intro key sub e h1 h2 he
    simp only [Position.key, Position.op, Position.size, Option.getD_some, value_mod hw hxv,
      value_mod hw hyv, width_mod hw] at he
    exact binary_node hz hw hxv hyv hv h1 h2 he

theorem ShadowInv.cast (h : ShadowInv env z mem s) (hw : 1 ≤ w ∧ w ≤ 64)
    (hw' : 1 ≤ w' ∧ w' ≤ 64) (hvalid : op.Valid w w')
    (ha : readOperand s.regs w a = some x)
    (hr : combineCastInstShadows s.table op w w' x = .ok (sh, t)) :
    ShadowInv env z mem (s.push w' (op.exec w w' x.value) (sh, t)) := by
  obtain ⟨hxw, _, hxv, hxs⟩ := h.operand hw ha
  rw [hxw] at hxv hxs
  obtain ⟨hL, hF⟩ := op.opcode_cast
  refine h.combine hr hw' (CastOps.exec_lt hw.2 hxv hvalid) hw'.2 hL hF hxs (.zero 0 0) ?_
  intro key sub e h1 _ he
  simp only [Position.key, Position.op, Position.size, Option.getD_none, value_mod hw hxv,
    width_mod hw'] at he
  exact cast_node hw'.2 h1 he

theorem ShadowInv.icmp (h : ShadowInv env z mem s) (hz : z.Lawful) (hw : 1 ≤ w ∧ w ≤ 64)
    (ha : readOperand s.regs w a = some x) (hb : readOperand s.regs w b = some y)
    (hr : combineCmpInstShadows s.table p w x y = .ok (sh, t)) :
    ShadowInv env z mem (s.push 1 (p.exec w x.value y.value).toNat (sh, t)) := by
  obtain ⟨hxw, _, hxv, hxs⟩ := h.operand hw ha
  obtain ⟨hyw, _, hyv, hys⟩ := h.operand hw hb
  rw [hxw] at hxv hxs
  rw [hyw] at hyv hys
  refine h.combine hr (by decide) (bool_toNat_lt _) (by decide : (1 : Nat) ≤ 64)
    (cmpOp_common p).2.2.1 (cmpOp_ne_fsize p) hxs hys ?_
  intro key sub e h1 h2 he
  simp only [Position.key, Position.op, Position.size, Option.getD_some, value_mod hw hxv,
    value_mod hw hyv, width_mod hw] at he
  exact cmp_node hz hw hxv hyv h1 h2 he

theorem selectShadow_label (c x y : Slot) :
    (selectShadow c x y).getD 0 = if c.value = 1 then x.label else y.label := by
  unfold selectShadow
  by_cases he : x.shadow = y.shadow
  · rw [if_pos he]
    simp only [Slot.label, he, ite_self]
  · rw [if_neg he]
    rfl

theorem ShadowInv.select (h : ShadowInv env z mem s) (hw : 1 ≤ w ∧ w ≤ 64)
    (ha : readOperand s.regs w a = some x)
    (hb : readOperand s.regs w b = some y) (c : Slot) :
    ShadowInv env z mem
      (s.push w (if c.value = 1 then x.value else y.value) (selectShadow c x y, s.table)) := by
  obtain ⟨hxw, _, hxv, hxs⟩ := h.operand hw ha
  obtain ⟨hyw, _, hyv, hys⟩ := h.operand hw hb
  rw [hxw] at hxv hxs
  rw [hyw] at hyv hys
  have hsh := selectShadow_label c x y
  by_cases hc : c.value = 1
  · simp only [if_pos hc] at hsh ⊢
    refine h.push h.inv (.refl _) h.cached hw hxv ?_
    rw [hsh]
    exact hxs
  · simp only [if_neg hc] at hsh ⊢
    refine h.push h.inv (.refl _) h.cached hw hyv ?_
    rw [hsh]
    exact hys

theorem ShadowInv.exec (h : ShadowInv env z mem s) (hz : z.Lawful) {input : Int → UInt8}
    (henv : ∀ o, i = .input o →
      env (.int ((o % 2 ^ 64).toNat % 2 ^ 32)) 8 = (input o).toNat)
    (hr : execInstr input s i = .ok s') : ShadowInv env z mem s' := by
  cases execInstr_ok hr with
  | input hc => exact h.input (henv _ rfl) hc
  | binary hw hx hy hv hc => exact h.binary hz hw hx hy hv hc
  | cast hw hw' hvalid hx hc => exact h.cast hw hw' hvalid hx hc
  | icmp hw hx hy hc => exact h.icmp hz hw hx hy hc
  | select hw hx hy => exact h.select hw hx hy _

theorem ShadowInv.sameKeys (h : ShadowInv env z mem s) (hs : SameKeys s.table t)
    (hc : WellCached z mem t) : ShadowInv env z mem { s with table := t } where
  inv := by
    obtain ⟨S, hS⟩ := h.inv
    exact ⟨S, hS.sameKeys hs⟩
  cached := hc
  regs r hr := (h.regs r hr).extends h.ordered hs.extends

theorem ShadowInv.step (h : ShadowInv env z mem s) (hz : z.Lawful) {input : Int → UInt8}
    (henv : ∀ o, a = .instr (.input o) →
      env (.int ((o % 2 ^ 64).toNat % 2 ^ 32)) 8 = (input o).toNat)
    (hr : ShadowStep z mem input s a s') : ShadowInv env z mem s' := by
  obtain ⟨S, hS⟩ := h.inv
  cases hr with
  | instr hr => exact h.exec hz (fun o ho => henv o (by rw [ho])) hr
  | serialize hl => exact h.sameKeys (serialize_sameKeys hS hl) (h.cached.serialize hS.ordered hl)
  | flip hl => exact h.sameKeys (flip_sameKeys _ _) (h.cached.flip hS.ordered _)

theorem ShadowInv.steps (hz : z.Lawful) {input : Int → UInt8}
    (hr : Steps (ShadowStep z mem input) s as s') (h : ShadowInv env z mem s)
    (henv : ∀ o, ShadowEvent.instr (.input o) ∈ as →
      env (.int ((o % 2 ^ 64).toNat % 2 ^ 32)) 8 = (input o).toNat) : ShadowInv env z mem s' := by
  induction hr with
  | nil => exact h
  | cons hstep _ ih =>
    refine ih (h.step hz ?_ hstep) ?_
    · intro o ho
      exact henv o (by rw [ho]; exact List.mem_cons_self)
    · intro o ho
      exact henv o (List.mem_cons_of_mem _ ho)

end

/-- Symbolic and concrete execution agree: whatever `serialize` returns for the shadow of a
register evaluates, on the input that was read, to the value in the register. -/
theorem shadow_agrees_with_value {z : Z3} {mem : Memory} {input : Int → UInt8} {s : ShadowState}
    {slot : Slot} {r : Nat} (hz : z.Lawful) (hrun : Steps (ShadowStep z mem input) .initial as s)
    (henv : ∀ o, ShadowEvent.instr (.input o) ∈ as →
      env (.int ((o % 2 ^ 64).toNat % 2 ^ 32)) 8 = (input o).toNat)
    (hr : s.regs[r]? = some slot) (hl : slot.shadow = some l) (hf : l < fuel)
    (he : serialize z mem fuel l deps s.table = .ok (e, deps') t) :
    (e.sort = some (.bv slot.width) ∨ slot.width = 1 ∧ e.sort = some .bool) ∧
      e.eval env = slot.value := by
  have hinv := ShadowInv.steps hz hrun .initial henv
  have hag := (hinv.regs slot (List.mem_of_getElem? hr)).shadow
  rw [Slot.label, hl] at hag
  have hsim : Simulates (Coherent z mem s.table) (fun p e => p.1 = e)
      (serialize z mem fuel l deps) (termOf z mem s.table l) :=
    simulates_serialize hinv.ordered hag.label hf
  obtain ⟨_, e', ht, rfl⟩ := (hsim _ hinv.cached).1 _ _ he
  obtain ⟨hs, hv⟩ := hag.value _ ht
  exact ⟨hs, hv⟩

/-- An input byte compared with 10, and the outcome serialized once. -/
def compareEvents : List ShadowEvent :=
  [.instr (.input 4), .instr (.icmp .ult 8 (.reg 0) (.const 10)), .serialize 2 ∅]

theorem shadow_agrees_with_value_compare :
    ∃ s e deps t, Steps (ShadowStep .idle (fun _ => 0) fun _ => 7) .initial compareEvents s ∧
      s.regs[1]? = some ⟨1, 1, some 2⟩ ∧
      serialize .idle (fun _ => 0) 3 2 ∅ s.table = .ok (e, deps) t ∧
      e.eval (fun _ _ => 7) = 1 := by
  obtain ⟨s, h, hr, e, deps, t, he⟩ : ∃ s,
      Steps (ShadowStep .idle (fun _ => 0) fun _ => 7) .initial compareEvents s ∧
      s.regs[1]? = some ⟨1, 1, some 2⟩ ∧
      ∃ e deps t, serialize .idle (fun _ => 0) 3 2 ∅ s.table = .ok (e, deps) t :=
    ⟨_, .cons (.instr rfl) (.cons (.instr rfl) (.cons (.serialize (by decide)) .nil)), rfl, _, _, _,
      rfl⟩
  refine ⟨s, e, deps, t, h, hr, he, ?_⟩
  exact (shadow_agrees_with_value Z3.idle_lawful h (fun _ _ => rfl) hr rfl (by decide) he).2

end Kirenenko
