import Kirenenko.Pass.TermValue
import Kirenenko.Runtime.UnionSpec
import Kirenenko.Runtime.NodeTerm

namespace Kirenenko
set_option autoImplicit true

section
variable {env : Env} {z : Z3} {mem : Memory} {t t' : LabelTable}

/-- The term of a label, when it has one, takes the value on the given input. -/
structure Agrees (env : Env) (z : Z3) (mem : Memory) (t : LabelTable) (l w v : Nat) : Prop where
  label : l ≤ t.lastLabel
  value : ∀ e, termOf z mem t l = .ok e → HasValue env e w v

theorem Agrees.zero (w v : Nat) : Agrees env z mem t 0 w v where
  label := Nat.zero_le _
  value e he := by
    rw [termOf, if_pos (.inl (by decide))] at he
    cases he

theorem Agrees.extends (h : Agrees env z mem t l w v) (ho : Ordered t) (hg : Extends t t') :
    Agrees env z mem t' l w v where
  label := Nat.le_trans h.label hg.lastLabel
  value e he := h.value e ((hg.termOf ho h.label).symm.trans he)

theorem UnionReturns.agrees (h : UnionReturns t k l t')
    (hnode : ∀ e, nodeTerm z mem t'.key (canonical k) (termOf z mem t') = .ok e →
      HasValue env e w v) : Agrees env z mem t' l w v := by
  obtain ⟨S, hinv⟩ := h.inv
  rcases h.key with ⟨rfl, _⟩ | ⟨hl, hk⟩
  · exact .zero w v
  · refine ⟨h.label, ?_⟩
    intro e he
    rw [termOf_eq hinv.ordered hl h.label, hk] at he
    exact hnode e he

theorem canonical_cases (k : LabelKey) :
    ((canonical k).l1 = k.l1 ∧ (k.l1 = 0 → (canonical k).op1 = k.op1) ∧
      (canonical k).l2 = k.l2 ∧ (k.l2 = 0 → (canonical k).op2 = k.op2)) ∨
    isCommutative k.op ∧
      ((canonical k).l1 = k.l2 ∧ (k.l2 = 0 → (canonical k).op1 = k.op2) ∧
        (canonical k).l2 = k.l1 ∧ (k.l1 = 0 → (canonical k).op2 = k.op1)) := by
  have hz : ∀ l o : Nat, l = 0 → (if l ≥ constOffset then 0 else o) = o := by
    rintro l o rfl
    rfl
  unfold canonical zeroConcrete swapOperands
  by_cases hc : k.l1 > k.l2 ∧ isCommutative k.op
  · rw [if_pos hc]
    exact .inr ⟨hc.2, rfl, hz _ _, rfl, hz _ _⟩
  · rw [if_neg hc]
    exact .inl ⟨rfl, hz _ _, rfl, hz _ _⟩

theorem leftWidth_common (h : k.op ≠ Operators.Concat.code) (n : Nat) :
    leftWidth k n = k.size % 2 ^ 8 :=
  if_neg fun hc => h hc.1

theorem rightWidth_common (h : k.op ≠ Operators.Concat.code) (m n : Nat) :
    rightWidth k m n = k.size % 2 ^ 8 := by
  rw [rightWidth, if_neg fun hc => h hc.1, leftWidth_common h]

theorem operandTermOf_value (hz : z.Lawful) (hk : k.size = w) (hw : w ≠ 0)
    (hlt : x < 2 ^ w) (hc : l = 0 → o = x) (hag : ∀ e, sub l = .ok e → HasValue env e w x)
    (he : operandTermOf z k l (.bvVal o w) o sub = .ok e) : HasValue env e w x := by
  unfold operandTermOf at he
  by_cases hl : l ≥ constOffset
  · rw [if_pos hl] at he
    obtain ⟨e', hs, rfl⟩ := except_map_ok.1 he
    exact (hag e' hs).simplify hz
  · rw [if_neg hl] at he
    cases he
    have h0 : l = 0 := by
      unfold constOffset at hl
      omega
    obtain rfl := hc h0
    unfold concreteOperand
    by_cases h1 : k.size = 1
    · rw [if_pos h1]
      rw [h1] at hk
      subst hk
      refine ⟨.inr ⟨rfl, rfl⟩, ?_⟩
      have hx : o = 0 ∨ o = 1 := by omega
      rcases hx with rfl | rfl <;> rfl
    · rw [if_neg h1]
      exact ⟨.inl (Term.sort_bvVal_of_ne o hw), Nat.mod_eq_of_lt hlt⟩

theorem nodeTerm_operands (hz : z.Lawful) (hs : isSpecialOp k.op = false)
    (hC : k.op ≠ Operators.Concat.code) (hk : k.size = w) (hw : 1 ≤ w ∧ w ≤ 64)
    (hx : x < 2 ^ w) (hy : y < 2 ^ w) (hc1 : k.l1 = 0 → k.op1 = x) (hc2 : k.l2 = 0 → k.op2 = y)
    (h1 : ∀ e, sub k.l1 = .ok e → HasValue env e w x)
    (h2 : ∀ e, sub k.l2 = .ok e → HasValue env e w y)
    (he : nodeTerm z mem key k sub = .ok e) :
    ∃ e1 e2, HasValue env e1 w x ∧ HasValue env e2 w y ∧ commonTerm k.op w e1 e2 = .ok e := by
  obtain ⟨_, _, e1, e2, he1, he2, he⟩ := (nodeTerm_common hs).1 he
  have hm : k.size % 2 ^ 8 = w := by
    rw [hk]
    exact Nat.mod_eq_of_lt (by omega)
  rw [leftWidth_common hC, hm] at he1
  rw [rightWidth_common hC, hm] at he2
  rw [hk] at he
  exact ⟨e1, e2, operandTermOf_value hz hk (by omega) hx hc1 h1 he1,
    operandTermOf_value hz hk (by omega) hy hc2 h2 he2, he⟩

theorem BinaryOps.opcode_common (op : BinaryOps) :
    isSpecialOp op.opcode.code = false ∧ op.opcode.code ≠ Operators.Concat.code ∧
      op.opcode.code ≠ Operators.Load.code ∧ op.opcode.code ≠ Operators.fsize.code := by
  cases op <;> decide

theorem CastOps.opcode_cast (op : CastOps) :
    op.opcode.code ≠ Operators.Load.code ∧ op.opcode.code ≠ Operators.fsize.code := by
  cases op <;> decide

theorem BinaryOps.opcode_comm {op : BinaryOps} (h : isCommutative op.opcode.code = true) :
    op = .Add ∨ op = .Mul ∨ op = .And ∨ op = .Or ∨ op = .Xor := by
  cases op <;> revert h <;> decide

theorem binary_node {op : BinaryOps} (hz : z.Lawful) (hw : 1 ≤ w ∧ w ≤ 64)
    (hx : x < 2 ^ w) (hy : y < 2 ^ w) (hv : op.exec w x y = some v)
    (h1 : ∀ e, sub l1 = .ok e → HasValue env e w x)
    (h2 : ∀ e, sub l2 = .ok e → HasValue env e w y)
    (he : nodeTerm z mem key (canonical ⟨l1, l2, op.opcode.code, w, x, y⟩) sub = .ok e) :
    HasValue env e w v := by
  obtain ⟨hs, hC, _⟩ := op.opcode_common
  rcases canonical_cases ⟨l1, l2, op.opcode.code, w, x, y⟩ with
    ⟨e1, o1, e2, o2⟩ | ⟨hc, e1, o1, e2, o2⟩
  · obtain ⟨t1, t2, ht1, ht2, he⟩ := nodeTerm_operands hz (by rw [canonical_op]; exact hs)
      (by rw [canonical_op]; exact hC) (canonical_size _) hw hx hy (by rw [e1]; exact o1)
      (by rw [e2]; exact o2) (by rw [e1]; exact h1) (by rw [e2]; exact h2) he
    rw [canonical_op] at he
    exact commonTerm_value ht1 ht2 hv he
  · obtain ⟨t1, t2, ht1, ht2, he⟩ := nodeTerm_operands hz (by rw [canonical_op]; exact hs)
      (by rw [canonical_op]; exact hC) (canonical_size _) hw hy hx (by rw [e1]; exact o1)
      (by rw [e2]; exact o2) (by rw [e1]; exact h2) (by rw [e2]; exact h1) he
    rw [canonical_op] at he
    rw [BinaryOps.exec_comm (BinaryOps.opcode_comm hc)] at hv
    exact commonTerm_value ht1 ht2 hv he

def cmpOp (p : IntPredicate) : Nat := Operators.ICmp.code ||| (p.predicate.code <<< 8)

theorem cmpOp_common (p : IntPredicate) :
    isSpecialOp (cmpOp p) = false ∧ cmpOp p ≠ Operators.Concat.code ∧
      cmpOp p ≠ Operators.Load.code ∧ isCommutative (cmpOp p) = false ∧
      Operators.ofCode (cmpOp p % 2 ^ 8) = some .ICmp ∧ cmpOp p >>> 8 = p.predicate.code := by
  cases p <;> decide

theorem cmpOp_ne_fsize (p : IntPredicate) : cmpOp p ≠ Operators.fsize.code := by
  cases p <;> decide

theorem cmp_node {p : IntPredicate} (hz : z.Lawful) (hw : 1 ≤ w ∧ w ≤ 64)
    (hx : x < 2 ^ w) (hy : y < 2 ^ w)
    (h1 : ∀ e, sub l1 = .ok e → HasValue env e w x)
    (h2 : ∀ e, sub l2 = .ok e → HasValue env e w y)
    (he : nodeTerm z mem key (canonical ⟨l1, l2, cmpOp p, w, x, y⟩) sub = .ok e) :
    HasValue env e 1 (p.exec w x y).toNat := by
  obtain ⟨hs, hC, _, hcomm, hcode, hpred⟩ := cmpOp_common p
  rcases canonical_cases ⟨l1, l2, cmpOp p, w, x, y⟩ with ⟨e1, o1, e2, o2⟩ | ⟨hc, _⟩
  · obtain ⟨t1, t2, ht1, ht2, he⟩ := nodeTerm_operands hz (by rw [canonical_op]; exact hs)
      (by rw [canonical_op]; exact hC) (canonical_size _) hw hx hy (by rw [e1]; exact o1)
      (by rw [e2]; exact o2) (by rw [e1]; exact h1) (by rw [e2]; exact h2) he
    rw [canonical_op, commonTerm, hcode] at he
    simp only [hpred] at he
    exact getCmd_value ht1 ht2 he
  · rw [hcomm] at hc
    cases hc

/-- A 1-bit xor with true is recorded as a negation of its other operand. -/
theorem not_node (hone : l1 = 0 ∧ x = 1 ∨ l2 = 0 ∧ y = 1)
    (h1 : ∀ e, sub l1 = .ok e → HasValue env e 1 x)
    (h2 : ∀ e, sub l2 = .ok e → HasValue env e 1 y)
    (he : nodeTerm z mem key (canonical ⟨l1, l2, Operators.Not.code, 1, x, y⟩) sub = .ok e) :
    HasValue env e 1 (x ^^^ y) := by
  obtain ⟨hne, _, base, hb, hnot⟩ := (nodeTerm_not (canonical_op _)).1 he
  rcases canonical_cases ⟨l1, l2, Operators.Not.code, 1, x, y⟩ with
    ⟨_, _, e2, _⟩ | ⟨_, _, _, e2, _⟩
  · rw [e2] at hne hb
    rcases hone with ⟨_, rfl⟩ | ⟨h0, _⟩
    · rw [Nat.xor_comm]
      exact lnot_value (h2 _ hb) hnot
    · exact (hne h0).elim
  · rw [e2] at hne hb
    rcases hone with ⟨h0, _⟩ | ⟨_, rfl⟩
    · exact (hne h0).elim
    · exact lnot_value (h1 _ hb) hnot

theorem cast_canonical (op : CastOps) (l1 size op1 : Nat) :
    (canonical ⟨l1, 0, op.opcode.code, size, op1, 0⟩).l1 = l1 := by
  rcases canonical_cases ⟨l1, 0, op.opcode.code, size, op1, 0⟩ with ⟨h, _⟩ | ⟨h, _⟩
  · exact h
  · have hc : isCommutative op.opcode.code = false := by
      cases op <;> decide
    rw [hc] at h
    cases h

theorem bvSize_ok (h : bvSize e = .ok w) : e.sort = some (.bv w) := by
  unfold bvSize at h
  split at h
  · cases h
    assumption
  · cases h

theorem cast_node {op : CastOps} (hw' : w' ≤ 64)
    (h1 : ∀ e, sub l1 = .ok e → HasValue env e w x)
    (he : nodeTerm z mem key (canonical ⟨l1, 0, op.opcode.code, w', x, 0⟩) sub = .ok e) :
    HasValue env e w' (op.exec w w' x) := by
  have hl := cast_canonical op l1 w' x
  cases op with
  | Trunc =>
    obtain ⟨base, hb, he⟩ := (nodeTerm_trunc (canonical_op _)).1 he
    rw [hl] at hb
    rw [canonical_size] at he
    have hle : 0 + w' ≤ 2 ^ 32 := by omega
    obtain ⟨hs, hv⟩ := extractTerm_value env hle he
    refine ⟨.inl hs, hv.trans ?_⟩
    rw [(h1 _ hb).eval, Nat.pow_zero, Nat.div_one]
    rfl
  | ZExt =>
    obtain ⟨base, base', u, hb, hb', hu, he⟩ := (nodeTerm_zext (canonical_op _)).1 he
    rw [hl] at hb
    rw [canonical_size] at he
    obtain ⟨hs, hv⟩ := boolToBv_value (h1 _ hb) hb'
    exact zext_value (bvSize_ok hu) hv he
  | SExt =>
    obtain ⟨base, u, hb, hu, he⟩ := (nodeTerm_sext (canonical_op _)).1 he
    rw [hl] at hb
    rw [canonical_size] at he
    have hs := bvSize_ok hu
    obtain rfl := (h1 _ hb).width_eq hs
    exact sext_value hs (h1 _ hb).eval he
  | PtrToInt | IntToPtr | BitCast | AddrSpaceCast =>
    refine absurd he (nodeTerm_unsupported ?_ ?_)
    · rw [canonical_op]
      rfl
    · rw [canonical_op]
      exact fun _ _ _ _ => nofun

end

end Kirenenko
