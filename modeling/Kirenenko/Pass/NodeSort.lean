import Kirenenko.Pass.NodeValue

namespace Kirenenko
set_option autoImplicit true

/-- The sort that stands for an integer type; LLVM has no type of Booleans but `i1`. -/
def typeSort (w : Nat) : SmtSort := if w = 1 then .bool else .bv w

theorem typeSort_of_ne (h : w ≠ 1) : typeSort w = .bv w := if_neg h

/-- A computation that returns a term of a given sort. -/
def YieldsSort (σ : SmtSort) (x : Except ε Term) : Prop := ∃ e, x = .ok e ∧ e.sort = some σ

section
variable {z : Z3} {mem : Memory} {key : Nat → LabelKey} {k : LabelKey}
  {sub : Nat → Except Exn Term} {e1 e2 : Term}

theorem yieldsSort_checked : YieldsSort σ (checked e) ↔ e.sort = some σ := by
  constructor
  · rintro ⟨e', he, hσ⟩
    obtain ⟨rfl, _⟩ := checked_eq_ok.1 he
    exact hσ
  · intro hσ
    exact ⟨e, checked_eq_ok.2 ⟨rfl, σ, hσ⟩, hσ⟩

theorem yieldsSort_congr {x : Except ε Term} {y : Except ε' Term}
    (h : ∀ e, x = .ok e ↔ y = .ok e) : YieldsSort σ x ↔ YieldsSort σ y :=
  exists_congr fun e => and_congr_left fun _ => h e

theorem Term.sort_bin (op : BvOp) (h1 : e1.sort = some (.bv w)) (h2 : e2.sort = some (.bv w)) :
    (Term.bin op e1 e2).sort = some (.bv w) := by
  simp only [Term.sort, h1, h2, if_true]

theorem Term.sort_bin_bool (op : BvOp) (h1 : e1.sort = some .bool) :
    (Term.bin op e1 e2).sort = none := by
  simp only [Term.sort, h1]

theorem Term.sort_rel_bool (r : BvRel) (h1 : e1.sort = some .bool) :
    (Term.rel r e1 e2).sort = none := by
  simp only [Term.sort, h1]

theorem Term.sort_rel (r : BvRel) (h1 : e1.sort = some (.bv w)) (h2 : e2.sort = some (.bv w)) :
    (Term.rel r e1 e2).sort = some .bool := by
  simp only [Term.sort, h1, h2, if_true]

theorem Term.sort_logic (op : BoolOp) (h1 : e1.sort = some .bool) (h2 : e2.sort = some .bool) :
    (Term.logic op e1 e2).sort = some .bool := by
  simp only [Term.sort, h1, h2]

theorem Term.sort_eq (h1 : e1.sort = some σ) (h2 : e2.sort = some σ) :
    (Term.eq e1 e2).sort = some .bool := by
  simp only [Term.sort, h1, h2, if_true]

theorem Term.sort_distinct (h1 : e1.sort = some σ) (h2 : e2.sort = some σ) :
    (Term.distinct e1 e2).sort = some .bool := by
  simp only [Term.sort, h1, h2, if_true]

/-- On one bit there are only the Boolean connectives. -/
theorem commonTerm_binary {op : BinaryOps} (h1 : e1.sort = some (typeSort w))
    (h2 : e2.sort = some (typeSort w)) :
    YieldsSort (typeSort w) (commonTerm op.opcode.code w e1 e2) ↔
      (w = 1 → op = .And ∨ op = .Or ∨ op = .Xor) := by
  by_cases hw : w = 1
  · subst hw
    change e1.sort = some .bool at h1
    change e2.sort = some .bool at h2
    cases op with
    | And | Or =>
      refine iff_of_true (yieldsSort_checked.2 ?_) (by decide)
      exact Term.sort_logic _ h1 h2
    | Xor =>
      refine iff_of_true (yieldsSort_checked.2 ?_) (by decide)
      rw [if_pos h1]
      exact Term.sort_logic _ h1 h2
    | Add | Sub | Mul | UDiv | SDiv | URem | SRem | Shl | LShr | AShr =>
      refine iff_of_false ?_ (by decide)
      intro h
      have hs := yieldsSort_checked.1 h
      rw [Term.sort_bin_bool _ h1] at hs
      cases hs
  · refine iff_of_true ?_ fun h => absurd h hw
    rw [typeSort_of_ne hw] at h1 h2 ⊢
    have hne : e1.sort ≠ some .bool := by
      rw [h1]
      nofun
    cases op with
    | And | Or =>
      apply yieldsSort_checked.2
      rw [if_pos hw]
      exact Term.sort_bin _ h1 h2
    | Xor =>
      apply yieldsSort_checked.2
      rw [if_neg hne]
      exact Term.sort_bin _ h1 h2
    | Add | Sub | Mul | UDiv | SDiv | URem | SRem | Shl | LShr | AShr =>
      exact yieldsSort_checked.2 (Term.sort_bin _ h1 h2)

theorem getCmd_sort {p : IntPredicate} (h1 : e1.sort = some (typeSort w))
    (h2 : e2.sort = some (typeSort w)) :
    YieldsSort .bool (getCmd e1 e2 p.predicate.code) ↔ (w = 1 → p = .eq ∨ p = .ne) := by
  cases p with
  | eq =>
    exact iff_of_true (yieldsSort_checked.2 (Term.sort_eq h1 h2)) fun _ => .inl rfl
  | ne =>
    exact iff_of_true (yieldsSort_checked.2 (Term.sort_distinct h1 h2)) fun _ => .inr rfl
  | ugt | uge | ult | ule | sgt | sge | slt | sle =>
    refine yieldsSort_checked.trans ?_
    by_cases hw : w = 1
    · subst hw
      rw [Term.sort_rel_bool _ h1]
      exact iff_of_false nofun (by decide)
    · rw [typeSort_of_ne hw] at h1 h2
      exact iff_of_true (Term.sort_rel _ h1 h2) fun h => absurd h hw

/-- The labels of a record have terms of the sort of their type. -/
def OperandsSorted (sub : Nat → Except Exn Term) (w l1 l2 : Nat) : Prop :=
  ∀ l, l = l1 ∨ l = l2 → l ≠ 0 → YieldsSort (typeSort w) (sub l)

theorem operandTermOf_sort (hz : z.Lawful) (hk : k.size = w) (hw : w ≠ 0)
    (h : l ≠ 0 → YieldsSort (typeSort w) (sub l)) :
    YieldsSort (typeSort w) (operandTermOf z k l (.bvVal o w) o sub) := by
  unfold operandTermOf
  by_cases hl : l ≥ constOffset
  · rw [if_pos hl]
    obtain ⟨e, he, hs⟩ := h (Nat.ne_of_gt hl)
    exact ⟨z.simplify e, except_map_ok.2 ⟨e, he, rfl⟩, hz.simplify_sort _ _ hs⟩
  · rw [if_neg hl]
    refine ⟨_, rfl, ?_⟩
    unfold concreteOperand typeSort
    rw [hk]
    by_cases h1 : w = 1
    · rw [if_pos h1, if_pos h1]
      rfl
    · rw [if_neg h1, if_neg h1]
      exact Term.sort_bvVal_of_ne o hw

theorem nodeTerm_binary (mem : Memory) (key : Nat → LabelKey) (hz : z.Lawful)
    (hs : isSpecialOp k.op = false)
    (hC : k.op ≠ Operators.Concat.code) (hk : k.size = w) (hw : 1 ≤ w ∧ w ≤ 64)
    (h : OperandsSorted sub w k.l1 k.l2) :
    ∃ e1 e2, e1.sort = some (typeSort w) ∧ e2.sort = some (typeSort w) ∧
      ∀ e, nodeTerm z mem key k sub = .ok e ↔ commonTerm k.op w e1 e2 = .ok e := by
  have hm : k.size % 2 ^ 8 = w := by
    rw [hk]
    exact Nat.mod_eq_of_lt (by omega)
  have hw0 : w ≠ 0 := by omega
  obtain ⟨e1, he1, hs1⟩ := operandTermOf_sort (o := k.op1) hz hk hw0 (h k.l1 (.inl rfl))
  obtain ⟨e2, he2, hs2⟩ := operandTermOf_sort (o := k.op2) hz hk hw0 (h k.l2 (.inr rfl))
  refine ⟨e1, e2, hs1, hs2, fun e => ?_⟩
  rw [nodeTerm_common hs, leftWidth_common hC, rightWidth_common hC, hm, he1, he2, hk]
  constructor
  · rintro ⟨_, _, e1', e2', h1, h2, he⟩
    cases h1
    cases h2
    exact he
  · intro he
    exact ⟨hw0, hw0, e1, e2, rfl, rfl, he⟩

theorem OperandsSorted.canonical (h : OperandsSorted sub w k.l1 k.l2) :
    OperandsSorted sub w (canonical k).l1 (canonical k).l2 := by
  rcases canonical_cases k with ⟨e1, _, e2, _⟩ | ⟨_, e1, _, e2, _⟩
  · rw [e1, e2]
    exact h
  · rw [e1, e2]
    exact fun l hl => h l hl.symm

theorem binary_sort {op : BinaryOps} (hz : z.Lawful) (hw : 1 ≤ w ∧ w ≤ 64)
    (h : OperandsSorted sub w l1 l2) :
    YieldsSort (typeSort w)
        (nodeTerm z mem key (canonical ⟨l1, l2, op.opcode.code, w, x, y⟩) sub) ↔
      (w = 1 → op = .And ∨ op = .Or ∨ op = .Xor) := by
  obtain ⟨hs, hC, _⟩ := op.opcode_common
  obtain ⟨e1, e2, hs1, hs2, hnode⟩ := nodeTerm_binary mem key hz
    (by rw [canonical_op]; exact hs) (by rw [canonical_op]; exact hC) (canonical_size _) hw
    (OperandsSorted.canonical (k := ⟨l1, l2, op.opcode.code, w, x, y⟩) h)
  rw [canonical_op] at hnode
  rw [← commonTerm_binary hs1 hs2]
  exact yieldsSort_congr hnode

theorem cmp_sort {p : IntPredicate} (hz : z.Lawful) (hw : 1 ≤ w ∧ w ≤ 64)
    (h : OperandsSorted sub w l1 l2) :
    YieldsSort (typeSort 1) (nodeTerm z mem key (canonical ⟨l1, l2, cmpOp p, w, x, y⟩) sub) ↔
      (w = 1 → p = .eq ∨ p = .ne) := by
  obtain ⟨hs, hC, _, _, hcode, hpred⟩ := cmpOp_common p
  obtain ⟨e1, e2, hs1, hs2, hnode⟩ := nodeTerm_binary mem key hz
    (by rw [canonical_op]; exact hs) (by rw [canonical_op]; exact hC) (canonical_size _) hw
    (OperandsSorted.canonical (k := ⟨l1, l2, cmpOp p, w, x, y⟩) h)
  have hcmd : commonTerm (cmpOp p) w e1 e2 = getCmd e1 e2 p.predicate.code := by
    rw [commonTerm, hcode, hpred]
  rw [canonical_op, hcmd] at hnode
  rw [← getCmd_sort hs1 hs2]
  exact yieldsSort_congr hnode

theorem canonical_l2_ne (hc : isCommutative k.op) (h : k.l1 ≠ 0 ∨ k.l2 ≠ 0) :
    (canonical k).l2 ≠ 0 := by
  change (swapOperands k).l2 ≠ 0
  unfold swapOperands
  by_cases hlt : k.l1 > k.l2
  · rw [if_pos ⟨hlt, hc⟩]
    change k.l1 ≠ 0
    omega
  · rw [if_neg fun hs => hlt hs.1]
    omega

theorem not_sort (h : OperandsSorted sub 1 l1 l2) (hl : l1 ≠ 0 ∨ l2 ≠ 0) :
    YieldsSort (typeSort 1)
      (nodeTerm z mem key (canonical ⟨l1, l2, Operators.Not.code, 1, x, y⟩) sub) := by
  have hne := canonical_l2_ne (k := ⟨l1, l2, Operators.Not.code, 1, x, y⟩) rfl hl
  have hsorted := OperandsSorted.canonical (k := ⟨l1, l2, Operators.Not.code, 1, x, y⟩) h
  obtain ⟨e, he, hs⟩ := hsorted _ (.inr rfl) hne
  change e.sort = some .bool at hs
  have hnot : (Term.not e).sort = some .bool := by
    simp only [Term.sort, hs]
  refine ⟨.not e, (nodeTerm_not (canonical_op _)).2 ⟨hne, canonical_size _, e, he, ?_⟩, hnot⟩
  unfold lnotTerm
  rw [if_pos hs]
  exact checked_eq_ok.2 ⟨rfl, _, hnot⟩

end

/-- The casts that yield the sort of their type: not to one bit, not of a Boolean as a signed
number, and not from or to a pointer. -/
def CastOps.Sortable (op : CastOps) (w w' : Nat) : Prop :=
  match op with
  | .Trunc => w' ≠ 1
  | .ZExt => True
  | .SExt => w ≠ 1
  | .PtrToInt | .IntToPtr | .BitCast | .AddrSpaceCast => False

section
variable {z : Z3} {mem : Memory} {key : Nat → LabelKey} {sub : Nat → Except Exn Term} {e : Term}

theorem bvSize_of_sort (h : e.sort = some (.bv w)) : bvSize e = .ok w := by
  unfold bvSize
  rw [h]

theorem boolToBv_sort (h : e.sort = some (typeSort w)) :
    ∃ e', boolToBv e = .ok e' ∧ e'.sort = some (.bv w) := by
  unfold boolToBv
  by_cases h1 : w = 1
  · subst h1
    change e.sort = some .bool at h
    rw [if_pos h]
    have hs : (Term.ite e (.bvVal 1 1) (.bvVal 0 1)).sort = some (.bv 1) := by
      simp only [Term.sort, h, one_ne_zero, if_true, if_false]
    exact ⟨_, checked_eq_ok.2 ⟨rfl, _, hs⟩, hs⟩
  · rw [typeSort_of_ne h1] at h
    have hbool : e.sort ≠ some .bool := by
      intro hb
      cases h.symm.trans hb
    rw [if_neg hbool]
    exact ⟨e, rfl, h⟩

theorem extractTerm_sort (hs : e.sort = some (.bv w)) (hw : 1 ≤ w') (hlt : w' < w)
    (hw64 : w ≤ 64) : YieldsSort σ (extractTerm 0 w' e) ↔ σ = .bv w' := by
  have hw' : (0 + w' - 1) % 2 ^ 32 = w' - 1 := Nat.mod_eq_of_lt (by omega) |>.trans (by omega)
  unfold extractTerm
  rw [if_neg (by omega), hw', Nat.zero_mod, yieldsSort_checked]
  have hsort : (Term.extract (w' - 1) 0 e).sort = some (.bv w') := by
    simp only [Term.sort, hs]
    rw [if_pos ⟨Nat.zero_le _, by omega⟩]
    congr 2
    omega
  rw [hsort, Option.some.injEq, eq_comm]

theorem extendTerm_sort {f : Nat → Term → Term}
    (hf : ∀ k, (f k e).sort = some (.bv (w + k))) (hlt : w < w') :
    YieldsSort (typeSort w') (extendTerm f w' w e) ↔ w' ≠ 1 := by
  unfold extendTerm
  have hsort : (f (w' - w) e).sort = some (.bv w') := by
    rw [hf]
    congr 2
    omega
  rw [if_pos (Nat.le_of_lt hlt), yieldsSort_checked, hsort]
  by_cases h1 : w' = 1
  · rw [h1]
    exact iff_of_false nofun (by decide)
  · rw [typeSort_of_ne h1]
    exact iff_of_true rfl h1

theorem cast_sort {op : CastOps} (hw : 1 ≤ w ∧ w ≤ 64) (hw' : 1 ≤ w') (hvalid : op.Valid w w')
    (h : YieldsSort (typeSort w) (sub l1)) :
    YieldsSort (typeSort w')
        (nodeTerm z mem key (canonical ⟨l1, 0, op.opcode.code, w', x, 0⟩) sub) ↔
      op.Sortable w w' := by
  obtain ⟨base, hb, hs⟩ := h
  have hl := cast_canonical op l1 w' x
  cases op with
  | Trunc =>
    have hlt : w' < w := hvalid
    rw [typeSort_of_ne (by omega)] at hs
    have hnode : ∀ e, nodeTerm z mem key
        (canonical ⟨l1, 0, CastOps.Trunc.opcode.code, w', x, 0⟩) sub = .ok e ↔
          extractTerm 0 w' base = .ok e := by
      intro e
      rw [nodeTerm_trunc (canonical_op _), hl, hb, canonical_size]
      simp only [Except.ok.injEq, exists_eq_left']
    rw [yieldsSort_congr hnode, extractTerm_sort hs hw' hlt hw.2]
    by_cases h1 : w' = 1
    · rw [h1]
      exact iff_of_false (fun h => by cases h) (not_not.2 rfl)
    · rw [typeSort_of_ne h1]
      exact iff_of_true rfl h1
  | ZExt =>
    have hlt : w < w' := hvalid
    obtain ⟨base', hb', hs'⟩ := boolToBv_sort hs
    have hnode : ∀ e, nodeTerm z mem key
        (canonical ⟨l1, 0, CastOps.ZExt.opcode.code, w', x, 0⟩) sub = .ok e ↔
          extendTerm .zext w' w base' = .ok e := by
      intro e
      rw [nodeTerm_zext (canonical_op _), hl, hb, canonical_size]
      simp only [Except.ok.injEq, exists_and_left, exists_eq_left', hb', bvSize_of_sort hs']
    rw [yieldsSort_congr hnode]
    refine iff_of_true ((extendTerm_sort (fun k => ?_) hlt).2 (by omega)) trivial
    simp only [Term.sort, hs']
  | SExt =>
    have hlt : w < w' := hvalid
    by_cases h1 : w = 1
    · refine iff_of_false ?_ (not_not.2 h1)
      rintro ⟨e, he, _⟩
      obtain ⟨base', u, hb', hu, _⟩ := (nodeTerm_sext (canonical_op _)).1 he
      rw [hl, hb] at hb'
      cases hb'
      have hbv := bvSize_ok hu
      rw [hs, h1] at hbv
      cases hbv
    · rw [typeSort_of_ne h1] at hs
      have hnode : ∀ e, nodeTerm z mem key
          (canonical ⟨l1, 0, CastOps.SExt.opcode.code, w', x, 0⟩) sub = .ok e ↔
            extendTerm .sext w' w base = .ok e := by
        intro e
        rw [nodeTerm_sext (canonical_op _), hl, hb, canonical_size]
        simp only [Except.ok.injEq, exists_and_left, exists_eq_left', bvSize_of_sort hs]
      rw [yieldsSort_congr hnode]
      refine iff_of_true ((extendTerm_sort (fun k => ?_) hlt).2 (by omega)) h1
      simp only [Term.sort, hs]
  | PtrToInt | IntToPtr | BitCast | AddrSpaceCast =>
    refine iff_of_false ?_ id
    rintro ⟨e, he, _⟩
    refine absurd he (nodeTerm_unsupported ?_ ?_)
    · rw [canonical_op]
      rfl
    · rw [canonical_op]
      intro _ _ _ _ h
      cases h

end

end Kirenenko
