import Kirenenko.Runtime.Denotation

namespace Kirenenko
set_option autoImplicit true

section
variable {z : Z3} {mem : Memory} {key : Nat → LabelKey} {k : LabelKey}
  {sub : Nat → Except Exn Term}

/-- The operators that `serialize` treats before the common ones. -/
def isSpecialOp (op : Nat) : Bool :=
  op == 0 || [Operators.Load, .ZExt, .SExt, .Trunc, .Extract, .Not, .Neg, .fmemcmp, .fsize].any
    fun o => op == o.code

theorem checked_bvVal : checked (.bvVal v w) = .ok e ↔ w ≠ 0 ∧ e = .bvVal v w := by
  rw [checked_eq_ok]
  constructor
  · rintro ⟨rfl, σ, hσ⟩
    exact ⟨(Term.sort_inversion hσ).2, rfl⟩
  · rintro ⟨hw, rfl⟩
    exact ⟨rfl, _, Term.sort_bvVal_of_ne v hw⟩

/-- The term of a common operator: both constants are built, also when they are not used. -/
theorem nodeTerm_common (h : isSpecialOp k.op = false) :
    nodeTerm z mem key k sub = .ok e ↔
      leftWidth k (key k.l2).size ≠ 0 ∧
      rightWidth k (key k.l1).size (key k.l2).size ≠ 0 ∧
      ∃ e1 e2,
        operandTermOf z k k.l1 (.bvVal k.op1 (leftWidth k (key k.l2).size)) k.op1 sub = .ok e1 ∧
        operandTermOf z k k.l2
          (.bvVal k.op2 (rightWidth k (key k.l1).size (key k.l2).size)) k.op2 sub = .ok e2 ∧
        commonTerm k.op k.size e1 e2 = .ok e := by
  simp only [isSpecialOp, List.any_cons, List.any_nil, Bool.or_false, Bool.or_eq_false_iff,
    beq_eq_false_iff_ne] at h
  obtain ⟨h0, h1, h2, h3, h4, h5, h6, h7, h8, h9⟩ := h
  simp only [nodeTerm, if_neg h0, if_neg h1, if_neg h2, if_neg h3, if_neg h4, if_neg h5, if_neg h6,
    if_neg h7, if_neg h8, if_neg h9, except_bind_ok, ofZ3_eq_ok, checked_bvVal]
  constructor
  · rintro ⟨_, ⟨hw1, rfl⟩, e1, he1, _, ⟨hw2, rfl⟩, e2, he2, he⟩
    exact ⟨hw1, hw2, e1, e2, he1, he2, he⟩
  · rintro ⟨hw1, hw2, e1, e2, he1, he2, he⟩
    exact ⟨_, ⟨hw1, rfl⟩, e1, he1, _, ⟨hw2, rfl⟩, e2, he2, he⟩

theorem nodeTerm_unsupported (h : isSpecialOp k.op = false)
    (hop : ∀ size e1 e2 e, commonTerm k.op size e1 e2 ≠ .ok e) :
    nodeTerm z mem key k sub ≠ .ok e := by
  intro he
  obtain ⟨_, _, e1, e2, _, _, hc⟩ := (nodeTerm_common h).1 he
  exact hop k.size e1 e2 e hc

theorem nodeTerm_raw (h : k.op = 0) : nodeTerm z mem key k sub = ofZ3 (byteTerm k.op1) := by
  rw [nodeTerm, if_pos h]

theorem nodeTerm_load (h : k.op = Operators.Load.code) :
    nodeTerm z mem key k sub = ofZ3 (loadTerm (key k.l1).op1 (k.l2 - 1)) := by
  rw [nodeTerm, h, if_neg (by decide), if_pos rfl]

theorem nodeTerm_zext (h : k.op = Operators.ZExt.code) :
    nodeTerm z mem key k sub = .ok e ↔ ∃ base base' w, sub k.l1 = .ok base ∧
      boolToBv base = .ok base' ∧ bvSize base' = .ok w ∧
      extendTerm .zext k.size w base' = .ok e := by
  rw [nodeTerm, h, if_neg (by decide), if_neg (by decide), if_pos rfl]
  simp only [except_bind_ok, ofZ3_eq_ok, exists_and_left]

theorem nodeTerm_sext (h : k.op = Operators.SExt.code) :
    nodeTerm z mem key k sub = .ok e ↔ ∃ base w, sub k.l1 = .ok base ∧
      bvSize base = .ok w ∧ extendTerm .sext k.size w base = .ok e := by
  rw [nodeTerm, h, if_neg (by decide), if_neg (by decide), if_neg (by decide), if_pos rfl]
  simp only [except_bind_ok, ofZ3_eq_ok, exists_and_left]

theorem nodeTerm_trunc (h : k.op = Operators.Trunc.code) :
    nodeTerm z mem key k sub = .ok e ↔ ∃ base, sub k.l1 = .ok base ∧
      extractTerm 0 k.size base = .ok e := by
  rw [nodeTerm, h, if_neg (by decide), if_neg (by decide), if_neg (by decide),
    if_neg (by decide), if_pos rfl]
  simp only [except_bind_ok, ofZ3_eq_ok]

theorem nodeTerm_extract (h : k.op = Operators.Extract.code) :
    nodeTerm z mem key k sub = .ok e ↔ ∃ base, sub k.l1 = .ok base ∧
      extractTerm k.op2 k.size base = .ok e := by
  rw [nodeTerm, h, if_neg (by decide), if_neg (by decide), if_neg (by decide),
    if_neg (by decide), if_neg (by decide), if_pos rfl]
  simp only [except_bind_ok, ofZ3_eq_ok]

theorem nodeTerm_not (h : k.op = Operators.Not.code) :
    nodeTerm z mem key k sub = .ok e ↔ k.l2 ≠ 0 ∧ k.size = 1 ∧ ∃ base, sub k.l2 = .ok base ∧
      lnotTerm base = .ok e := by
  rw [nodeTerm, h, if_neg (by decide), if_neg (by decide), if_neg (by decide),
    if_neg (by decide), if_neg (by decide), if_neg (by decide), if_pos rfl]
  by_cases hg : k.l2 = 0 ∨ k.size ≠ 1
  · rw [if_pos hg]
    constructor
    · intro he
      cases he
    · rintro ⟨h2, h1, _⟩
      rcases hg with hg | hg
      · exact (h2 hg).elim
      · exact (hg h1).elim
  · rw [if_neg hg]
    have h2 : k.l2 ≠ 0 := fun h => hg (.inl h)
    have h1 : k.size = 1 := by
      by_contra h
      exact hg (.inr h)
    simp only [except_bind_ok, ofZ3_eq_ok, h2, h1, ne_eq, not_false_eq_true, true_and]

theorem nodeTerm_memcmp (h : k.op = Operators.fmemcmp.code) :
    nodeTerm z mem key k sub = .ok e ↔ constOffset ≤ k.l2 ∧ ∃ e1 e2,
      memcmpTermOf mem k sub = .ok e1 ∧ sub k.l2 = .ok e2 ∧ memcmpTerm e1 e2 = .ok e := by
  rw [nodeTerm, h, if_neg (by decide), if_neg (by decide), if_neg (by decide), if_neg (by decide),
    if_neg (by decide), if_neg (by decide), if_neg (by decide), if_neg (by decide), if_pos rfl]
  by_cases hc : k.l2 < constOffset
  · simp only [except_bind_ok, if_pos hc, reduceCtorEq, and_false, exists_false, false_iff]
    rintro ⟨h2, _⟩
    omega
  · simp only [except_bind_ok, if_neg hc, ofZ3_eq_ok, Nat.le_of_not_lt hc, true_and,
      exists_and_left]

theorem extractTerm_value {e1 : Term} (env : Env) (hlo : lo + size ≤ 2 ^ 32)
    (he : extractTerm lo size e1 = .ok e) :
    e.sort = some (.bv size) ∧ e.eval env = e1.eval env / 2 ^ lo % 2 ^ size := by
  unfold extractTerm at he
  by_cases h0 : size = 0
  · rw [if_pos h0] at he
    cases he
  rw [if_neg h0, Nat.mod_eq_of_lt (by omega), Nat.mod_eq_of_lt (by omega)] at he
  obtain ⟨rfl, σ, hσ⟩ := checked_eq_ok.1 he
  obtain ⟨rfl, u, hu, hle, hlt⟩ := Term.sort_inversion hσ
  have hw : lo + size - 1 - lo + 1 = size := by omega
  rw [hw] at hσ
  refine ⟨hσ, ?_⟩
  rw [Term.eval, hw]

theorem getCmd_bool (h : getCmd a b p = .ok e) :
    e.sort = some .bool ∧ e.consts = a.consts ∪ b.consts := by
  unfold getCmd at h
  split at h
  all_goals first
    | (obtain ⟨rfl, σ, hσ⟩ := checked_eq_ok.1 h
       obtain ⟨rfl, _⟩ := Term.sort_inversion hσ
       exact ⟨hσ, rfl⟩)
    | cases h

/-- Every term of a computation has a sort. -/
def YieldsSorted (x : Except ε Term) : Prop := ∀ e, x = .ok e → ∃ σ, e.sort = some σ

theorem YieldsSorted.checked (e : Term) : YieldsSorted (checked e) := by
  intro e' he
  obtain ⟨rfl, hσ⟩ := checked_eq_ok.1 he
  exact hσ

theorem YieldsSorted.error (x : ε) : YieldsSorted (.error x : Except ε Term) := by
  intro e he
  cases he

theorem YieldsSorted.ofZ3 {x : Except Z3Exception Term} (h : YieldsSorted x) :
    YieldsSorted (ofZ3 x) :=
  fun e he => h e (ofZ3_eq_ok.1 he)

theorem YieldsSorted.bind {x : Except ε α} {f : α → Except ε Term} (h : ∀ a, YieldsSorted (f a)) :
    YieldsSorted (x >>= f) := by
  intro e he
  obtain ⟨a, _, ha⟩ := except_bind_ok.1 he
  exact h a e ha

theorem YieldsSorted.ite [Decidable c] {x y : Except ε Term} (hx : YieldsSorted x)
    (hy : YieldsSorted y) : YieldsSorted (if c then x else y) := by
  split
  · exact hx
  · exact hy

theorem YieldsSorted.byteTerm (offset : Nat) : YieldsSorted (byteTerm offset) :=
  .bind fun _ => .checked _

theorem YieldsSorted.loadTerm (offset k : Nat) : YieldsSorted (loadTerm offset k) := by
  cases k with
  | zero => exact .byteTerm offset
  | succ k => exact .bind fun _ => .bind fun _ => .checked _

theorem YieldsSorted.getCmd (a b : Term) (p : Nat) : YieldsSorted (getCmd a b p) := by
  unfold Kirenenko.getCmd
  split <;> first | exact .checked _ | exact .error _

theorem YieldsSorted.commonTerm (op size : Nat) (a b : Term) :
    YieldsSorted (commonTerm op size a b) := by
  unfold Kirenenko.commonTerm
  split <;> first | exact .checked _ | exact .getCmd _ _ _ | exact .error _

theorem YieldsSorted.fsizeTerm (op1 size : Nat) : YieldsSorted (fsizeTerm op1 size) := by
  intro e he
  obtain ⟨base, hb, he⟩ := except_bind_ok.1 he
  split at he
  · exact YieldsSorted.checked _ e he
  · cases he
    exact YieldsSorted.checked _ _ hb

theorem nodeTerm_sorted (h : nodeTerm z mem key k sub = .ok e) : ∃ σ, e.sort = some σ := by
  have hs : YieldsSorted (nodeTerm z mem key k sub) := by
    refine .ite (.ofZ3 (.byteTerm _)) (.ite (.ofZ3 (.loadTerm _ _)) ?_)
    refine .ite (.bind fun _ => .bind fun _ => .bind fun _ =>
      .ofZ3 (.ite (.checked _) (.error _))) ?_
    refine .ite (.bind fun _ => .bind fun _ => .ofZ3 (.ite (.checked _) (.error _))) ?_
    refine .ite (.bind fun _ => .ofZ3 (.ite (.error _) (.checked _))) ?_
    refine .ite (.bind fun _ => .ofZ3 (.ite (.error _) (.checked _))) ?_
    refine .ite (.ite (.error _) (.bind fun _ => .ofZ3 (.ite (.checked _) (.error _)))) ?_
    refine .ite (.ite (.error _) (.bind fun _ => .ofZ3 (.checked _))) ?_
    refine .ite (.bind fun _ => .ite (.error _) (.bind fun _ => .ofZ3 (.checked _))) ?_
    refine .ite (.ofZ3 (.fsizeTerm _ _)) ?_
    exact .bind fun _ => .bind fun _ => .bind fun _ => .bind fun _ => .ofZ3 (.commonTerm _ _ _ _)
  exact hs e h

end

end Kirenenko
