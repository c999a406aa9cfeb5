import Kirenenko.Runtime.DepsExact
import Kirenenko.Runtime.Slicing

namespace Kirenenko
set_option autoImplicit true

/-- Every record is of an operator on input bytes: none of them compares buffers or stands for the
size of the file. -/
def PlainRecords (t : LabelTable) : Prop :=
  ∀ l, constOffset ≤ l → l ≤ t.lastLabel →
    (t.key l).op ≠ Operators.fmemcmp.code ∧ (t.key l).op ≠ Operators.fsize.code

/-- A solver whose simplifier brings in no constant. -/
def Z3.KeepsConsts (z : Z3) : Prop := ∀ e, (z.simplify e).consts ⊆ e.consts

section
variable {z : Z3} {mem mem' : Memory} {t : LabelTable} {key : Nat → LabelKey} {k : LabelKey}
  {a b e : Term} {sub : Nat → Except Exn Term} {offsets : Nat → Finset Nat}

theorem PlainRecords.settled (h : PlainRecords t) (ho : Ordered t)
    (hzero : (t.key constLabel).op = 0) (hl : label ≤ t.lastLabel) : ComparesSettled t label := by
  intro c hc hop _
  by_cases hlo : constOffset ≤ c
  · exact ((h c hlo (Nat.le_trans (hc.le ho hl) hl)).1 hop).elim
  · have hc0 : c = constLabel := Nat.lt_one_iff.1 (Nat.lt_of_not_le hlo)
    rw [hc0, hzero] at hop
    cases hop

theorem nodeTerm_memory (h : k.op ≠ Operators.fmemcmp.code) :
    nodeTerm z mem key k sub = nodeTerm z mem' key k sub := by
  unfold nodeTerm
  simp only [if_neg h]

theorem termOf_memory (h : PlainRecords t) (ho : Ordered t) (hl : label ≤ t.lastLabel) :
    termOf z mem t label = termOf z mem' t label := by
  induction label using Nat.strong_induction_on with
  | _ label ih =>
    by_cases hc : label < constOffset
    · rw [termOf, if_pos (.inl hc), termOf, if_pos (.inl hc)]
    have hlo : constOffset ≤ label := Nat.le_of_not_lt hc
    have h1 := ho.l1 label hlo hl
    have h2 := ho.l2 label hlo hl
    rw [termOf_eq ho hlo hl, termOf_eq ho hlo hl, nodeTerm_memory (h label hlo hl).1]
    apply nodeTerm_congr ?_ ?_ rfl fun _ => rfl
    · intro _ _
      exact ih _ h1 (by omega)
    · intro _ hL
      have := h2 hL
      exact ih _ this (by omega)

theorem OverInputs.of_consts (h : OverInputs a S) (he : e.consts ⊆ a.consts) : OverInputs e S :=
  fun c hc => h c (he hc)

theorem OverInputs.union (ha : OverInputs a A) (hb : OverInputs b B)
    (he : e.consts = a.consts ∪ b.consts) : OverInputs e (A ∪ B) := by
  intro c hc
  rw [he] at hc
  rcases Finset.mem_union.1 hc with hc | hc
  · exact ha.mono Finset.subset_union_left c hc
  · exact hb.mono Finset.subset_union_right c hc

theorem OverInputs.of_concrete (he : e.consts = ∅) : OverInputs e S := by
  intro c hc
  rw [he] at hc
  cases hc

theorem byteTerm_overInputs (h : byteTerm o = .ok e) : OverInputs e {o % 2 ^ 32} := by
  obtain ⟨s, hs, h⟩ := except_bind_ok.1 h
  obtain ⟨rfl, _⟩ := checked_eq_ok.1 h
  unfold intSymbol at hs
  split at hs
  · cases hs
    intro c hc
    exact ⟨_, Finset.mem_singleton_self _, Finset.mem_singleton.1 hc⟩
  · cases hs

theorem loadTerm_overInputs (h : loadTerm o n = .ok e) : OverInputs e (loadDeps o n) := by
  induction n generalizing e with
  | zero => exact byteTerm_overInputs h
  | succ n ih =>
    obtain ⟨out, hout, h⟩ := except_bind_ok.1 h
    obtain ⟨byte, hbyte, h⟩ := except_bind_ok.1 h
    obtain ⟨rfl, _⟩ := checked_eq_ok.1 h
    rw [loadDeps_succ]
    exact (byteTerm_overInputs hbyte).union (ih hout) rfl

theorem operandTermOf_overInputs (hz : z.KeepsConsts)
    (hsub : ∀ e, sub l = .ok e → OverInputs e (offsets l))
    (h : operandTermOf z k l (.bvVal v w) op sub = .ok e) : OverInputs e (offsets l) := by
  unfold operandTermOf at h
  by_cases hl : l ≥ constOffset
  · rw [if_pos hl] at h
    obtain ⟨e', he', rfl⟩ := except_map_ok.1 h
    exact (hsub e' he').of_consts (hz e')
  · rw [if_neg hl] at h
    cases h
    unfold concreteOperand
    split <;> exact .of_concrete rfl

theorem nodeTerm_overInputs (hz : z.KeepsConsts)
    (hsub1 : ∀ e, sub k.l1 = .ok e → OverInputs e (offsets k.l1))
    (hsub2 : k.op ≠ Operators.Load.code → ∀ e, sub k.l2 = .ok e → OverInputs e (offsets k.l2))
    (hplain : k.op ≠ Operators.fmemcmp.code ∧ k.op ≠ Operators.fsize.code)
    (hn : nodeTerm z mem key k sub = .ok e) : OverInputs e (nodeOffsets key k offsets) := by
  by_cases hL : k.op = Operators.Load.code
  · rw [nodeTerm_load hL, ofZ3_eq_ok] at hn
    rw [nodeOffsets, if_neg (by rw [hL]; decide), if_pos hL]
    exact loadTerm_overInputs hn
  replace hsub2 := hsub2 hL
  by_cases h0 : k.op = 0
  · rw [nodeTerm_raw h0, ofZ3_eq_ok] at hn
    rw [nodeOffsets, if_pos h0]
    exact byteTerm_overInputs hn
  unfold nodeOffsets
  rw [if_neg h0, if_neg hL]
  by_cases hZ : k.op = Operators.ZExt.code
  · obtain ⟨base, base', w, hbase, hb, _, he⟩ := (nodeTerm_zext hZ).1 hn
    rw [if_pos hZ]
    have hbv := (hsub1 base hbase).of_consts (boolToBv_consts hb).subset
    exact hbv.of_consts (extendTerm_consts he fun _ _ => rfl).subset
  rw [if_neg hZ]
  by_cases hS : k.op = Operators.SExt.code
  · obtain ⟨base, w, hbase, _, he⟩ := (nodeTerm_sext hS).1 hn
    rw [if_pos hS]
    exact (hsub1 base hbase).of_consts (extendTerm_consts he fun _ _ => rfl).subset
  rw [if_neg hS]
  by_cases hT : k.op = Operators.Trunc.code
  · obtain ⟨base, hbase, he⟩ := (nodeTerm_trunc hT).1 hn
    rw [if_pos hT]
    exact (hsub1 base hbase).of_consts (extractTerm_consts he).subset
  rw [if_neg hT]
  by_cases hE : k.op = Operators.Extract.code
  · obtain ⟨base, hbase, he⟩ := (nodeTerm_extract hE).1 hn
    rw [if_pos hE]
    exact (hsub1 base hbase).of_consts (extractTerm_consts he).subset
  rw [if_neg hE]
  by_cases hN : k.op = Operators.Not.code
  · obtain ⟨_, _, base, hbase, he⟩ := (nodeTerm_not hN).1 hn
    rw [if_pos hN]
    exact (hsub2 base hbase).of_consts (lnotTerm_consts he).subset
  rw [if_neg hN]
  by_cases hM : k.op = Operators.Neg.code
  · rw [if_pos hM]
    rw [nodeTerm, if_neg h0, if_neg hL, if_neg hZ, if_neg hS, if_neg hT, if_neg hE, if_neg hN,
      if_pos hM] at hn
    split at hn
    · cases hn
    obtain ⟨base, hbase, hn⟩ := except_bind_ok.1 hn
    obtain ⟨rfl, _⟩ := checked_eq_ok.1 (ofZ3_eq_ok.1 hn)
    exact hsub2 base hbase
  rw [if_neg hM, if_neg hplain.1, if_neg hplain.2]
  have hspecial : isSpecialOp k.op = false := by
    simp only [isSpecialOp, List.any_cons, List.any_nil, Bool.or_false, Bool.or_eq_false_iff,
      beq_eq_false_iff_ne]
    exact ⟨h0, hL, hZ, hS, hT, hE, hN, hM, hplain.1, hplain.2⟩
  obtain ⟨_, _, e1, e2, he1, he2, he⟩ := (nodeTerm_common hspecial).1 hn
  exact (operandTermOf_overInputs hz hsub1 he1).union (operandTermOf_overInputs hz hsub2 he2)
    (commonTerm_consts he)

/-- The constants in the term of a label are the input bytes it is built on. -/
theorem termOf_overInputs (hz : z.KeepsConsts) (h : PlainRecords t) (ho : Ordered t)
    (hl : label ≤ t.lastLabel) (he : termOf z mem t label = .ok e) :
    OverInputs e (labelOffsets t label) := by
  induction label using Nat.strong_induction_on generalizing e with
  | _ label ih =>
    by_cases hc : label < constOffset
    · rw [termOf, if_pos (.inl hc)] at he
      cases he
    have hlo : constOffset ≤ label := Nat.le_of_not_lt hc
    have h1 := ho.l1 label hlo hl
    have h2 := ho.l2 label hlo hl
    rw [termOf_eq ho hlo hl] at he
    rw [labelOffsets_eq ho hlo hl]
    apply nodeTerm_overInputs hz ?_ ?_ (h label hlo hl) he
    · intro e he
      exact ih _ h1 (by omega) he
    · intro hL e he
      have := h2 hL
      exact ih _ this (by omega) he

end

end Kirenenko
