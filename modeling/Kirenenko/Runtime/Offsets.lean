import Kirenenko.Runtime.NodeTerm

namespace Kirenenko
set_option autoImplicit true

/-- The offsets of the input bytes in the term of a record, given those of its operands. -/
def nodeOffsets (key : Nat → LabelKey) (k : LabelKey) (sub : Nat → Finset Nat) : Finset Nat :=
  if k.op = 0 then {k.op1 % 2 ^ 32}
  else if k.op = Operators.Load.code then loadDeps (key k.l1).op1 (k.l2 - 1)
  else if k.op = Operators.ZExt.code then sub k.l1
  else if k.op = Operators.SExt.code then sub k.l1
  else if k.op = Operators.Trunc.code then sub k.l1
  else if k.op = Operators.Extract.code then sub k.l1
  else if k.op = Operators.Not.code then sub k.l2
  else if k.op = Operators.Neg.code then sub k.l2
  else if k.op = Operators.fmemcmp.code then sub k.l1 ∪ sub k.l2
  else if k.op = Operators.fsize.code then ∅
  else sub k.l1 ∪ sub k.l2

/-- The offsets of the input bytes that a label is built on. -/
def labelOffsets (t : LabelTable) (label : Nat) : Finset Nat :=
  if label < constOffset then ∅
  else nodeOffsets t.key (t.key label) fun l => if _h : l < label then labelOffsets t l else ∅
termination_by label

/-- A set holds exactly the offsets whose symbols occur in a term. -/
def Mentions (e : Term) (offsets : Finset Nat) : Prop :=
  ∀ o, o ∈ offsets ↔ ∃ w, (Symbol.int o, w) ∈ e.consts

section
variable {t : LabelTable} {key : Nat → LabelKey} {k : LabelKey} {a b e : Term}

theorem nodeOffsets_congr (h1 : sub k.l1 = sub' k.l1)
    (h2 : k.op ≠ Operators.Load.code → sub k.l2 = sub' k.l2) (hk : key k.l1 = key' k.l1) :
    nodeOffsets key k sub = nodeOffsets key' k sub' := by
  unfold nodeOffsets
  by_cases hL : k.op = Operators.Load.code
  · simp only [if_pos hL, hk]
  · simp only [h1, h2 hL, hk]

theorem labelOffsets_const (h : label < constOffset) : labelOffsets t label = ∅ := by
  rw [labelOffsets, if_pos h]

theorem labelOffsets_eq (ho : Ordered t) (hl : constOffset ≤ label) (hlast : label ≤ t.lastLabel) :
    labelOffsets t label = nodeOffsets t.key (t.key label) (labelOffsets t) := by
  rw [labelOffsets, if_neg (Nat.not_lt.2 hl)]
  apply nodeOffsets_congr ?_ ?_ rfl
  · rw [dif_pos (ho.l1 label hl hlast)]
  · intro hL
    rw [dif_pos (ho.l2 label hl hlast hL)]

theorem Extends.labelOffsets (h : Extends t t') (ho : Ordered t) (ho' : Ordered t')
    (hl : label ≤ t.lastLabel) : labelOffsets t' label = labelOffsets t label := by
  induction label using Nat.strong_induction_on with
  | _ label ih =>
    by_cases hc : label < constOffset
    · rw [labelOffsets_const hc, labelOffsets_const hc]
    have hlo : constOffset ≤ label := Nat.le_of_not_lt hc
    have h1 := ho.l1 label hlo hl
    have h2 := ho.l2 label hlo hl
    rw [labelOffsets_eq ho hlo hl, labelOffsets_eq ho' hlo (Nat.le_trans hl h.lastLabel),
      h.key label hl]
    apply nodeOffsets_congr
    · exact ih _ h1 (by omega)
    · intro hL
      have := h2 hL
      exact ih _ this (by omega)
    · exact h.key _ (by omega)

theorem Mentions.of_consts (h : Mentions a A) (he : e.consts = a.consts) : Mentions e A := by
  intro o
  rw [he]
  exact h o

theorem Mentions.union (ha : Mentions a A) (hb : Mentions b B)
    (he : e.consts = a.consts ∪ b.consts) : Mentions e (A ∪ B) := by
  intro o
  simp only [Finset.mem_union, ha o, hb o, he, exists_or]

theorem Mentions.of_concrete (he : e.consts = ∅) : Mentions e ∅ := by
  intro o
  simp only [he, Finset.notMem_empty, exists_const]

theorem byteTerm_mentions (h : byteTerm o = .ok e) : Mentions e {o % 2 ^ 32} := by
  obtain ⟨s, hs, h⟩ := except_bind_ok.1 h
  obtain ⟨rfl, _⟩ := checked_eq_ok.1 h
  unfold intSymbol at hs
  split at hs
  · cases hs
    intro o'
    simp only [Term.consts, Finset.mem_singleton, Prod.mk.injEq, Symbol.int.injEq, exists_and_left,
      exists_eq, and_true]
  · cases hs

theorem loadDeps_succ (o k : Nat) :
    loadDeps o (k + 1) = {(o + (k + 1)) % 2 ^ 32} ∪ loadDeps o k := by
  rw [loadDeps, Finset.range_add_one, Finset.image_insert, Finset.insert_eq]
  rfl

theorem loadTerm_mentions (h : loadTerm o n = .ok e) : Mentions e (loadDeps o n) := by
  induction n generalizing e with
  | zero => exact byteTerm_mentions h
  | succ n ih =>
    obtain ⟨out, hout, h⟩ := except_bind_ok.1 h
    obtain ⟨byte, hbyte, h⟩ := except_bind_ok.1 h
    obtain ⟨rfl, _⟩ := checked_eq_ok.1 h
    rw [loadDeps_succ]
    exact (byteTerm_mentions hbyte).union (ih hout) rfl

theorem concreteTerm_consts (h : concreteTerm mem addr n = .ok e) : e.consts = ∅ := by
  induction n generalizing e with
  | zero =>
    obtain ⟨rfl, _⟩ := checked_eq_ok.1 h
    rfl
  | succ n ih =>
    obtain ⟨val, hval, h⟩ := except_bind_ok.1 h
    obtain ⟨byte, hbyte, h⟩ := except_bind_ok.1 h
    obtain ⟨rfl, _⟩ := checked_eq_ok.1 hbyte
    obtain ⟨rfl, _⟩ := checked_eq_ok.1 h
    rw [Term.consts, ih hval]
    rfl

theorem readConcrete_consts (h : readConcrete mem addr size = .ok e) : e.consts = ∅ := by
  unfold readConcrete at h
  split at h
  · cases h
  · exact concreteTerm_consts h

theorem boolToBv_consts (h : boolToBv a = .ok e) : e.consts = a.consts := by
  unfold boolToBv at h
  split at h
  · obtain ⟨rfl, _⟩ := checked_eq_ok.1 h
    simp only [Term.consts, Finset.union_empty]
  · cases h
    rfl

theorem extendTerm_consts {f : Nat → Term → Term} (h : extendTerm f size w a = .ok e)
    (hf : ∀ k a, (f k a).consts = a.consts) : e.consts = a.consts := by
  unfold extendTerm at h
  split at h
  · obtain ⟨rfl, _⟩ := checked_eq_ok.1 h
    exact hf _ _
  · cases h

theorem extractTerm_consts (h : extractTerm lo size a = .ok e) : e.consts = a.consts := by
  unfold extractTerm at h
  split at h
  · cases h
  · obtain ⟨rfl, _⟩ := checked_eq_ok.1 h
    rfl

theorem lnotTerm_consts (h : lnotTerm a = .ok e) : e.consts = a.consts := by
  unfold lnotTerm at h
  split at h
  · obtain ⟨rfl, _⟩ := checked_eq_ok.1 h
    rfl
  · cases h

theorem memcmpTerm_consts (h : memcmpTerm a b = .ok e) : e.consts = a.consts ∪ b.consts := by
  obtain ⟨rfl, _⟩ := checked_eq_ok.1 h
  simp only [Term.consts, Finset.union_empty]

theorem fsizeTerm_mentions (h : fsizeTerm op1 size = .ok e) : Mentions e ∅ := by
  have hc : e.consts = {(.str "fsize", size)} := by
    obtain ⟨base, hb, h⟩ := except_bind_ok.1 h
    obtain ⟨rfl, _⟩ := checked_eq_ok.1 hb
    split at h
    · obtain ⟨rfl, _⟩ := checked_eq_ok.1 h
      simp only [Term.consts, Finset.union_empty]
    · cases h
      rfl
  intro o
  simp only [hc, Finset.notMem_empty, Finset.mem_singleton, Prod.mk.injEq, reduceCtorEq, false_and,
    exists_const]

theorem commonTerm_consts (h : commonTerm op size a b = .ok e) :
    e.consts = a.consts ∪ b.consts := by
  unfold commonTerm at h
  cases ho : Operators.ofCode (op % 2 ^ 8) with
  | none =>
    rw [ho] at h
    cases h
  | some o =>
    rw [ho] at h
    cases o with
    | And | Or | Xor =>
      obtain ⟨rfl, _⟩ := checked_eq_ok.1 h
      split <;> rfl
    | Shl | LShr | AShr | Add | Sub | Mul | UDiv | SDiv | URem | SRem =>
      obtain ⟨rfl, _⟩ := checked_eq_ok.1 h
      rfl
    | ICmp => exact (getCmd_bool h).2
    | Concat =>
      obtain ⟨rfl, _⟩ := checked_eq_ok.1 h
      exact Finset.union_comm _ _
    | _ => cases h

theorem concreteOperand_consts (hv : checked (.bvVal v w) = .ok val) :
    (concreteOperand k val op).consts = ∅ := by
  obtain ⟨rfl, _⟩ := checked_eq_ok.1 hv
  unfold concreteOperand
  split <;> rfl

section
variable {mem : Memory} {sub : Nat → Except Exn Term} {offsets : Nat → Finset Nat}

theorem memcmpTermOf_mentions (hsub : ∀ e, sub k.l1 = .ok e → Mentions e (offsets k.l1))
    (hconst : k.l1 < constOffset → offsets k.l1 = ∅) (h : memcmpTermOf mem k sub = .ok e) :
    Mentions e (offsets k.l1) := by
  unfold memcmpTermOf at h
  by_cases hl : k.l1 ≥ constOffset
  · rw [if_pos hl] at h
    exact hsub e h
  · rw [if_neg hl] at h
    rw [hconst (Nat.lt_of_not_le hl)]
    exact .of_concrete (readConcrete_consts (ofZ3_eq_ok.1 h))

theorem operandTermOf_mentions (hsub : ∀ e, sub l = .ok e → Mentions e (offsets l))
    (hconst : l < constOffset → offsets l = ∅) (hv : checked (.bvVal v w) = .ok val)
    (h : operandTermOf .idle k l val op sub = .ok e) : Mentions e (offsets l) := by
  unfold operandTermOf at h
  by_cases hl : l ≥ constOffset
  · rw [if_pos hl] at h
    obtain ⟨e', he', rfl⟩ := except_map_ok.1 h
    exact hsub e' he'
  · rw [if_neg hl] at h
    cases h
    rw [hconst (Nat.lt_of_not_le hl)]
    exact .of_concrete (concreteOperand_consts hv)

theorem nodeTerm_mentions (hsub1 : ∀ e, sub k.l1 = .ok e → Mentions e (offsets k.l1))
    (hsub2 : k.op ≠ Operators.Load.code → ∀ e, sub k.l2 = .ok e → Mentions e (offsets k.l2))
    (hconst : ∀ l < constOffset, offsets l = ∅) (hn : nodeTerm .idle mem key k sub = .ok e) :
    Mentions e (nodeOffsets key k offsets) := by
  unfold nodeOffsets
  unfold nodeTerm at hn
  by_cases h : k.op = 0
  · rw [if_pos h] at hn ⊢
    exact byteTerm_mentions (ofZ3_eq_ok.1 hn)
  rw [if_neg h] at hn ⊢
  clear h
  by_cases h : k.op = Operators.Load.code
  · rw [if_pos h] at hn ⊢
    exact loadTerm_mentions (ofZ3_eq_ok.1 hn)
  rw [if_neg h] at hn ⊢
  replace hsub2 := hsub2 h
  clear h
  by_cases h : k.op = Operators.ZExt.code
  · rw [if_pos h] at hn ⊢
    obtain ⟨base, hbase, hn⟩ := except_bind_ok.1 hn
    obtain ⟨base', hbase', hn⟩ := except_bind_ok.1 hn
    obtain ⟨w, _, hn⟩ := except_bind_ok.1 hn
    have hb := (hsub1 base hbase).of_consts (boolToBv_consts (ofZ3_eq_ok.1 hbase'))
    exact hb.of_consts (extendTerm_consts (ofZ3_eq_ok.1 hn) fun _ _ => rfl)
  rw [if_neg h] at hn ⊢
  clear h
  by_cases h : k.op = Operators.SExt.code
  · rw [if_pos h] at hn ⊢
    obtain ⟨base, hbase, hn⟩ := except_bind_ok.1 hn
    obtain ⟨w, _, hn⟩ := except_bind_ok.1 hn
    exact (hsub1 base hbase).of_consts (extendTerm_consts (ofZ3_eq_ok.1 hn) fun _ _ => rfl)
  rw [if_neg h] at hn ⊢
  clear h
  by_cases h : k.op = Operators.Trunc.code
  · rw [if_pos h] at hn ⊢
    obtain ⟨base, hbase, hn⟩ := except_bind_ok.1 hn
    exact (hsub1 base hbase).of_consts (extractTerm_consts (ofZ3_eq_ok.1 hn))
  rw [if_neg h] at hn ⊢
  clear h
  by_cases h : k.op = Operators.Extract.code
  · rw [if_pos h] at hn ⊢
    obtain ⟨base, hbase, hn⟩ := except_bind_ok.1 hn
    exact (hsub1 base hbase).of_consts (extractTerm_consts (ofZ3_eq_ok.1 hn))
  rw [if_neg h] at hn ⊢
  clear h
  by_cases h : k.op = Operators.Not.code
  · rw [if_pos h] at hn ⊢
    split at hn
    · cases hn
    obtain ⟨base, hbase, hn⟩ := except_bind_ok.1 hn
    exact (hsub2 base hbase).of_consts (lnotTerm_consts (ofZ3_eq_ok.1 hn))
  rw [if_neg h] at hn ⊢
  clear h
  by_cases h : k.op = Operators.Neg.code
  · rw [if_pos h] at hn ⊢
    split at hn
    · cases hn
    obtain ⟨base, hbase, hn⟩ := except_bind_ok.1 hn
    obtain ⟨rfl, _⟩ := checked_eq_ok.1 (ofZ3_eq_ok.1 hn)
    exact (hsub2 base hbase).of_consts rfl
  rw [if_neg h] at hn ⊢
  clear h
  by_cases h : k.op = Operators.fmemcmp.code
  · rw [if_pos h] at hn ⊢
    obtain ⟨e1, h1, hn⟩ := except_bind_ok.1 hn
    split at hn
    · cases hn
    obtain ⟨e2, h2, hn⟩ := except_bind_ok.1 hn
    exact (memcmpTermOf_mentions hsub1 (hconst _) h1).union (hsub2 e2 h2)
      (memcmpTerm_consts (ofZ3_eq_ok.1 hn))
  rw [if_neg h] at hn ⊢
  clear h
  by_cases h : k.op = Operators.fsize.code
  · rw [if_pos h] at hn ⊢
    exact fsizeTerm_mentions (ofZ3_eq_ok.1 hn)
  rw [if_neg h] at hn ⊢
  clear h
  obtain ⟨val1, hv1, hn⟩ := except_bind_ok.1 hn
  obtain ⟨e1, h1, hn⟩ := except_bind_ok.1 hn
  obtain ⟨val2, hv2, hn⟩ := except_bind_ok.1 hn
  obtain ⟨e2, h2, hn⟩ := except_bind_ok.1 hn
  exact (operandTermOf_mentions hsub1 (hconst _) (ofZ3_eq_ok.1 hv1) h1).union
    (operandTermOf_mentions hsub2 (hconst _) (ofZ3_eq_ok.1 hv2) h2)
    (commonTerm_consts (ofZ3_eq_ok.1 hn))

end

/-- The offsets of a label are those in its term, if nothing is simplified. -/
theorem termOf_mentions (ho : Ordered t) (hl : label ≤ t.lastLabel)
    (h : termOf .idle mem t label = .ok e) : Mentions e (labelOffsets t label) := by
  induction label using Nat.strong_induction_on generalizing e with
  | _ label ih =>
    by_cases hc : label < constOffset
    · rw [termOf, if_pos (.inl hc)] at h
      cases h
    have hlo : constOffset ≤ label := Nat.le_of_not_lt hc
    have h1 := ho.l1 label hlo hl
    have h2 := ho.l2 label hlo hl
    rw [termOf_eq ho hlo hl] at h
    rw [labelOffsets_eq ho hlo hl]
    apply nodeTerm_mentions ?_ ?_ (fun _ => labelOffsets_const) h
    · intro e he
      exact ih _ h1 (by omega) he
    · intro hL e he
      have := h2 hL
      exact ih _ this (by omega) he

end

end Kirenenko
