import Kirenenko.Lib.Simulation
import Kirenenko.Runtime.Serialize

namespace Kirenenko
set_option autoImplicit true

def ofZ3 (x : Except Z3Exception α) : Except Exn α :=
  match x with
  | .ok a => .ok a
  | .error e => .error (.z3 e)

theorem ofZ3_eq_ok {x : Except Z3Exception α} : ofZ3 x = .ok a ↔ x = .ok a := by
  cases x <;> simp [ofZ3]

def memcmpTermOf (mem : Memory) (k : LabelKey) (sub : Nat → Except Exn Term) : Except Exn Term :=
  if k.l1 ≥ constOffset then sub k.l1 else ofZ3 (readConcrete mem k.op1 k.size)

/-- An operand of a common operator: a simplified term, or a concrete value. -/
def operandTermOf (z : Z3) (k : LabelKey) (l : Nat) (val : Term) (op : Nat)
    (sub : Nat → Except Exn Term) : Except Exn Term :=
  if l ≥ constOffset then z.simplify <$> sub l else .ok (concreteOperand k val op)

/-- The term of a record, given the records it refers to and the terms of its operands. -/
def nodeTerm (z : Z3) (mem : Memory) (key : Nat → LabelKey) (k : LabelKey)
    (sub : Nat → Except Exn Term) : Except Exn Term :=
  if k.op = 0 then ofZ3 (byteTerm k.op1)
  else if k.op = Operators.Load.code then ofZ3 (loadTerm (key k.l1).op1 (k.l2 - 1))
  else if k.op = Operators.ZExt.code then do
    let base ← sub k.l1
    let base ← ofZ3 (boolToBv base)
    let w ← ofZ3 (bvSize base)
    ofZ3 (extendTerm .zext k.size w base)
  else if k.op = Operators.SExt.code then do
    let base ← sub k.l1
    let w ← ofZ3 (bvSize base)
    ofZ3 (extendTerm .sext k.size w base)
  else if k.op = Operators.Trunc.code then do
    let base ← sub k.l1
    ofZ3 (extractTerm 0 k.size base)
  else if k.op = Operators.Extract.code then do
    let base ← sub k.l1
    ofZ3 (extractTerm k.op2 k.size base)
  else if k.op = Operators.Not.code then
    if k.l2 = 0 ∨ k.size ≠ 1 then .error (.z3 (.msg "invalid Not operation"))
    else do
      let e ← sub k.l2
      ofZ3 (lnotTerm e)
  else if k.op = Operators.Neg.code then
    if k.l2 = 0 then .error (.z3 (.msg "invalid Neg predicate"))
    else do
      let e ← sub k.l2
      ofZ3 (checked (.neg e))
  else if k.op = Operators.fmemcmp.code then do
    let op1 ← memcmpTermOf mem k sub
    if k.l2 < constOffset then .error (.z3 (.msg "invalid memcmp operand2"))
    else do
      let op2 ← sub k.l2
      ofZ3 (memcmpTerm op1 op2)
  else if k.op = Operators.fsize.code then ofZ3 (fsizeTerm k.op1 k.size)
  else do
    let val1 ← ofZ3 (checked (.bvVal k.op1 (leftWidth k (key k.l2).size)))
    let op1 ← operandTermOf z k k.l1 val1 k.op1 sub
    let val2 ← ofZ3 (checked (.bvVal k.op2 (rightWidth k (key k.l1).size (key k.l2).size)))
    let op2 ← operandTermOf z k k.l2 val2 k.op2 sub
    ofZ3 (commonTerm k.op k.size op1 op2)

/-- The term a label stands for, read off the records without any cache. -/
def termOf (z : Z3) (mem : Memory) (t : LabelTable) (label : Nat) : Except Exn Term :=
  if label < constOffset ∨ label = kInitializingLabel then .error (.z3 (.msg "invalid label"))
  else
    nodeTerm z mem t.key (t.key label) fun l =>
      if _h : l < label then termOf z mem t l else .error (.fault .stackOverflow)
termination_by label

/-- Operands come before the labels built on them; the second field of a `Load` is a count. -/
structure Ordered (t : LabelTable) : Prop where
  l1 : ∀ l, constOffset ≤ l → l ≤ t.lastLabel → (t.key l).l1 < l
  l2 : ∀ l, constOffset ≤ l → l ≤ t.lastLabel → (t.key l).op ≠ Operators.Load.code →
    (t.key l).l2 < l
  bound : t.lastLabel < kInitializingLabel

/-- Two tables that differ at most in what serialization and tracing write. -/
structure SameKeys (t t' : LabelTable) : Prop where
  key : t'.key = t.key
  lastLabel : t'.lastLabel = t.lastLabel
  bucket : t'.bucket = t.bucket

theorem SameKeys.refl (t : LabelTable) : SameKeys t t := ⟨rfl, rfl, rfl⟩

theorem SameKeys.trans (h : SameKeys t u) (h' : SameKeys u v) : SameKeys t v :=
  ⟨h'.key.trans h.key, h'.lastLabel.trans h.lastLabel, h'.bucket.trans h.bucket⟩

theorem modifyInfo_cases (t : LabelTable) (label : Nat) (f : LabelInfo → LabelInfo) (l : Nat) :
    l = label ∧ (t.modifyInfo label f).info l = f (t.info l) ∨
      (t.modifyInfo label f).info l = t.info l := by
  unfold LabelTable.modifyInfo
  by_cases hl : l = label
  · subst hl
    exact .inl ⟨rfl, Function.update_self ..⟩
  · exact .inr (Function.update_of_ne hl ..)

theorem SameKeys.modifyInfo (t : LabelTable) (label : Nat) {f : LabelInfo → LabelInfo}
    (hf : ∀ info, (f info).toLabelKey = info.toLabelKey) : SameKeys t (t.modifyInfo label f) where
  key := by
    funext l
    unfold LabelTable.key
    rcases modifyInfo_cases t label f l with ⟨rfl, hinfo⟩ | hinfo
    · rw [hinfo, hf]
    · rw [hinfo]
  lastLabel := rfl
  bucket := rfl

theorem flip_sameKeys (t : LabelTable) (label : Nat) : SameKeys t (t.flip label) :=
  .modifyInfo t label fun _ => rfl

theorem Ordered.sameKeys (h : Ordered t) (hs : SameKeys t t') : Ordered t' where
  l1 := by
    rw [hs.key, hs.lastLabel]
    exact h.l1
  l2 := by
    rw [hs.key, hs.lastLabel]
    exact h.l2
  bound := by
    rw [hs.lastLabel]
    exact h.bound

/-- Every cached expression is the term of its label, which is an allocated one. -/
structure Coherent (z : Z3) (mem : Memory) (t t' : LabelTable) : Prop where
  same : SameKeys t t'
  cached : ∀ l e, (t'.info l).expr = some e → l ≤ t.lastLabel ∧ termOf z mem t l = .ok e

theorem nodeTerm_congr (h1 : k.op ≠ 0 → k.op ≠ Operators.Load.code → sub k.l1 = sub' k.l1)
    (h2 : k.op ≠ 0 → k.op ≠ Operators.Load.code → sub k.l2 = sub' k.l2)
    (hk1 : key k.l1 = key' k.l1) (hk2 : k.op ≠ Operators.Load.code → key k.l2 = key' k.l2) :
    nodeTerm z mem key k sub = nodeTerm z mem key' k sub' := by
  unfold nodeTerm
  by_cases h0 : k.op = 0
  · simp only [if_pos h0]
  by_cases hL : k.op = Operators.Load.code
  · simp only [if_neg h0, if_pos hL, hk1]
  simp only [memcmpTermOf, operandTermOf, h1 h0 hL, h2 h0 hL, hk1, hk2 hL]

theorem termOf_eq (ho : Ordered t) (hl : constOffset ≤ label) (hlast : label ≤ t.lastLabel) :
    termOf z mem t label = nodeTerm z mem t.key (t.key label) (termOf z mem t) := by
  have hb := ho.bound
  have hc : ¬(label < constOffset ∨ label = kInitializingLabel) := by omega
  rw [termOf, if_neg hc]
  refine nodeTerm_congr ?_ ?_ rfl fun _ => rfl
  · intro _ _
    rw [dif_pos (ho.l1 label hl hlast)]
  · intro _ hL
    rw [dif_pos (ho.l2 label hl hlast hL)]

/-- A later table: records are added, and the keys of the old ones stay. -/
structure Extends (t t' : LabelTable) : Prop where
  lastLabel : t.lastLabel ≤ t'.lastLabel
  key : ∀ l, l ≤ t.lastLabel → t'.key l = t.key l

theorem Extends.refl (t : LabelTable) : Extends t t := ⟨Nat.le_refl _, fun _ _ => rfl⟩

theorem Extends.trans (h : Extends t u) (h' : Extends u v) : Extends t v where
  lastLabel := Nat.le_trans h.lastLabel h'.lastLabel
  key l hl := (h'.key l (Nat.le_trans hl h.lastLabel)).trans (h.key l hl)

theorem SameKeys.extends (h : SameKeys t t') : Extends t t' where
  lastLabel := Nat.le_of_eq h.lastLabel.symm
  key l _ := congrFun h.key l

theorem Extends.termOf (h : Extends t t') (ho : Ordered t) (hl : label ≤ t.lastLabel) :
    termOf z mem t' label = termOf z mem t label := by
  induction label using Nat.strong_induction_on with
  | _ label ih =>
    rw [Kirenenko.termOf, Kirenenko.termOf.eq_1 z mem t label]
    by_cases hc : label < constOffset ∨ label = kInitializingLabel
    · rw [if_pos hc, if_pos hc]
    have hlo : constOffset ≤ label := by omega
    have h1 := ho.l1 label hlo hl
    have h2 := ho.l2 label hlo hl
    rw [if_neg hc, if_neg hc, h.key label hl]
    refine nodeTerm_congr ?_ ?_ ?_ ?_
    · intro _ _
      rw [dif_pos h1, dif_pos h1]
      exact ih _ h1 (by omega)
    · intro _ hL
      have := h2 hL
      rw [dif_pos this, dif_pos this]
      exact ih _ this (by omega)
    · exact h.key _ (by omega)
    · intro hL
      have := h2 hL
      exact h.key _ (by omega)

end Kirenenko
