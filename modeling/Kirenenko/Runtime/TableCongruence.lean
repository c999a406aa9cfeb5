import Kirenenko.Lib.Machine
import Kirenenko.Runtime.Denotation
import Kirenenko.Runtime.ShadowMemory

namespace Kirenenko
set_option autoImplicit true

/-- Two unions that differ at most in the concrete value of a labelled operand. -/
structure AlikeKeys (k k' : LabelKey) : Prop where
  l1 : k'.l1 = k.l1
  l2 : k'.l2 = k.l2
  op : k'.op = k.op
  size : k'.size = k.size
  op1 : k.l1 = 0 → k'.op1 = k.op1
  op2 : k.l2 = 0 → k'.op2 = k.op2

/-- The same answer, with tables that have the same records. -/
def SameAnswer (p q : α × LabelTable) : Prop := p.1 = q.1 ∧ SameKeys p.2 q.2

section
variable {t t' : LabelTable} {k k' : LabelKey} {app app' : Nat → UInt8} {ls : Nat → Nat}

theorem AlikeKeys.refl (k : LabelKey) : AlikeKeys k k :=
  ⟨rfl, rfl, rfl, rfl, fun _ => rfl, fun _ => rfl⟩

theorem AlikeKeys.swap (h : AlikeKeys k k') : AlikeKeys (swapOperands k) (swapOperands k') := by
  unfold swapOperands
  rw [h.l1, h.l2, h.op]
  by_cases hs : k.l1 > k.l2 ∧ isCommutative k.op
  · rw [if_pos hs, if_pos hs]
    exact ⟨rfl, rfl, rfl, h.size, h.op2, h.op1⟩
  · rw [if_neg hs, if_neg hs]
    exact h

theorem AlikeKeys.zeroConcrete (h : AlikeKeys k k') : zeroConcrete k' = zeroConcrete k := by
  obtain ⟨l1, l2, op, size, op1, op2⟩ := k
  obtain ⟨l1', l2', op', size', op1', op2'⟩ := k'
  obtain ⟨rfl, rfl, rfl, rfl, h1, h2⟩ := h
  have hz : ∀ l a b : Nat, (l = 0 → b = a) →
      (if l ≥ constOffset then 0 else b) = if l ≥ constOffset then 0 else a := by
    intro l a b hab
    by_cases hl : l ≥ constOffset
    · rw [if_pos hl, if_pos hl]
    · rw [if_neg hl, if_neg hl]
      exact hab (Nat.lt_one_iff.1 (Nat.lt_of_not_le hl))
  simp only [Kirenenko.zeroConcrete, hz _ _ _ h1, hz _ _ _ h2]

theorem SameKeys.getLabelInfo (h : SameKeys t t') (l : Nat) :
    Related (fun i i' : LabelInfo => i'.toLabelKey = i.toLabelKey) (t.getLabelInfo l)
      (t'.getLabelInfo l) := by
  unfold LabelTable.getLabelInfo
  rw [h.lastLabel]
  by_cases hl : l ≤ t.lastLabel
  · rw [if_pos hl, if_pos hl]
    exact congrFun h.key l
  · rw [if_neg hl, if_neg hl]
    rfl

theorem SameKeys.allocate {info info' : LabelInfo} (h : SameKeys t t')
    (hi : info'.toLabelKey = info.toLabelKey) :
    Related SameAnswer (t.allocate info) (t'.allocate info') := by
  unfold LabelTable.allocate
  rw [h.lastLabel]
  refine (Related.refl (dfsanCheckLabel ((t.lastLabel + 1) % 2 ^ 32))).bind ?_
  rintro _ _ rfl
  refine ⟨rfl, ?_, rfl, h.bucket⟩
  funext l
  unfold LabelTable.key
  by_cases hl : l = (t.lastLabel + 1) % 2 ^ 32
  · subst hl
    simp only [Function.update_self]
    exact hi
  · simp only [Function.update_of_ne hl]
    exact congrFun h.key l

theorem SameKeys.intern (h : SameKeys t t') (k : LabelKey) :
    Related SameAnswer (t.intern k) (t'.intern k) := by
  unfold LabelTable.intern LabelTable.lookup
  rw [h.key, h.bucket]
  cases chainLookup unionHash t.key t.bucket k with
  | some label => exact ⟨rfl, h⟩
  | none =>
    have hnew : ∀ x y : UInt32, Related SameAnswer (t.allocate { toLabelKey := k, hash := x })
        (t'.allocate { toLabelKey := k, hash := y }) := fun x y => h.allocate rfl
    refine (hnew _ _).bind ?_
    rintro ⟨l, u⟩ ⟨l', u'⟩ ⟨rfl, hu⟩
    refine ⟨rfl, hu.key, hu.lastLabel, ?_⟩
    have hbucket : u'.bucket = u.bucket := hu.bucket
    simp only [LabelTable.insert, hu.key, hbucket]

/-- A union answers for the labels and the concrete values of operands without label. -/
theorem SameKeys.taintUnion (h : SameKeys t t') (hk : AlikeKeys k k') :
    Related SameAnswer (taintUnion t k) (taintUnion t' k') := by
  have hs := hk.swap
  unfold Kirenenko.taintUnion
  simp only [hs.l1, hs.l2, hs.op, hs.zeroConcrete]
  split
  · exact ⟨rfl, h⟩
  split
  · exact ⟨rfl, h⟩
  · exact h.intern _

theorem SameKeys.shapeLoop (h : SameKeys t t') (ls : Nat → Nat) (offset i k : Nat) :
    Related (· = ·) (shapeLoop t ls offset i k) (shapeLoop t' ls offset i k) := by
  induction k generalizing i with
  | zero => rfl
  | succ k ih =>
    unfold Kirenenko.shapeLoop
    by_cases hi : ls i = kInitializingLabel
    · rw [if_pos hi, if_pos hi]
      rfl
    · rw [if_neg hi, if_neg hi]
      refine (h.getLabelInfo (ls i)).bind ?_
      intro info info' hinfo
      rw [congrArg LabelKey.op1 hinfo]
      split
      · rfl
      · exact ih (i + 1)

theorem SameKeys.loadShape {info info' : LabelInfo} (h : SameKeys t t')
    (hinfo : info'.toLabelKey = info.toLabelKey) (ls : Nat → Nat) (n : Nat) :
    Related (· = ·) (loadShape t ls n info) (loadShape t' ls n info') := by
  unfold Kirenenko.loadShape
  rw [congrArg LabelKey.op hinfo, congrArg LabelKey.op1 hinfo]
  split
  · rfl
  split
  · rfl
  · exact h.shapeLoop ls _ _ _

theorem SameKeys.extractLoop (h : SameKeys t t') (ls : Nat → Nat) (parent i offset k : Nat) :
    Related (· = ·) (extractLoop t ls parent i offset k) (extractLoop t' ls parent i offset k) := by
  induction k generalizing i offset with
  | zero => rfl
  | succ k ih =>
    refine (h.getLabelInfo (ls i)).bind ?_
    intro info info' hinfo
    rw [hinfo]
    split
    · rfl
    · exact ih _ _

theorem SameKeys.extractParent {info info' : LabelInfo} (h : SameKeys t t')
    (hinfo : info'.toLabelKey = info.toLabelKey) (ls : Nat → Nat) (n : Nat) :
    Related (· = ·) (extractParent t ls n info) (extractParent t' ls n info') := by
  unfold Kirenenko.extractParent
  rw [hinfo]
  split
  · refine (h.extractLoop ls _ _ _ _).bind ?_
    rintro offset _ rfl
    refine (h.getLabelInfo _).bind ?_
    intro parent parent' hparent
    rw [hparent]
    rfl
  · rfl

theorem SameKeys.concatLoop (h : SameKeys t t') (happ : ∀ i, ls i = constLabel → app' i = app i)
    (n fuel label i : Nat) :
    Related SameAnswer (concatLoop app ls n fuel t label i)
      (concatLoop app' ls n fuel t' label i) := by
  induction fuel generalizing t t' label i with
  | zero => rfl
  | succ fuel ih =>
    unfold Kirenenko.concatLoop
    by_cases hi : i < n
    · rw [if_pos hi, if_pos hi]
      refine (h.getLabelInfo (ls i)).bind ?_
      intro info info' hinfo
      rw [congrArg LabelKey.size hinfo]
      by_cases hl : ls i ≠ constLabel
      · rw [if_pos hl, if_pos hl]
        split
        · refine (h.taintUnion (.refl _)).bind ?_
          rintro ⟨l, u⟩ ⟨_, u'⟩ ⟨rfl, hu⟩
          exact ih hu _ _
        · refine (h.taintUnion (.refl _)).bind ?_
          rintro ⟨l, u⟩ ⟨_, u'⟩ ⟨rfl, hu⟩
          exact SameKeys.taintUnion hu (.refl _)
      · rw [if_neg hl, if_neg hl, happ i (not_not.1 hl)]
        refine (h.taintUnion (.refl _)).bind ?_
        rintro ⟨l, u⟩ ⟨_, u'⟩ ⟨rfl, hu⟩
        exact ih hu _ _
    · rw [if_neg hi, if_neg hi]
      exact ⟨rfl, h⟩

theorem SameKeys.loadConsecutive (h : SameKeys t t') (ls : Nat → Nat) (n : Nat) :
    Related SameAnswer (loadConsecutive t ls n) (loadConsecutive t' ls n) := by
  unfold Kirenenko.loadConsecutive
  split
  · exact ⟨rfl, h⟩
  · exact h.taintUnion (.refl _)

theorem SameKeys.taintUnionLoad (h : SameKeys t t')
    (happ : ∀ i, ls i = constLabel → app' i = app i) (n : Nat) :
    Related SameAnswer (taintUnionLoad t app ls n) (taintUnionLoad t' app' ls n) := by
  unfold Kirenenko.taintUnionLoad
  split
  · exact ⟨rfl, h⟩
  split
  · exact ⟨rfl, h⟩
  refine (h.getLabelInfo (ls 0)).bind ?_
  intro info info' hinfo
  refine (h.loadShape hinfo ls n).bind ?_
  rintro shape _ rfl
  cases shape with
  | initializing => exact ⟨rfl, h⟩
  | consecutive => exact h.loadConsecutive ls n
  | other =>
    refine (h.extractParent hinfo ls n).bind ?_
    rintro parent _ rfl
    cases parent with
    | some l => exact ⟨rfl, h⟩
    | none =>
      rw [congrArg LabelKey.size hinfo]
      exact h.concatLoop happ _ _ _ _

theorem SameKeys.storeExtracts (h : SameKeys t t') (l i k : Nat) (ls : Nat → Nat) :
    Related SameAnswer (storeExtracts l i k t ls) (storeExtracts l i k t' ls) := by
  induction k generalizing t t' i ls with
  | zero => exact ⟨rfl, h⟩
  | succ k ih =>
    refine (h.taintUnion (.refl _)).bind ?_
    rintro ⟨x, u⟩ ⟨_, u'⟩ ⟨rfl, hu⟩
    exact ih hu _ _

theorem SameKeys.taintUnionStore (h : SameKeys t t') (l : Nat) (ls : Nat → Nat) (n : Nat) :
    Related SameAnswer (taintUnionStore t l ls n) (taintUnionStore t' l ls n) := by
  unfold Kirenenko.taintUnionStore
  split
  · exact ⟨rfl, h⟩
  refine (h.getLabelInfo l).bind ?_
  intro info info' hinfo
  rw [hinfo]
  split
  · exact ⟨rfl, h⟩
  split
  · exact ⟨rfl, h⟩
  · exact h.storeExtracts _ _ _ _

end

end Kirenenko
