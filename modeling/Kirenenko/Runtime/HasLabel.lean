import Mathlib.Logic.Relation
import Kirenenko.Runtime.InputLabels

namespace Kirenenko
set_option autoImplicit true

/-- The edges of the graph of labels: to the operands of a label, or to the base of a load and the
labels of the input bytes that it covers. -/
def OperandEdge (t : LabelTable) (l e : Nat) : Prop :=
  if (t.key l).op = Operators.Load.code then
    e ≠ constLabel ∧ e = (t.key l).l1 ∨
      ∃ j < (t.key l).l2, RawInput t e ((t.key (t.key l).l1).op1 + j)
  else e ≠ constLabel ∧ (e = (t.key l).l1 ∨ e = (t.key l).l2)

/-- The first operand of a label, or the second if there is no first one. -/
def chainNext (t : LabelTable) (l : Nat) : Nat :=
  if (t.key l).l1 ≠ 0 then (t.key l).l1 else (t.key l).l2

def ChainLink (t : LabelTable) (l e : Nat) : Prop := chainNext t l ≠ 0 ∧ e = chainNext t l

/-- The labels on the path of first operands. -/
def OnChain (t : LabelTable) : Nat → Nat → Prop := Relation.ReflTransGen (ChainLink t)

/-- Every load on the path has a base, so the path goes along operands. -/
def BasedLoads (t : LabelTable) (label : Nat) : Prop :=
  ∀ l, OnChain t label l → (t.key l).op = Operators.Load.code → (t.key l).l1 ≠ 0

section
variable {t : LabelTable} {label elem : Nat}

theorem BasedLoads.next (h : BasedLoads t label) (hpos : chainNext t label ≠ 0) :
    BasedLoads t (chainNext t label) :=
  fun l hon => h l (.head ⟨hpos, rfl⟩ hon)

theorem chainNext_lt (ho : Ordered t) (hl : constOffset ≤ label) (hlast : label ≤ t.lastLabel)
    (hbase : (t.key label).op = Operators.Load.code → (t.key label).l1 ≠ 0) :
    chainNext t label < label := by
  unfold chainNext
  by_cases h1 : (t.key label).l1 ≠ 0
  · rw [if_pos h1]
    exact ho.l1 label hl hlast
  · rw [if_neg h1]
    exact ho.l2 label hl hlast fun hop => h1 (hbase hop)

theorem OnChain.allocated (ho : Ordered t) (hbase : BasedLoads t label)
    (hl : constOffset ≤ label) (hlast : label ≤ t.lastLabel) (h : OnChain t label l) :
    constOffset ≤ l ∧ l ≤ t.lastLabel := by
  induction h with
  | refl => exact ⟨hl, hlast⟩
  | tail hon he ih =>
    obtain ⟨hpos, rfl⟩ := he
    have hlt := chainNext_lt ho ih.1 ih.2 (hbase _ hon)
    exact ⟨Nat.pos_of_ne_zero hpos, Nat.le_trans (Nat.le_of_lt hlt) ih.2⟩

theorem OperandEdge.allocated (ho : Ordered t) (hl : constOffset ≤ l) (hlast : l ≤ t.lastLabel)
    (he : OperandEdge t l e) : constOffset ≤ e ∧ e ≤ t.lastLabel := by
  have hl1 := ho.l1 l hl hlast
  unfold OperandEdge at he
  by_cases hop : (t.key l).op = Operators.Load.code
  · rw [if_pos hop] at he
    rcases he with ⟨h0, rfl⟩ | ⟨j, _, hraw⟩
    · exact ⟨Nat.pos_of_ne_zero h0, by omega⟩
    · exact ⟨hraw.1, hraw.2.1⟩
  · rw [if_neg hop] at he
    have hl2 := ho.l2 l hl hlast hop
    obtain ⟨h0, rfl | rfl⟩ := he
    · exact ⟨Nat.pos_of_ne_zero h0, by omega⟩
    · exact ⟨Nat.pos_of_ne_zero h0, by omega⟩

end

end Kirenenko
