import Kirenenko.Pass.Shadows
import Kirenenko.Runtime.NodeTerm

namespace Kirenenko
set_option autoImplicit true

/-- A term stands for a value of some width; a Boolean stands for one bit. -/
structure HasValue (env : Env) (e : Term) (w v : Nat) : Prop where
  sort : e.sort = some (.bv w) ∨ w = 1 ∧ e.sort = some .bool
  eval : e.eval env = v

section
variable {env : Env} {z : Z3} {mem : Memory} {e e1 e2 : Term}

theorem HasValue.lt (h : HasValue env e w v) : v < 2 ^ w := by
  rw [← h.eval]
  rcases h.sort with hs | ⟨rfl, hs⟩
  · exact Term.eval_lt_pow hs env
  · exact Term.eval_lt hs env

theorem HasValue.width_eq (h : HasValue env e w v) (hs : e.sort = some (.bv u)) : w = u := by
  rcases h.sort with hs' | ⟨_, hs'⟩
  · rw [hs] at hs'
    cases hs'
    rfl
  · rw [hs] at hs'
    cases hs'

theorem HasValue.bool_width (h : HasValue env e w v) (hs : e.sort = some .bool) : w = 1 := by
  rcases h.sort with hs' | ⟨hw, _⟩
  · rw [hs] at hs'
    cases hs'
  · exact hw

theorem HasValue.simplify (hz : z.Lawful) (h : HasValue env e w v) :
    HasValue env (z.simplify e) w v := by
  rcases h.sort with hs | ⟨hw, hs⟩
  · exact ⟨.inl (hz.simplify_sort _ _ hs), (hz.simplify_eval _ _ env hs).trans h.eval⟩
  · exact ⟨.inr ⟨hw, hz.simplify_sort _ _ hs⟩, (hz.simplify_eval _ _ env hs).trans h.eval⟩

theorem bin_value {op : BinaryOps} (h1 : HasValue env e1 w x) (h2 : HasValue env e2 w y)
    (hv : op.exec w x y = some v) (he : checked (.bin op.bvOp e1 e2) = .ok e) :
    HasValue env e w v := by
  obtain ⟨rfl, σ, hσ⟩ := checked_eq_ok.1 he
  obtain ⟨u, rfl, hs1, hs2⟩ := Term.sort_inversion hσ
  obtain rfl := h1.width_eq hs1
  refine ⟨.inl hσ, ?_⟩
  rw [Term.eval, Term.width_eq hs1, h1.eval, h2.eval]
  exact BinaryOps.eval_bvOp h1.lt h2.lt hv

theorem logic_value {op : BinaryOps} {c : BoolOp} (h1 : HasValue env e1 w x)
    (h2 : HasValue env e2 w y)
    (hop : op = .And ∧ c = .and ∨ op = .Or ∧ c = .or ∨ op = .Xor ∧ c = .xor)
    (hv : op.exec w x y = some v) (he : checked (.logic c e1 e2) = .ok e) :
    HasValue env e w v := by
  obtain ⟨rfl, σ, hσ⟩ := checked_eq_ok.1 he
  obtain ⟨rfl, hs1, hs2⟩ := Term.sort_inversion hσ
  obtain rfl := h1.bool_width hs1
  refine ⟨.inr ⟨rfl, hσ⟩, ?_⟩
  rw [Term.eval, h1.eval, h2.eval]
  have hx := h1.lt
  have hy := h2.lt
  have hx' : x = 0 ∨ x = 1 := by omega
  have hy' : y = 0 ∨ y = 1 := by omega
  rcases hop with ⟨rfl, rfl⟩ | ⟨rfl, rfl⟩ | ⟨rfl, rfl⟩ <;> cases hv <;>
    rcases hx' with rfl | rfl <;> rcases hy' with rfl | rfl <;> rfl

theorem commonTerm_value {op : BinaryOps} (h1 : HasValue env e1 w x) (h2 : HasValue env e2 w y)
    (hv : op.exec w x y = some v) (he : commonTerm op.opcode.code w e1 e2 = .ok e) :
    HasValue env e w v := by
  cases op with
  | And =>
    change checked (if w ≠ 1 then _ else _) = _ at he
    by_cases hw : w ≠ 1
    · rw [if_pos hw] at he
      exact bin_value h1 h2 hv he
    · rw [if_neg hw] at he
      exact logic_value h1 h2 (.inl ⟨rfl, rfl⟩) hv he
  | Or =>
    change checked (if w ≠ 1 then _ else _) = _ at he
    by_cases hw : w ≠ 1
    · rw [if_pos hw] at he
      exact bin_value h1 h2 hv he
    · rw [if_neg hw] at he
      exact logic_value h1 h2 (.inr (.inl ⟨rfl, rfl⟩)) hv he
  | Xor =>
    change checked (if e1.sort = some .bool then _ else _) = _ at he
    by_cases hb : e1.sort = some .bool
    · rw [if_pos hb] at he
      exact logic_value h1 h2 (.inr (.inr ⟨rfl, rfl⟩)) hv he
    · rw [if_neg hb] at he
      exact bin_value h1 h2 hv he
  | Add | Sub | Mul | UDiv | SDiv | URem | SRem | Shl | LShr | AShr =>
    exact bin_value h1 h2 hv he

theorem eq_value (h1 : HasValue env e1 w x) (h2 : HasValue env e2 w y)
    (he : checked (.eq e1 e2) = .ok e) : HasValue env e 1 (decide (x = y)).toNat := by
  obtain ⟨rfl, σ, hσ⟩ := checked_eq_ok.1 he
  obtain ⟨rfl, _⟩ := Term.sort_inversion hσ
  refine ⟨.inr ⟨rfl, hσ⟩, ?_⟩
  rw [Term.eval, h1.eval, h2.eval]

theorem distinct_value (h1 : HasValue env e1 w x) (h2 : HasValue env e2 w y)
    (he : checked (.distinct e1 e2) = .ok e) : HasValue env e 1 (decide (x ≠ y)).toNat := by
  obtain ⟨rfl, σ, hσ⟩ := checked_eq_ok.1 he
  obtain ⟨rfl, _⟩ := Term.sort_inversion hσ
  refine ⟨.inr ⟨rfl, hσ⟩, ?_⟩
  rw [Term.eval, h1.eval, h2.eval]

theorem rel_value {r : BvRel} (h1 : HasValue env e1 w x) (h2 : HasValue env e2 w y)
    (he : checked (.rel r e1 e2) = .ok e) :
    HasValue env e 1 (r.predicate.exec w x y).toNat := by
  obtain ⟨rfl, σ, hσ⟩ := checked_eq_ok.1 he
  obtain ⟨rfl, u, hs1, _⟩ := Term.sort_inversion hσ
  obtain rfl := h1.width_eq hs1
  refine ⟨.inr ⟨rfl, hσ⟩, ?_⟩
  rw [Term.eval, Term.width_eq hs1, h1.eval, h2.eval, BvRel.eval_predicate r h1.lt h2.lt]

theorem getCmd_value {p : IntPredicate} (h1 : HasValue env e1 w x) (h2 : HasValue env e2 w y)
    (he : getCmd e1 e2 p.predicate.code = .ok e) : HasValue env e 1 (p.exec w x y).toNat := by
  unfold getCmd at he
  rw [Predicate.ofCode_code] at he
  cases p with
  | eq => exact eq_value h1 h2 he
  | ne => exact distinct_value h1 h2 he
  | ugt => exact rel_value (r := .ugt) h1 h2 he
  | uge => exact rel_value (r := .uge) h1 h2 he
  | ult => exact rel_value (r := .ult) h1 h2 he
  | ule => exact rel_value (r := .ule) h1 h2 he
  | sgt => exact rel_value (r := .sgt) h1 h2 he
  | sge => exact rel_value (r := .sge) h1 h2 he
  | slt => exact rel_value (r := .slt) h1 h2 he
  | sle => exact rel_value (r := .sle) h1 h2 he

theorem lnot_value (h : HasValue env e1 1 x) (he : lnotTerm e1 = .ok e) :
    HasValue env e 1 (x ^^^ 1) := by
  unfold lnotTerm at he
  by_cases hb : e1.sort = some .bool
  · rw [if_pos hb] at he
    obtain ⟨rfl, σ, hσ⟩ := checked_eq_ok.1 he
    obtain ⟨rfl, _⟩ := Term.sort_inversion hσ
    refine ⟨.inr ⟨rfl, hσ⟩, ?_⟩
    rw [Term.eval, h.eval]
    have hx := h.lt
    have hx' : x = 0 ∨ x = 1 := by omega
    rcases hx' with rfl | rfl <;> rfl
  · rw [if_neg hb] at he
    cases he

theorem boolToBv_value (h : HasValue env e1 w x) (he : boolToBv e1 = .ok e) :
    e.sort = some (.bv w) ∧ e.eval env = x := by
  unfold boolToBv at he
  by_cases hb : e1.sort = some .bool
  · rw [if_pos hb] at he
    obtain ⟨rfl, σ, hσ⟩ := checked_eq_ok.1 he
    obtain rfl := h.bool_width hb
    have hs : (Term.bvVal 1 1).sort = some σ := (Term.sort_inversion hσ).2.1
    cases hs
    refine ⟨hσ, ?_⟩
    rw [Term.eval, h.eval]
    have hx := h.lt
    have hx' : x = 0 ∨ x = 1 := by omega
    rcases hx' with rfl | rfl <;> rfl
  · rw [if_neg hb] at he
    cases he
    rcases h.sort with hs | ⟨_, hs⟩
    · exact ⟨hs, h.eval⟩
    · exact (hb hs).elim

theorem zext_value (hs : e1.sort = some (.bv w)) (hx : e1.eval env = x)
    (he : extendTerm .zext w' w e1 = .ok e) : HasValue env e w' x := by
  unfold extendTerm at he
  by_cases hw : w ≤ w'
  · rw [if_pos hw] at he
    obtain ⟨rfl, σ, hσ⟩ := checked_eq_ok.1 he
    obtain ⟨u, rfl, hu⟩ := Term.sort_inversion hσ
    rw [hs] at hu
    cases hu
    rw [Nat.add_sub_cancel' hw] at hσ
    exact ⟨.inl hσ, hx⟩
  · rw [if_neg hw] at he
    cases he

theorem sext_value (hs : e1.sort = some (.bv w)) (hx : e1.eval env = x)
    (he : extendTerm .sext w' w e1 = .ok e) : HasValue env e w' (CastOps.SExt.exec w w' x) := by
  unfold extendTerm at he
  by_cases hw : w ≤ w'
  · rw [if_pos hw] at he
    obtain ⟨rfl, σ, hσ⟩ := checked_eq_ok.1 he
    obtain ⟨u, rfl, hu⟩ := Term.sort_inversion hσ
    rw [hs] at hu
    cases hu
    have hlt := Term.eval_lt_pow hs env
    rw [hx] at hlt
    have hww := Nat.add_sub_cancel' hw
    refine ⟨.inl (by rw [hσ, hww]), ?_⟩
    rw [Term.eval, Term.width_eq hs, hx, CastOps.eval_sext hlt, hww]
  · rw [if_neg hw] at he
    cases he

end

end Kirenenko
