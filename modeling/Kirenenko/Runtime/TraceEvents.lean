import Kirenenko.Runtime.NodeTerm
import Kirenenko.Runtime.PathConstraints

namespace Kirenenko
set_option autoImplicit true

/-- The state after a visit of a context that is within its limit. -/
def SolverState.visited (s : SolverState) (context : Nat × Nat) : SolverState :=
  { s with branches := Function.update s.branches context (s.branches context + 1) }

theorem visit_eq (s : SolverState) (context : Nat × Nat) :
    visit context s =
      if s.branches context < maxBranchCount then .ok true (s.visited context)
      else .ok false s := by
  change (if s.branches context < maxBranchCount then _ else _ : SolveM Bool) s = _
  by_cases h : s.branches context < maxBranchCount
  · rw [if_pos h, if_pos h]
    rfl
  · rw [if_neg h, if_neg h]
    rfl

section
variable {z : Z3} {mem : Memory} {host : Host} {input : TaintedInput} {context : Nat × Nat}
  {s s' : SolverState}

theorem taintTraceCond_eq (z : Z3) (mem : Memory) (host : Host) (input : TaintedInput)
    (context : Nat × Nat) (label r : Nat) (s : SolverState) :
    taintTraceCond z mem host input context label r s =
      if label = 0 ∨ ¬s.branches context < maxBranchCount then .ok none s
      else solveCond z mem host input label (.boolVal (r ≠ 0)) true (s.visited context) := by
  unfold taintTraceCond
  by_cases h0 : label = 0
  · rw [if_pos h0, if_pos (.inl h0)]
    rfl
  rw [if_neg h0]
  by_cases hb : s.branches context < maxBranchCount
  · have hv : visit context s = .ok true (s.visited context) := by rw [visit_eq, if_pos hb]
    rw [estate_bind_ok hv, if_neg (not_or.2 ⟨h0, not_not.2 hb⟩)]
    rfl
  · have hv : visit context s = .ok false s := by rw [visit_eq, if_neg hb]
    have hc : label = 0 ∨ ¬s.branches context < maxBranchCount := .inr hb
    rw [estate_bind_ok hv, if_pos hc]
    rfl

theorem taintTraceCond_ok (h : taintTraceCond z mem host input context label r s = .ok x s') :
    (label = 0 ∨ ¬s.branches context < maxBranchCount) ∧ s' = s ∨
      label ≠ 0 ∧ s.branches context < maxBranchCount ∧
        solveCond z mem host input label (.boolVal (r ≠ 0)) true (s.visited context) =
          .ok x s' := by
  rw [taintTraceCond_eq] at h
  by_cases hc : label = 0 ∨ ¬s.branches context < maxBranchCount
  · rw [if_pos hc] at h
    cases h
    exact .inl ⟨hc, rfl⟩
  · rw [if_neg hc] at h
    obtain ⟨h0, hb⟩ := not_or.1 hc
    exact .inr ⟨h0, not_not.1 hb, h⟩

/-- The record that `__taint_trace_cmp` asks for. -/
def traceCmpKey (op1 op2 size predicate c1 c2 : Nat) : LabelKey :=
  { l1 := op1, l2 := op2, op := ((predicate <<< 8) ||| Operators.ICmp.code) % 2 ^ 16,
    size := size, op1 := c1, op2 := c2 }

theorem unionLabel_ok (h : unionLabel k s = .ok l s') :
    ∃ t, dfsanUnion s.table k = .ok (l, t) ∧ s' = s.serialized t := by
  unfold unionLabel at h
  cases hu : dfsanUnion s.table k with
  | ok p =>
    rw [hu] at h
    cases h
    exact ⟨p.2, rfl, rfl⟩
  | error f =>
    rw [hu] at h
    cases h

theorem uncaught_ok {x : Except Z3Exception α} (h : uncaught x s = .ok a s') :
    x = .ok a ∧ s' = s := by
  cases x with
  | ok b =>
    cases h
    exact ⟨rfl, rfl⟩
  | error e => cases h

/-- A case past the filter: the union, the result for the concrete values, then
`__solve_cond`. -/
def solveCase (z : Z3) (mem : Memory) (host : Host) (input : TaintedInput)
    (op1 op2 size predicate c1 c2 : Nat) : SolveM (Option Z3Exception) := do
  let temp ← unionLabel (traceCmpKey op1 op2 size predicate c1 c2)
  let result ← uncaught (cmpResult z size predicate c1 c2)
  solveCond z mem host input temp result (c1 = c2)

theorem taintTraceCmp_eq (z : Z3) (mem : Memory) (host : Host) (input : TaintedInput)
    (context : Nat × Nat) (op1 op2 size predicate c1 c2 : Nat) (s : SolverState) :
    taintTraceCmp z mem host input context op1 op2 size predicate c1 c2 s =
      if (op1 = 0 ∧ op2 = 0) ∨ ¬s.branches context < maxBranchCount then .ok none s
      else solveCase z mem host input op1 op2 size predicate c1 c2 (s.visited context) := by
  unfold taintTraceCmp
  by_cases h0 : op1 = 0 ∧ op2 = 0
  · rw [if_pos h0, if_pos (.inl h0)]
    rfl
  rw [if_neg h0]
  by_cases hb : s.branches context < maxBranchCount
  · have hv : visit context s = .ok true (s.visited context) := by rw [visit_eq, if_pos hb]
    rw [estate_bind_ok hv, if_neg (not_or.2 ⟨h0, not_not.2 hb⟩)]
    rfl
  · have hv : visit context s = .ok false s := by rw [visit_eq, if_neg hb]
    have hc : (op1 = 0 ∧ op2 = 0) ∨ ¬s.branches context < maxBranchCount := .inr hb
    rw [estate_bind_ok hv, if_pos hc]
    rfl

theorem taintTraceCmp_cases
    (h : taintTraceCmp z mem host input context op1 op2 size predicate c1 c2 s = .ok x s') :
    ((op1 = 0 ∧ op2 = 0) ∨ ¬s.branches context < maxBranchCount) ∧ s' = s ∨
      ¬((op1 = 0 ∧ op2 = 0) ∨ ¬s.branches context < maxBranchCount) ∧ ∃ temp t result,
        dfsanUnion s.table (traceCmpKey op1 op2 size predicate c1 c2) = .ok (temp, t) ∧
        cmpResult z size predicate c1 c2 = .ok result ∧
        solveCond z mem host input temp result (c1 = c2) ((s.visited context).serialized t) =
          .ok x s' := by
  rw [taintTraceCmp_eq] at h
  by_cases hc : (op1 = 0 ∧ op2 = 0) ∨ ¬s.branches context < maxBranchCount
  · rw [if_pos hc] at h
    cases h
    exact .inl ⟨hc, rfl⟩
  · rw [if_neg hc] at h
    obtain ⟨temp, s₂, hu, h⟩ := estate_bind_eq_ok.1 h
    obtain ⟨t, ht, rfl⟩ := unionLabel_ok hu
    obtain ⟨result, s₃, hr, h⟩ := estate_bind_eq_ok.1 h
    obtain ⟨hres, rfl⟩ := uncaught_ok hr
    exact .inr ⟨hc, temp, t, result, ht, hres, h⟩

theorem taintTraceCmp_ok
    (h : taintTraceCmp z mem host input context op1 op2 size predicate c1 c2 s = .ok x s') :
    s' = s ∨ ∃ temp t result,
      dfsanUnion s.table (traceCmpKey op1 op2 size predicate c1 c2) = .ok (temp, t) ∧
      cmpResult z size predicate c1 c2 = .ok result ∧
      solveCond z mem host input temp result (c1 = c2) ((s.visited context).serialized t) =
        .ok x s' := by
  rcases taintTraceCmp_cases h with ⟨_, rfl⟩ | ⟨_, h⟩
  · exact .inl rfl
  · exact .inr h

end

/-- Whether a comparison of two concrete values holds. -/
def cmpHolds (size predicate c1 c2 : Nat) : Bool :=
  match getCmd (.bvVal c1 size) (.bvVal c2 size) predicate with
  | .ok e => e.eval (fun _ _ => 0) = 1
  | .error _ => false

theorem cmpResult_isBool {z : Z3} (hz : z.Lawful)
    (h : cmpResult z size predicate c1 c2 = .ok r) : r.IsBool (cmpHolds size predicate c1 c2) := by
  obtain ⟨a, ha, h⟩ := except_bind_ok.1 h
  obtain ⟨b, hb, h⟩ := except_bind_ok.1 h
  obtain ⟨_, rfl⟩ := checked_bvVal.1 ha
  obtain ⟨_, rfl⟩ := checked_bvVal.1 hb
  obtain ⟨e, he, rfl⟩ := except_map_ok.1 h
  obtain ⟨hs, hc⟩ := getCmd_bool he
  refine ⟨hz.simplify_sort e _ hs, ?_⟩
  intro env
  have hconst : e.eval env = e.eval fun _ _ => 0 := by
    apply Term.eval_congr
    intro c hmem
    rw [hc] at hmem
    cases hmem
  have hlt : e.eval (fun _ _ => 0) < 2 := Term.eval_lt hs _
  rw [hz.simplify_eval e _ env hs, hconst, cmpHolds, he]
  obtain h0 | h1 : e.eval (fun _ _ => 0) = 0 ∨ e.eval (fun _ _ => 0) = 1 := by omega
  · simp [h0]
  · simp [h1]

end Kirenenko
