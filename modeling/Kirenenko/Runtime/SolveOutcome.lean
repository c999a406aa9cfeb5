import Kirenenko.Runtime.SolverSpec

namespace Kirenenko
set_option autoImplicit true

/-- The state after a label was serialized in it. -/
def SolverState.serialized (s : SolverState) (t : LabelTable) : SolverState := { s with table := t }

theorem serializeLabel_ok (h : serializeLabel z mem label s = .ok (e, deps) s') :
    ∃ t, serialize z mem (label + 1) label ∅ s.table = .ok (e, deps) t ∧ s' = s.serialized t := by
  unfold serializeLabel at h
  cases hs : serialize z mem (label + 1) label ∅ s.table with
  | ok r t =>
    rw [hs] at h
    cases h
    exact ⟨t, rfl, rfl⟩
  | error e t =>
    rw [hs] at h
    cases h

theorem serializeLabel_error (h : serializeLabel z mem label s = .error e s') :
    s' = s.serialized (finalState (serialize z mem (label + 1) label ∅ s.table)) := by
  unfold serializeLabel at h
  cases hs : serialize z mem (label + 1) label ∅ s.table with
  | ok r t =>
    rw [hs] at h
    cases h
  | error e t =>
    rw [hs] at h
    cases h
    rfl

theorem labelInfo_eq (label : Nat) (s : SolverState) :
    labelInfo label s = if label ≤ s.table.lastLabel then .ok (s.table.info label) s
      else .error (.fault (.badIndex label)) s := by
  unfold labelInfo LabelTable.getLabelInfo
  rw [estate_bind_ok (x := get) rfl]
  by_cases hl : label ≤ s.table.lastLabel
  · simp only [if_pos hl]
    rfl
  · simp only [if_neg hl]
    rfl

theorem labelInfo_ok (h : labelInfo label s = .ok info s') :
    label ≤ s.table.lastLabel ∧ info = s.table.info label ∧ s' = s := by
  rw [labelInfo_eq] at h
  by_cases hl : label ≤ s.table.lastLabel
  · rw [if_pos hl] at h
    cases h
    exact ⟨hl, rfl, rfl⟩
  · rw [if_neg hl] at h
    cases h

/-- Only the table of a state that fails before anything is recorded can differ, and only as
serialization changes it. -/
def OnlySerialized (z : Z3) (mem : Memory) (label : Nat) (s s' : SolverState) : Prop :=
  Idle (s.serialized (finalState (serialize z mem (label + 1) label ∅ s.table))) s'

theorem queryBranch_ok (h : queryBranch z mem input label result s = .ok q s') :
    ∃ deps t, serialize z mem (label + 1) label ∅ s.table = .ok (q.cond, deps) t ∧
      Idle (s.serialized t) s' ∧ Queried z s.dep result q.cond deps q := by
  obtain ⟨⟨e, deps⟩, s₁, hser, h⟩ := estate_bind_eq_ok.1 h
  obtain ⟨t, ht, rfl⟩ := serializeLabel_ok hser
  obtain ⟨hi, hq⟩ := queryWith_ok h
  have he := hq.cond_eq
  subst he
  exact ⟨deps, t, ht, hi, hq⟩

theorem queryBranch_error (h : queryBranch z mem input label result s = .error e s') :
    OnlySerialized z mem label s s' := by
  unfold queryBranch at h
  cases hser : serializeLabel z mem label s with
  | error e' s₁ =>
    rw [estate_bind_error hser] at h
    cases h
    rw [serializeLabel_error hser]
    exact .refl _
  | ok r s₁ =>
    rw [estate_bind_ok hser] at h
    obtain ⟨t, ht, rfl⟩ := serializeLabel_ok hser
    unfold OnlySerialized
    rw [ht]
    exact ((keeps_queryWith (idle_undisturbed _) z input result r.1 r.2 _ (.refl _)).2 e s' h).1

/-- What `solveBranch` leaves behind when it returns. -/
structure BranchSolved (z : Z3) (mem : Memory) (label : Nat) (result : Term) (addNested : Bool)
    (s s' : SolverState) (q : BranchQuery) (deps : Finset Nat) (t : LabelTable) : Prop where
  serialized : serialize z mem (label + 1) label ∅ s.table = .ok (q.cond, deps) t
  queried : Queried z s.dep result q.cond deps q
  table : s'.table = t.flip label
  branches : s'.branches = s.branches
  dep : s'.dep = if addNested then
    recorded (.eq q.cond result) q.inputs s.dep (elements q.inputs) else s.dep

theorem solveBranch_ok (h : solveBranch z mem host input label result addNested s = .ok u s') :
    ∃ q deps t, BranchSolved z mem label result addNested s s' q deps t := by
  obtain ⟨q, s₁, hquery, h₁⟩ := estate_bind_eq_ok.1 h
  obtain ⟨deps, t, ht, hi, hq⟩ := queryBranch_ok hquery
  obtain ⟨_, s₂, hgen, h₂⟩ := estate_bind_eq_ok.1 h₁
  have hfiles := keeps_generateFrom (idle_ignoresFiles s₁) host input q s₁ (.refl s₁)
  have hi₂ := hi.trans (hfiles.1 _ s₂ hgen)
  refine ⟨q, deps, t, ?_⟩
  cases addNested with
  | false =>
    cases h₂
    exact ⟨ht, hq, congrArg (fun u => u.flip label) hi₂.table, hi₂.branches, hi₂.dep⟩
  | true =>
    obtain ⟨e, s₃, hlift, h₃⟩ := estate_bind_eq_ok.1 h₂
    obtain ⟨hchecked, rfl⟩ := liftZ3_ok hlift
    obtain ⟨rfl, _⟩ := checked_eq_ok.1 hchecked
    rcases recordConstraint_cases input (.eq q.cond result) q.inputs (elements q.inputs) s₃ with
      ⟨s₄, ht₄, hd₄, hb₄, hr⟩ | ⟨s₄, hr⟩
    · obtain ⟨_, s₅, hrec, h₄⟩ := estate_bind_eq_ok.1 h₃
      rw [hr] at hrec
      cases hrec
      cases h₄
      rw [hi₂.dep] at hd₄
      exact ⟨ht, hq, congrArg (fun u => u.flip label) (ht₄.trans hi₂.table),
        hb₄.trans hi₂.branches, hd₄⟩
    · obtain ⟨_, s₅, hrec, _⟩ := estate_bind_eq_ok.1 h₃
      rw [hr] at hrec
      cases hrec

theorem solveBranch_error
    (h : solveBranch z mem host input label result addNested s = .error (.z3 e) s') :
    OnlySerialized z mem label s s' := by
  unfold solveBranch at h
  cases hquery : queryBranch z mem input label result s with
  | error e' s₁ =>
    rw [estate_bind_error hquery] at h
    cases h
    exact queryBranch_error hquery
  | ok q s₁ =>
    rw [estate_bind_ok hquery] at h
    obtain ⟨deps, t, ht, hi, _⟩ := queryBranch_ok hquery
    have hi₁ : OnlySerialized z mem label s s₁ := by
      unfold OnlySerialized
      rw [ht]
      exact hi
    have hgen := keeps_generateFrom (idle_ignoresFiles s₁) host input q s₁ (.refl s₁)
    cases hg : generateFrom host input q s₁ with
    | error e' s₂ =>
      rw [estate_bind_error hg] at h
      cases h
      exact hi₁.trans (hgen.2 _ _ hg).1
    | ok _ s₂ =>
      rw [estate_bind_ok hg] at h
      have hi₂ := hi₁.trans (hgen.1 _ _ hg)
      cases addNested with
      | false => cases h
      | true =>
        cases hc : checked (.eq q.cond result) with
        | error e' =>
          simp only [if_true, hc] at h
          cases h
          exact hi₂
        | ok t' =>
          simp only [if_true, hc] at h
          rcases recordConstraint_cases input t' q.inputs (elements q.inputs) s₂ with
            ⟨s₃, _, _, _, hr⟩ | ⟨s₃, hr⟩
          · change (recordConstraint input t' q.inputs (elements q.inputs) >>= fun _ =>
              setFlipped label) s₂ = _ at h
            rw [estate_bind_ok hr] at h
            cases h
          · change (recordConstraint input t' q.inputs (elements q.inputs) >>= fun _ =>
              setFlipped label) s₂ = _ at h
            rw [estate_bind_error hr] at h
            cases h

/-- The ways in which `__solve_cond` returns: the label was flipped before, an exception is
reported, or the branch was handled. -/
inductive CondOutcome (z : Z3) (mem : Memory) (label : Nat) (result : Term) (addNested : Bool)
    (s : SolverState) : Option Z3Exception → SolverState → Prop where
  | skipped : (s.table.info label).flipped = true →
      CondOutcome z mem label result addNested s none s
  | failed : (s.table.info label).flipped = false → OnlySerialized z mem label s s' →
      CondOutcome z mem label result addNested s (some e) s'
  | solved : (s.table.info label).flipped = false →
      BranchSolved z mem label result addNested s s' q deps t →
      CondOutcome z mem label result addNested s none s'

theorem solveCond_outcome
    (h : solveCond z mem host input label result addNested s = .ok r s') :
    label ≤ s.table.lastLabel ∧ CondOutcome z mem label result addNested s r s' := by
  obtain ⟨info, s₁, hinfo, h₁⟩ := estate_bind_eq_ok.1 h
  obtain ⟨hl, rfl, rfl⟩ := labelInfo_ok hinfo
  refine ⟨hl, ?_⟩
  cases hf : (s₁.table.info label).flipped with
  | true =>
    rw [hf] at h₁
    cases h₁
    exact .skipped hf
  | false =>
    rw [hf] at h₁
    change catchZ3 (solveBranch z mem host input label result addNested) s₁ = _ at h₁
    unfold catchZ3 at h₁
    cases hb : solveBranch z mem host input label result addNested s₁ with
    | ok u s₂ =>
      rw [hb] at h₁
      cases h₁
      obtain ⟨q, deps, t, hs⟩ := solveBranch_ok hb
      exact .solved hf hs
    | error e s₂ =>
      rw [hb] at h₁
      cases e with
      | z3 e =>
        cases h₁
        exact .failed hf (solveBranch_error hb)
      | fault f => cases h₁

theorem addConstraints_outcome (h : addConstraints z mem input label s = .ok r s') :
    s' = s ∨ s'.table = (finalState (serialize z mem (label + 1) label ∅ s.table)).flip label ∧
      (s'.dep = s.dep ∨
        ∃ e deps t, serialize z mem (label + 1) label ∅ s.table = .ok (e, deps) t ∧
          s'.dep = recorded e deps s.dep (elements deps)) := by
  obtain ⟨info, s₁, hinfo, h₁⟩ := estate_bind_eq_ok.1 h
  obtain ⟨hl, rfl, rfl⟩ := labelInfo_ok hinfo
  cases hf : (s₁.table.info label).flipped with
  | true =>
    rw [hf] at h₁
    cases h₁
    exact .inl rfl
  | false =>
    rw [hf] at h₁
    obtain ⟨r', s₂, hcatch, h₂⟩ := estate_bind_eq_ok.1 h₁
    cases h₂
    refine .inr ?_
    unfold catchZ3 at hcatch
    cases hser : serializeLabel z mem label s₁ with
    | error e s₃ =>
      rw [estate_bind_error hser] at hcatch
      have hs₃ := serializeLabel_error hser
      cases e with
      | z3 e =>
        cases hcatch
        rw [hs₃]
        exact ⟨rfl, .inl rfl⟩
      | fault f => cases hcatch
    | ok p s₃ =>
      rw [estate_bind_ok hser] at hcatch
      obtain ⟨t, ht, rfl⟩ := serializeLabel_ok hser
      rcases recordConstraint_cases input p.1 p.2 (elements p.2) (s₁.serialized t) with
        ⟨s₄, htable, hd, _, hr⟩ | ⟨s₄, hr⟩
      · simp only [hr] at hcatch
        cases hcatch
        refine ⟨?_, .inr ⟨p.1, p.2, t, ht, hd⟩⟩
        rw [ht]
        exact congrArg (fun u => u.flip label) htable
      · simp only [hr] at hcatch
        cases hcatch

end Kirenenko
