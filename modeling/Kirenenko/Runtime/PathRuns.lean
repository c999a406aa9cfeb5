import Kirenenko.Runtime.TraceEvents

namespace Kirenenko
set_option autoImplicit true

/-- Allocation keeps the records that exist and flags nothing. -/
structure Allocates (t t' : LabelTable) : Prop where
  inv : ∃ S, TableInv t' S
  lastLabel : t.lastLabel ≤ t'.lastLabel
  info : ∀ l ≤ t.lastLabel, t'.info l = t.info l
  flipped : ∀ l, (t'.info l).flipped = true → (t.info l).flipped = true

theorem TableInv.allocates_refl (h : TableInv t S) : Allocates t t :=
  ⟨⟨S, h⟩, Nat.le_refl _, fun _ _ => rfl, fun _ h => h⟩

theorem FreshInfo.allocates (hinfo : FreshInfo k info) (hinv : TableInv t' S)
    (hlast : t'.lastLabel = t.lastLabel + 1)
    (ht : t'.info = Function.update t.info (t.lastLabel + 1) info) : Allocates t t' where
  inv := ⟨S, hinv⟩
  lastLabel := by
    rw [hlast]
    exact Nat.le_succ _
  info l hl := by
    rw [ht]
    exact Function.update_of_ne (Nat.ne_of_lt (Nat.lt_succ_of_le hl)) _ _
  flipped l hf := by
    rw [ht] at hf
    by_cases hl : l = t.lastLabel + 1
    · subst hl
      rw [Function.update_self, hinfo.flipped] at hf
      cases hf
    · rw [Function.update_of_ne hl] at hf
      exact hf

theorem TableInv.create_allocates (h : TableInv t S)
    (hc : Kirenenko.dfsanCreateLabel t offset = .ok (l, t')) : Allocates t t' := by
  rcases h.dfsanCreateLabel offset with ⟨_, hr⟩ | ⟨hroom, info, hinfo, hr⟩
  · rw [hr] at hc
    cases hc
  · rw [hr] at hc
    cases hc
    exact hinfo.allocates (h.create hroom hinfo.key) rfl rfl

theorem TableInv.union_allocates (h : TableInv t S) (ha : Allocated t k)
    (hu : Kirenenko.taintUnion t k = .ok (l, t')) : Allocates t t' := by
  cases h.taintUnion_ok hu with
  | const | init | found => exact h.allocates_refl
  | fresh _ _ hn hroom hinfo =>
    exact hinfo.allocates (h.union_store ha hn hroom hinfo) rfl rfl

theorem Allocates.solverGrows (h : Allocates s.table t) : SolverGrows s (s.serialized t) where
  lastLabel := h.lastLabel
  cached l e hl he := by
    have hi : (s.serialized t).table.info l = s.table.info l := h.info l hl
    rw [hi]
    exact ⟨he, rfl⟩
  dep _ d hd := ⟨d, hd, Finset.Subset.refl _⟩

/-- What happens on a path: allocations, branches and cases of a switch. -/
inductive PathEvent where
  | create (offset : Int)
  | union (k : LabelKey)
  | traceCond (mem : Memory) (context : Nat × Nat) (label r : Nat)
  | traceCmp (mem : Memory) (context : Nat × Nat) (op1 op2 size predicate c1 c2 : Nat)

/-- The outcome that an event records for the label it flags; a case that is not taken
records none. -/
def PathEvent.outcome : PathEvent → Option Bool
  | .traceCond _ _ _ r => some (r ≠ 0)
  | .traceCmp _ _ _ _ size predicate c1 c2 =>
    if c1 = c2 then some (cmpHolds size predicate c1 c2) else none
  | _ => none

/-- The solver, and for every flagged label the outcome of the event that flagged it. -/
structure PathState where
  solver : SolverState
  outcome : Nat → Option (Option Bool) := fun _ => none

def PathState.after (p : PathState) (a : PathEvent) (s : SolverState) : PathState where
  solver := s
  outcome l :=
    if (s.table.info l).flipped = true ∧ (p.solver.table.info l).flipped = false then
      some a.outcome
    else p.outcome l

/-- The events that end without an exception. -/
inductive PathStep (z : Z3) (host : Host) (input : TaintedInput) :
    PathState → PathEvent → PathState → Prop where
  | create : dfsanCreateLabel p.solver.table offset = .ok (l, t) →
      PathStep z host input p (.create offset) (p.after (.create offset) (p.solver.serialized t))
  | union : Allocated p.solver.table k → taintUnion p.solver.table k = .ok (l, t) →
      PathStep z host input p (.union k) (p.after (.union k) (p.solver.serialized t))
  | traceCond : taintTraceCond z mem host input context label r p.solver = .ok none s →
      PathStep z host input p (.traceCond mem context label r)
        (p.after (.traceCond mem context label r) s)
  | traceCmp : op1 ≤ p.solver.table.lastLabel → op2 ≤ p.solver.table.lastLabel →
      taintTraceCmp z mem host input context op1 op2 size predicate c1 c2 p.solver =
        .ok none s →
      PathStep z host input p (.traceCmp mem context op1 op2 size predicate c1 c2)
        (p.after (.traceCmp mem context op1 op2 size predicate c1 c2) s)

def PathState.start (input : TaintedInput) : PathState := ⟨.start input .initial, fun _ => none⟩

/-- Every flagged label has an outcome, and an outcome other than a case that was not taken is
recorded. -/
structure PathInv (p : PathState) : Prop where
  table : ∃ S, TableInv p.solver.table S
  flagged : ∀ l, (p.solver.table.info l).flipped = true → ∃ o, p.outcome l = some o
  recorded : ∀ l b, p.outcome l = some (some b) →
    l ≤ p.solver.table.lastLabel ∧ RecordedAs p.solver l b

/-- What an event has to establish for the labels it flags. -/
structure EventHandled (p : PathState) (a : PathEvent) (s : SolverState) : Prop where
  table : ∃ S, TableInv s.table S
  grows : SolverGrows p.solver s
  recorded : ∀ l b, (s.table.info l).flipped = true → (p.solver.table.info l).flipped = false →
    a.outcome = some b → l ≤ s.table.lastLabel ∧ RecordedAs s l b

theorem PathInv.after (hi : PathInv p) (h : EventHandled p a s) : PathInv (p.after a s) where
  table := h.table
  flagged l hf := by
    cases hp : (p.solver.table.info l).flipped with
    | true =>
      obtain ⟨o, ho⟩ := hi.flagged l hp
      refine ⟨o, ?_⟩
      rw [← ho]
      apply if_neg
      rw [hp]
      rintro ⟨_, hc⟩
      cases hc
    | false => exact ⟨a.outcome, if_pos ⟨hf, hp⟩⟩
  recorded l b ho := by
    by_cases hn : (s.table.info l).flipped = true ∧ (p.solver.table.info l).flipped = false
    · have ha : some a.outcome = some (some b) := (if_pos hn).symm.trans ho
      cases hb : a.outcome with
      | none =>
        rw [hb] at ha
        cases ha
      | some b' =>
        rw [hb] at ha
        cases ha
        exact h.recorded l b hn.1 hn.2 hb
    · have ho' : p.outcome l = some (some b) := (if_neg hn).symm.trans ho
      obtain ⟨hl, hr⟩ := hi.recorded l b ho'
      exact ⟨Nat.le_trans hl h.grows.lastLabel, hr.grows hl h.grows⟩

theorem EventHandled.refl (hi : PathInv p) (a : PathEvent) : EventHandled p a p.solver where
  table := hi.table
  grows := .refl _
  recorded l b hf hn _ := by
    rw [hf] at hn
    cases hn

theorem Allocates.eventHandled (h : Allocates p.solver.table t) (a : PathEvent) :
    EventHandled p a (p.solver.serialized t) where
  table := h.inv
  grows := h.solverGrows
  recorded l b hf hn _ := by
    rw [h.flipped l hf] at hn
    cases hn

theorem EventHandled.branch {u : SolverState}
    (h : solveCond z mem host input label result addNested u = .ok none s)
    (hg : SolverGrows p.solver u) (hu : Allocates p.solver.table u.table)
    (hres : result.IsBool b) (ha : ∀ b', a.outcome = some b' → addNested = true ∧ b = b') :
    EventHandled p a s := by
  obtain ⟨S, hS⟩ := hu.inv
  obtain ⟨hc, hrec⟩ := solveCond_handled hS hres h
  refine ⟨hc.inv, hg.trans hc.grows, ?_⟩
  intro l b' hf hn ho
  obtain ⟨hadd, rfl⟩ := ha b' ho
  have hnu : (u.table.info l).flipped ≠ true := by
    intro hu'
    rw [hu.flipped l hu'] at hn
    cases hn
  rcases hc.flipped l hf with hu' | rfl
  · exact (hnu hu').elim
  · refine ⟨?_, ?_⟩
    · rw [hc.lastLabel]
      exact (solveCond_outcome h).1
    · rcases hrec with ⟨hu', _⟩ | ⟨_, hr⟩
      · exact (hnu hu').elim
      · exact hr hadd

theorem Term.isBool_boolVal (b : Bool) : (Term.boolVal b).IsBool b := ⟨rfl, fun _ => rfl⟩

theorem SolverGrows.visited (s : SolverState) (context : Nat × Nat) :
    SolverGrows s (s.visited context) :=
  ⟨Nat.le_refl _, fun _ _ _ he => ⟨he, rfl⟩, fun _ d hd => ⟨d, hd, Finset.Subset.refl _⟩⟩

theorem PathStep.inv (hz : z.Lawful) (hi : PathInv p) (h : PathStep z host input p a p') :
    PathInv p' := by
  obtain ⟨S, hS⟩ := hi.table
  cases h with
  | create hc => exact hi.after ((hS.create_allocates hc).eventHandled _)
  | union ha hu => exact hi.after ((hS.union_allocates ha hu).eventHandled _)
  | traceCond h =>
    apply hi.after
    rcases taintTraceCond_ok h with ⟨_, rfl⟩ | ⟨_, _, h⟩
    · exact .refl hi _
    · apply EventHandled.branch h (.visited _ _) hS.allocates_refl (Term.isBool_boolVal _)
      intro b' ho
      cases ho
      exact ⟨rfl, rfl⟩
  | traceCmp h1 h2 h =>
    apply hi.after
    rcases taintTraceCmp_ok h with rfl | ⟨temp, t, result, hu, hres, h⟩
    · exact .refl hi _
    · have halloc : Allocates p.solver.table t := hS.union_allocates ⟨h1, fun _ => h2⟩ hu
      apply EventHandled.branch h _ halloc (cmpResult_isBool hz hres)
      intro b' ho
      rw [PathEvent.outcome] at ho
      split at ho
      next hc =>
        cases ho
        exact ⟨decide_eq_true hc, rfl⟩
      next => cases ho
      exact (SolverGrows.visited _ _).trans (Allocates.solverGrows halloc)

theorem PathInv.start (input : TaintedInput) : PathInv (.start input) where
  table := ⟨_, TableInv.initial⟩
  flagged l hf := by
    have hnone : (LabelTable.initial.info l).flipped = false := by
      unfold LabelTable.initial
      by_cases hl : l = constLabel
      · subst hl
        rfl
      · simp only [Function.update_of_ne hl]
    rw [show (PathState.start input).solver.table = .initial from rfl, hnone] at hf
    cases hf
  recorded l b ho := by cases ho

theorem Steps.path_inv (hz : z.Lawful) (h : Steps (PathStep z host input) (.start input) as p) :
    PathInv p :=
  h.invariant (fun _ _ _ hi hr => hr.inv hz hi) (.start input)

/-- The constraint that a branch on a label went one way is in the set of every offset that the
label depends on. -/
def ConstraintPresent (z : Z3) (mem : Memory) (s : SolverState) (label : Nat) (b : Bool) : Prop :=
  ∃ e deps t r, serialize z mem (label + 1) label ∅ s.table = .ok (e, deps) t ∧ r.IsBool b ∧
    ∀ off ∈ deps, ∃ d, s.dep off = some d ∧ Term.eq e r ∈ d.exprDeps

theorem RecordedAs.present (h : RecordedAs s label b) (ho : Ordered s.table)
    (hl : constOffset ≤ label) (hlast : label ≤ s.table.lastLabel) (mem : Memory) :
    ConstraintPresent z mem s label b := by
  obtain ⟨e, r, he, hr, hall⟩ := h
  exact ⟨e, _, _, r, serialize_cached ho hl hlast he, hr, hall⟩

/-- No constraint is lost on a label that was not flagged before, or was flagged by a branch or
a taken case with the same outcome. -/
theorem no_constraint_lost (hz : z.Lawful)
    (hrun : Steps (PathStep z host input) (.start input) as p) (hlabel : label ≠ 0)
    (hvisit : p.solver.branches context < maxBranchCount)
    (h : taintTraceCond z mem host input context label r p.solver = .ok none s)
    (hsame : p.outcome label = none ∨ p.outcome label = some (some (decide (r ≠ 0)))) :
    ConstraintPresent z mem s label (r ≠ 0) := by
  have hi := hrun.path_inv hz
  obtain ⟨S, hS⟩ := hi.table
  rcases taintTraceCond_ok h with ⟨h0 | hb, _⟩ | ⟨_, _, h⟩
  · exact (hlabel h0).elim
  · exact (hb hvisit).elim
  obtain ⟨hc, hrec⟩ :=
    solveCond_handled (s := p.solver.visited context) hS (Term.isBool_boolVal _) h
  have hlast : label ≤ p.solver.table.lastLabel := (solveCond_outcome h).1
  have hs : RecordedAs s label (r ≠ 0) := by
    rcases hrec with ⟨hf, rfl⟩ | ⟨_, hr⟩
    · obtain ⟨o, ho⟩ := hi.flagged label hf
      rcases hsame with hn | hsome
      · rw [hn] at ho
        cases ho
      · exact (hi.recorded label _ hsome).2.grows hlast (.visited _ _)
    · exact hr rfl
  obtain ⟨S', hS'⟩ := hc.inv
  apply hs.present hS'.ordered (Nat.one_le_iff_ne_zero.2 hlabel)
  rw [hc.lastLabel]
  exact hlast

/-- Whether a computation ends without an exception. -/
def returnsNone : EStateM.Result ε σ (Option α) → Bool
  | .ok none _ => true
  | _ => false

theorem returnsNone_eq {x : EStateM.Result ε σ (Option α)} (h : returnsNone x = true) :
    x = .ok none (finalState x) := by
  cases x with
  | ok a s =>
    cases a with
    | none => rfl
    | some _ => cases h
  | error => cases h

def oneByteFile : TaintedInput := ⟨false, [5]⟩

def reliableHost : Host := ⟨fun _ => true, fun _ => .full⟩

def byteTable : LabelTable :=
  match dfsanCreateLabel .initial 0 with
  | .ok (_, t) => t
  | .error _ => .initial

/-- The path after the only byte of the file has got its label. -/
def bytePath : PathState :=
  (PathState.start oneByteFile).after (.create 0)
    ((SolverState.start oneByteFile .initial).serialized byteTable)

def comparedTable : LabelTable :=
  match taintUnion byteTable (traceCmpKey 1 0 8 32 5 7) with
  | .ok (_, t) => t
  | .error _ => byteTable

/-- The path after a comparison of the byte with 7 has got a label. -/
def comparedPath : PathState :=
  bytePath.after (.union (traceCmpKey 1 0 8 32 5 7)) (bytePath.solver.serialized comparedTable)

def caseSeven (s : SolverState) : EStateM.Result Exn SolverState (Option Z3Exception) :=
  taintTraceCmp .idle (fun _ => 0) reliableHost oneByteFile (0, 0) 1 0 8 32 5 7 s

def branchSeven (context : Nat × Nat) (s : SolverState) :
    EStateM.Result Exn SolverState (Option Z3Exception) :=
  taintTraceCond .idle (fun _ => 0) reliableHost oneByteFile context 2 0 s

theorem bytePath_step :
    PathStep .idle reliableHost oneByteFile (.start oneByteFile) (.create 0) bytePath :=
  .create rfl

theorem comparedPath_step :
    PathStep .idle reliableHost oneByteFile bytePath (.union (traceCmpKey 1 0 8 32 5 7))
      comparedPath :=
  .union ⟨by decide, fun _ => by decide⟩ rfl

/-- The second of two branches that go the same way. -/
theorem no_constraint_lost_twice :
    ∃ as p s, Steps (PathStep .idle reliableHost oneByteFile) (.start oneByteFile) as p ∧
      p.outcome 2 = some (some false) ∧ branchSeven (0, 1) p.solver = .ok none s ∧
      ConstraintPresent .idle (fun _ => 0) s 2 false := by
  have hfirst := returnsNone_eq (x := branchSeven (0, 0) comparedPath.solver) (by decide +kernel)
  have hsecond := returnsNone_eq
    (x := branchSeven (0, 1) (finalState (branchSeven (0, 0) comparedPath.solver)))
    (by decide +kernel)
  have hrun := Steps.cons bytePath_step (.cons comparedPath_step
    (.cons (.traceCond hfirst) .nil))
  have hsame : (comparedPath.after (.traceCond (fun _ => 0) (0, 0) 2 0)
      (finalState (branchSeven (0, 0) comparedPath.solver))).outcome 2 = some (some false) := by
    decide +kernel
  refine ⟨_, _, _, hrun, hsame, hsecond, ?_⟩
  exact no_constraint_lost Z3.idle_lawful hrun (by decide) (by decide +kernel) hsecond
    (.inr hsame)

def dependsOn (off : Nat) : EStateM.Result Exn LabelTable (Term × Finset Nat) → Bool
  | .ok (_, deps) _ => off ∈ deps
  | .error _ _ => false

/-- A case with the value 7 that is not taken, and then a branch on the same comparison: the
branch finds its label flagged, and its constraint is nowhere. -/
theorem constraint_lost_after_case :
    ∃ p s, Steps (PathStep .idle reliableHost oneByteFile) (.start oneByteFile)
        [.create 0, .traceCmp (fun _ => 0) (0, 0) 1 0 8 32 5 7] p ∧
      p.solver.branches (0, 1) < maxBranchCount ∧
      taintTraceCond .idle (fun _ => 0) reliableHost oneByteFile (0, 1) 2 0 p.solver =
        .ok none s ∧
      ¬ConstraintPresent .idle (fun _ => 0) s 2 false := by
  have hcase := returnsNone_eq (x := caseSeven bytePath.solver) (by decide +kernel)
  have hbranch := returnsNone_eq
    (x := branchSeven (0, 1) (finalState (caseSeven bytePath.solver))) (by decide +kernel)
  refine ⟨_, _, .cons bytePath_step (.cons (.traceCmp (by decide) (by decide) hcase) .nil),
    by decide +kernel, hbranch, ?_⟩
  rintro ⟨e, deps, t, r, hs, _, hall⟩
  have hmem : dependsOn 0 (serialize .idle (fun _ => 0) 3 2 ∅
      (finalState (branchSeven (0, 1) (finalState (caseSeven bytePath.solver)))).table) = true := by
    decide +kernel
  have hnone : ((finalState (branchSeven (0, 1)
      (finalState (caseSeven bytePath.solver)))).dep 0).isNone = true := by
    decide +kernel
  rw [hs] at hmem
  obtain ⟨d, hd, _⟩ := hall 0 (of_decide_eq_true hmem)
  rw [hd] at hnone
  cases hnone

end Kirenenko
