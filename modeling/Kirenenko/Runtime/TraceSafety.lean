import Kirenenko.Runtime.IndexSafety
import Kirenenko.Runtime.TraceEvents

namespace Kirenenko
set_option autoImplicit true

section
variable {t : LabelTable}

/-- The keys of a table, as an invariant of the solving part. -/
def KeysKept (t : LabelTable) (s : SolverState) : Prop := SameKeys t s.table

theorem keysKept_undisturbed (t : LabelTable) : Undisturbed (KeysKept t) := by
  intro s s' h hs
  rw [KeysKept, h.table]
  exact hs

theorem Keeps.weaken {ε σ : Type} {E E' : ε → Prop} {I : σ → Prop} {x : EStateM ε σ α}
    (h : Keeps I E x) (hE : ∀ e, E e → E' e) : Keeps I E' x := by
  intro s hs
  obtain ⟨hok, herr⟩ := h s hs
  exact ⟨hok, fun e s' he => ⟨(herr e s' he).1, hE e (herr e s' he).2⟩⟩

theorem keeps_serializeLabel (h : TableInv t S) (hl : label ≤ t.lastLabel) :
    Keeps (KeysKept t) NotIndex (serializeLabel z mem label) := by
  intro s hs
  have hl' : label ≤ s.table.lastLabel := Nat.le_trans hl hs.extends.lastLabel
  have hkeeps : Keeps (SerializeFrame s.table) IsZ3 (serialize z mem (label + 1) label ∅) :=
    keeps_serialize (h.sameKeys hs).ordered hl' (Nat.lt_succ_self label)
  obtain ⟨hok, herr⟩ := hkeeps s.table (.refl _)
  unfold serializeLabel
  cases hr : serialize z mem (label + 1) label ∅ s.table with
  | ok r u =>
    refine ⟨?_, nofun⟩
    rintro a s' ⟨⟩
    exact hs.trans (hok r u hr).same
  | error e u =>
    obtain ⟨hframe, hz3⟩ := herr e u hr
    refine ⟨nofun, ?_⟩
    rintro e' s' ⟨⟩
    exact ⟨hs.trans hframe.same, hz3.notIndex⟩

theorem keeps_setBranchDep (input : TaintedInput) (n : Nat) (d : BranchDep) :
    Keeps (KeysKept t) NotIndex (setBranchDep input n d) := by
  intro s hs
  rcases setBranchDep_cases input n d s with ⟨s', ht, _, _, _, he⟩ | ⟨s', hi, he⟩
  · rw [he]
    refine ⟨?_, nofun⟩
    rintro _ _ ⟨⟩
    rw [KeysKept, ht]
    exact hs
  · rw [he]
    refine ⟨nofun, ?_⟩
    rintro _ _ ⟨⟩
    rw [KeysKept, hi.table]
    exact ⟨hs, fun _ => nofun⟩

theorem keeps_recordConstraint (input : TaintedInput) (e : Term) (inputs : Finset Nat) :
    Keeps (KeysKept t) NotIndex (recordConstraint input e inputs l) := by
  induction l with
  | nil => exact .pure ()
  | cons off l ih =>
    apply (keeps_getBranchDep (keysKept_undisturbed t) input off).bind
    intro d
    exact (keeps_setBranchDep input off _).bind fun _ => ih

theorem keeps_setFlipped (label : Nat) : Keeps (KeysKept t) NotIndex (setFlipped label) :=
  .update fun _ hs => hs.trans (flip_sameKeys _ label)

theorem keeps_solveBranch (h : TableInv t S) (hl : label ≤ t.lastLabel) :
    Keeps (KeysKept t) NotIndex (solveBranch z mem host input label result addNested) := by
  unfold solveBranch
  apply Keeps.bind
  · apply (keeps_serializeLabel h hl).bind
    intro p
    exact keeps_queryWith (keysKept_undisturbed t) z input result p.1 p.2
  intro q
  apply Keeps.bind
  · exact (keeps_generateFrom (fun _ _ _ hs => hs) host input q).weaken fun _ => IsZ3.notIndex
  intro _
  cases addNested with
  | false => exact keeps_setFlipped label
  | true =>
    apply (keeps_liftZ3_notIndex _).bind
    intro e
    exact (keeps_recordConstraint input e _).bind fun _ => keeps_setFlipped label

theorem Keeps.catchZ3 {I : SolverState → Prop} {E : Exn → Prop} {x : SolveM Unit}
    (h : Keeps I E x) : Keeps I E (Kirenenko.catchZ3 x) := by
  intro s hs
  obtain ⟨hok, herr⟩ := h s hs
  unfold Kirenenko.catchZ3
  cases hr : x s with
  | ok u s₁ =>
    refine ⟨?_, nofun⟩
    rintro _ _ ⟨⟩
    exact hok u s₁ hr
  | error e s₁ =>
    obtain ⟨hk, hE⟩ := herr e s₁ hr
    cases e with
    | z3 e =>
      refine ⟨?_, nofun⟩
      rintro _ _ ⟨⟩
      exact hk
    | fault f =>
      refine ⟨nofun, ?_⟩
      rintro _ _ ⟨⟩
      exact ⟨hk, hE⟩

theorem labelInfo_read (hl : label ≤ t.lastLabel) (s : SolverState) (hs : KeysKept t s) :
    ∃ info, labelInfo label s = .ok info s ∧ True := by
  have hl' : label ≤ s.table.lastLabel := Nat.le_trans hl hs.extends.lastLabel
  exact ⟨s.table.info label, (labelInfo_eq label s).trans (if_pos hl'), trivial⟩

theorem keeps_solveCond (h : TableInv t S) (hl : label ≤ t.lastLabel) :
    Keeps (KeysKept t) NotIndex (solveCond z mem host input label result addNested) := by
  apply Keeps.read (labelInfo_read hl)
  intro info _
  apply Keeps.ite
  · intro _
    exact .pure none
  · intro _
    exact (keeps_solveBranch h hl).catchZ3

theorem keeps_addConstraints (h : TableInv t S) (hl : label ≤ t.lastLabel) :
    Keeps (KeysKept t) NotIndex (addConstraints z mem input label) := by
  apply Keeps.read (labelInfo_read hl)
  intro info _
  apply Keeps.ite
  · intro _
    exact .pure none
  · intro _
    apply Keeps.bind
    · apply Keeps.catchZ3
      apply (keeps_serializeLabel h hl).bind
      intro p
      exact keeps_recordConstraint input p.1 p.2
    · intro r
      exact (keeps_setFlipped label).bind fun _ => .pure r

/-- A trace event that uses no record that is not allocated, and keeps the table. -/
def TraceKept (t : LabelTable) : EStateM.Result Exn SolverState α → Prop
  | .ok _ s => TableKept t s.table
  | .error e _ => NotIndex e

theorem Keeps.traceKept {x : SolveM α} {s : SolverState} (h : TableInv s.table S)
    (hx : Keeps (KeysKept s.table) NotIndex x) : TraceKept s.table (x s) := by
  obtain ⟨hok, herr⟩ := hx s (.refl _)
  cases hr : x s with
  | ok a s' =>
    have hs : SameKeys s.table s'.table := hok a s' hr
    exact ⟨⟨S, h.sameKeys hs⟩, hs.extends⟩
  | error e s' => exact (herr e s' hr).2

theorem solveCond_inTable {s : SolverState} (h : TableInv s.table S)
    (hl : label ≤ s.table.lastLabel) :
    TraceKept s.table (solveCond z mem host input label result addNested s) :=
  (keeps_solveCond h hl).traceKept h

theorem addConstraints_inTable {s : SolverState} (h : TableInv s.table S)
    (hl : label ≤ s.table.lastLabel) :
    TraceKept s.table (addConstraints z mem input label s) :=
  (keeps_addConstraints h hl).traceKept h

theorem taintTraceCond_inTable {s : SolverState} (h : TableInv s.table S)
    (hl : Held s.table label)
    (hsafe : label = kInitializingLabel → ¬s.branches context < maxBranchCount) :
    TraceKept s.table (taintTraceCond z mem host input context label r s) := by
  rw [taintTraceCond_eq]
  by_cases hc : label = 0 ∨ ¬s.branches context < maxBranchCount
  · rw [if_pos hc]
    exact h.kept
  · rw [if_neg hc]
    have hne : label ≠ kInitializingLabel := fun he => hc (.inr (hsafe he))
    exact solveCond_inTable (s := s.visited context) h (hl.resolve_right hne)

theorem TraceKept.of_kept {r : EStateM.Result Exn SolverState α} (hk : TableKept t u)
    (h : TraceKept u r) : TraceKept t r := by
  cases r with
  | ok a s => exact hk.trans h
  | error e s => exact h

theorem taintTraceCmp_inTable {s : SolverState} (h : TableInv s.table S)
    (h1 : Held s.table op1) (h2 : Held s.table op2)
    (hsafe : op1 = kInitializingLabel ∨ op2 = kInitializingLabel →
      ¬s.branches context < maxBranchCount) :
    TraceKept s.table
      (taintTraceCmp z mem host input context op1 op2 size predicate c1 c2 s) := by
  rw [taintTraceCmp_eq]
  by_cases hc : (op1 = 0 ∧ op2 = 0) ∨ ¬s.branches context < maxBranchCount
  · rw [if_pos hc]
    exact h.kept
  rw [if_neg hc]
  obtain ⟨hne1, hne2⟩ := not_or.1 fun he => hc (.inr (hsafe he))
  have hinit : ¬InitUnion (swapOperands
      { traceCmpKey op1 op2 size predicate c1 c2 with size := size % 2 ^ 8 }) :=
    fun he => (initUnion_swapOperands.1 he).elim hne1 hne2
  rcases h.union_cases ⟨h1.resolve_right hne1, fun _ => h2.resolve_right hne2⟩ hinit with
    ⟨hu, _⟩ | ⟨temp, t, hu, hret⟩
  · have hfail : unionLabel (traceCmpKey op1 op2 size predicate c1 c2) (s.visited context) =
        .error (.fault .die) (s.visited context) := by
      have hd : dfsanUnion (s.visited context).table
          (traceCmpKey op1 op2 size predicate c1 c2) = .error .die := hu
      rw [unionLabel, hd]
    rw [solveCase, estate_bind_error hfail]
    exact fun _ => nofun
  · have hlabel : unionLabel (traceCmpKey op1 op2 size predicate c1 c2) (s.visited context) =
        .ok temp ((s.visited context).serialized t) := by
      have hd : dfsanUnion (s.visited context).table
          (traceCmpKey op1 op2 size predicate c1 c2) = .ok (temp, t) := hu
      rw [unionLabel, hd]
      rfl
    rw [solveCase, estate_bind_ok hlabel]
    cases cmpResult z size predicate c1 c2 with
    | error e => exact fun _ => nofun
    | ok result =>
      obtain ⟨S', hS'⟩ := hret.inv
      apply TraceKept.of_kept ⟨⟨S', hS'⟩, hret.grows⟩
      exact solveCond_inTable (s := (s.visited context).serialized t) hS' hret.label

end

end Kirenenko
