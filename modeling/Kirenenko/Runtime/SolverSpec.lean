import Kirenenko.Runtime.SerializeFrame
import Kirenenko.Runtime.Solver

namespace Kirenenko
set_option autoImplicit true

/-- Two states between which no label, constraint or visit was touched. -/
structure Idle (s s' : SolverState) : Prop where
  table : s'.table = s.table
  dep : s'.dep = s.dep
  branches : s'.branches = s.branches

theorem Idle.refl (s : SolverState) : Idle s s := ⟨rfl, rfl, rfl⟩

theorem Idle.trans (h : Idle s t) (h' : Idle t u) : Idle s u :=
  ⟨h'.table.trans h.table, h'.dep.trans h.dep, h'.branches.trans h.branches⟩

structure SameFiles (s s' : SolverState) : Prop where
  currentIndex : s'.currentIndex = s.currentIndex
  files : s'.files = s.files

/-- Two states between which only the solver was asked or the vector of dependencies grew. -/
structure Quiet (s s' : SolverState) : Prop extends Idle s s', SameFiles s s'

/-- What holds of a state however often the solver is asked. -/
def Undisturbed (I : SolverState → Prop) : Prop := ∀ s s', Quiet s s' → I s → I s'

theorem idle_undisturbed (s : SolverState) : Undisturbed (Idle s) :=
  fun _ _ h hs => hs.trans h.toIdle

theorem reserve_quiet (input : TaintedInput) (n : Nat) (s : SolverState) :
    Quiet s (s.reserve input n) := by
  unfold SolverState.reserve
  split
  · exact ⟨⟨rfl, rfl, rfl⟩, ⟨rfl, rfl⟩⟩
  · exact ⟨.refl s, ⟨rfl, rfl⟩⟩

theorem getBranchDep_cases (input : TaintedInput) (n : Nat) (s : SolverState) :
    ∃ s', Quiet s s' ∧ (getBranchDep input n s = .ok (s.dep n) s' ∨
      getBranchDep input n s = .error (.fault .outOfRange) s') := by
  have hi := reserve_quiet input n s
  refine ⟨s.reserve input n, hi, ?_⟩
  change (if n < (s.reserve input n).depSize then pure ((s.reserve input n).dep n)
      else throw (Exn.fault Fault.outOfRange) : SolveM _) (s.reserve input n) = _ ∨
    (if n < (s.reserve input n).depSize then pure ((s.reserve input n).dep n)
      else throw (Exn.fault Fault.outOfRange) : SolveM _) (s.reserve input n) = _
  by_cases hn : n < (s.reserve input n).depSize
  · rw [if_pos hn, hi.dep]
    exact .inl rfl
  · rw [if_neg hn]
    exact .inr rfl

theorem getBranchDep_ok (h : getBranchDep input n s = .ok d s') : d = s.dep n ∧ Idle s s' := by
  obtain ⟨s₁, hi, he | he⟩ := getBranchDep_cases input n s
  · rw [he] at h
    cases h
    exact ⟨rfl, hi.toIdle⟩
  · rw [he] at h
    cases h

theorem mem_elements {s : Finset Nat} : n ∈ elements s ↔ n ∈ s := by
  unfold elements
  rw [List.mem_filter, List.mem_range, decide_eq_true_iff]
  constructor
  · exact fun h => h.2
  · intro h
    exact ⟨Nat.lt_succ_of_le (Finset.le_sup (f := id) h), h⟩

/-- The dependencies of an offset lie inside a set. -/
def ClosedAt (dep : Nat → Option BranchDep) (inputs : Finset Nat) (o : Nat) : Prop :=
  ∀ d, dep o = some d → d.inputDeps ⊆ inputs

theorem ClosedAt.mono (h : ClosedAt dep inputs o) (hs : inputs ⊆ inputs') :
    ClosedAt dep inputs' o :=
  fun d hd => (h d hd).trans hs

/-- Offsets are closed already or still on the worklist. -/
theorem closeInputs_ok (h : closeInputs input fuel work inputs s = .ok out s')
    (hinv : ∀ o ∈ inputs, o ∈ work ∨ ClosedAt s.dep inputs o) :
    Idle s s' ∧ inputs ⊆ out ∧ ∀ o ∈ out, ClosedAt s.dep out o := by
  induction fuel generalizing work inputs s with
  | zero =>
    cases work with
    | nil =>
      cases h
      exact ⟨.refl _, Finset.Subset.refl _, fun o ho => (hinv o ho).resolve_left (by simp)⟩
    | cons off work => cases h
  | succ fuel ih =>
    cases work with
    | nil =>
      cases h
      exact ⟨.refl _, Finset.Subset.refl _, fun o ho => (hinv o ho).resolve_left (by simp)⟩
    | cons off work =>
      obtain ⟨d, s₁, hd, h⟩ := estate_bind_eq_ok.1 h
      obtain ⟨rfl, hi⟩ := getBranchDep_ok hd
      cases hd' : s.dep off with
      | none =>
        rw [hd'] at h
        obtain ⟨hi', hsub, hclosed⟩ := ih h (by
          intro o ho
          rw [hi.dep]
          rcases hinv o ho with hw | hc
          · rcases List.mem_cons.1 hw with rfl | hw
            · exact .inr fun d hd => by rw [hd'] at hd; cases hd
            · exact .inl hw
          · exact .inr hc)
        rw [hi.dep] at hclosed
        exact ⟨hi.trans hi', hsub, hclosed⟩
      | some deps =>
        rw [hd'] at h
        obtain ⟨hi', hsub, hclosed⟩ := ih h (by
          intro o ho
          rw [hi.dep]
          by_cases hin : o ∈ inputs
          · rcases hinv o hin with hw | hc
            · rcases List.mem_cons.1 hw with rfl | hw
              · refine .inr fun d hd => ?_
                rw [hd'] at hd
                cases hd
                exact Finset.subset_union_right
              · exact .inl (List.mem_append_right _ hw)
            · exact .inr (hc.mono Finset.subset_union_left)
          · have hnew := (Finset.mem_union.1 ho).resolve_left hin
            exact .inl (List.mem_append_left _
              (mem_elements.2 (Finset.mem_sdiff.2 ⟨hnew, hin⟩))))
        rw [hi.dep] at hclosed
        exact ⟨hi.trans hi', Finset.subset_union_left.trans hsub, hclosed⟩

theorem collectExprs_ok (h : collectExprs input l added s = .ok out s') :
    Idle s s' ∧ ∀ e, e ∈ out ↔ e ∈ added ∨ ∃ off ∈ l, ∃ d, s.dep off = some d ∧ e ∈ d.exprDeps := by
  induction l generalizing added s with
  | nil =>
    cases h
    refine ⟨.refl _, fun e => ⟨.inl, ?_⟩⟩
    rintro (he | ⟨off, ho, _⟩)
    · exact he
    · cases ho
  | cons off l ih =>
    obtain ⟨d, s₁, hd, h⟩ := estate_bind_eq_ok.1 h
    obtain ⟨rfl, hi⟩ := getBranchDep_ok hd
    cases hd' : s.dep off with
    | none =>
      rw [hd'] at h
      obtain ⟨hi', hmem⟩ := ih h
      refine ⟨hi.trans hi', fun e => ?_⟩
      rw [hmem e, hi.dep]
      simp only [List.mem_cons, exists_eq_or_imp, hd', reduceCtorEq, false_and, exists_false,
        false_or]
    | some deps =>
      rw [hd'] at h
      obtain ⟨hi', hmem⟩ := ih h
      refine ⟨hi.trans hi', fun e => ?_⟩
      rw [hmem e, hi.dep, Finset.mem_union]
      simp only [List.mem_cons, exists_eq_or_imp, hd', Option.some.injEq, exists_eq_left', or_assoc]

/-- An entry after a constraint was recorded under its offset. -/
def addDep (e : Term) (inputs : Finset Nat) (d : Option BranchDep) : BranchDep where
  exprDeps := insert e (d.getD {}).exprDeps
  inputDeps := (d.getD {}).inputDeps ∪ inputs

theorem addDep_addDep (e : Term) (inputs : Finset Nat) (d : Option BranchDep) :
    addDep e inputs (some (addDep e inputs d)) = addDep e inputs d := by
  simp only [addDep, Option.getD_some, Finset.insert_idem, Finset.union_assoc, Finset.union_self]

/-- The entries after a constraint was recorded under a set of offsets. -/
def recorded (e : Term) (inputs : Finset Nat) (dep : Nat → Option BranchDep) (l : List Nat) :
    Nat → Option BranchDep :=
  fun n => if n ∈ l then some (addDep e inputs (dep n)) else dep n

theorem recorded_mem (h : o ∈ S) :
    recorded e S dep (elements S) o = some (addDep e S (dep o)) :=
  if_pos (mem_elements.2 h)

theorem recorded_mono (h : dep o = some d) : ∃ d', recorded e S dep l o = some d' ∧
    d.exprDeps ⊆ d'.exprDeps ∧ d.inputDeps ⊆ d'.inputDeps := by
  unfold recorded
  by_cases ho : o ∈ l
  · rw [if_pos ho, h]
    exact ⟨_, rfl, Finset.subset_insert _ _, Finset.subset_union_left⟩
  · rw [if_neg ho]
    exact ⟨d, h, Finset.Subset.refl _, Finset.Subset.refl _⟩

theorem recorded_update (e : Term) (inputs : Finset Nat) (dep : Nat → Option BranchDep)
    (off : Nat) (l : List Nat) :
    recorded e inputs (Function.update dep off (some (addDep e inputs (dep off)))) l =
      recorded e inputs dep (off :: l) := by
  funext n
  unfold recorded
  by_cases hn : n = off
  · subst hn
    simp only [Function.update_self, addDep_addDep, ite_self, List.mem_cons_self, if_true]
  · simp only [Function.update_of_ne hn, List.mem_cons, hn, false_or]

theorem setBranchDep_cases (input : TaintedInput) (n : Nat) (d : BranchDep) (s : SolverState) :
    (∃ s', s'.table = s.table ∧ s'.dep = Function.update s.dep n (some d) ∧
      s'.branches = s.branches ∧ SameFiles s s' ∧ setBranchDep input n d s = .ok () s') ∨
    ∃ s', Quiet s s' ∧ setBranchDep input n d s = .error (.fault .outOfRange) s' := by
  have hi := reserve_quiet input n s
  have he : setBranchDep input n d s =
      (if n < (s.reserve input n).depSize then
        set { s.reserve input n with dep := Function.update (s.reserve input n).dep n (some d) }
      else throw (Exn.fault Fault.outOfRange) : SolveM Unit) (s.reserve input n) := rfl
  by_cases hn : n < (s.reserve input n).depSize
  · rw [if_pos hn] at he
    refine .inl ⟨{ s.reserve input n with
      dep := Function.update (s.reserve input n).dep n (some d) }, hi.table, ?_, hi.branches,
      ⟨hi.currentIndex, hi.files⟩, he⟩
    rw [hi.dep]
  · rw [if_neg hn] at he
    exact .inr ⟨_, hi, he⟩

theorem recordConstraint_cases (input : TaintedInput) (e : Term) (inputs : Finset Nat)
    (l : List Nat) (s : SolverState) :
    (∃ s', s'.table = s.table ∧ s'.dep = recorded e inputs s.dep l ∧ s'.branches = s.branches ∧
      recordConstraint input e inputs l s = .ok () s') ∨
    ∃ s', recordConstraint input e inputs l s = .error (.fault .outOfRange) s' := by
  induction l generalizing s with
  | nil =>
    refine .inl ⟨s, rfl, ?_, rfl, rfl⟩
    funext n
    simp only [recorded, List.not_mem_nil, if_false]
  | cons off l ih =>
    unfold recordConstraint
    obtain ⟨s₁, hi, he | he⟩ := getBranchDep_cases input off s
    · rw [estate_bind_ok he]
      rcases setBranchDep_cases input off (addDep e inputs (s.dep off)) s₁ with
        ⟨s₂, ht, hd, hb, _, he₂⟩ | ⟨s₂, _, he₂⟩
      · have hdep : recorded e inputs s₂.dep l = recorded e inputs s.dep (off :: l) := by
          rw [hd, hi.dep, recorded_update]
        rcases ih s₂ with ⟨s₃, ht₃, hd₃, hb₃, he₃⟩ | ⟨s₃, he₃⟩
        · refine .inl ⟨s₃, ht₃.trans (ht.trans hi.table), hd₃.trans hdep,
            hb₃.trans (hb.trans hi.branches), ?_⟩
          exact (estate_bind_ok he₂).trans he₃
        · exact .inr ⟨s₃, (estate_bind_ok he₂).trans he₃⟩
      · exact .inr ⟨s₂, estate_bind_error he₂⟩
    · exact .inr ⟨s₁, estate_bind_error he⟩

/-- What holds of a state whatever files are written. -/
def IgnoresFiles (I : SolverState → Prop) : Prop :=
  ∀ s index files, I s → I { s with currentIndex := index, files := files }

theorem idle_ignoresFiles (s : SolverState) : IgnoresFiles (Idle s) :=
  fun _ _ _ h => h.trans ⟨rfl, rfl, rfl⟩

section
variable {I : SolverState → Prop} (hI : IgnoresFiles I)
include hI

theorem keeps_writeFile (index : Nat) (f : List UInt8) : Keeps I E (writeFile index f) :=
  .update fun s h => hI s s.currentIndex _ h

theorem keeps_nextIndex : Keeps I E nextIndex := by
  intro s₁ h
  refine ⟨?_, ?_⟩
  · intro n s₂ he
    cases he
    exact hI s₁ _ s₁.files h
  · intro e s₂ he
    cases he

theorem keeps_generateInput (host : Host) (input : TaintedInput)
    (m : List ((Symbol × Nat) × Nat)) : Keeps I IsZ3 (generateInput host input m) := by
  refine (keeps_nextIndex hI).bind fun index => .ite (fun _ => .throw ⟨_, rfl⟩) fun _ =>
    .ite (fun _ => (keeps_writeFile hI index _).bind fun _ => .throw ⟨_, rfl⟩) fun _ => ?_
  cases host.copied index input.buf with
  | none => exact (keeps_writeFile hI index _).bind fun _ => .throw ⟨_, rfl⟩
  | some f =>
    refine (keeps_writeFile hI index _).bind fun _ => ?_
    cases (writeModel input.buf.length m f).2 with
    | some e => exact .throw ⟨e, rfl⟩
    | none => exact .pure ()

theorem keeps_generateFrom (host : Host) (input : TaintedInput) (q : BranchQuery) :
    Keeps I IsZ3 (generateFrom host input q) := by
  unfold generateFrom
  split
  · exact keeps_generateInput hI host input _
  · exact keeps_generateInput hI host input _
  · exact .pure ()

end

theorem keeps_liftZ3_notIndex {I : SolverState → Prop} (x : Except Z3Exception α) :
    Keeps I NotIndex (liftZ3 x : SolveM α) := by
  cases x with
  | ok a => exact .pure a
  | error e => exact .throw (IsZ3.notIndex ⟨e, rfl⟩)

section
variable {I : SolverState → Prop} (hI : Undisturbed I)
include hI

theorem keeps_getBranchDep (input : TaintedInput) (n : Nat) :
    Keeps I NotIndex (getBranchDep input n) := by
  intro s₁ h
  obtain ⟨s₂, hi, he | he⟩ := getBranchDep_cases input n s₁
  · rw [he]
    refine ⟨?_, ?_⟩
    · intro d s₃ hr
      cases hr
      exact hI _ _ hi h
    · intro e s₃ hr
      cases hr
  · rw [he]
    refine ⟨?_, ?_⟩
    · intro d s₃ hr
      cases hr
    · intro e s₃ hr
      cases hr
      exact ⟨hI _ _ hi h, fun _ => nofun⟩

theorem keeps_closeInputs (input : TaintedInput) :
    Keeps I NotIndex (closeInputs input fuel work inputs) := by
  induction fuel generalizing work inputs with
  | zero =>
    cases work with
    | nil => exact .pure inputs
    | cons off work => exact .throw fun _ => nofun
  | succ fuel ih =>
    cases work with
    | nil => exact .pure inputs
    | cons off work =>
      refine (keeps_getBranchDep hI input off).bind fun d => ?_
      cases d with
      | none => exact ih
      | some deps => exact ih

theorem keeps_collectExprs (input : TaintedInput) :
    Keeps I NotIndex (collectExprs input l added) := by
  induction l generalizing added with
  | nil => exact .pure added
  | cons off l ih =>
    refine (keeps_getBranchDep hI input off).bind fun d => ?_
    cases d with
    | none => exact ih
    | some deps => exact ih

theorem keeps_solverCheck (z : Z3) (fs : Finset Term) : Keeps I NotIndex (solverCheck z fs) := by
  intro s₁ h
  refine ⟨?_, ?_⟩
  · intro r s₂ he
    cases he
    exact hI s₁ _ ⟨⟨rfl, rfl, rfl⟩, ⟨rfl, rfl⟩⟩ h
  · intro e s₂ he
    cases he

theorem keeps_queryWith (z : Z3) (input : TaintedInput) (result cond : Term)
    (inputs : Finset Nat) : Keeps I NotIndex (queryWith z input result cond inputs) := by
  refine .read (P := fun _ => True) (fun s₁ _ => ⟨s₁, rfl, trivial⟩) fun s₀ _ => ?_
  refine (keeps_closeInputs hI input).bind fun inputs => ?_
  refine (keeps_liftZ3_notIndex _).bind fun negated => ?_
  refine (keeps_solverCheck hI z _).bind fun first => ?_
  cases first with
  | sat m =>
    refine (keeps_collectExprs hI input).bind fun added => ?_
    refine (keeps_liftZ3_notIndex _).bind fun fs => ?_
    exact (keeps_solverCheck hI z _).bind fun second => .pure _
  | unsat => exact .pure _
  | unknown => exact .pure _

end

theorem liftZ3_ok {x : Except Z3Exception α} {s s' : σ}
    (h : (liftZ3 x : EStateM Exn σ α) s = .ok a s') : x = .ok a ∧ s' = s := by
  cases x with
  | ok b =>
    cases h
    exact ⟨rfl, rfl⟩
  | error e => cases h

/-- The formulas of the second query: the negated branch and what is recorded under the inputs. -/
def Asserted (dep : Nat → Option BranchDep) (q : BranchQuery) (result f : Term) : Prop :=
  f = .distinct q.cond result ∨ ∃ off ∈ q.inputs, ∃ d, dep off = some d ∧ f ∈ d.exprDeps

/-- What is known once the queries of `__solve_cond` were made. -/
structure Queried (z : Z3) (dep : Nat → Option BranchDep) (result cond : Term)
    (deps : Finset Nat) (q : BranchQuery) : Prop where
  cond_eq : q.cond = cond
  inputs : deps ⊆ q.inputs
  closed : ∀ o ∈ q.inputs, ClosedAt dep q.inputs o
  sorted : ∃ σ, (Term.distinct cond result).sort = some σ
  second : ∀ m, q.second = some (.sat m) → ∃ k fs, z.check k fs = .sat m ∧
    ∀ f, f ∈ fs ↔ Asserted dep q result f

theorem assertAll_ok (h : assertAll fs = .ok fs') : fs' = fs := by
  unfold assertAll at h
  split at h
  · cases h
    rfl
  · cases h

theorem queryWith_ok {cond : Term} (h : queryWith z input result cond deps s = .ok q s') :
    Idle s s' ∧ Queried z s.dep result cond deps q := by
  have hkeeps := keeps_queryWith (idle_undisturbed s) z input result cond deps
  have hidle := (hkeeps s (.refl s)).1 q s' h
  refine ⟨hidle, ?_⟩
  obtain ⟨s₀, s₁, hget, h₁⟩ := estate_bind_eq_ok.1 h
  cases hget
  obtain ⟨inputs, s₁, hclose, h₂⟩ := estate_bind_eq_ok.1 h₁
  obtain ⟨hi₁, hsub, hclosed⟩ := closeInputs_ok hclose fun o ho => .inl (mem_elements.2 ho)
  obtain ⟨negated, s₂, hneg, h₃⟩ := estate_bind_eq_ok.1 h₂
  obtain ⟨hchecked, rfl⟩ := liftZ3_ok hneg
  obtain ⟨rfl, hσ⟩ := checked_eq_ok.1 hchecked
  obtain ⟨first, s₃, hfirst, h₄⟩ := estate_bind_eq_ok.1 h₃
  cases hfirst
  cases hz : z.check s₂.queries {Term.distinct cond result} with
  | sat m₀ =>
    rw [hz] at h₄
    obtain ⟨added, s₄, hadded, h₅⟩ := estate_bind_eq_ok.1 h₄
    obtain ⟨_, hmem⟩ := collectExprs_ok hadded
    obtain ⟨fs, s₅, hlift, h₆⟩ := estate_bind_eq_ok.1 h₅
    obtain ⟨hfs, rfl⟩ := liftZ3_ok hlift
    obtain rfl := assertAll_ok hfs
    cases h₆
    refine ⟨rfl, hsub, hclosed, hσ, ?_⟩
    intro m hm
    refine ⟨_, _, Option.some.inj hm, fun f => ?_⟩
    rw [Finset.mem_insert, hmem f]
    simp only [Finset.notMem_empty, false_or, mem_elements, Asserted]
    rw [← hi₁.dep]
  | unsat =>
    rw [hz] at h₄
    cases h₄
    exact ⟨rfl, hsub, hclosed, hσ, fun m hm => by cases hm⟩
  | unknown =>
    rw [hz] at h₄
    cases h₄
    exact ⟨rfl, hsub, hclosed, hσ, fun m hm => by cases hm⟩

end Kirenenko
