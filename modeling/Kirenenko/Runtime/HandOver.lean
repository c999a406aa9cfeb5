import Kirenenko.Runtime.GeneratedInput
import Kirenenko.Runtime.LabelBounds

namespace Kirenenko
set_option autoImplicit true

/-- The count that `dfsan_fini` writes to the shared memory of the fuzzer. It returns before that
if labels are to be dumped to a file that does not open. -/
def dfsanFini (dumpOpens : Option Bool) (aflShm : Bool) (s : SolverState) : Option Nat :=
  if dumpOpens = some false then none
  else if aflShm then some s.currentIndex
  else none

/-- Every file below the count exists and has the length that the fuzzer maps. -/
def SolverState.HandedOver (len : Nat) (s : SolverState) : Prop :=
  ∀ i < s.currentIndex, ∃ f, s.files i = some f ∧ len ≤ f.length

/-- The model that `__solve_cond` hands to `generate_input`. -/
def BranchQuery.model (q : BranchQuery) : Option (List ((Symbol × Nat) × Nat)) :=
  match q.first, q.second with
  | .sat _, some (.sat m) => some m
  | .sat m, _ => some m
  | _, _ => none

def solvedModel (z : Z3) (mem : Memory) (input : TaintedInput) (label : Nat) (result : Term)
    (s : SolverState) : Option (List ((Symbol × Nat) × Nat)) :=
  match queryBranch z mem input label result s with
  | .ok q _ => q.model
  | .error _ _ => none

/-- The model that the solver gives for a branch that was not flipped yet. -/
def condModel (z : Z3) (mem : Memory) (input : TaintedInput) (label : Nat) (result : Term)
    (s : SolverState) : Option (List ((Symbol × Nat) × Nat)) :=
  if (s.table.info label).flipped then none else solvedModel z mem input label result s

/-- The model for which an event of the program generates an input. -/
def RunEvent.model (z : Z3) (input : TaintedInput) (s : RunState) :
    RunEvent → Option (List ((Symbol × Nat) × Nat))
  | .traceCond mem context label r =>
    if label = 0 ∨ ¬s.solver.branches context < maxBranchCount then none
    else condModel z mem input label (.boolVal (r ≠ 0)) (s.solver.visited context)
  | .traceCmp mem context op1 op2 size predicate c1 c2 =>
    if (op1 = 0 ∧ op2 = 0) ∨ ¬s.solver.branches context < maxBranchCount then none
    else
      match dfsanUnion s.solver.table (traceCmpKey op1 op2 size predicate c1 c2),
        cmpResult z size predicate c1 c2 with
      | .ok (temp, t), .ok result =>
        condModel z mem input temp result ((s.solver.visited context).serialized t)
      | _, _ => none
  | _ => none

def SolverState.afterModel (host : Host) (input : TaintedInput) (s : SolverState) :
    Option (List ((Symbol × Nat) × Nat)) → SolverState
  | none => s
  | some m => s.generated host input m

theorem SameFiles.refl (s : SolverState) : SameFiles s s := ⟨rfl, rfl⟩

theorem SameFiles.trans (h : SameFiles s u) (h' : SameFiles u v) : SameFiles s v :=
  ⟨h'.currentIndex.trans h.currentIndex, h'.files.trans h.files⟩

theorem SameFiles.afterModel (h : SameFiles s s') (host : Host) (input : TaintedInput)
    (m : Option (List ((Symbol × Nat) × Nat))) :
    SameFiles (s.afterModel host input m) (s'.afterModel host input m) := by
  cases m with
  | none => exact h
  | some m =>
    unfold SolverState.afterModel SolverState.generated
    constructor
    · simp only [h.currentIndex]
    · simp only [h.currentIndex, h.files]

theorem sameFiles_undisturbed (s : SolverState) : Undisturbed (SameFiles s) :=
  fun _ _ h hs => hs.trans h.toSameFiles

theorem generateFrom_final (host : Host) (input : TaintedInput) (q : BranchQuery)
    (s : SolverState) :
    finalState (generateFrom host input q s) = s.afterModel host input q.model := by
  obtain ⟨cond, inputs, first, second⟩ := q
  cases first with
  | sat m =>
    cases second with
    | none => exact generateInput_final ..
    | some r =>
      cases r with
      | sat m' => exact generateInput_final ..
      | unsat => exact generateInput_final ..
      | unknown => exact generateInput_final ..
  | unsat => rfl
  | unknown => rfl

def AnyExn (_ : Exn) : Prop := True

section
variable {s : SolverState}

theorem serializeLabel_sameFiles (z : Z3) (mem : Memory) (label : Nat) :
    Keeps (SameFiles s) AnyExn (serializeLabel z mem label) := by
  intro s₁ h
  unfold serializeLabel
  cases serialize z mem (label + 1) label ∅ s₁.table with
  | ok r t =>
    refine ⟨?_, nofun⟩
    rintro _ _ ⟨⟩
    exact h.trans ⟨rfl, rfl⟩
  | error e t =>
    refine ⟨nofun, ?_⟩
    rintro _ _ ⟨⟩
    exact ⟨h.trans ⟨rfl, rfl⟩, trivial⟩

theorem setBranchDep_sameFiles (input : TaintedInput) (n : Nat) (d : BranchDep) :
    Keeps (SameFiles s) AnyExn (setBranchDep input n d) := by
  intro s₁ h
  rcases setBranchDep_cases input n d s₁ with ⟨s', _, _, _, hf, he⟩ | ⟨s', hq, he⟩
  · rw [he]
    refine ⟨?_, nofun⟩
    rintro _ _ ⟨⟩
    exact h.trans hf
  · rw [he]
    refine ⟨nofun, ?_⟩
    rintro _ _ ⟨⟩
    exact ⟨h.trans hq.toSameFiles, trivial⟩

theorem recordConstraint_sameFiles (input : TaintedInput) (e : Term) (inputs : Finset Nat) :
    Keeps (SameFiles s) AnyExn (recordConstraint input e inputs l) := by
  induction l with
  | nil => exact .pure ()
  | cons off l ih =>
    have hget := keeps_getBranchDep (sameFiles_undisturbed s) input off
    apply (hget.weaken fun _ _ => trivial).bind
    intro d
    exact (setBranchDep_sameFiles input off _).bind fun _ => ih

theorem setFlipped_sameFiles (label : Nat) : Keeps (SameFiles s) AnyExn (setFlipped label) :=
  .update fun _ h => h.trans ⟨rfl, rfl⟩

theorem queryBranch_sameFiles (z : Z3) (mem : Memory) (input : TaintedInput) (label : Nat)
    (result : Term) : Keeps (SameFiles s) AnyExn (queryBranch z mem input label result) := by
  apply (serializeLabel_sameFiles z mem label).bind
  intro p
  have hquery := keeps_queryWith (sameFiles_undisturbed s) z input result p.1 p.2
  exact hquery.weaken fun _ _ => trivial

theorem solveBranch_files (z : Z3) (mem : Memory) (host : Host) (input : TaintedInput)
    (label : Nat) (result : Term) (addNested : Bool) (s : SolverState) :
    SameFiles (s.afterModel host input (solvedModel z mem input label result s))
      (finalState (solveBranch z mem host input label result addNested s)) := by
  have hq := queryBranch_sameFiles z mem input label result (s := s) s (.refl s)
  unfold solveBranch solvedModel
  cases hquery : queryBranch z mem input label result s with
  | error e s₁ =>
    rw [estate_bind_error hquery]
    exact (hq.2 e s₁ hquery).1
  | ok q s₁ =>
    rw [estate_bind_ok hquery]
    have hsame := (hq.1 q s₁ hquery).afterModel host input q.model
    have hfinal := generateFrom_final host input q s₁
    cases hgen : generateFrom host input q s₁ with
    | error e s₂ =>
      rw [hgen] at hfinal
      rw [estate_bind_error hgen, hfinal]
      exact hsame
    | ok u s₂ =>
      rw [hgen] at hfinal
      rw [estate_bind_ok hgen]
      apply Keeps.finalState (E := AnyExn) (s := s₂)
      · cases addNested with
        | false => exact setFlipped_sameFiles label
        | true =>
          apply ((keeps_liftZ3_notIndex _).weaken fun _ _ => trivial).bind
          intro e
          exact (recordConstraint_sameFiles input e _).bind fun _ => setFlipped_sameFiles label
      · change s₂ = _ at hfinal
        rw [hfinal]
        exact hsame

theorem catchZ3_final (x : SolveM Unit) (s : SolverState) :
    finalState (catchZ3 x s) = finalState (x s) := by
  unfold catchZ3
  cases x s with
  | ok u s' => rfl
  | error e s' =>
    cases e with
    | z3 e => rfl
    | fault f => rfl

theorem solveCond_files
    (h : solveCond z mem host input label result addNested s = .ok r s') :
    SameFiles (s.afterModel host input (condModel z mem input label result s)) s' := by
  obtain ⟨info, s₁, hinfo, h⟩ := estate_bind_eq_ok.1 h
  obtain ⟨_, rfl, rfl⟩ := labelInfo_ok hinfo
  unfold condModel
  by_cases hf : (s₁.table.info label).flipped = true
  · rw [if_pos hf] at h
    cases h
    rw [if_pos hf]
    exact .refl _
  · rw [if_neg hf] at h
    rw [if_neg hf]
    have hfinal := catchZ3_final (solveBranch z mem host input label result addNested) s₁
    rw [h] at hfinal
    change s' = _ at hfinal
    rw [hfinal]
    exact solveBranch_files ..

end

section
variable {z : Z3} {host : Host} {input : TaintedInput} {s s' : RunState}

theorem RunState.traced_ok {r : EStateM.Result Exn SolverState (Option Z3Exception)}
    (h : s.traced r = .ok s') : ∃ x, r = .ok x s'.solver := by
  cases r with
  | ok x solver =>
    cases h
    exact ⟨x, rfl⟩
  | error e solver =>
    cases e with
    | z3 e => cases h
    | fault f => cases h

theorem RunState.exec_files (h : s.exec z host input a = .ok s') :
    SameFiles (s.solver.afterModel host input (a.model z input s)) s'.solver := by
  cases a with
  | input x c =>
    obtain ⟨p, _, h⟩ := except_bind_ok.1 h
    cases h
    exact ⟨rfl, rfl⟩
  | union k =>
    obtain ⟨p, _, h⟩ := except_bind_ok.1 h
    cases h
    exact ⟨rfl, rfl⟩
  | load app addr n =>
    obtain ⟨p, _, h⟩ := except_bind_ok.1 h
    cases h
    exact ⟨rfl, rfl⟩
  | store l addr n =>
    obtain ⟨p, _, h⟩ := except_bind_ok.1 h
    cases h
    exact ⟨rfl, rfl⟩
  | traceCond mem context label r =>
    obtain ⟨x, hx⟩ := RunState.traced_ok h
    rw [taintTraceCond_eq] at hx
    rw [RunEvent.model]
    by_cases hc : label = 0 ∨ ¬s.solver.branches context < maxBranchCount
    · rw [if_pos hc] at hx
      rw [if_pos hc, (EStateM.Result.ok.inj hx).2]
      exact .refl _
    · rw [if_neg hc] at hx
      rw [if_neg hc]
      have hsame : SameFiles s.solver (s.solver.visited context) := ⟨rfl, rfl⟩
      exact (hsame.afterModel host input _).trans (solveCond_files hx)
  | traceCmp mem context op1 op2 size predicate c1 c2 =>
    obtain ⟨x, hx⟩ := RunState.traced_ok h
    rw [taintTraceCmp_eq] at hx
    rw [RunEvent.model]
    by_cases hc : (op1 = 0 ∧ op2 = 0) ∨ ¬s.solver.branches context < maxBranchCount
    · rw [if_pos hc] at hx
      rw [if_pos hc, (EStateM.Result.ok.inj hx).2]
      exact .refl _
    · rw [if_neg hc] at hx
      rw [if_neg hc]
      obtain ⟨temp, s₂, hu, hx⟩ := estate_bind_eq_ok.1 hx
      obtain ⟨t, ht, rfl⟩ := unionLabel_ok hu
      obtain ⟨result, s₃, hr, hx⟩ := estate_bind_eq_ok.1 hx
      obtain ⟨hres, rfl⟩ := uncaught_ok hr
      have hunion : dfsanUnion s.solver.table (traceCmpKey op1 op2 size predicate c1 c2) =
        .ok (temp, t) := ht
      rw [hunion, hres]
      have hsame : SameFiles s.solver ((s.solver.visited context).serialized t) := ⟨rfl, rfl⟩
      exact (hsame.afterModel host input _).trans (solveCond_files hx)

end

/-- The file operations for an input succeed, and a size in its model is not below that of the
original. -/
structure Delivered (host : Host) (input : TaintedInput) (index : Nat)
    (m : List ((Symbol × Nat) × Nat)) : Prop where
  file : input.isStdin = false
  opens : host.opens index = true
  copies : host.copies index = .full
  size : ∀ v, modelValue m (.str "fsize") = some v → input.buf.length ≤ v

theorem length_le_writeAt (f : List UInt8) (off : Nat) (v : UInt8) :
    f.length ≤ (writeAt f off v).length := by
  unfold writeAt
  rw [List.length_set, List.length_append]
  exact Nat.le_add_right ..

theorem size_le_writeModel (hf : size ≤ f.length)
    (hm : ∀ v, modelValue m (.str "fsize") = some v → size ≤ v) :
    size ≤ (writeModel size m f).1.length := by
  induction m generalizing f with
  | nil => exact hf
  | cons c m ih =>
    obtain ⟨⟨name, w⟩, v⟩ := c
    simp only [modelValue_cons] at hm
    cases name with
    | int n => exact ih (Nat.le_trans hf (length_le_writeAt ..)) hm
    | str name =>
      unfold writeModel
      by_cases hname : name ≠ "fsize"
      · rw [if_pos hname]
        apply ih hf
        intro v' hv'
        apply hm v'
        rw [if_neg fun he => hname (Symbol.str.inj he)]
        exact hv'
      · rw [if_neg hname]
        have hv : size ≤ v := hm v (if_pos (congrArg Symbol.str (not_not.1 hname)))
        split
        · exact hf
        · split
          · exact Nat.le_trans hf (length_le_writeAt ..)
          · change size ≤ (f.take v).length
            rw [List.length_take]
            exact Nat.le_min.2 ⟨hv, hf⟩

theorem Delivered.length_le (h : Delivered host input index m) :
    input.buf.length ≤ (generatedFile host input m index).length := by
  unfold generatedFile Host.copied
  rw [h.file, h.copies]
  exact size_le_writeModel (Nat.le_refl _) h.size

/-- The index wraps around after `2 ^ 32` files, and then reports none. -/
theorem SolverState.HandedOver.generated (h : SolverState.HandedOver input.buf.length s)
    (hd : Delivered host input s.currentIndex m) :
    (s.generated host input m).HandedOver input.buf.length := by
  intro i hi
  unfold SolverState.generated at hi ⊢
  simp only [hd.opens, if_true] at hi ⊢
  by_cases he : i = s.currentIndex
  · subst he
    exact ⟨_, Function.update_self .., hd.length_le⟩
  · rw [Function.update_of_ne he]
    have hmod := Nat.mod_le (s.currentIndex + 1) (2 ^ 32)
    exact h i (by omega)

theorem SolverState.HandedOver.sameFiles (h : SolverState.HandedOver len s)
    (hs : SameFiles s s') : s'.HandedOver len := by
  intro i hi
  rw [hs.currentIndex] at hi
  rw [hs.files]
  exact h i hi

theorem exec_handedOver {s : RunState} {a : RunEvent} (h : s.solver.HandedOver input.buf.length)
    (hd : ∀ m, a.model z input s = some m → Delivered host input s.solver.currentIndex m) :
    Ends (fun _ => True) (fun s' : RunState => s'.solver.HandedOver input.buf.length)
      (s.exec z host input a) := by
  cases hr : s.exec z host input a with
  | error f => trivial
  | ok s' =>
    apply SolverState.HandedOver.sameFiles _ (RunState.exec_files hr)
    cases hm : a.model z input s with
    | none => exact h
    | some m => exact h.generated (hd m hm)

/-- When every input that a run generates is delivered, the fuzzer finds all the files it was told
of, at full length. -/
theorem generated_inputs_handed_over
    (hevents : EachRun (RunState.exec z host input)
      (fun s a => ∀ m, a.model z input s = some m → Delivered host input s.solver.currentIndex m)
      (.start input t) as)
    (hrun : as.foldlM (RunState.exec z host input) (.start input t) = .ok s)
    (hfini : dfsanFini dumpOpens aflShm s.solver = some c) :
    ∀ i < c, ∃ f, s.solver.files i = some f ∧ input.buf.length ≤ f.length := by
  have hstart : (RunState.start input t).solver.HandedOver input.buf.length :=
    fun i hi => absurd hi (Nat.not_lt_zero i)
  have hend := foldlM_ends (RunState.exec z host input)
    (fun _ _ h hd => exec_handedOver h hd) hstart hevents
  rw [hrun] at hend
  unfold dfsanFini at hfini
  split at hfini
  · cases hfini
  split at hfini
  · cases hfini
    exact hend
  · cases hfini

def returned : EStateM.Result Exn SolverState α → Bool
  | .ok _ _ => true
  | .error _ _ => false

theorem RunState.traced_returned {r : EStateM.Result Exn SolverState (Option Z3Exception)}
    (s : RunState) (h : returned r = true) :
    s.traced r = .ok { s with solver := finalState r } := by
  cases r with
  | ok x solver => rfl
  | error e solver => cases h

/-- A branch that is not taken on the comparison of the only byte with 7. -/
def branchOnByte : RunEvent := .traceCond (fun _ => 0) (0, 0) 2 0

def solvedByte (host : Host) : EStateM.Result Exn SolverState (Option Z3Exception) :=
  taintTraceCond (.guess [((.int 0, 8), 7)]) (fun _ => 0) host oneByteFile (0, 0) 2 0
    (.start oneByteFile comparedTable)

theorem branchOnByte_run (h : returned (solvedByte host) = true) :
    [branchOnByte].foldlM (RunState.exec (.guess [((.int 0, 8), 7)]) host oneByteFile)
      (.start oneByteFile comparedTable) =
        .ok { RunState.start oneByteFile comparedTable with
          solver := finalState (solvedByte host) } := by
  rw [List.foldlM_cons]
  change RunState.traced _ (solvedByte host) >>= _ = _
  rw [RunState.traced_returned _ h]
  rfl

/-- The branch is solved and the input for it is written. -/
theorem generated_inputs_handed_over_byte :
    dfsanFini none true (finalState (solvedByte reliableHost)) = some 1 ∧
      ∀ i < 1, ∃ f, (finalState (solvedByte reliableHost)).files i = some f ∧ 1 ≤ f.length := by
  have hfini : dfsanFini none true (finalState (solvedByte reliableHost)) = some 1 := by
    decide +kernel
  refine ⟨hfini, ?_⟩
  have hmodel : branchOnByte.model (.guess [((.int 0, 8), 7)]) oneByteFile
      (.start oneByteFile comparedTable) = some [((.int 0, 8), 7)] := by
    decide +kernel
  have hrun := branchOnByte_run (by decide +kernel : returned (solvedByte reliableHost) = true)
  generalize finalState (solvedByte reliableHost) = solver at hrun hfini ⊢
  refine generated_inputs_handed_over ?_ hrun hfini
  refine ⟨?_, fun _ _ => trivial⟩
  intro m hm
  rw [hmodel] at hm
  cases hm
  exact ⟨rfl, rfl, rfl, nofun⟩

/-- The file for a solved branch cannot be opened, but it is counted. -/
theorem generated_input_missing :
    ∃ s, [branchOnByte].foldlM (RunState.exec (.guess [((.int 0, 8), 7)])
        ⟨fun _ => false, fun _ => .full⟩ oneByteFile) (.start oneByteFile comparedTable) = .ok s ∧
      dfsanFini none true s.solver = some 1 ∧ s.solver.files 0 = none :=
  ⟨_, branchOnByte_run (by decide +kernel), by decide +kernel, by decide +kernel⟩

end Kirenenko
