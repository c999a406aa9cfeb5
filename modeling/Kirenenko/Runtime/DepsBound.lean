import Kirenenko.Runtime.TraceSafety

namespace Kirenenko
set_option autoImplicit true

/-- Every way to fail but the use of an index past the end of the vector of dependencies. -/
def InVector (e : Exn) : Prop := e ≠ .fault .outOfRange

def Fault.InVector (f : Fault) : Prop := f ≠ .outOfRange

theorem IsZ3.inVector (h : IsZ3 e) : InVector e := by
  obtain ⟨x, rfl⟩ := h
  exact nofun

theorem inVector_liftZ3 {I : σ → Prop} (x : Except Z3Exception α) :
    Yields I InVector (fun _ => True) (liftZ3 x : EStateM Exn σ α) := by
  cases x with
  | ok a => exact .pure trivial
  | error e => exact .throw nofun

/-- The offsets that a record itself stands for are below `n`. -/
structure Fits (n : Nat) (t : LabelTable) (k : LabelKey) : Prop where
  raw : k.op = 0 → k.op1 < n
  load : k.op = Operators.Load.code →
    k.l1 ≤ t.lastLabel ∧ loadDeps (t.key k.l1).op1 (k.l2 - 1) ⊆ Finset.range n

def RecordsFit (n : Nat) (t : LabelTable) : Prop :=
  ∀ l, constOffset ≤ l → l ≤ t.lastLabel → Fits n t (t.key l)

/-- Serialization has put only offsets below `n` into the caches. -/
structure CachedBelow (n : Nat) (t s : LabelTable) : Prop where
  same : SameKeys t s
  cached : ∀ l deps, (s.info l).deps = some deps → deps ⊆ Finset.range n

def Below (n : Nat) (p : Term × Finset Nat) : Prop := p.2 ⊆ Finset.range n

section
variable {n : Nat} {t s : LabelTable}

theorem CachedBelow.modifyInfo {f : LabelInfo → LabelInfo} (h : CachedBelow n t s)
    (hk : ∀ info, (f info).toLabelKey = info.toLabelKey)
    (hf : ∀ deps, (f (s.info label)).deps = some deps → deps ⊆ Finset.range n) :
    CachedBelow n t (s.modifyInfo label f) where
  same := h.same.trans (.modifyInfo s label hk)
  cached l deps hd := by
    rcases modifyInfo_cases s label f l with ⟨rfl, hinfo⟩ | hinfo
    · rw [hinfo] at hd
      exact hf deps hd
    · rw [hinfo] at hd
      exact h.cached l deps hd

theorem below_getInfo : Yields (CachedBelow n t) InVector
    (fun info => label ≤ t.lastLabel ∧ info.toLabelKey = t.key label ∧
      ∀ deps, info.deps = some deps → deps ⊆ Finset.range n) (getInfo label) := by
  intro s hs
  rw [getInfo_eq]
  by_cases hl : label ≤ s.lastLabel
  · rw [if_pos hl]
    refine ⟨?_, nofun⟩
    rintro info s' ⟨⟩
    exact ⟨hs, hs.same.lastLabel ▸ hl, congrFun hs.same.key label, hs.cached label⟩
  · rw [if_neg hl]
    refine ⟨nofun, ?_⟩
    rintro e s' ⟨⟩
    exact ⟨hs, nofun⟩

theorem below_setTreeSize :
    Yields (CachedBelow n t) InVector (fun _ => True) (setTreeSize label size) :=
  .update fun _ hs => hs.modifyInfo (fun _ => rfl) (hs.cached label)

theorem below_cacheExpr (hd : deps ⊆ Finset.range n) :
    Yields (CachedBelow n t) InVector (Below n) (cacheExpr label e deps) := by
  refine .bind (.update fun s hs => hs.modifyInfo (fun _ => rfl) ?_) fun _ _ => .pure hd
  intro deps' he
  cases he
  exact hd

theorem below_finish (hd : deps ⊆ Finset.range n) (x : Except Z3Exception Term) :
    Yields (CachedBelow n t) InVector (Below n)
      (liftZ3 x >>= fun e => cacheExpr label e deps) :=
  .bind (inVector_liftZ3 x) fun _ _ => below_cacheExpr hd

theorem below_copyTreeSize {x : SerializeM α} (hx : Yields (CachedBelow n t) InVector P x) :
    Yields (CachedBelow n t) InVector P
      (getInfo c >>= fun i => setTreeSize label i.treeSize >>= fun _ => x) :=
  below_getInfo.bind fun _ _ => below_setTreeSize.bind fun _ _ => hx

theorem below_unary {F : Term → Except Z3Exception Term}
    {operand : SerializeM (Term × Finset Nat)}
    (hop : Yields (CachedBelow n t) InVector (Below n) operand) :
    Yields (CachedBelow n t) InVector (Below n)
      (operand >>= fun p => getInfo c >>= fun i => setTreeSize label i.treeSize >>= fun _ =>
        liftZ3 (F p.1) >>= fun e => cacheExpr label e p.2) :=
  hop.bind fun _ hp => below_copyTreeSize (below_finish hp _)

section
variable {operand : Nat → Finset Nat → SerializeM (Term × Finset Nat)} {k : LabelKey}
  (hop : ∀ l deps, deps ⊆ Finset.range n →
    Yields (CachedBelow n t) InVector (Below n) (operand l deps))
include hop

theorem below_memcmpOperand (hd : deps ⊆ Finset.range n) :
    Yields (CachedBelow n t) InVector (Below n) (memcmpOperand mem operand k deps) :=
  .ite (fun _ => hop _ _ hd) fun _ => (inVector_liftZ3 _).map fun _ _ => hd

theorem below_firstOperand (hd : deps ⊆ Finset.range n) :
    Yields (CachedBelow n t) InVector (Below n) (firstOperand z operand k val deps) :=
  .ite (fun _ => (hop _ _ hd).map fun _ hp => hp) fun _ => .pure hd

theorem below_secondOperand (hd : deps ⊆ Finset.range n) :
    Yields (CachedBelow n t) InVector (Below n) (secondOperand z operand k val deps) :=
  .ite (fun _ => (hop _ _ (Finset.empty_subset _)).map fun _ hp => Finset.union_subset hd hp)
    fun _ => .pure hd

theorem below_serializeNode (hfits : Fits n t info.toLabelKey) (hd : deps ⊆ Finset.range n) :
    Yields (CachedBelow n t) InVector (Below n)
      (serializeNode z mem operand label info deps) := by
  unfold serializeNode
  refine .ite (fun h => ?_) fun _ => .ite (fun h => ?_) fun _ => ?_
  · refine .bind (inVector_liftZ3 _) fun _ _ => .bind below_setTreeSize fun _ _ => .pure ?_
    have hlt : info.op1 % 2 ^ 32 < n := Nat.lt_of_le_of_lt (Nat.mod_le _ _) (hfits.raw h)
    exact Finset.insert_subset (Finset.mem_range.2 hlt) hd
  · refine below_getInfo.bind ?_
    rintro base ⟨_, hb, _⟩
    refine .bind (inVector_liftZ3 _) fun _ _ => .bind below_setTreeSize fun _ _ =>
      below_cacheExpr ?_
    have hload := (hfits.load h).2
    rw [← hb] at hload
    exact Finset.union_subset hd hload
  refine .ite (fun _ => ?_) fun _ => .ite (fun _ => ?_) fun _ => ?_
  · refine (hop _ _ hd).bind fun _ hp => .bind (inVector_liftZ3 _) fun _ _ =>
      .bind (inVector_liftZ3 _) fun _ _ => ?_
    exact below_copyTreeSize (below_finish hp _)
  · refine (hop _ _ hd).bind fun _ hp => .bind (inVector_liftZ3 _) fun _ _ => ?_
    exact below_copyTreeSize (below_finish hp _)
  refine .ite (fun _ => below_unary (hop _ _ hd)) fun _ =>
    .ite (fun _ => below_unary (hop _ _ hd)) fun _ => ?_
  refine .ite (fun _ => ?_) fun _ => .ite (fun _ => ?_) fun _ => .ite (fun _ => ?_) fun _ => ?_
  · exact .ite (fun _ => .throw nofun) fun _ => below_unary (hop _ _ hd)
  · exact .ite (fun _ => .throw nofun) fun _ =>
      below_unary (F := fun e => checked (.neg e)) (hop _ _ hd)
  · refine (below_memcmpOperand hop hd).bind fun _ hp => .ite (fun _ => .throw nofun) fun _ => ?_
    refine (hop _ _ hp).bind fun _ hp' => .bind below_setTreeSize fun _ _ => ?_
    exact .bind (inVector_liftZ3 _) fun _ _ => .pure hp'
  refine .ite (fun _ => ?_) fun _ => ?_
  · exact .bind (inVector_liftZ3 _) fun _ _ => .bind below_setTreeSize fun _ _ => .pure hd
  refine below_getInfo.bind fun _ _ => below_getInfo.bind fun _ _ => ?_
  refine .bind (inVector_liftZ3 _) fun _ _ => (below_firstOperand hop hd).bind fun _ hp => ?_
  refine .bind (inVector_liftZ3 _) fun _ _ => (below_secondOperand hop hp).bind fun _ hp' => ?_
  refine below_getInfo.bind fun _ _ => below_getInfo.bind fun _ _ => ?_
  exact below_setTreeSize.bind fun _ _ => below_finish hp' _

end

/-- If the records of a table fit, serialization collects only offsets below the bound. -/
theorem below_serialize (hfit : RecordsFit n t) (hd : deps ⊆ Finset.range n) :
    Yields (CachedBelow n t) InVector (Below n) (serialize z mem fuel label deps) := by
  induction fuel generalizing label deps with
  | zero =>
    apply Yields.throw
    intro h
    cases h
  | succ fuel ih =>
    unfold serialize
    refine .ite (fun _ => .throw fun h => by cases h) fun hc => below_getInfo.bind ?_
    rintro info ⟨hl, hk, hcached⟩
    cases he : info.expr with
    | some e =>
      refine .pure (Finset.union_subset hd ?_)
      cases hdeps : info.deps with
      | none => exact Finset.empty_subset _
      | some deps' => exact hcached deps' hdeps
    | none =>
      have hfits := hfit label (Nat.le_of_not_lt fun h => hc (.inl h)) hl
      rw [← hk] at hfits
      exact below_serializeNode (fun l deps hd => ih hd) hfits hd

end

/-- The offsets of all records and caches of a table are below `n`. -/
structure OffsetsBelow (n : Nat) (t : LabelTable) : Prop where
  bound : t.lastLabel ≤ maxLabel
  records : RecordsFit n t
  cached : ∀ l deps, (t.info l).deps = some deps → deps ⊆ Finset.range n

/-- The offsets that labels and recorded constraints depend on are indices of the vector of
dependencies, whose size is `n`. -/
structure DepsInRange (n : Nat) (s : SolverState) : Prop where
  size : s.depSize = n
  table : OffsetsBelow n s.table
  entries : ∀ o d, s.dep o = some d → d.inputDeps ⊆ Finset.range n

theorem OffsetsBelow.of_keys (h : OffsetsBelow n t) (hkey : t'.key = t.key)
    (hlast : t'.lastLabel = t.lastLabel)
    (hc : ∀ l deps, (t'.info l).deps = some deps → deps ⊆ Finset.range n) :
    OffsetsBelow n t' where
  bound := by rw [hlast]; exact h.bound
  records l hl hl' := by
    rw [hlast] at hl'
    obtain ⟨hraw, hload⟩ := h.records l hl hl'
    rw [hkey]
    refine ⟨hraw, ?_⟩
    rw [hkey, hlast]
    exact hload
  cached := hc

theorem OffsetsBelow.serialized (h : OffsetsBelow n t) (hc : CachedBelow n t t') :
    OffsetsBelow n t' :=
  h.of_keys hc.same.key hc.same.lastLabel hc.cached

section
variable {n : Nat} {s : SolverState}

theorem inRange_serializeLabel :
    Yields (DepsInRange n) InVector (Below n) (serializeLabel z mem label) := by
  intro s hs
  have hyields : Yields (CachedBelow n s.table) InVector (Below n)
      (serialize z mem (label + 1) label ∅) :=
    below_serialize hs.table.records (Finset.empty_subset _)
  obtain ⟨hok, herr⟩ := hyields s.table ⟨.refl _, hs.table.cached⟩
  unfold serializeLabel
  cases hr : serialize z mem (label + 1) label ∅ s.table with
  | ok r t =>
    obtain ⟨hframe, hr⟩ := hok r t hr
    refine ⟨?_, nofun⟩
    rintro a s' ⟨⟩
    exact ⟨⟨hs.size, hs.table.serialized hframe, hs.entries⟩, hr⟩
  | error e t =>
    obtain ⟨hframe, he⟩ := herr e t hr
    refine ⟨nofun, ?_⟩
    rintro e' s' ⟨⟩
    exact ⟨⟨hs.size, hs.table.serialized hframe, hs.entries⟩, he⟩

theorem inRange_setFlipped (label : Nat) :
    Keeps (DepsInRange n) InVector (setFlipped label) := by
  apply Keeps.update
  intro s hs
  have hcached : CachedBelow n s.table (s.table.flip label) :=
    CachedBelow.modifyInfo ⟨.refl _, hs.table.cached⟩ (fun _ => rfl) (hs.table.cached label)
  exact ⟨hs.size, hs.table.serialized hcached, hs.entries⟩

theorem inRange_solverCheck (z : Z3) (fs : Finset Term) :
    Keeps (DepsInRange n) InVector (solverCheck z fs) := by
  intro s hs
  refine ⟨?_, nofun⟩
  rintro r s' ⟨⟩
  exact ⟨hs.size, hs.table, hs.entries⟩

/-- A label past the last one ends the program before the vector is used. -/
theorem inRange_labelInfo (label : Nat) : Keeps (DepsInRange n) InVector (labelInfo label) := by
  intro s hs
  rw [labelInfo_eq]
  by_cases hl : label ≤ s.table.lastLabel
  · rw [if_pos hl]
    refine ⟨?_, nofun⟩
    rintro info s' ⟨⟩
    exact hs
  · rw [if_neg hl]
    refine ⟨nofun, ?_⟩
    rintro e s' ⟨⟩
    exact ⟨hs, nofun⟩

theorem depsInRange_ignoresFiles (n : Nat) : IgnoresFiles (DepsInRange n) :=
  fun _ _ _ h => ⟨h.size, h.table, h.entries⟩

theorem elements_lt {inputs : Finset Nat} (hi : inputs ⊆ Finset.range n) :
    ∀ o ∈ elements inputs, o < n :=
  fun _ ho => Finset.mem_range.1 (hi (mem_elements.1 ho))

section
variable {input : TaintedInput} (hin : input.isStdin = false)
include hin

theorem reserve_file (o : Nat) (s : SolverState) : s.reserve input o = s := by
  apply if_neg
  rw [hin]
  exact fun h => Bool.false_ne_true h.1

theorem inRange_getBranchDep (ho : o < n) :
    Yields (DepsInRange n) InVector (fun d => ∀ d', d = some d' → d'.inputDeps ⊆ Finset.range n)
      (getBranchDep input o) := by
  intro s hs
  have hlt : o < s.depSize := hs.size ▸ ho
  have he : getBranchDep input o s = .ok (s.dep o) s := by
    change (if o < (s.reserve input o).depSize then pure ((s.reserve input o).dep o)
      else throw (Exn.fault Fault.outOfRange) : SolveM _) (s.reserve input o) = _
    rw [reserve_file hin, if_pos hlt]
    rfl
  rw [he]
  refine ⟨?_, nofun⟩
  rintro d s' ⟨⟩
  exact ⟨hs, hs.entries o⟩

theorem inRange_setBranchDep (ho : o < n) (hd : d.inputDeps ⊆ Finset.range n) :
    Keeps (DepsInRange n) InVector (setBranchDep input o d) := by
  intro s hs
  have hlt : o < s.depSize := hs.size ▸ ho
  have he : setBranchDep input o d s =
      .ok () { s with dep := Function.update s.dep o (some d) } := by
    change (if o < (s.reserve input o).depSize then
      set { s.reserve input o with dep := Function.update (s.reserve input o).dep o (some d) }
      else throw (Exn.fault Fault.outOfRange) : SolveM _) (s.reserve input o) = _
    rw [reserve_file hin, if_pos hlt]
    rfl
  rw [he]
  refine ⟨?_, nofun⟩
  rintro _ s' ⟨⟩
  refine ⟨hs.size, hs.table, ?_⟩
  intro o' d' he'
  by_cases heq : o' = o
  · subst heq
    simp only [Function.update_self, Option.some.injEq] at he'
    rw [← he']
    exact hd
  · simp only [Function.update_of_ne heq] at he'
    exact hs.entries o' d' he'

theorem inRange_recordConstraint (e : Term) (hi : inputs ⊆ Finset.range n)
    (hl : ∀ o ∈ l, o < n) :
    Keeps (DepsInRange n) InVector (recordConstraint input e inputs l) := by
  induction l with
  | nil => exact .pure ()
  | cons o l ih =>
    have ho := hl o List.mem_cons_self
    refine (inRange_getBranchDep hin ho).bind_keeps fun d hd => ?_
    refine .bind (inRange_setBranchDep hin ho (Finset.union_subset ?_ hi)) fun _ =>
      ih fun o ho => hl o (List.mem_cons_of_mem _ ho)
    cases d with
    | none => exact Finset.empty_subset _
    | some d => exact hd d rfl

theorem inRange_closeInputs (hi : inputs ⊆ Finset.range n) (hw : ∀ o ∈ work, o < n) :
    Yields (DepsInRange n) InVector (· ⊆ Finset.range n)
      (closeInputs input fuel work inputs) := by
  induction fuel generalizing work inputs with
  | zero =>
    cases work with
    | nil => exact .pure hi
    | cons o work => exact .throw nofun
  | succ fuel ih =>
    cases work with
    | nil => exact .pure hi
    | cons o work =>
      have hwork : ∀ o ∈ work, o < n := fun o ho => hw o (List.mem_cons_of_mem _ ho)
      refine (inRange_getBranchDep hin (hw o List.mem_cons_self)).bind fun d hd => ?_
      cases d with
      | none => exact ih hi hwork
      | some deps =>
        have hdeps := hd deps rfl
        apply ih (Finset.union_subset hi hdeps)
        intro o' ho'
        rcases List.mem_append.1 ho' with hnew | hold
        · exact Finset.mem_range.1 (hdeps (Finset.mem_sdiff.1 (mem_elements.1 hnew)).1)
        · exact hwork o' hold

theorem inRange_collectExprs (hl : ∀ o ∈ l, o < n) :
    Keeps (DepsInRange n) InVector (collectExprs input l added) := by
  induction l generalizing added with
  | nil => exact .pure added
  | cons o l ih =>
    have hl' : ∀ o ∈ l, o < n := fun o ho => hl o (List.mem_cons_of_mem _ ho)
    refine (inRange_getBranchDep hin (hl o List.mem_cons_self)).bind_keeps fun d _ => ?_
    cases d with
    | none => exact ih hl'
    | some deps => exact ih hl'

theorem inRange_queryWith (z : Z3) (result cond : Term) (hi : inputs ⊆ Finset.range n) :
    Yields (DepsInRange n) InVector (fun q => q.inputs ⊆ Finset.range n)
      (queryWith z input result cond inputs) := by
  refine .read (P := fun _ => True) (fun s _ => ⟨s, rfl, trivial⟩) fun s₀ _ => ?_
  refine (inRange_closeInputs hin hi (elements_lt hi)).bind fun inputs' hi' => ?_
  refine (inVector_liftZ3 _).bind fun negated _ => ?_
  refine (inRange_solverCheck z _).bind_yields fun first => ?_
  cases first with
  | sat m =>
    refine (inRange_collectExprs hin (elements_lt hi')).bind_yields fun added => ?_
    refine (inVector_liftZ3 _).bind fun fs _ => ?_
    exact (inRange_solverCheck z _).bind_yields fun second => .pure hi'
  | unsat => exact .pure hi'
  | unknown => exact .pure hi'

theorem inRange_solveBranch (z : Z3) (mem : Memory) (host : Host) (label : Nat) (result : Term)
    (addNested : Bool) : Keeps (DepsInRange n) InVector
      (solveBranch z mem host input label result addNested) := by
  unfold solveBranch queryBranch
  have hquery : Yields (DepsInRange n) InVector (fun q => q.inputs ⊆ Finset.range n)
      (serializeLabel z mem label >>= fun p => queryWith z input result p.1 p.2) :=
    inRange_serializeLabel.bind fun p hp => inRange_queryWith hin z result p.1 hp
  refine hquery.bind_keeps fun q hq => ?_
  have hfiles := keeps_generateFrom (depsInRange_ignoresFiles n) host input q
  refine (hfiles.weaken fun _ => IsZ3.inVector).bind fun _ => ?_
  cases addNested with
  | false => exact inRange_setFlipped label
  | true =>
    refine (inVector_liftZ3 _).keeps.bind fun e => ?_
    exact (inRange_recordConstraint hin e hq (elements_lt hq)).bind fun _ =>
      inRange_setFlipped label

theorem inRange_solveCond (z : Z3) (mem : Memory) (host : Host) (label : Nat) (result : Term)
    (addNested : Bool) : Keeps (DepsInRange n) InVector
      (solveCond z mem host input label result addNested) := by
  apply (inRange_labelInfo label).bind
  intro info
  apply Keeps.ite
  · intro _
    exact .pure none
  · intro _
    exact (inRange_solveBranch hin z mem host label result addNested).catchZ3

theorem inRange_addConstraints (z : Z3) (mem : Memory) (label : Nat) :
    Keeps (DepsInRange n) InVector (addConstraints z mem input label) := by
  apply (inRange_labelInfo label).bind
  intro info
  apply Keeps.ite
  · intro _
    exact .pure none
  · intro _
    apply Keeps.bind
    · apply Keeps.catchZ3
      refine inRange_serializeLabel.bind_keeps fun p hp => ?_
      exact inRange_recordConstraint hin p.1 hp (elements_lt hp)
    · intro r
      exact (inRange_setFlipped label).bind fun _ => .pure r

end

end

end Kirenenko
