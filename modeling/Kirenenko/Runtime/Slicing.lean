import Kirenenko.Lib.Run
import Kirenenko.Runtime.SolveOutcome

namespace Kirenenko
set_option autoImplicit true

/-- The interpretation in which the constant of an offset is the byte of an input. -/
def inputEnv (bytes : Nat → UInt8) : Env := fun s w =>
  match s with
  | .int n => if w = 8 then (bytes n).toNat else 0
  | .str _ => 0

def TaintedInput.bytes (input : TaintedInput) : Nat → UInt8 := fun n => input.buf.getD n 0

/-- An input overwritten with the byte values of a model. -/
def overwrite (bytes : Nat → UInt8) (m : List ((Symbol × Nat) × Nat)) : Nat → UInt8 := fun n =>
  match m.lookup (.int n, 8) with
  | some v => UInt8.ofNat v
  | none => bytes n

/-- A term mentions only input bytes at offsets of a set. -/
def OverInputs (e : Term) (deps : Finset Nat) : Prop :=
  ∀ c ∈ e.consts, ∃ n ∈ deps, c = (.int n, 8)

theorem OverInputs.mono (h : OverInputs e deps) (hs : deps ⊆ deps') : OverInputs e deps' := by
  intro c hc
  obtain ⟨n, hn, he⟩ := h c hc
  exact ⟨n, hs hn, he⟩

/-- A traced label: its expression is over input bytes that are all among its dependencies, and
it evaluates on the input to the outcome. -/
def Traced (z : Z3) (mem : Memory) (bytes : Nat → UInt8) (t : LabelTable) (label outcome : Nat) :
    Prop :=
  ∀ e deps t', serialize z mem (label + 1) label ∅ t = .ok (e, deps) t' →
    OverInputs e deps ∧ e.eval (inputEnv bytes) = outcome

/-- The events that record constraints; `labels` stands for all that happens to the label table
between them. -/
inductive SliceEvent where
  | addConstraints (mem : Memory) (label : Nat)
  | solveCond (mem : Memory) (label : Nat) (result : Term) (addNested : Bool)
  | labels (t : LabelTable)

inductive SliceStep (z : Z3) (host : Host) (input : TaintedInput) :
    SolverState → SliceEvent → SolverState → Prop where
  | addConstraints : Traced z mem input.bytes s.table label 1 →
      addConstraints z mem input label s = .ok r s' →
      SliceStep z host input s (.addConstraints mem label) s'
  | solveCond : result.consts = ∅ →
      Traced z mem input.bytes s.table label (result.eval (inputEnv input.bytes)) →
      solveCond z mem host input label result addNested s = .ok r s' →
      SliceStep z host input s (.solveCond mem label result addNested) s'
  | labels : SliceStep z host input s (.labels t) { s with table := t }

/-- Every recorded constraint holds on the input and is known, with all its offsets, at each of
its offsets. -/
def SliceInv (bytes : Nat → UInt8) (dep : Nat → Option BranchDep) : Prop :=
  ∀ off d e, dep off = some d → e ∈ d.exprDeps → e.eval (inputEnv bytes) = 1 ∧
    ∃ S : Finset Nat, off ∈ S ∧ OverInputs e S ∧
      ∀ o ∈ S, ∃ d', dep o = some d' ∧ S ⊆ d'.inputDeps ∧ e ∈ d'.exprDeps

theorem recorded_exprDeps (h : recorded e S dep (elements S) o = some d) (he : e' ∈ d.exprDeps) :
    e' = e ∧ o ∈ S ∨ ∃ d', dep o = some d' ∧ e' ∈ d'.exprDeps := by
  unfold recorded at h
  by_cases ho : o ∈ elements S
  · rw [if_pos ho] at h
    cases h
    rcases Finset.mem_insert.1 he with rfl | he
    · exact .inl ⟨rfl, mem_elements.1 ho⟩
    · cases hd : dep o with
      | none =>
        rw [hd] at he
        cases he
      | some d' =>
        rw [hd] at he
        exact .inr ⟨d', rfl, he⟩
  · rw [if_neg ho] at h
    exact .inr ⟨d, h, he⟩

theorem SliceInv.recorded (h : SliceInv bytes dep) (he : OverInputs e S)
    (hv : e.eval (inputEnv bytes) = 1) :
    SliceInv bytes (recorded e S dep (elements S)) := by
  intro off d e' hd he'
  rcases recorded_exprDeps hd he' with ⟨rfl, hoff⟩ | ⟨d₀, hd₀, he₀⟩
  · refine ⟨hv, S, hoff, he, ?_⟩
    intro o ho
    exact ⟨_, recorded_mem ho, Finset.subset_union_right, Finset.mem_insert_self _ _⟩
  · obtain ⟨hv', T, hoff, hT, hall⟩ := h off d₀ e' hd₀ he₀
    refine ⟨hv', T, hoff, hT, ?_⟩
    intro o ho
    obtain ⟨d₁, hd₁, hsub, hmem⟩ := hall o ho
    obtain ⟨d₂, hd₂, he₂, hi₂⟩ := recorded_mono hd₁
    exact ⟨d₂, hd₂, hsub.trans hi₂, he₂ hmem⟩

theorem eq_overInputs (h : OverInputs e deps) (hr : result.consts = ∅) :
    OverInputs (.eq e result) deps := by
  intro c hc
  rcases Finset.mem_union.1 hc with hc | hc
  · exact h c hc
  · rw [hr] at hc
    cases hc

theorem SliceStep.inv (h : SliceStep z host input s a s') (hi : SliceInv input.bytes s.dep) :
    SliceInv input.bytes s'.dep := by
  cases h with
  | addConstraints htr hr =>
    rcases addConstraints_outcome hr with rfl | ⟨_, hd | ⟨e, deps, t, hs, hd⟩⟩
    · exact hi
    · rw [hd]
      exact hi
    · obtain ⟨ho, hv⟩ := htr e deps t hs
      rw [hd]
      exact hi.recorded ho hv
  | solveCond hres htr hr =>
    cases (solveCond_outcome hr).2 with
    | skipped => exact hi
    | failed _ hs =>
      rw [hs.dep]
      exact hi
    | @solved _ q deps t _ hs =>
      rw [hs.dep]
      split
      · obtain ⟨ho, hv⟩ := htr _ _ _ hs.serialized
        refine hi.recorded ((eq_overInputs ho hres).mono hs.queried.inputs) ?_
        rw [Term.eval, hv, decide_eq_true rfl]
        rfl
      · exact hi
  | labels => exact hi

theorem SliceInv.start (input : TaintedInput) (t : LabelTable) :
    SliceInv input.bytes (SolverState.start input t).dep := by
  intro off d e hd
  cases hd

/-- A constraint that some earlier event has recorded. -/
def Recorded (s : SolverState) (e : Term) : Prop := ∃ off d, s.dep off = some d ∧ e ∈ d.exprDeps

section
variable {z : Z3} {bytes : Nat → UInt8} {dep : Nat → Option BranchDep} {result : Term}
  {q : BranchQuery}

theorem Asserted.overInputs (h : Asserted dep q result f) (hi : SliceInv bytes dep)
    (hcond : OverInputs q.cond q.inputs) (hres : result.consts = ∅)
    (hclosed : ∀ o ∈ q.inputs, ClosedAt dep q.inputs o) : OverInputs f q.inputs := by
  rcases h with rfl | ⟨off, hoff, d, hd, hf⟩
  · exact eq_overInputs hcond hres
  · obtain ⟨_, S, hS, hover, hall⟩ := hi off d f hd hf
    obtain ⟨d', hd', hsub, _⟩ := hall off hS
    exact hover.mono (hsub.trans (hclosed off hoff d' hd'))

theorem overwrite_completes (hz : z.Lawful) (hcheck : z.check k fs = .sat m)
    (hover : ∀ f ∈ fs, OverInputs f S) : Completes (inputEnv (overwrite bytes m)) m := by
  intro c v hl
  obtain ⟨f, hf, hc⟩ := hz.check_consts k fs m c v hcheck hl
  obtain ⟨n, _, rfl⟩ := hover f hf c hc
  simp only [inputEnv, if_true, overwrite, hl, UInt8.toNat_ofNat', Nat.mod_mod]

/-- A constraint that is not asserted has no byte in the model. -/
theorem unasserted_eval (hz : z.Lawful) (hcheck : z.check k fs = .sat m)
    (hover : ∀ f ∈ fs, OverInputs f q.inputs) (hfs : ∀ f, f ∈ fs ↔ Asserted dep q result f)
    (hS : OverInputs e S)
    (hall : ∀ o ∈ S, ∃ d', dep o = some d' ∧ S ⊆ d'.inputDeps ∧ e ∈ d'.exprDeps)
    (hn : e ∉ fs) : e.eval (inputEnv (overwrite bytes m)) = e.eval (inputEnv bytes) := by
  apply Term.eval_congr
  intro c hc
  obtain ⟨n, hn', rfl⟩ := hS c hc
  cases hl : m.lookup (.int n, 8) with
  | none => simp only [inputEnv, if_true, overwrite, hl]
  | some v =>
    obtain ⟨f, hf, hcf⟩ := hz.check_consts k fs m _ v hcheck hl
    obtain ⟨n', hin, he⟩ := hover f hf _ hcf
    cases he
    obtain ⟨d', hd', _, he'⟩ := hall n hn'
    exact (hn ((hfs e).2 (.inr ⟨n, hin, d', hd', he'⟩))).elim

end

/-- Slicing is sound: when the second query of a branch has a model, the input overwritten with
it takes the other branch and satisfies every constraint recorded so far. -/
theorem sliced_model_satisfies_path {z : Z3} {input : TaintedInput} (hz : z.Lawful)
    (hrun : Steps (SliceStep z host input) (.start input t₀) as s) (hres : result.consts = ∅)
    (htr : Traced z mem input.bytes s.table label (result.eval (inputEnv input.bytes)))
    (hq : queryBranch z mem input label result s = .ok q s') (hm : q.second = some (.sat m)) :
    (Term.distinct q.cond result).eval (inputEnv (overwrite input.bytes m)) = 1 ∧
      ∀ e, Recorded s e → e.eval (inputEnv (overwrite input.bytes m)) = 1 := by
  have hi : SliceInv input.bytes s.dep :=
    hrun.invariant (I := fun s => SliceInv input.bytes s.dep) (fun _ _ _ hi hr => hr.inv hi)
      (.start input t₀)
  obtain ⟨deps, t, hs, _, hqd⟩ := queryBranch_ok hq
  have hcond := (htr _ _ _ hs).1.mono hqd.inputs
  obtain ⟨k, fs, hcheck, hfs⟩ := hqd.second m hm
  have hover : ∀ f ∈ fs, OverInputs f q.inputs := fun f hf =>
    ((hfs f).1 hf).overInputs hi hcond hres hqd.closed
  have hcomp : Completes (inputEnv (overwrite input.bytes m)) m :=
    overwrite_completes hz hcheck hover
  refine ⟨hz.check_sound k fs m _ hcheck hcomp _ ((hfs _).2 (.inl rfl)), ?_⟩
  rintro e ⟨off, d, hd, he⟩
  obtain ⟨hv, S, _, hS, hall⟩ := hi off d e hd he
  by_cases hin : e ∈ fs
  · exact hz.check_sound k fs m _ hcheck hcomp e hin
  · rw [unasserted_eval hz hcheck hover hfs hS hall hin]
    exact hv

/-- Two input bytes (1, 2), the comparison of the first one with 65 (3), and whether they are below
100 (4, 5). -/
def twoByteTable : LabelTable where
  info := fun
    | 1 => { size := 8 }
    | 2 => { size := 8, op1 := 1 }
    | 3 => { l1 := 1, op := 51 + 32 * 256, size := 8, op2 := 65 }
    | 4 => { l1 := 1, op := 51 + 36 * 256, size := 8, op2 := 100 }
    | 5 => { l1 := 2, op := 51 + 36 * 256, size := 8, op2 := 100 }
    | _ => { size := 8 }
  lastLabel := 5
  bucket := fun _ => []

def twoByteInput : TaintedInput := ⟨false, [65, 66]⟩

/-- The model found for the flipped comparison, which is about the first byte only. -/
def firstByteModel : List ((Symbol × Nat) × Nat) := [((.int 0, 8), 66)]

def belowHundred (n : Nat) : Term := .rel .ult (.const (.int n) 8) (.bvVal 100 8)

/-- The table once `label`, which compares the byte `n` of label `byte`, is serialized. -/
def LabelTable.compared (t : LabelTable) (byte label n : Nat) : LabelTable :=
  (((t.modifyInfo byte fun i => { i with treeSize := 1 }).modifyInfo label fun i =>
    { i with treeSize := 1 }).modifyInfo label fun i =>
      { i with expr := some (belowHundred n), deps := some {n} }).flip label

def firstRecorded : SolverState where
  table := twoByteTable.compared 1 4 0
  depSize := 2
  dep := Function.update (fun _ => none) 0 (some ⟨{belowHundred 0}, {0}⟩)

def bothRecorded : SolverState where
  table := firstRecorded.table.compared 2 5 1
  depSize := 2
  dep := Function.update firstRecorded.dep 1 (some ⟨{belowHundred 1}, {1}⟩)

theorem bothRecorded_steps : Steps
    (SliceStep (.guess firstByteModel) ⟨fun _ => true, fun _ => .full⟩ twoByteInput)
    (.start twoByteInput twoByteTable)
    [.addConstraints (fun _ => 0) 4, .addConstraints (fun _ => 0) 5] bothRecorded := by
  have hfirst : addConstraints (.guess firstByteModel) (fun _ => 0) twoByteInput 4
      (.start twoByteInput twoByteTable) = .ok none firstRecorded := rfl
  have hsecond : addConstraints (.guess firstByteModel) (fun _ => 0) twoByteInput 5
      firstRecorded = .ok none bothRecorded := rfl
  refine .cons (.addConstraints ?_ hfirst) (.cons (.addConstraints ?_ hsecond) .nil)
  · intro e deps t' h
    cases h
    exact ⟨by unfold OverInputs; decide, by decide⟩
  · intro e deps t' h
    cases h
    exact ⟨by unfold OverInputs; decide, by decide⟩

/-- The query about the first byte asserts the constraint on it and not the one on the second
byte, and the new input satisfies both. -/
theorem sliced_model_satisfies_path_two :
    ∃ q s', queryBranch (.guess firstByteModel) (fun _ => 0) twoByteInput 3 (.boolVal true)
        bothRecorded = .ok q s' ∧
      q.second = some (.sat firstByteModel) ∧ q.inputs = {0} ∧
      Recorded bothRecorded (belowHundred 0) ∧ Recorded bothRecorded (belowHundred 1) ∧
      ∀ e, Recorded bothRecorded e →
        e.eval (inputEnv (overwrite twoByteInput.bytes firstByteModel)) = 1 := by
  obtain ⟨q, s', hq, hm, hin⟩ : ∃ q s', queryBranch (.guess firstByteModel) (fun _ => 0)
      twoByteInput 3 (.boolVal true) bothRecorded = .ok q s' ∧
      q.second = some (.sat firstByteModel) ∧ q.inputs = {0} :=
    ⟨_, _, rfl, rfl, by decide⟩
  have htr : Traced (.guess firstByteModel) (fun _ => 0) twoByteInput.bytes bothRecorded.table 3
      1 := by
    intro e deps t' h
    cases h
    exact ⟨by unfold OverInputs; decide, by decide⟩
  exact ⟨q, s', hq, hm, hin, ⟨0, _, rfl, Finset.mem_singleton_self _⟩,
    ⟨1, _, rfl, Finset.mem_singleton_self _⟩,
    (sliced_model_satisfies_path (Z3.guess_lawful _) bothRecorded_steps rfl htr hq hm).2⟩

end Kirenenko
