import Kirenenko.Runtime.InputLabels
import Kirenenko.Runtime.PathRuns
import Kirenenko.Runtime.TraceSafety

namespace Kirenenko
set_option autoImplicit true

/-- Every byte of the memory has a label that a program can hold. -/
def InputState.AllHeld (s : InputState) : Prop := ∀ a, Held s.table (s.shadow a)

/-- What an input wrapper keeps. -/
structure InputKept (s s' : InputState) : Prop where
  table : TableKept s.table s'.table
  held : s'.AllHeld

theorem InputState.AllHeld.setLabel {s : InputState} (h : s.AllHeld) (hl : Held s.table l)
    (addr : Int) (size : Nat) : (s.setLabel l addr size).AllHeld := by
  intro a
  unfold InputState.setLabel
  by_cases ha : addr ≤ a ∧ a < addr + size
  · simp only [if_pos ha]
    exact hl
  · simp only [if_neg ha]
    exact h a

/-- The offsets that a wrapper labels lie in the file as it was at the start. -/
def InFile (f : TaintFile) (offset : Int) (i n : Nat) : Prop :=
  ∀ j : Nat, i ≤ j → j < i + n → 0 ≤ offset + j ∧ offset + j < f.size

theorem getLabelFor_inTable (h : TableInv t S)
    (hb : f.isStdin = false → 0 ≤ offset ∧ offset < f.size ∧ f.size ≤ t.lastLabel) :
    Ends Fault.InTable (ReturnsHeld t) (getLabelFor f offset t) := by
  unfold getLabelFor
  apply Ends.ite
  · intro _
    rcases h.dfsanCreateLabel offset with ⟨_, hr⟩ | ⟨hroom, info, hinfo, hr⟩
    · rw [hr]
      exact fun _ => nofun
    · rw [hr]
      exact ⟨⟨⟨_, h.create hroom hinfo.key⟩, extended_extends t info⟩, .inl (Nat.le_refl _)⟩
  · intro hf
    obtain ⟨h0, hlt, hsize⟩ := hb (Bool.eq_false_of_not_eq_true hf)
    refine ⟨h.kept, .inl ?_⟩
    change ((offset + constOffset) % 2 ^ 32).toNat ≤ t.lastLabel
    unfold constOffset
    omega

theorem labelBytes_inTable {s : InputState} (h : TableInv s.table S) (hs : s.AllHeld)
    (hsize : f.isStdin = false → f.size ≤ s.table.lastLabel)
    (hb : f.isStdin = false → InFile f offset i n) :
    Ends Fault.InTable (InputKept s) (labelBytes f offset addr i n s) := by
  induction n generalizing i s S with
  | zero => exact ⟨h.kept, hs⟩
  | succ n ih =>
    rw [labelBytes]
    have hbyte : f.isStdin = false →
        0 ≤ offset + i ∧ offset + i < f.size ∧ f.size ≤ s.table.lastLabel := by
      intro hf
      obtain ⟨h0, hlt⟩ := hb hf i (Nat.le_refl _) (by omega)
      exact ⟨h0, hlt, hsize hf⟩
    apply (getLabelFor_inTable h hbyte).bind
    rintro ⟨label, t⟩ ⟨hk, hl⟩
    obtain ⟨S', hS'⟩ := hk.inv
    have hs' : (⟨t, s.shadow⟩ : InputState).AllHeld := fun a => (hs a).extends hk.grows
    apply Ends.mono
    · apply ih (S := S') hS' (hs'.setLabel hl _ _)
      · intro hf
        exact Nat.le_trans (hsize hf) hk.grows.lastLabel
      · intro hf j hj hj'
        exact hb hf j (by omega) (by omega)
    · intro s' hs''
      exact ⟨hk.trans hs''.table, hs''.held⟩

/-- The wrappers with the results of the C library. -/
inductive WrapperCall where
  | read (ret : Int)
  | pread (ret : Int)
  | fread (size ret : Nat)
  | freadUnlocked (size ret : Nat)
  | getline (ret : Int)
  | getdelim (ret : Int)
  | internalGetdelim (ret : Int)
  | fgets (sLabel : Nat) (ret : Option (List UInt8))
  | fgetsUnlocked (sLabel : Nat) (ret : Option (List UInt8))
  | mmap (length : Nat)

def WrapperCall.exec (x : InputSite) (s : InputState) :
    WrapperCall → Except Fault (Nat × InputState)
  | .read ret => dfswRead x ret s
  | .pread ret => dfswPread x ret s
  | .fread size ret => dfswFread x size ret s
  | .freadUnlocked size ret => dfswFreadUnlocked x size ret s
  | .getline ret => dfswGetline x ret s
  | .getdelim ret => dfswGetdelim x ret s
  | .internalGetdelim ret => dfswInternalGetdelim x ret s
  | .fgets sLabel ret => dfswFgets x sLabel ret s
  | .fgetsUnlocked sLabel ret => dfswFgetsUnlocked x sLabel ret s
  | .mmap length => dfswMmap x length s

/-- How many bytes of the tainted file a call labels. -/
def WrapperCall.labelled (x : InputSite) : WrapperCall → Nat
  | .read ret | .pread ret | .getline ret | .getdelim ret | .internalGetdelim ret => ret.toNat
  | .fread size ret | .freadUnlocked size ret => ret * size
  | .fgets _ ret | .fgetsUnlocked _ ret => (ret.map strlen).getD 0
  | .mmap length => taintedLength x.offset length (taintGetFile x.file x.fd)

section
variable {s : InputState} {x : InputSite}

theorem InputState.AllHeld.cleared (hs : s.AllHeld) (h : TableInv s.table S) (addr : Int)
    (size : Nat) : InputKept s (s.setLabel 0 addr size) :=
  ⟨h.kept, hs.setLabel (.inl (Nat.zero_le _)) addr size⟩

theorem InputKept.cleared (hk : InputKept s s') (addr : Int) (size : Nat) :
    InputKept s (s'.setLabel 0 addr size) :=
  ⟨hk.table, hk.held.setLabel (.inl (Nat.zero_le _)) addr size⟩

theorem WrapperCall.exec_inTable (h : TableInv s.table S) (hs : s.AllHeld)
    (hsize : x.file.isStdin = false → x.file.size ≤ s.table.lastLabel) (c : WrapperCall)
    (hb : taintGetFile x.file x.fd ≠ 0 → x.file.isStdin = false →
      InFile x.file x.offset 0 (c.labelled x)) :
    Ends Fault.InTable (fun p => InputKept s p.2) (c.exec x s) := by
  have hsame : InputKept s s := ⟨h.kept, hs⟩
  cases c with
  | read ret | pread ret =>
    refine .ite (fun _ => .ite (fun hf => ?_) fun _ => hs.cleared h _ _) fun _ => hsame
    exact (labelBytes_inTable h hs hsize (hb hf)).bind fun s' hk => hk
  | fread size ret | freadUnlocked size ret =>
    refine .ite (fun _ => .ite (fun hf => ?_) fun _ => hs.cleared h _ _) fun _ => hsame
    exact (labelBytes_inTable h hs hsize (hb hf)).bind fun s' hk => hk
  | getline ret | getdelim ret | internalGetdelim ret =>
    refine .ite (fun _ => .ite (fun hf => ?_) fun _ => hs.cleared h _ _) fun _ => hsame
    exact (labelBytes_inTable h hs hsize (hb hf)).bind fun s' hk => hk.cleared _ _
  | fgets sLabel ret | fgetsUnlocked sLabel ret =>
    cases ret with
    | none => exact hsame
    | some bytes =>
      refine .ite (fun hf => ?_) fun _ => hs.cleared h _ _
      exact (labelBytes_inTable h hs hsize (hb hf)).bind fun s' hk => hk.cleared _ _
  | mmap length =>
    refine .ite (fun hf => ?_) fun _ => hs.cleared h _ _
    apply (labelBytes_inTable h hs hsize (hb hf)).bind
    intro s' hk
    exact ⟨hk.table, hk.held.setLabel (.inr rfl) _ _⟩

end

/-- The runtime with the shadow of the memory. -/
structure RunState where
  solver : SolverState
  shadow : Int → Nat

/-- What an instrumented program does: it reads its input, combines labels, loads, stores and
branches. -/
inductive RunEvent where
  | input (x : InputSite) (c : WrapperCall)
  | union (k : LabelKey)
  | load (app : Nat → UInt8) (addr : Int) (n : Nat)
  | store (l : Nat) (addr : Int) (n : Nat)
  | traceCond (mem : Memory) (context : Nat × Nat) (label r : Nat)
  | traceCmp (mem : Memory) (context : Nat × Nat) (op1 op2 size predicate c1 c2 : Nat)

def RunState.input (s : RunState) : InputState := ⟨s.solver.table, s.shadow⟩

def RunState.cells (s : RunState) (addr : Int) (i : Nat) : Nat := s.shadow (addr + i)

def RunState.withTable (s : RunState) (t : LabelTable) : RunState :=
  { s with solver := s.solver.serialized t }

def RunState.traced (s : RunState) :
    EStateM.Result Exn SolverState (Option Z3Exception) → Except Fault RunState
  | .ok _ solver => .ok { s with solver := solver }
  | .error (.fault f) _ => .error f
  | .error (.z3 _) _ => .error .uncaught

def RunState.exec (z : Z3) (host : Host) (input : TaintedInput) (s : RunState) :
    RunEvent → Except Fault RunState
  | .input x c => do
    let (_, s') ← c.exec x s.input
    return ⟨s.solver.serialized s'.table, s'.shadow⟩
  | .union k => do
    let (_, t) ← taintUnion s.solver.table k
    return s.withTable t
  | .load app addr n => do
    let (_, t) ← taintUnionLoad s.solver.table app (s.cells addr) n
    return s.withTable t
  | .store l addr n => do
    let (ls, t) ← taintUnionStore s.solver.table l (s.cells addr) n
    return ⟨s.solver.serialized t,
      fun a => if addr ≤ a ∧ a < addr + n then ls (a - addr).toNat else s.shadow a⟩
  | .traceCond mem context label r =>
    s.traced (taintTraceCond z mem host input context label r s.solver)
  | .traceCmp mem context op1 op2 size predicate c1 c2 =>
    s.traced (taintTraceCmp z mem host input context op1 op2 size predicate c1 c2 s.solver)

/-- The labels of an event are ones that the program holds; the tainted file is the one of the
run. -/
def RunEvent.Provided (f : TaintFile) (s : RunState) : RunEvent → Prop
  | .input x _ => x.file.isStdin = f.isStdin ∧ x.file.size = f.size
  | .union k => Held s.solver.table k.l1 ∧
      (k.op ≠ Operators.Load.code → Held s.solver.table k.l2)
  | .load _ _ _ => True
  | .store l _ _ => Held s.solver.table l
  | .traceCond _ _ label _ => Held s.solver.table label
  | .traceCmp _ _ op1 op2 _ _ _ _ => Held s.solver.table op1 ∧ Held s.solver.table op2

/-- The events that use no index past the last label. -/
def RunEvent.InRange (f : TaintFile) (s : RunState) : RunEvent → Prop
  | .input x c => taintGetFile x.file x.fd ≠ 0 → f.isStdin = false →
      InFile f x.offset 0 (c.labelled x)
  | .union _ => True
  | .load _ addr n => LoadSafe s.solver.table (s.cells addr) n
  | .store l _ n => StoreSafe s.solver.table l n
  | .traceCond _ context label _ =>
    label = kInitializingLabel → ¬s.solver.branches context < maxBranchCount
  | .traceCmp _ context op1 op2 _ _ _ _ =>
    op1 = kInitializingLabel ∨ op2 = kInitializingLabel →
      ¬s.solver.branches context < maxBranchCount

structure RunInv (f : TaintFile) (s : RunState) : Prop where
  table : ∃ S, TableInv s.solver.table S
  size : f.isStdin = false → f.size ≤ s.solver.table.lastLabel
  held : s.input.AllHeld

theorem RunInv.kept (hi : RunInv f s) (hk : TableKept s.solver.table s'.solver.table)
    (hshadow : ∀ a, Held s'.solver.table (s'.shadow a)) : RunInv f s' where
  table := hk.inv
  size hf := Nat.le_trans (hi.size hf) hk.grows.lastLabel
  held := hshadow

theorem RunInv.withTable (hi : RunInv f s) (hk : TableKept s.solver.table t) :
    RunInv f (s.withTable t) :=
  hi.kept hk fun a => (hi.held a).extends hk.grows

theorem TraceKept.traced {s : RunState}
    {r : EStateM.Result Exn SolverState (Option Z3Exception)} (h : TraceKept s.solver.table r) :
    Ends Fault.InTable
      (fun s' => TableKept s.solver.table s'.solver.table ∧ s'.shadow = s.shadow)
      (s.traced r) := by
  cases r with
  | ok a solver => exact ⟨h, rfl⟩
  | error e solver =>
    cases e with
    | z3 e => exact fun _ => nofun
    | fault x =>
      intro l hl
      exact h l (congrArg Exn.fault hl)

theorem RunInv.traced (hi : RunInv f s)
    {r : EStateM.Result Exn SolverState (Option Z3Exception)}
    (h : TraceKept s.solver.table r) : Ends Fault.InTable (RunInv f) (s.traced r) := by
  apply h.traced.mono
  rintro s' ⟨hk, hshadow⟩
  apply hi.kept hk
  intro a
  rw [hshadow]
  exact (hi.held a).extends hk.grows

/-- One event keeps the invariant and uses no index out of range. -/
theorem RunInv.exec (hi : RunInv f s) (hp : a.Provided f s) (hr : a.InRange f s) :
    Ends Fault.InTable (RunInv f) (s.exec z host input a) := by
  obtain ⟨S, hS⟩ := hi.table
  cases a with
  | input x c =>
    obtain ⟨hstdin, hsize⟩ := hp
    have hfile : x.file.isStdin = false → x.file.size ≤ s.input.table.lastLabel := by
      rw [hstdin, hsize]
      exact hi.size
    have hb : taintGetFile x.file x.fd ≠ 0 → x.file.isStdin = false →
        InFile x.file x.offset 0 (c.labelled x) := by
      unfold InFile
      rw [hstdin, hsize]
      exact hr
    apply (WrapperCall.exec_inTable hS hi.held hfile c hb).bind
    rintro ⟨l, s'⟩ hk
    exact hi.kept hk.table hk.held
  | union k =>
    apply (hS.union_inTable hp.1 hp.2).bind
    rintro ⟨l, t⟩ ⟨hk, _⟩
    exact hi.withTable hk
  | load app addr n =>
    have hcells : LoadHeld s.solver.table (s.cells addr) n := .of_all fun i => hi.held _
    apply (taintUnionLoad_inTable hS hcells hr).bind
    rintro ⟨l, t⟩ ⟨hk, _⟩
    exact hi.withTable hk
  | store l addr n =>
    have hbefore : ∀ i, Held s.solver.table (s.cells addr i) := fun i => hi.held _
    apply (taintUnionStore_inTable hS hp hbefore hr).bind
    rintro ⟨ls, t⟩ ⟨hk, hcells⟩
    apply hi.kept hk
    intro a
    by_cases ha : addr ≤ a ∧ a < addr + n
    · simp only [if_pos ha]
      exact (hcells _).1
    · simp only [if_neg ha]
      exact (hi.held a).extends hk.grows
  | traceCond mem context label r => exact hi.traced (taintTraceCond_inTable hS hp hr)
  | traceCmp mem context op1 op2 size predicate c1 c2 =>
    exact hi.traced (taintTraceCmp_inTable hS hp.1 hp.2 hr)

/-- The runtime after `InitializeTaintFile`: in file mode every byte has got its label. -/
def RunState.start (input : TaintedInput) (t : LabelTable) : RunState :=
  ⟨.start input t, fun _ => constLabel⟩

theorem RunInv.start {s : TableHistory}
    (h : Steps (TableStep z) .initial (preallocate (if f.isStdin then 0 else f.size)) s) :
    RunInv f (.start input s.table) where
  table := ⟨_, (h.table_inv TableHistory.initial_inv).1⟩
  size hf := by
    have hlast := (preallocate_fileMode h).2
    rw [hf] at hlast
    exact Nat.le_of_eq hlast.symm
  held _ := .inl (Nat.zero_le _)

/-- In a run whose events are all in range no record past the last label is used. -/
theorem labels_stay_in_table {s : TableHistory}
    (hstart : Steps (TableStep z) .initial (preallocate (if f.isStdin then 0 else f.size)) s)
    (hevents : EachRun (RunState.exec z host input) (fun s a => a.Provided f s ∧ a.InRange f s)
      (.start input s.table) as) (l : Nat) :
    as.foldlM (RunState.exec z host input) (.start input s.table) ≠ .error (.badIndex l) := by
  intro he
  have hend : Ends Fault.InTable (RunInv f)
      (as.foldlM (RunState.exec z host input) (.start input s.table)) :=
    foldlM_ends _ (fun _ _ hi hc => hi.exec hc.1 hc.2) (.start hstart) hevents
  rw [he] at hend
  exact hend l rfl

/-- A mapping of the tainted file at address 16. -/
def mappedSite : InputSite where
  file := { fd := 3, size := 1 }
  fd := 3
  offset := 0
  buf := 16

/-- Two bytes of a file with one byte are mapped and loaded, and the result is combined with a
constant. -/
theorem labels_stay_in_table_mapped :
    ∃ s, Steps (TableStep .idle) .initial (preallocate 1) s ∧
      ∀ l, [RunEvent.input mappedSite (.mmap 2), .load (fun _ => 0) 16 2,
          .union { l1 := kInitializingLabel, op := Operators.Add.code, size := 16,
                   op2 := 1 }].foldlM
        (RunState.exec .idle reliableHost oneByteFile) (.start oneByteFile s.table) ≠
          .error (.badIndex l) := by
  have hstart : Steps (TableStep .idle) .initial
      (preallocate (if mappedSite.file.isStdin then 0 else mappedSite.file.size)) _ :=
    .cons (.create rfl) .nil
  refine ⟨_, hstart, labels_stay_in_table hstart ?_⟩
  refine ⟨⟨⟨rfl, rfl⟩, ?_⟩, ?_⟩
  · intro _ _ j _ hj
    change j < 0 + 1 at hj
    change 0 ≤ (0 : Int) + j ∧ (0 : Int) + j < (1 : Nat)
    omega
  rintro s₁ ⟨⟩
  refine ⟨⟨trivial, .inr (.inr ⟨rfl, 1, by decide, rfl, ?_⟩)⟩, ?_⟩
  · intro i hi
    obtain rfl : i = 0 := by omega
    exact ⟨by decide, fun h => absurd h (by decide)⟩
  rintro s₂ ⟨⟩
  exact ⟨⟨⟨.inr rfl, fun _ => .inl (Nat.zero_le _)⟩, trivial⟩, fun _ _ => trivial⟩

def usesIndex (l : Nat) : Except Fault α → Bool
  | .ok _ => false
  | .error f => f = .badIndex l

theorem usesIndex_eq {x : Except Fault α} (h : usesIndex l x = true) :
    x = .error (.badIndex l) := by
  cases x with
  | ok a => cases h
  | error f =>
    rw [show f = _ from of_decide_eq_true h]

/-- Two bytes of a file with one byte are mapped. A load of both gives the initializing label, and
a branch on that uses it as an index; so does a load after the first byte was incremented. -/
theorem initializing_label_used :
    ∃ s s₁ t, Steps (TableStep .idle) .initial (preallocate 1) s ∧
      RunState.exec .idle reliableHost oneByteFile (.start oneByteFile s.table)
        (.input mappedSite (.mmap 2)) = .ok s₁ ∧
      taintUnionLoad s₁.solver.table (fun _ => 0) (s₁.cells 16) 2 =
        .ok (kInitializingLabel, t) ∧
      s₁.exec .idle reliableHost oneByteFile
        (.traceCond (fun _ => 0) (0, 0) kInitializingLabel 1) =
        .error (.badIndex kInitializingLabel) ∧
      [RunEvent.union { l1 := 1, op := Operators.Add.code, size := 8, op2 := 1 }, .store 2 16 1,
          .load (fun _ => 0) 16 2].foldlM (RunState.exec .idle reliableHost oneByteFile) s₁ =
        .error (.badIndex kInitializingLabel) := by
  refine ⟨_, _, _, .cons (.create rfl) .nil, rfl, rfl, ?_, ?_⟩
  · exact usesIndex_eq (by decide +kernel)
  · exact usesIndex_eq (by decide +kernel)

end Kirenenko
