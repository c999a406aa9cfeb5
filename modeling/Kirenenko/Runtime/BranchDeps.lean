import Kirenenko.Runtime.DepsBound
import Kirenenko.Runtime.LabelBounds
import Kirenenko.Runtime.LoadPaths
import Kirenenko.Runtime.Utmp

namespace Kirenenko
set_option autoImplicit true

section
variable {n : Nat} {t t' : LabelTable} {k : LabelKey}

theorem Fits.extends (h : Fits n t k) (hg : Extends t t') : Fits n t' k where
  raw := h.raw
  load hL := by
    obtain ⟨hl, hd⟩ := h.load hL
    rw [hg.key _ hl]
    exact ⟨Nat.le_trans hl hg.lastLabel, hd⟩

theorem OffsetsBelow.extended (h : OffsetsBelow n t) (hroom : t.lastLabel < maxLabel)
    (hfits : Fits n t info.toLabelKey) (hdeps : info.deps = none) :
    OffsetsBelow n (t.extended info) where
  bound := hroom
  records l hl hlast := by
    have hg := extended_extends t info
    rcases Nat.lt_or_eq_of_le hlast with hlt | rfl
    · have hold : l ≤ t.lastLabel := Nat.le_of_lt_succ hlt
      rw [hg.key l hold]
      exact (h.records l hl hold).extends hg
    · change Fits n (t.extended info) ((t.extended info).key (t.lastLabel + 1))
      rw [extended_key_new]
      exact hfits.extends hg
  cached l deps hd := by
    unfold LabelTable.extended at hd
    by_cases hl : l = t.lastLabel + 1
    · subst hl
      simp only [Function.update_self, hdeps] at hd
      cases hd
    · simp only [Function.update_of_ne hl] at hd
      exact h.cached l deps hd

theorem OffsetsBelow.allocate (h : OffsetsBelow n t) (hfits : Fits n t info.toLabelKey)
    (hdeps : info.deps = none) :
    Ends Fault.InVector (fun p => OffsetsBelow n p.2) (t.allocate info) := by
  rw [allocate_eq t info h.bound]
  apply Ends.ite
  · intro hroom
    exact h.extended hroom hfits hdeps
  · intro _
    exact nofun

theorem OffsetsBelow.create {offset : Int} (h : OffsetsBelow n t) (h0 : 0 ≤ offset)
    (hlt : offset < n) :
    Ends Fault.InVector (fun p => OffsetsBelow n p.2) (dfsanCreateLabel t offset) := by
  apply h.allocate
  · refine ⟨?_, nofun⟩
    intro _
    change (offset % 2 ^ 64).toNat < n
    omega
  · rfl

theorem OffsetsBelow.taintUnion (h : OffsetsBelow n t) (hfits : Fits n t (canonical k)) :
    Ends Fault.InVector (fun p => OffsetsBelow n p.2) (Kirenenko.taintUnion t k) := by
  rw [taintUnion_eq]
  apply Ends.ite
  · intro _
    exact h
  intro _
  apply Ends.ite
  · intro _
    exact h
  intro _
  unfold LabelTable.intern
  cases t.lookup (canonical k) with
  | some l => exact h
  | none =>
    refine Ends.bind (h.allocate hfits rfl) ?_
    rintro ⟨l, t'⟩ ht'
    exact ht'.of_keys rfl rfl ht'.cached

theorem OffsetsBelow.union (h : OffsetsBelow n t) (h0 : k.op ≠ 0)
    (hL : k.op ≠ Operators.Load.code) :
    Ends Fault.InVector (fun p => OffsetsBelow n p.2) (Kirenenko.taintUnion t k) := by
  apply h.taintUnion
  constructor
  · rw [canonical_op]
    exact fun h => (h0 h).elim
  · rw [canonical_op]
    exact fun h => (hL h).elim

theorem getLabelInfo_inVector (t : LabelTable) (l : Nat) :
    Ends Fault.InVector (fun info => l ≤ t.lastLabel ∧ info = t.info l) (t.getLabelInfo l) :=
  .ite (fun hl => ⟨hl, rfl⟩) fun _ => nofun

end

section
variable {n : Nat} {t : LabelTable} {ls : Nat → Nat}

theorem shapeLoop_inVector : Ends Fault.InVector
    (fun shape => shape = .consecutive → ∀ j < k, (t.key (ls (i + j))).op1 = (o + (i + j)) % 2 ^ 64)
    (shapeLoop t ls o i k) := by
  induction k generalizing i with
  | zero =>
    intro _ j hj
    cases hj
  | succ k ih =>
    rw [shapeLoop]
    apply Ends.ite
    · intro _ h
      cases h
    intro _
    apply (getLabelInfo_inVector t (ls i)).bind
    rintro info ⟨_, rfl⟩
    apply Ends.ite
    · intro _ h
      cases h
    intro hop
    apply ih.mono
    intro shape hshape hc j hj
    cases j with
    | zero => exact not_not.1 hop
    | succ j =>
      have h := hshape hc j (Nat.lt_of_succ_lt_succ hj)
      rw [Nat.succ_add_eq_add_succ] at h
      exact h

theorem loadShape_inVector (t : LabelTable) (ls : Nat → Nat) (m : Nat) : Ends Fault.InVector
    (fun shape => shape = .consecutive → m ≠ 0 ∧ Consecutive t ls m)
    (loadShape t ls m (t.info (ls 0))) := by
  unfold loadShape
  apply Ends.ite
  · intro _
    exact nofun
  intro hop
  apply Ends.ite
  · intro _
    exact nofun
  intro hm
  apply shapeLoop_inVector.mono
  intro shape hshape hc
  refine ⟨hm, not_not.1 hop, ?_⟩
  intro i hi hpos
  obtain ⟨j, rfl⟩ := Nat.exists_eq_add_of_le hpos
  exact hshape hc j (by omega)

theorem extractLoop_inVector :
    Ends Fault.InVector (fun _ => True) (extractLoop t ls p i o k) := by
  induction k generalizing i o with
  | zero => trivial
  | succ k ih =>
    rw [extractLoop]
    apply (getLabelInfo_inVector t (ls i)).bind
    intro info _
    exact .ite (fun _ => trivial) fun _ => ih

theorem extractParent_inVector (info : LabelInfo) :
    Ends Fault.InVector (fun _ => True) (extractParent t ls m info) := by
  apply Ends.ite
  · intro _
    apply extractLoop_inVector.bind
    intro o _
    exact (getLabelInfo_inVector t info.l1).bind fun parent _ => trivial
  · intro _
    trivial

theorem OffsetsBelow.concatLoop (h : OffsetsBelow n t) :
    Ends Fault.InVector (fun p => OffsetsBelow n p.2)
      (Kirenenko.concatLoop app ls m fuel t label i) := by
  have hconcat : Operators.Concat.code ≠ 0 ∧ Operators.Concat.code ≠ Operators.Load.code := by
    decide
  have htrunc : Operators.Trunc.code ≠ 0 ∧ Operators.Trunc.code ≠ Operators.Load.code := by
    decide
  induction fuel generalizing t label i with
  | zero => exact nofun
  | succ fuel ih =>
    rw [Kirenenko.concatLoop]
    refine .ite (fun _ => ?_) fun _ => h
    apply (getLabelInfo_inVector t (ls i)).bind
    intro next _
    refine .ite (fun _ => .ite (fun _ => ?_) fun _ => ?_) fun _ => ?_
    · exact (h.union hconcat.1 hconcat.2).bind fun p hp => ih hp
    · exact (h.union htrunc.1 htrunc.2).bind fun p hp => hp.union hconcat.1 hconcat.2
    · exact (h.union hconcat.1 hconcat.2).bind fun p hp => ih hp

/-- A load that passes the test for consecutive input bytes lies in the file. -/
def LoadInFile (n : Nat) (t : LabelTable) (ls : Nat → Nat) (m : Nat) : Prop :=
  Consecutive t ls m → (t.key (ls 0)).op1 + m ≤ n

theorem OffsetsBelow.loadConsecutive (h : OffsetsBelow n t) (h0 : ls 0 ≤ t.lastLabel)
    (hm : m ≠ 0) (hin : (t.key (ls 0)).op1 + m ≤ n) :
    Ends Fault.InVector (fun p => OffsetsBelow n p.2) (Kirenenko.loadConsecutive t ls m) := by
  apply Ends.ite
  · intro _
    exact h
  intro _
  have hswap : swapOperands ⟨ls 0, m % 2 ^ 32, Operators.Load.code, m * 8 % 2 ^ 16, 0, 0⟩ =
      ⟨ls 0, m % 2 ^ 32, Operators.Load.code, m * 8 % 2 ^ 16, 0, 0⟩ :=
    if_neg fun h => absurd h.2 (by decide : ¬isCommutative Operators.Load.code)
  apply h.taintUnion
  rw [canonical, hswap]
  refine ⟨fun h => (by cases h), fun _ => ⟨h0, ?_⟩⟩
  intro o ho
  obtain ⟨i, hi, rfl⟩ := Finset.mem_image.1 ho
  have hcount : i < m % 2 ^ 32 - 1 + 1 := Finset.mem_range.1 hi
  have hlt : ((t.key (ls 0)).op1 + i) % 2 ^ 32 < n := by
    have hmod := Nat.mod_le ((t.key (ls 0)).op1 + i) (2 ^ 32)
    have hle := Nat.mod_le m (2 ^ 32)
    omega
  exact Finset.mem_range.2 hlt

theorem OffsetsBelow.taintUnionLoad (h : OffsetsBelow n t) (hin : LoadInFile n t ls m) :
    Ends Fault.InVector (fun p => OffsetsBelow n p.2) (Kirenenko.taintUnionLoad t app ls m) := by
  unfold Kirenenko.taintUnionLoad
  refine .ite (fun _ => h) fun _ => .ite (fun _ => h) fun _ => ?_
  apply (getLabelInfo_inVector t (ls 0)).bind
  rintro info ⟨h0, rfl⟩
  apply (loadShape_inVector t ls m).bind
  intro shape hshape
  cases shape with
  | initializing => exact h
  | consecutive =>
    obtain ⟨hm, hc⟩ := hshape rfl
    exact h.loadConsecutive h0 hm (hin hc)
  | other =>
    apply (extractParent_inVector _).bind
    intro parent _
    cases parent with
    | some l => exact h
    | none => exact h.concatLoop

theorem OffsetsBelow.storeExtracts (h : OffsetsBelow n t) :
    Ends Fault.InVector (fun p => OffsetsBelow n p.2) (Kirenenko.storeExtracts l i k t ls) := by
  have hextract : Operators.Extract.code ≠ 0 ∧ Operators.Extract.code ≠ Operators.Load.code := by
    decide
  induction k generalizing t i ls with
  | zero => exact h
  | succ k ih =>
    rw [Kirenenko.storeExtracts]
    exact (h.union hextract.1 hextract.2).bind fun p hp => ih hp

theorem OffsetsBelow.taintUnionStore (h : OffsetsBelow n t) :
    Ends Fault.InVector (fun p => OffsetsBelow n p.2) (Kirenenko.taintUnionStore t l ls m) := by
  refine .ite (fun _ => h) fun _ => (getLabelInfo_inVector t l).bind fun info _ => ?_
  exact .ite (fun _ => h) fun _ => .ite (fun _ => h) fun _ => h.storeExtracts

end

/-- The loop of `__dfsw_gets`, which creates a label for each byte even in file mode. -/
def createBytes (offset addr : Int) : Nat → Nat → InputState → Except Fault InputState
  | _, 0, s => .ok s
  | i, n + 1, s => do
    let (label, t) ← dfsanCreateLabel s.table (offset + i)
    createBytes offset addr (i + 1) n ({ s with table := t }.setLabel label (addr + i) 1)

/-- The result is the string that `fgets` read from standard input, or null; its terminating NUL
gets a label, too. -/
def dfswGets (f : TaintFile) (offset str : Int) (strLabel : Nat) (ret : Option (List UInt8))
    (s : InputState) : Except Fault (Nat × InputState) := do
  match ret with
  | some bytes =>
    if taintGetFile f 0 ≠ 0 then
      let s ← createBytes offset str 0 (strlen bytes + 1) s
      return (strLabel, s)
    else return (0, s)
  | none => return (0, s)

/-- A run of the program together with the interface to `utmp`. -/
structure WrapperRun extends RunState where
  isUtmp : Bool := false
  offset : Int := 0

inductive WrapperEvent where
  | program (a : RunEvent)
  | gets (f : TaintFile) (offset str : Int) (strLabel : Nat) (ret : Option (List UInt8))
  | utmp (f : TaintFile) (c : UtmpCall)
  | addConstraints (mem : Memory) (label : Nat)

def WrapperRun.utmp (s : WrapperRun) : UtmpState := ⟨s.input, s.isUtmp, s.offset⟩

def WrapperRun.withInput (s : WrapperRun) (i : InputState) : WrapperRun :=
  { s with solver := s.solver.serialized i.table, shadow := i.shadow }

def WrapperRun.exec (z : Z3) (host : Host) (input : TaintedInput) (s : WrapperRun) :
    WrapperEvent → Except Fault WrapperRun
  | .program a => do
    let r ← s.toRunState.exec z host input a
    return { s with toRunState := r }
  | .gets f offset str strLabel ret => do
    let (_, i) ← dfswGets f offset str strLabel ret s.input
    return s.withInput i
  | .utmp f c => do
    let u ← c.exec f s.utmp
    return { s.withInput u.input with isUtmp := u.isUtmp, offset := u.offset }
  | .addConstraints mem label => do
    let r ← s.traced (addConstraints z mem input label s.solver)
    return { s with toRunState := r }

def WrapperRun.start (input : TaintedInput) (t : LabelTable) : WrapperRun :=
  { toRunState := .start input t }

/-- The tainted file is not standard input, and the operators of unions are those of
instructions. -/
def WrapperEvent.FromProgram : WrapperEvent → Prop
  | .program (.input x _) => x.file.isStdin = false
  | .program (.union k) => k.op ≠ 0 ∧ k.op ≠ Operators.Load.code
  | .utmp f _ => f.isStdin = false
  | _ => True

/-- A line read by `gets` ends before the last byte of the file as it was at the start, and a load
that is taken for one of consecutive input bytes lies in that file. -/
def WrapperEvent.InFile (s : WrapperRun) : WrapperEvent → Prop
  | .program (.load _ addr n) => LoadInFile s.solver.depSize s.solver.table (s.cells addr) n
  | .gets f offset _ _ (some bytes) => taintGetFile f 0 ≠ 0 →
      0 ≤ offset ∧ offset + strlen bytes < s.solver.depSize
  | _ => True

/-- The labels that an event works on have a record; the initializing label, which has none, is
only passed on. What a wrapper reads may get a label without a record, as long as that is not
used. -/
def WrapperEvent.Recorded (s : WrapperRun) : WrapperEvent → Prop
  | .program (.union k) => Held s.solver.table k.l1 ∧ Held s.solver.table k.l2
  | .program (.load _ addr n) => LoadHeld s.solver.table (s.cells addr) n ∧
      LoadSafe s.solver.table (s.cells addr) n
  | .program (.store l _ _) => Held s.solver.table l
  | .program (.traceCond _ context label _) => Held s.solver.table label ∧
      (label = kInitializingLabel → ¬s.solver.branches context < maxBranchCount)
  | .program (.traceCmp _ context op1 op2 _ _ _ _) =>
      (Held s.solver.table op1 ∧ Held s.solver.table op2) ∧
      (op1 = kInitializingLabel ∨ op2 = kInitializingLabel →
        ¬s.solver.branches context < maxBranchCount)
  | .addConstraints _ label => label ≤ s.solver.table.lastLabel
  | _ => True

/-- The offsets that serialization of a label collects are indices of the vector. -/
def LabelInRange (z : Z3) (mem : Memory) (label : Nat) (s : SolverState) : Prop :=
  ∀ p s', serializeLabel z mem label s = .ok p s' → ∀ o ∈ p.2, o < s.depSize

/-- The labels that an event hands to `add_constraints` or `__solve_cond` are in range. -/
def WrapperEvent.DepsBelow (z : Z3) (s : WrapperRun) : WrapperEvent → Prop
  | .program (.traceCond mem _ label _) => LabelInRange z mem label s.solver
  | .program (.traceCmp mem _ op1 op2 size predicate c1 c2) => ∀ temp s',
      unionLabel (traceCmpKey op1 op2 size predicate c1 c2) s.solver = .ok temp s' →
        LabelInRange z mem temp s'
  | .addConstraints mem label => LabelInRange z mem label s.solver
  | _ => True

section
variable {n : Nat} {s : InputState}

theorem createBytes_inVector {offset : Int} (h : OffsetsBelow n s.table)
    (hb : ∀ j : Nat, i ≤ j → j < i + k → 0 ≤ offset + j ∧ offset + j < n) :
    Ends Fault.InVector (fun s' => OffsetsBelow n s'.table) (createBytes offset addr i k s) := by
  induction k generalizing i s with
  | zero => exact h
  | succ k ih =>
    obtain ⟨h0, hlt⟩ := hb i (Nat.le_refl _) (by omega)
    rw [createBytes]
    apply (h.create h0 hlt).bind
    intro p hp
    apply ih hp
    intro j hj hj'
    exact hb j (by omega) (by omega)

theorem dfswGets_inVector {offset : Int} (h : OffsetsBelow n s.table)
    (hb : ∀ bytes, ret = some bytes → taintGetFile f 0 ≠ 0 →
      0 ≤ offset ∧ offset + strlen bytes < n) :
    Ends Fault.InVector (fun p => OffsetsBelow n p.2.table)
      (dfswGets f offset str strLabel ret s) := by
  cases ret with
  | none => exact h
  | some bytes =>
    apply Ends.ite
    · intro hf
      obtain ⟨h0, hlt⟩ := hb bytes rfl hf
      have hbytes : ∀ j : Nat, 0 ≤ j → j < 0 + (strlen bytes + 1) →
          0 ≤ offset + j ∧ offset + j < n := by
        intro j _ hj
        omega
      exact (createBytes_inVector h hbytes).bind fun s' hs' => hs'
    · intro _
      exact h

/-- In file mode the other wrappers create no label, and they do not fail. -/
theorem WrapperCall.exec_file {E : Fault → Prop} (hf : x.file.isStdin = false) (c : WrapperCall)
    (s : InputState) : Ends E (fun p => p.2.table = s.table) (c.exec x s) := by
  have hlabel : ∀ n, Ends E (fun s' : InputState => s'.table = s.table)
      (labelBytes x.file x.offset x.buf 0 n s) := by
    intro n
    rw [labelBytes_file hf]
    exact rfl
  cases c with
  | read ret | pread ret =>
    exact .ite (fun _ => .ite (fun _ => (hlabel _).bind fun _ hs => hs) fun _ => rfl) fun _ => rfl
  | fread size ret | freadUnlocked size ret =>
    exact .ite (fun _ => .ite (fun _ => (hlabel _).bind fun _ hs => hs) fun _ => rfl) fun _ => rfl
  | getline ret | getdelim ret | internalGetdelim ret =>
    exact .ite (fun _ => .ite (fun _ => (hlabel _).bind fun _ hs => hs) fun _ => rfl) fun _ => rfl
  | fgets sLabel ret | fgetsUnlocked sLabel ret =>
    cases ret with
    | none => exact rfl
    | some bytes => exact .ite (fun _ => (hlabel _).bind fun _ hs => hs) fun _ => rfl
  | mmap length => exact .ite (fun _ => (hlabel _).bind fun _ hs => hs) fun _ => rfl

theorem StatCall.exec_inVector (c : StatCall) (ret : Int) (h : OffsetsBelow n s.table) :
    Ends Fault.InVector (fun p => OffsetsBelow n p.2.table) (c.exec ret s) := by
  rw [c.exec_eq]
  apply Ends.ite
  · intro _
    have hfsize := h.union (k := { fsizeKey with size := sizeofStSize * 8 % 2 ^ 8 })
      (by decide : Operators.fsize.code ≠ 0)
      (by decide : Operators.fsize.code ≠ Operators.Load.code)
    exact hfsize.bind fun p hp => hp
  · intro _
    exact h

theorem UtmpCall.exec_inVector {u : UtmpState} (hf : f.isStdin = false) (c : UtmpCall)
    (h : OffsetsBelow n u.input.table) :
    Ends Fault.InVector (fun u' => OffsetsBelow n u'.input.table) (c.exec f u) := by
  cases c with
  | utmpxname libc path stale =>
    rw [UtmpCall.exec, dfswUtmpxname_eq]
    exact h
  | setutxent =>
    rw [UtmpCall.exec, dfswSetutxent_eq]
    exact h
  | getutxent ret =>
    cases ret with
    | none => exact h
    | some record =>
      apply Ends.ite
      · intro _
        rw [labelBytes_file hf]
        exact h
      · intro _
        exact h
  | stat c ret => exact (c.exec_inVector ret h).bind fun p hp => hp

theorem createBytes_inTable {s : InputState} (h : TableInv s.table S) :
    Ends Fault.InTable (fun s' => TableKept s.table s'.table)
      (createBytes offset addr i k s) := by
  induction k generalizing i s S with
  | zero => exact h.kept
  | succ k ih =>
    rw [createBytes]
    rcases h.dfsanCreateLabel (offset + i) with ⟨_, hr⟩ | ⟨hroom, info, hinfo, hr⟩
    · rw [hr]
      exact fun _ => nofun
    · rw [hr]
      have hk : TableKept s.table (s.table.extended info) :=
        ⟨⟨_, h.create hroom hinfo.key⟩, extended_extends s.table info⟩
      obtain ⟨S', hS'⟩ := hk.inv
      exact (ih (S := S') hS').mono fun _ => hk.trans

theorem dfswGets_inTable (h : TableInv s.table S) :
    Ends Fault.InTable (fun p => TableKept s.table p.2.table)
      (dfswGets f offset str strLabel ret s) := by
  cases ret with
  | none => exact h.kept
  | some bytes =>
    exact .ite (fun _ => (createBytes_inTable h).bind fun _ hk => hk) fun _ => h.kept

theorem StatCall.exec_inTable (h : TableInv s.table S) (c : StatCall) (ret : Int) :
    Ends Fault.InTable (fun p => TableKept s.table p.2.table) (c.exec ret s) := by
  rw [c.exec_eq]
  apply Ends.ite
  · intro _
    have hfsize := h.union_inTable (k := { fsizeKey with size := sizeofStSize * 8 % 2 ^ 8 })
      (.inl (Nat.zero_le _)) fun _ => .inl (Nat.zero_le _)
    exact hfsize.bind fun p hp => hp.1
  · intro _
    exact h.kept

theorem UtmpCall.exec_inTable {u : UtmpState} (hf : f.isStdin = false)
    (h : TableInv u.input.table S) (c : UtmpCall) :
    Ends Fault.InTable (fun u' => TableKept u.input.table u'.input.table) (c.exec f u) := by
  cases c with
  | utmpxname libc path stale =>
    rw [UtmpCall.exec, dfswUtmpxname_eq]
    exact h.kept
  | setutxent =>
    rw [UtmpCall.exec, dfswSetutxent_eq]
    exact h.kept
  | getutxent ret =>
    cases ret with
    | none => exact h.kept
    | some record =>
      apply Ends.ite
      · intro _
        rw [labelBytes_file hf]
        exact h.kept
      · intro _
        exact h.kept
  | stat c ret => exact (c.exec_inTable h ret).bind fun p hp => hp

end

section
variable {n : Nat} {s : SolverState}

theorem DepsInRange.withTable (h : DepsInRange n s) (ht : OffsetsBelow n t) :
    DepsInRange n (s.serialized t) :=
  ⟨h.size, ht, h.entries⟩

theorem traceCmpKey_op (op1 op2 size predicate c1 c2 : Nat) :
    (traceCmpKey op1 op2 size predicate c1 c2).op ≠ 0 ∧
      (traceCmpKey op1 op2 size predicate c1 c2).op ≠ Operators.Load.code := by
  have hlt : Operators.ICmp.code < 2 ^ 8 := by decide
  have hop : (traceCmpKey op1 op2 size predicate c1 c2).op =
      (predicate * 2 ^ 8 + Operators.ICmp.code) % 2 ^ 16 := by
    rw [← Nat.shiftLeft_eq, Nat.shiftLeft_add_eq_or_of_lt hlt]
    rfl
  have hcmp : Operators.ICmp.code = 51 := by decide
  have hload : Operators.Load.code = 67 := by decide
  rw [hop, hcmp, hload]
  omega

theorem inRange_unionLabel (h0 : k.op ≠ 0) (hL : k.op ≠ Operators.Load.code) :
    Keeps (DepsInRange n) InVector (unionLabel k) := by
  intro s hs
  have hends := hs.table.union (k := { k with size := k.size % 2 ^ 8 }) h0 hL
  change Ends _ _ (dfsanUnion s.table k) at hends
  unfold unionLabel
  cases hu : dfsanUnion s.table k with
  | ok p =>
    rw [hu] at hends
    refine ⟨?_, nofun⟩
    rintro l s' ⟨⟩
    exact hs.withTable hends
  | error f =>
    rw [hu] at hends
    refine ⟨nofun, ?_⟩
    rintro e s' ⟨⟩
    exact ⟨hs, fun he => hends (Exn.fault.inj he)⟩

theorem inRange_visit (context : Nat × Nat) :
    Keeps (DepsInRange n) InVector (visit context) := by
  intro s hs
  rw [visit_eq]
  by_cases hb : s.branches context < maxBranchCount
  · rw [if_pos hb]
    refine ⟨?_, nofun⟩
    rintro b s' ⟨⟩
    exact ⟨hs.size, hs.table, hs.entries⟩
  · rw [if_neg hb]
    refine ⟨?_, nofun⟩
    rintro b s' ⟨⟩
    exact hs

theorem inRange_uncaught (x : Except Z3Exception α) :
    Keeps (DepsInRange n) InVector (uncaught x) := by
  cases x with
  | ok a => exact .pure a
  | error e => exact .throw nofun

theorem inRange_taintTraceCond (hin : input.isStdin = false) :
    Keeps (DepsInRange n) InVector (taintTraceCond z mem host input context label r) := by
  refine .ite (fun _ => .pure none) fun _ => (inRange_visit context).bind fun fresh => ?_
  exact .ite (fun _ => .pure none) fun _ => inRange_solveCond hin z mem host label _ true

theorem inRange_taintTraceCmp (hin : input.isStdin = false) :
    Keeps (DepsInRange n) InVector
      (taintTraceCmp z mem host input context op1 op2 size predicate c1 c2) := by
  refine .ite (fun _ => .pure none) fun _ => (inRange_visit context).bind fun fresh => ?_
  refine .ite (fun _ => .pure none) fun _ => ?_
  obtain ⟨h0, hL⟩ := traceCmpKey_op op1 op2 size predicate c1 c2
  refine (inRange_unionLabel h0 hL).bind fun temp => (inRange_uncaught _).bind fun result => ?_
  exact inRange_solveCond hin z mem host temp result _

theorem Keeps.traced {x : SolveM (Option Z3Exception)} {s : RunState}
    (hx : Keeps (DepsInRange n) InVector x) (h : DepsInRange n s.solver) :
    Ends Fault.InVector (fun s' => DepsInRange n s'.solver) (s.traced (x s.solver)) := by
  obtain ⟨hok, herr⟩ := hx s.solver h
  cases hr : x s.solver with
  | ok a s' => exact hok a s' hr
  | error e s' =>
    obtain ⟨_, he⟩ := herr e s' hr
    cases e with
    | z3 e => exact nofun
    | fault f => exact fun hf => he (congrArg Exn.fault hf)

theorem DepsInRange.labelInRange (h : DepsInRange n s) : LabelInRange z mem label s := by
  intro p s' hs o ho
  rw [h.size]
  exact Finset.mem_range.1 (((inRange_serializeLabel s h).1 p s' hs).2 ho)

end

section
variable {n : Nat} {s : WrapperRun} {a : WrapperEvent}

theorem DepsInRange.program (hin : input.isStdin = false) (h : DepsInRange n s.solver)
    {a : RunEvent} (hp : (WrapperEvent.program a).FromProgram)
    (hr : (WrapperEvent.program a).InFile s) :
    Ends Fault.InVector (fun r : RunState => DepsInRange n r.solver)
      (s.toRunState.exec z host input a) := by
  cases a with
  | input x c =>
    apply (WrapperCall.exec_file hp c s.input).bind
    intro p hsame
    apply h.withTable
    rw [hsame]
    exact h.table
  | union k => exact (h.table.union hp.1 hp.2).bind fun p ht => h.withTable ht
  | load app addr m =>
    have hload : LoadInFile n s.solver.table (s.cells addr) m := h.size ▸ hr
    exact (h.table.taintUnionLoad hload).bind fun p ht => h.withTable ht
  | store l addr m => exact h.table.taintUnionStore.bind fun p ht => h.withTable ht
  | traceCond mem context label r => exact (inRange_taintTraceCond hin).traced h
  | traceCmp mem context op1 op2 size predicate c1 c2 =>
    exact (inRange_taintTraceCmp hin).traced h

/-- An event keeps all offsets below the size and throws no `std::out_of_range`. -/
theorem DepsInRange.exec (hin : input.isStdin = false) (h : DepsInRange n s.solver)
    (hp : a.FromProgram) (hr : a.InFile s) :
    Ends Fault.InVector (fun s' : WrapperRun => DepsInRange n s'.solver)
      (s.exec z host input a) := by
  cases a with
  | program a => exact (h.program hin hp hr).bind fun r hr => hr
  | gets f offset str strLabel ret =>
    have hline : ∀ bytes, ret = some bytes → taintGetFile f 0 ≠ 0 →
        0 ≤ offset ∧ offset + strlen bytes < n := by
      rintro bytes rfl
      rw [← h.size]
      exact hr
    exact (dfswGets_inVector (s := s.input) h.table hline).bind fun p ht => h.withTable ht
  | utmp f c =>
    exact (c.exec_inVector (u := s.utmp) hp h.table).bind fun u ht => h.withTable ht
  | addConstraints mem label =>
    exact ((inRange_addConstraints hin z mem label).traced h).bind fun r hr => hr

/-- An event on labels with records uses no other record. -/
theorem TableInv.program (h : TableInv s.solver.table S) {a : RunEvent}
    (hp : (WrapperEvent.program a).FromProgram) (hr : (WrapperEvent.program a).Recorded s) :
    Ends Fault.InTable (fun r : RunState => TableKept s.solver.table r.solver.table)
      (s.toRunState.exec z host input a) := by
  cases a with
  | input x c =>
    apply (WrapperCall.exec_file hp c s.input).bind
    intro p hsame
    change TableKept s.solver.table p.2.table
    rw [hsame]
    exact h.kept
  | union k => exact (h.union_inTable hr.1 fun _ => hr.2).bind fun p hp => hp.1
  | load app addr m => exact (taintUnionLoad_inTable h hr.1 hr.2).bind fun p hp => hp.1
  | store l addr m => exact (taintUnionStore_kept h hr).bind fun p hp => hp
  | traceCond mem context label r =>
    exact (taintTraceCond_inTable h hr.1 hr.2).traced.mono fun _ hk => hk.1
  | traceCmp mem context op1 op2 size predicate c1 c2 =>
    exact (taintTraceCmp_inTable h hr.1.1 hr.1.2 hr.2).traced.mono fun _ hk => hk.1

theorem TableInv.exec (h : TableInv s.solver.table S) (hp : a.FromProgram) (hr : a.Recorded s) :
    Ends Fault.InTable (fun s' : WrapperRun => TableKept s.solver.table s'.solver.table)
      (s.exec z host input a) := by
  cases a with
  | program a => exact (h.program hp hr).bind fun r hk => hk
  | gets f offset str strLabel ret =>
    exact (dfswGets_inTable (s := s.input) h).bind fun p hk => hk
  | utmp f c => exact (c.exec_inTable (u := s.utmp) hp h).bind fun u hk => hk
  | addConstraints mem label =>
    exact (addConstraints_inTable h hr).traced.bind fun r hk => hk.1

/-- The table is in order and all offsets are below the size of the vector. -/
structure WrapperInv (n : Nat) (s : WrapperRun) : Prop where
  table : ∃ S, TableInv s.solver.table S
  deps : DepsInRange n s.solver

/-- How an event may fail: neither with an index past the end of the vector nor with the use of a
record that is not allocated. -/
def Fault.InBounds (f : Fault) : Prop := f.InVector ∧ f.InTable

theorem WrapperInv.exec (hin : input.isStdin = false) (h : WrapperInv n s)
    (hp : a.FromProgram) (hr : a.InFile s ∧ a.Recorded s) :
    Ends Fault.InBounds (WrapperInv n) (s.exec z host input a) := by
  obtain ⟨S, hS⟩ := h.table
  apply ((h.deps.exec hin hp hr.1).and (hS.exec hp hr.2)).mono
  rintro s' ⟨hdeps, hk⟩
  exact ⟨hk.inv, hdeps⟩

theorem DepsInRange.depsBelow (h : DepsInRange n s.solver) : a.DepsBelow z s := by
  cases a with
  | program a =>
    cases a with
    | traceCond mem context label r => exact h.labelInRange
    | traceCmp mem context op1 op2 size predicate c1 c2 =>
      intro temp s' hu
      obtain ⟨h0, hL⟩ := traceCmpKey_op op1 op2 size predicate c1 c2
      have h' : DepsInRange n s' := (inRange_unionLabel h0 hL s.solver h).1 temp s' hu
      exact h'.labelInRange
    | _ => trivial
  | addConstraints mem label => exact h.labelInRange
  | _ => trivial

end

theorem preallocate_offsets {s : TableHistory} (hsize : size ≤ n)
    (h : Steps (TableStep z) .initial (preallocate size) s) : OffsetsBelow n s.table := by
  induction size generalizing s with
  | zero =>
    cases h
    refine ⟨Nat.zero_le _, ?_, ?_⟩
    · intro l hl hlast
      change l ≤ 0 at hlast
      unfold constOffset at hl
      omega
    · intro l deps hd
      by_cases hl : l = constLabel
      · subst hl
        cases hd
      · simp only [TableHistory.initial, LabelTable.initial, Function.update_of_ne hl] at hd
        cases hd
  | succ size ih =>
    rw [preallocate_succ] at h
    obtain ⟨s', hrun, hlast⟩ := h.of_append
    have hbelow := ih (Nat.le_of_succ_le hsize) hrun
    cases hlast with
    | cons hstep hnil =>
      cases hnil
      cases hstep with
      | create hc =>
        have h0 : 0 ≤ Int.ofNat size := Int.natCast_nonneg size
        have hcreate := hbelow.create h0 (Int.ofNat_lt.2 hsize)
        rw [hc] at hcreate
        exact hcreate

/-- In a run with a tainted file whose events stay in the file as it was at the start and work on
labels with records, the vector of dependencies is only used with indices below its size. -/
theorem branch_deps_in_range {s : TableHistory} (hin : input.isStdin = false)
    (hstart : Steps (TableStep z) .initial (preallocate input.buf.length) s)
    (hprogram : EachRun (WrapperRun.exec z host input) (fun _ a => a.FromProgram)
      (.start input s.table) as)
    (hfile : EachRun (WrapperRun.exec z host input) (fun s a => a.InFile s ∧ a.Recorded s)
      (.start input s.table) as) :
    EachRun (WrapperRun.exec z host input)
      (fun s a => a.DepsBelow z s ∧ s.exec z host input a ≠ .error .outOfRange ∧
        ∀ l, s.exec z host input a ≠ .error (.badIndex l))
      (.start input s.table) as := by
  have hinit : WrapperInv input.buf.length (.start input s.table) :=
    ⟨⟨_, (hstart.table_inv TableHistory.initial_inv).1⟩,
      rfl, preallocate_offsets (Nat.le_refl _) hstart, fun _ _ => nofun⟩
  have hstep : ∀ (s : WrapperRun) (a : WrapperEvent), WrapperInv input.buf.length s →
      a.FromProgram ∧ a.InFile s ∧ a.Recorded s →
      Ends Fault.InBounds (WrapperInv input.buf.length) (s.exec z host input a) :=
    fun s a h hc => h.exec hin hc.1 hc.2
  apply EachRun.imp (I := WrapperInv input.buf.length) _ ?_ ?_ hinit (hprogram.and _ hfile)
  · intro s a h hc
    have hends := hstep s a h hc
    refine ⟨h.deps.depsBelow, ?_, ?_⟩
    · intro he
      rw [he] at hends
      exact hends.1 rfl
    · intro l he
      rw [he] at hends
      exact hends.2 l rfl
  · intro s a s' h hc hs
    have hends := hstep s a h hc
    rw [hs] at hends
    exact hends

def lineFile : TaintedInput := ⟨false, [65, 10, 66]⟩

/-- The first line of a file with two lines is read, its two bytes are loaded and compared. -/
def lineRun : List WrapperEvent := [
  .gets { fd := 0, size := 3 } 0 16 0 (some [65, 10]),
  .program (.load (fun _ => 0) 16 2),
  .program (.union { l1 := 7, op := equalOp, size := 16, op2 := 2625 }),
  .program (.traceCond (fun _ => 0) (0, 0) 8 1)]

theorem branch_deps_in_range_line :
    ∃ s, Steps (TableStep .idle) .initial (preallocate 3) s ∧
      EachRun (WrapperRun.exec .idle reliableHost lineFile)
        (fun s a => a.DepsBelow .idle s ∧
          s.exec .idle reliableHost lineFile a ≠ .error .outOfRange ∧
          ∀ l, s.exec .idle reliableHost lineFile a ≠ .error (.badIndex l))
        (.start lineFile s.table) lineRun := by
  have hstart : Steps (TableStep .idle) .initial (preallocate lineFile.buf.length) _ :=
    .cons (.create rfl) (.cons (.create rfl) (.cons (.create rfl) .nil))
  have hop : equalOp ≠ 0 ∧ equalOp ≠ Operators.Load.code := by decide
  refine ⟨_, hstart, branch_deps_in_range rfl hstart ?_ ?_⟩
  · exact ⟨trivial, fun _ _ => ⟨trivial, fun _ _ => ⟨hop, fun _ _ => ⟨trivial, fun _ _ =>
      trivial⟩⟩⟩⟩
  · refine ⟨⟨fun _ => by decide, trivial⟩, ?_⟩
    rintro s₁ ⟨⟩
    refine ⟨⟨fun _ => by decide, ⟨.inl (by decide), ?_⟩, .inr (.inl (by decide))⟩, ?_⟩
    · intro i hi
      rcases Nat.le_one_iff_eq_zero_or_eq_one.1 (Nat.le_of_lt_succ hi) with rfl | rfl
      · exact .inl (by decide)
      · exact .inl (by decide)
    rintro s₂ ⟨⟩
    refine ⟨⟨trivial, .inl (by decide), .inl (by decide)⟩, ?_⟩
    rintro s₃ ⟨⟩
    exact ⟨⟨trivial, .inl (by decide), fun h => absurd h (by decide)⟩, fun _ _ => trivial⟩

def isOutOfRange : Except Fault α → Bool
  | .ok _ => false
  | .error f => f = .outOfRange

theorem isOutOfRange_eq {x : Except Fault α} (h : isOutOfRange x = true) :
    x = .error .outOfRange := by
  cases x with
  | ok a => cases h
  | error f => rw [show f = _ from of_decide_eq_true h]

/-- The only byte of a redirected standard input is read as a line, and the NUL behind it is
compared with zero. -/
def nulRun : List WrapperEvent := [
  .gets { fd := 0, size := 1 } 0 16 0 (some [5]),
  .program (.union { l1 := 3, op := equalOp, size := 8 }),
  .program (.traceCond (fun _ => 0) (0, 0) 4 1)]

/-- The only byte of a file and the sum of one and that byte are stored side by side. The load of
both passes for one of two consecutive input bytes. -/
def sumRun : List WrapperEvent := [
  .program (.input mappedSite (.read 1)),
  .program (.union { l2 := 1, op := Operators.Add.code, size := 8, op1 := 1 }),
  .program (.store 2 17 1),
  .program (.load (fun _ => 0) 16 2),
  .program (.union { l1 := 3, op := equalOp, size := 16 }),
  .program (.traceCond (fun _ => 0) (0, 0) 4 1)]

theorem nul_out_of_range :
    ∃ s, Steps (TableStep .idle) .initial (preallocate 1) s ∧
      nulRun.foldlM (WrapperRun.exec .idle reliableHost oneByteFile) (.start oneByteFile s.table) =
        .error .outOfRange ∧
      sumRun.foldlM (WrapperRun.exec .idle reliableHost oneByteFile) (.start oneByteFile s.table) =
        .error .outOfRange := by
  refine ⟨_, .cons (.create rfl) .nil, ?_, ?_⟩
  · exact isOutOfRange_eq (by decide +kernel)
  · exact isOutOfRange_eq (by decide +kernel)

end Kirenenko
