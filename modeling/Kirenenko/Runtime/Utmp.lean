import Kirenenko.Runtime.IndexSafety
import Kirenenko.Runtime.InputLabels
import Kirenenko.Runtime.StatRuns

namespace Kirenenko
set_option autoImplicit true

/-- The labels, and the fields of `struct taint_file` for the interface to `utmp`. -/
structure UtmpState where
  input : InputState
  isUtmp : Bool := false
  offset : Int := 0

/-- `is_taint_file` with its side effect. -/
def UtmpState.isTaintFile (libc : Libc) (path stale : String) (f : TaintFile) (s : UtmpState) :
    Bool × UtmpState :=
  let tainted := Kirenenko.isTaintFile libc path stale f
  (tainted, { s with isUtmp := tainted })

def setUtmpOffset (offset : Int) (s : UtmpState) : UtmpState := { s with offset := offset }

def dfswUtmpxname (libc : Libc) (path stale : String) (f : TaintFile) (s : UtmpState) :
    UtmpState :=
  let (tainted, s) := s.isTaintFile libc path stale f
  if tainted then setUtmpOffset 0 s else s

def dfswSetutxent (s : UtmpState) : UtmpState := if s.isUtmp then setUtmpOffset 0 s else s

/-- `sizeof(struct utmpx)` under the x86_64 ABI. -/
def sizeofUtmpx : Nat := 384

/-- The result is a record in memory, or null. -/
def dfswGetutxent (f : TaintFile) (ret : Option Int) (s : UtmpState) : Except Fault UtmpState :=
  match ret with
  | some record =>
    if s.isUtmp then do
      let input ← labelBytes f s.offset record 0 sizeofUtmpx s.input
      return setUtmpOffset (s.offset + sizeofUtmpx) { s with input := input }
    else return s
  | none => return s

/-- What `is_taint_file` says in a call of the `stat` family that asks it. -/
def StatCall.answer : StatCall → Option Bool
  | .stat x path | .xstat x path | .lstat x path | .lxstat x path =>
    some (isTaintFile x.libc path x.stale x.file)
  | .fstat _ _ | .fxstat _ _ => none

/-- A call of the `stat` family asks about its path only after a success. -/
def UtmpState.stat (c : StatCall) (ret : Int) (s : UtmpState) : Except Fault UtmpState := do
  let (_, input) ← c.exec ret s.input
  return { s with input := input,
                  isUtmp := if ret = 0 then c.answer.getD s.isUtmp else s.isUtmp }

inductive UtmpCall where
  | utmpxname (libc : Libc) (path stale : String)
  | setutxent
  | getutxent (ret : Option Int)
  | stat (c : StatCall) (ret : Int)

def UtmpCall.exec (f : TaintFile) (s : UtmpState) : UtmpCall → Except Fault UtmpState
  | .utmpxname libc path stale => .ok (dfswUtmpxname libc path stale f s)
  | .setutxent => .ok (dfswSetutxent s)
  | .getutxent ret => dfswGetutxent f ret s
  | .stat c ret => s.stat c ret

/-- The reader of the records as a program sees it: whether the file it reads is the tainted one,
and how many records it has read. -/
structure UtmpReader where
  tainted : Bool := false
  count : Nat := 0

def UtmpReader.next (f : TaintFile) (r : UtmpReader) : UtmpCall → UtmpReader
  | .utmpxname libc path _ => ⟨libc.realpath path == some f.filename, 0⟩
  | .setutxent => { r with count := 0 }
  | .getutxent ret => { r with count := r.count + ret.toList.length }
  | .stat _ _ => r

/-- A call, and what it means to the reader. -/
def UtmpCall.step (f : TaintFile) (x : UtmpState × UtmpReader) (c : UtmpCall) :
    Except Fault (UtmpState × UtmpReader) :=
  (·, x.2.next f c) <$> c.exec f x.1

/-- A record of the tainted file gets the labels of its place in the file, another one gets
none. -/
def UtmpCall.LabelsRecord (f : TaintFile) (x : UtmpState × UtmpReader) : UtmpCall → Prop
  | .getutxent (some record) => ∀ s', dfswGetutxent f (some record) x.1 = .ok s' →
    if x.2.tainted then ∀ i < sizeofUtmpx,
      RawInput s'.input.table (s'.input.shadow (record + i)) (x.2.count * sizeofUtmpx + i)
    else s'.input = x.1.input
  | _ => True

/-- The offsets that have labels: in file mode those of the file at the start, with standard input
all that an `off_t` can hold. -/
def inputLimit (f : TaintFile) : Nat := if f.isStdin then 2 ^ 63 else f.size

/-- A name that `realpath` cannot resolve is not taken for the tainted file because of what its
buffer held, a call of the `stat` family that asks gets the answer that holds for the reader, and
the records lie in the file as it was at the start. -/
def UtmpCall.Steady (f : TaintFile) (x : UtmpState × UtmpReader) : UtmpCall → Prop
  | .utmpxname libc path stale => libc.realpath path = none → f.filename ≠ stale
  | .stat c ret => ret = 0 → ∀ b, c.answer = some b → b = x.2.tainted
  | .getutxent (some _) =>
    x.2.tainted = true → x.2.count * sizeofUtmpx + sizeofUtmpx ≤ inputLimit f
  | _ => True

/-- The labels created at the start. -/
def Preallocated (f : TaintFile) (t : LabelTable) : Prop :=
  f.isStdin = false → ∀ o < f.size, RawInput t (o + 1) o

section
variable {f : TaintFile} {t t' : LabelTable}

theorem RawInput.extends (h : RawInput t l o) (hg : Extends t t') : RawInput t' l o :=
  ⟨h.1, Nat.le_trans h.2.1 hg.lastLabel, (hg.key l h.2.1).trans h.2.2⟩

theorem Preallocated.extends (h : Preallocated f t) (hg : Extends t t') : Preallocated f t' :=
  fun hf o ho => (h hf o ho).extends hg

theorem getLabelFor_raw (hinv : TableInv t S) (hpre : Preallocated f t) {o : Nat}
    (ho : o < inputLimit f) (h : getLabelFor f o t = .ok (l, t')) :
    TableKept t t' ∧ RawInput t' l o := by
  unfold getLabelFor at h
  unfold inputLimit at ho
  by_cases hf : f.isStdin = true
  · rw [if_pos hf] at h ho
    rcases hinv.dfsanCreateLabel o with ⟨_, hr⟩ | ⟨hroom, info, hinfo, hr⟩
    · rw [hr] at h
      cases h
    · rw [hr] at h
      cases h
      have hmod : ((o : Int) % 2 ^ 64).toNat = o := by omega
      refine ⟨⟨⟨_, hinv.create hroom hinfo.key⟩, extended_extends t info⟩, ?_, Nat.le_refl _, ?_⟩
      · exact Nat.le_add_left 1 _
      · rw [extended_key_new, hinfo.key, hmod]
  · rw [if_neg hf] at h ho
    have hraw := hpre (Bool.eq_false_of_not_eq_true hf) o ho
    have hl : (((o : Int) + constOffset) % 2 ^ 32).toNat = o + 1 := by
      have hle := Nat.lt_of_le_of_lt hraw.2.1 hinv.ordered.bound
      unfold kInitializingLabel at hle
      unfold constOffset
      omega
    rw [hl] at h
    cases h
    exact ⟨hinv.kept, hraw⟩

theorem labelBytes_raw {s s' : InputState} {offset : Nat} (hinv : TableInv s.table S)
    (hpre : Preallocated f s.table) (hle : offset + i + n ≤ inputLimit f)
    (h : labelBytes f offset buf i n s = .ok s') :
    TableKept s.table s'.table ∧
      (∀ j < n, RawInput s'.table (s'.shadow (buf + (i + j : Nat))) (offset + i + j)) ∧
      ∀ a < buf + i, s'.shadow a = s.shadow a := by
  induction n generalizing i s S with
  | zero =>
    cases h
    exact ⟨hinv.kept, fun j hj => absurd hj (Nat.not_lt_zero j), fun _ _ => rfl⟩
  | succ n ih =>
    rw [labelBytes] at h
    obtain ⟨⟨l, t⟩, hl, h⟩ := except_bind_ok.1 h
    obtain ⟨hkept, hraw⟩ := getLabelFor_raw hinv hpre (o := offset + i) (by omega) hl
    obtain ⟨S', hinv'⟩ := hkept.inv
    obtain ⟨hkept', hrest, hbefore⟩ := ih (S := S') hinv' (hpre.extends hkept.grows) (by omega) h
    refine ⟨hkept.trans hkept', ?_, ?_⟩
    · intro j hj
      cases j with
      | zero =>
        rw [Nat.add_zero, Nat.add_zero, hbefore _ (by omega), setLabel_self]
        exact hraw.extends hkept'.grows
      | succ j =>
        have hcell := hrest j (by omega)
        have hi : i + (j + 1) = i + 1 + j := by omega
        have ho : offset + i + (j + 1) = offset + (i + 1) + j := by omega
        rw [hi, ho]
        exact hcell
    · intro a ha
      rw [hbefore a (by omega), setLabel_of_ne _ _ (by omega)]

/-- The runtime follows the reader: it has its flag and its place in the file. -/
structure UtmpInv (f : TaintFile) (x : UtmpState × UtmpReader) : Prop where
  table : ∃ S, TableInv x.1.input.table S
  preallocated : Preallocated f x.1.input.table
  flag : x.1.isUtmp = x.2.tainted
  offset : x.2.tainted = true → x.1.offset = (x.2.count * sizeofUtmpx : Nat)

variable {x x' : UtmpState × UtmpReader} {c : UtmpCall}

theorem UtmpInv.getutxent (h : UtmpInv f x) (ht : x.2.tainted = true)
    (hle : x.2.count * sizeofUtmpx + sizeofUtmpx ≤ inputLimit f)
    (hg : dfswGetutxent f (some record) x.1 = .ok s') :
    TableKept x.1.input.table s'.input.table ∧ s'.isUtmp = x.1.isUtmp ∧
      s'.offset = ((x.2.count + 1) * sizeofUtmpx : Nat) ∧
      ∀ i < sizeofUtmpx,
        RawInput s'.input.table (s'.input.shadow (record + i)) (x.2.count * sizeofUtmpx + i) := by
  obtain ⟨S, hinv⟩ := h.table
  have hoff := h.offset ht
  have hflag := h.flag
  rw [ht] at hflag
  rw [dfswGetutxent] at hg
  simp only [hflag, if_true, hoff] at hg
  obtain ⟨input, hlabel, hg⟩ := except_bind_ok.1 hg
  cases hg
  obtain ⟨hkept, hraw, _⟩ := labelBytes_raw hinv h.preallocated (by omega) hlabel
  refine ⟨hkept, hflag.symm, ?_, ?_⟩
  · change ((x.2.count * sizeofUtmpx : Nat) : Int) + sizeofUtmpx = _
    rw [Nat.succ_mul]
    rfl
  · intro i hi
    have hcell := hraw i hi
    rw [Nat.zero_add, Nat.add_zero] at hcell
    exact hcell

theorem getutxent_untainted (h : s.isUtmp = false) (ret : Option Int) :
    dfswGetutxent f ret s = .ok s := by
  cases ret with
  | none => rfl
  | some record =>
    rw [dfswGetutxent]
    simp only [h, Bool.false_eq_true, if_false]
    rfl

theorem UtmpInv.labelsRecord (h : UtmpInv f x) (hc : c.Steady f x) : c.LabelsRecord f x := by
  cases c with
  | utmpxname libc path stale => exact trivial
  | setutxent => exact trivial
  | stat c ret => exact trivial
  | getutxent ret =>
    cases ret with
    | none => exact trivial
    | some record =>
      intro s' hs
      cases ht : x.2.tainted with
      | true => exact (h.getutxent ht (hc ht) hs).2.2.2
      | false =>
        rw [getutxent_untainted (h.flag.trans ht)] at hs
        cases hs
        rfl

theorem dfswUtmpxname_eq (libc : Libc) (path stale : String) (s : UtmpState) :
    dfswUtmpxname libc path stale f s = { s with
      isUtmp := isTaintFile libc path stale f
      offset := if isTaintFile libc path stale f then 0 else s.offset } := by
  unfold dfswUtmpxname UtmpState.isTaintFile
  cases isTaintFile libc path stale f <;> rfl

theorem isTaintFile_eq (h : libc.realpath path = none → f.filename ≠ stale) :
    isTaintFile libc path stale f = (libc.realpath path == some f.filename) := by
  unfold isTaintFile realpathBuffer
  cases hp : libc.realpath path with
  | none => exact beq_false_of_ne (h hp)
  | some name => exact BEq.comm

theorem dfswSetutxent_eq (s : UtmpState) :
    dfswSetutxent s = { s with offset := if s.isUtmp then 0 else s.offset } := by
  cases s with
  | mk input isUtmp offset => cases isUtmp <;> rfl

theorem UtmpInv.stat (h : UtmpInv f x) {c : StatCall}
    (hc : ret = 0 → ∀ b, c.answer = some b → b = x.2.tainted)
    (hs : x.1.stat c ret = .ok s') : UtmpInv f (s', x.2) := by
  obtain ⟨S, hinv⟩ := h.table
  obtain ⟨⟨l, input⟩, hexec, hs⟩ := except_bind_ok.1 hs
  cases hs
  have hkept := c.exec_kept hinv hexec
  refine ⟨hkept.inv, h.preallocated.extends hkept.grows, ?_, h.offset⟩
  change (if ret = 0 then c.answer.getD x.1.isUtmp else x.1.isUtmp) = x.2.tainted
  by_cases hret : ret = 0
  · rw [if_pos hret]
    cases ha : c.answer with
    | none => exact h.flag
    | some b => exact hc hret b ha
  · rw [if_neg hret]
    exact h.flag

theorem UtmpInv.step (h : UtmpInv f x) (hc : c.Steady f x) (hs : c.step f x = .ok x') :
    UtmpInv f x' := by
  obtain ⟨s', hexec, rfl⟩ := except_map_ok.1 hs
  cases c with
  | utmpxname libc path stale =>
    cases hexec
    rw [dfswUtmpxname_eq, isTaintFile_eq hc]
    refine ⟨h.table, h.preallocated, rfl, ?_⟩
    intro ht
    change (libc.realpath path == some f.filename) = true at ht
    change (if libc.realpath path == some f.filename then 0 else x.1.offset) =
      ((0 * sizeofUtmpx : Nat) : Int)
    rw [if_pos ht, Nat.zero_mul]
    rfl
  | setutxent =>
    cases hexec
    rw [dfswSetutxent_eq]
    refine ⟨h.table, h.preallocated, h.flag, ?_⟩
    intro ht
    change (if x.1.isUtmp then 0 else x.1.offset) = ((0 * sizeofUtmpx : Nat) : Int)
    rw [if_pos (h.flag.trans ht), Nat.zero_mul]
    rfl
  | stat c ret => exact h.stat hc hexec
  | getutxent ret =>
    cases ret with
    | none =>
      cases hexec
      exact h
    | some record =>
      cases ht : x.2.tainted with
      | true =>
        obtain ⟨hkept, hflag, hoff, _⟩ := h.getutxent ht (hc ht) hexec
        exact ⟨hkept.inv, h.preallocated.extends hkept.grows, hflag.trans h.flag, fun _ => hoff⟩
      | false =>
        have hexec' : dfswGetutxent f (some record) x.1 = .ok s' := hexec
        rw [getutxent_untainted (h.flag.trans ht)] at hexec'
        cases hexec'
        refine ⟨h.table, h.preallocated, h.flag, ?_⟩
        intro ht'
        cases ht.symm.trans ht'

/-- Before the first call: no name was given, and the default is not the tainted file. -/
def utmpStart (s : InputState) : UtmpState × UtmpReader := (⟨s, false, 0⟩, ⟨false, 0⟩)

/-- The records have the labels of their places in the file in every run in which the calls of the
`stat` family, which share the flag, ask about a path that is tainted if and only if the one that
is read is. -/
theorem utmp_records_labelled {h : TableHistory} {s : InputState}
    (hr : Steps (TableStep z) .initial as h) (hs : s.table = h.table)
    (hpre : Preallocated f h.table)
    (hc : EachRun (UtmpCall.step f) (fun x c => c.Steady f x) (utmpStart s) cs) :
    EachRun (UtmpCall.step f) (fun x c => c.LabelsRecord f x) (utmpStart s) cs := by
  have hinv : UtmpInv f (utmpStart s) := by
    rw [← hs] at hpre
    refine ⟨⟨h.Stored, ?_⟩, hpre, rfl, nofun⟩
    change TableInv s.table h.Stored
    rw [hs]
    exact (hr.table_inv TableHistory.initial_inv).1
  exact hc.imp _ (fun _ _ hi hc => hi.labelsRecord hc) (fun _ _ _ hi hc => hi.step hc) hinv

end

/-- A file of one record. -/
def utmpFile : TaintFile := { filename := "/input", fd := 3, size := sizeofUtmpx }

theorem utmpFile_run : ∃ h, Steps (TableStep .idle) .initial (preallocate sizeofUtmpx) h ∧
    Preallocated utmpFile h.table := by
  obtain ⟨h, hr⟩ := preallocate_exists .idle (by decide : sizeofUtmpx ≤ maxLabel)
  exact ⟨h, hr, fun _ o ho => (preallocate_fileMode hr).1.rawInput ho⟩

def utmpStat (path : String) : UtmpCall :=
  .stat (.stat ⟨statLibc, "", statFiles, utmpFile, 4096⟩ path) 0

/-- A `stat` of another file, and a record of the tainted one gets no labels. -/
theorem stat_disturbs_utmp :
    ∃ h x₁ x₂, Steps (TableStep .idle) .initial (preallocate sizeofUtmpx) h ∧
      Preallocated utmpFile h.table ∧
      UtmpCall.step utmpFile (utmpStart ⟨h.table, fun _ => 0⟩) (.utmpxname statLibc "/input" "") =
        .ok x₁ ∧
      UtmpCall.step utmpFile x₁ (utmpStat "/other") = .ok x₂ ∧ x₂.2.tainted = true ∧
      ¬UtmpCall.LabelsRecord utmpFile x₂ (.getutxent (some 8192)) := by
  obtain ⟨h, hr, hpre⟩ := utmpFile_run
  refine ⟨h, _, _, hr, hpre, rfl, rfl, rfl, ?_⟩
  intro hlabels
  exact rawInput_zero (hlabels _ rfl 0 (by decide))

/-- A `stat` of the tainted file does no harm; after `setutxent` the record is read again. -/
theorem utmp_records_labelled_again :
    ∃ h, Steps (TableStep .idle) .initial (preallocate sizeofUtmpx) h ∧
      EachRun (UtmpCall.step utmpFile) (fun x c => c.LabelsRecord utmpFile x)
        (utmpStart ⟨h.table, fun _ => 0⟩)
        [.utmpxname statLibc "/input" "", utmpStat "/input", .getutxent (some 8192), .setutxent,
          .getutxent (some 8192)] := by
  obtain ⟨h, hr, hpre⟩ := utmpFile_run
  have hfits : 0 * sizeofUtmpx + sizeofUtmpx ≤ inputLimit utmpFile := by decide
  refine ⟨h, hr, utmp_records_labelled hr rfl hpre ?_⟩
  refine ⟨nofun, fun x₁ hx₁ => ?_⟩
  obtain ⟨s₁, _, rfl⟩ := except_map_ok.1 hx₁
  refine ⟨fun _ b hb => (Option.some_inj.1 hb).symm, fun x₂ hx₂ => ?_⟩
  obtain ⟨s₂, _, rfl⟩ := except_map_ok.1 hx₂
  refine ⟨fun _ => hfits, fun x₃ hx₃ => ?_⟩
  obtain ⟨s₃, _, rfl⟩ := except_map_ok.1 hx₃
  refine ⟨trivial, fun x₄ hx₄ => ?_⟩
  obtain ⟨s₄, _, rfl⟩ := except_map_ok.1 hx₄
  exact ⟨fun _ => hfits, fun _ _ => trivial⟩

end Kirenenko
