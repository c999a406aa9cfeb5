import Mathlib.Logic.Function.Basic
import Kirenenko.Lib.Run
import Kirenenko.Runtime.LabelTable

namespace Kirenenko
set_option autoImplicit true

/-- The fields of `struct taint_file` that name the tainted input. -/
structure TaintFile where
  filename : String := ""
  fd : Int := 0
  size : Nat := 0
  isStdin : Bool := false

/-- What the C library says about names. -/
structure Libc where
  realpath : String → Option String
  statSize : String → Nat
  fstatStdin : Option Nat
  mapped : Bool

/-- The local buffer `path` after `realpath(filename, path)`, whose result the runtime does not
look at: after a failure it holds whatever text was there. -/
def realpathBuffer (libc : Libc) (filename stale : String) : String :=
  (libc.realpath filename).getD stale

/-- `InitializeTaintFile`, up to the labels it creates. -/
def initializeTaintFile (libc : Libc) (filename : String) : Except Fault TaintFile :=
  if filename = "stdin" then
    match libc.fstatStdin with
    | some size => if libc.mapped then .ok { fd := 0, size := size } else .error .die
    | none => .ok { fd := 0, size := 1, isStdin := true }
  else if filename = "" then .ok { fd := -1 }
  else
    match libc.realpath filename with
    | none => .ok {}
    | some path =>
      if libc.mapped then .ok { filename := path, size := libc.statSize filename }
      else .error .die

def taintSetFile (libc : Libc) (filename stale : String) (fd : Int) (f : TaintFile) : TaintFile :=
  if f.filename = realpathBuffer libc filename stale then { f with fd := fd } else f

def taintGetFile (f : TaintFile) (fd : Int) : Nat := if f.fd = fd then f.size else 0

def taintCloseFile (fd : Int) (f : TaintFile) : TaintFile :=
  if fd = f.fd then { f with fd := -1 } else f

/-- The result is a descriptor, or nothing for a failure, which is reported as -1. -/
def dfswOpen (libc : Libc) (path stale : String) (result : Option Int) (f : TaintFile) :
    TaintFile :=
  if result.getD (-1) ≠ 0 then taintSetFile libc path stale (result.getD (-1)) f else f

/-- The wrappers that set the file from a stream, which is null after a failure. -/
def setFromStream (libc : Libc) (filename stale : String) (ret : Option Int) (f : TaintFile) :
    TaintFile :=
  match ret with
  | some fd => taintSetFile libc filename stale fd f
  | none => f

def dfswFopen (libc : Libc) (filename stale : String) (ret : Option Int) (f : TaintFile) :
    TaintFile :=
  setFromStream libc filename stale ret f

def dfswFopen64 (libc : Libc) (filename stale : String) (ret : Option Int) (f : TaintFile) :
    TaintFile :=
  setFromStream libc filename stale ret f

def dfswFreopen (libc : Libc) (filename stale : String) (ret : Option Int) (f : TaintFile) :
    TaintFile :=
  setFromStream libc filename stale ret f

def dfswClose (fd : Int) (f : TaintFile) : TaintFile := taintCloseFile fd f

def dfswFclose (fd : Int) (ok : Bool) (f : TaintFile) : TaintFile :=
  if ok then taintCloseFile fd f else f

/-- The calls with their outcomes. A stream is given by its descriptor, and `stale` is the text in
the buffer of `realpath` before it is called. A call of `close` or `fclose` that fails may have
closed the descriptor or not. -/
inductive FileCall where
  | openPath (path stale : String) (result : Option Int)
  | fopen (filename stale : String) (ret : Option Int)
  | fopen64 (filename stale : String) (ret : Option Int)
  | freopen (filename stale : String) (stream : Int) (ret : Option Int)
  | close (fd : Int) (closed : Bool)
  | fclose (stream : Int) (ok closed : Bool)

/-- The runtime's record of the tainted file, and the file each open descriptor refers to. -/
structure FdState where
  tainted : TaintFile
  files : Int → Option String

def opened (files : Int → Option String) (result : Option Int) (file : Option String) :
    Int → Option String :=
  match result with
  | some fd => Function.update files fd file
  | none => files

def closedIf (files : Int → Option String) (fd : Int) (closed : Bool) : Int → Option String :=
  if closed then Function.update files fd none else files

/-- What a call does to the runtime's record and to the descriptors. -/
def FdState.call (libc : Libc) (s : FdState) : FileCall → FdState
  | .openPath path stale result =>
    ⟨dfswOpen libc path stale result s.tainted, opened s.files result (libc.realpath path)⟩
  | .fopen filename stale ret =>
    ⟨dfswFopen libc filename stale ret s.tainted, opened s.files ret (libc.realpath filename)⟩
  | .fopen64 filename stale ret =>
    ⟨dfswFopen64 libc filename stale ret s.tainted, opened s.files ret (libc.realpath filename)⟩
  | .freopen filename stale stream ret =>
    ⟨dfswFreopen libc filename stale ret s.tainted,
      opened (closedIf s.files stream true) ret (libc.realpath filename)⟩
  | .close fd closed => ⟨dfswClose fd s.tainted, closedIf s.files fd closed⟩
  | .fclose stream ok closed =>
    ⟨dfswFclose stream ok s.tainted, closedIf s.files stream (ok || closed)⟩

/-- A descriptor that a successful call returns is not in use. -/
def Unused (files : Int → Option String) (result : Option Int) : Prop :=
  ∀ fd, result = some fd → 0 ≤ fd ∧ files fd = none

def Possible (s : FdState) : FileCall → Prop
  | .openPath _ _ result => Unused s.files result
  | .fopen _ _ ret => Unused s.files ret
  | .fopen64 _ _ ret => Unused s.files ret
  | .freopen _ _ stream ret => Unused (closedIf s.files stream true) ret
  | _ => True

/-- An open descriptor of a file. -/
def RefersTo (files : Int → Option String) (filename : String) (fd : Int) : Prop :=
  0 ≤ fd ∧ files fd = some filename

def FdState.Refers (s : FdState) (fd : Int) : Prop := RefersTo s.files s.tainted.filename fd

/-- Exactly the open descriptors of the tainted file are taken for it. -/
def Tracks (s : FdState) : Prop :=
  ∀ fd, taintGetFile s.tainted fd ≠ 0 ↔ s.Refers fd

/-- When a call keeps the record right. There is one descriptor of the tainted file before the
call and there must be one after it: the file is not opened once more, its descriptor is not
closed, and a `freopen` either puts the file on the stream that has it or leaves that stream
alone. No buffer that `realpath` left as it was may hold the file's name. -/
def Followed (libc : Libc) (s : FdState) : FileCall → Prop
  | .openPath path stale result =>
    if result = some 0 then libc.realpath path ≠ some s.tainted.filename
    else s.tainted.filename ≠ realpathBuffer libc path stale
  | .fopen filename stale ret | .fopen64 filename stale ret =>
    ret.isSome → s.tainted.filename ≠ realpathBuffer libc filename stale
  | .freopen filename stale stream ret =>
    if libc.realpath filename = some s.tainted.filename ∧ ret.isSome then s.Refers stream
    else ¬s.Refers stream ∧ (ret.isSome → s.tainted.filename ≠ realpathBuffer libc filename stale)
  | .close fd _ => ¬s.Refers fd
  | .fclose stream ok closed => (ok || closed) = true → ¬s.Refers stream

/-- A cell that stands for a set of descriptors with exactly one element. -/
def FdCell (cell : Int) (T : Int → Prop) : Prop := ∀ fd, cell = fd ↔ T fd

theorem FdCell.congr (h : ∀ fd, T fd ↔ T' fd) : FdCell cell T ↔ FdCell cell T' := by
  have : T = T' := funext fun fd => propext (h fd)
  rw [this]

theorem FdCell.mem (h : FdCell cell T) : T cell := (h cell).1 rfl

theorem FdCell.eq (h : FdCell cell T) (hT : T fd) : cell = fd := (h fd).2 hT

theorem fdCell_insert {T : Int → Prop} (hn : ¬T fd) :
    FdCell fd (fun x => x = fd ∨ T x) ↔ ∀ x, ¬T x := by
  constructor
  · intro h x hT
    have he : fd = x := h.eq (.inr hT)
    exact hn (he ▸ hT)
  · intro h x
    constructor
    · exact fun he => .inl he.symm
    · rintro (he | hT)
      · exact he.symm
      · exact (h x hT).elim

theorem FdCell.remove_iff (h : FdCell cell T) : FdCell cell (fun x => x ≠ a ∧ T x) ↔ ¬T a := by
  constructor
  · intro h' hT
    exact h'.mem.1 (h.eq hT)
  · intro hn
    apply (FdCell.congr fun x => ?_).2 h
    constructor
    · exact fun hx => hx.2
    · intro hx
      refine ⟨?_, hx⟩
      rintro rfl
      exact hn hx

theorem FdCell.none_without (h : FdCell cell T) : (∀ x, ¬(x ≠ a ∧ T x)) ↔ T a := by
  constructor
  · intro hn
    have he : cell = a := by
      by_contra hne
      exact hn cell ⟨hne, h.mem⟩
    exact he ▸ h.mem
  · rintro ha x ⟨hne, hx⟩
    exact hne ((h.eq hx).symm.trans (h.eq ha))

theorem tracks_iff (hsize : s.tainted.size ≠ 0) : Tracks s ↔ FdCell s.tainted.fd s.Refers := by
  have hget : ∀ fd, taintGetFile s.tainted fd ≠ 0 ↔ s.tainted.fd = fd := by
    intro fd
    unfold taintGetFile
    by_cases hfd : s.tainted.fd = fd
    · rw [if_pos hfd]
      exact iff_of_true hsize hfd
    · rw [if_neg hfd]
      exact iff_of_false (fun h => h rfl) hfd
  apply forall_congr'
  intro fd
  rw [hget fd]

section
variable {files : Int → Option String} {filename : String}

theorem opened_some (file : Option String) :
    opened files (some fd) file = Function.update files fd file := rfl

theorem refersTo_opened (h0 : 0 ≤ fd) :
    RefersTo (opened files (some fd) (some filename)) filename x ↔
      x = fd ∨ RefersTo files filename x := by
  rw [opened_some]
  unfold RefersTo
  by_cases hx : x = fd
  · subst hx
    rw [Function.update_self]
    exact iff_of_true ⟨h0, rfl⟩ (.inl rfl)
  · rw [Function.update_of_ne hx]
    exact (or_iff_right hx).symm

theorem refersTo_opened_other (hn : files fd = none) (hp : file ≠ some filename) :
    RefersTo (opened files (some fd) file) filename x ↔ RefersTo files filename x := by
  rw [opened_some]
  unfold RefersTo
  by_cases hx : x = fd
  · subst hx
    rw [Function.update_self, hn]
    exact and_congr_right fun _ => iff_of_false hp nofun
  · rw [Function.update_of_ne hx]

theorem refersTo_closed :
    RefersTo (closedIf files a true) filename x ↔ x ≠ a ∧ RefersTo files filename x := by
  unfold RefersTo closedIf
  rw [if_pos rfl]
  by_cases hx : x = a
  · subst hx
    rw [Function.update_self]
    exact iff_of_false nofun fun h => h.1 rfl
  · rw [Function.update_of_ne hx]
    exact (and_iff_right hx).symm

end

theorem taintSetFile_keeps (libc : Libc) (filename stale : String) (fd : Int) (f : TaintFile) :
    (taintSetFile libc filename stale fd f).filename = f.filename ∧
      (taintSetFile libc filename stale fd f).size = f.size := by
  unfold taintSetFile
  split <;> exact ⟨rfl, rfl⟩

theorem taintCloseFile_keeps (fd : Int) (f : TaintFile) :
    (taintCloseFile fd f).filename = f.filename ∧ (taintCloseFile fd f).size = f.size := by
  unfold taintCloseFile
  split <;> exact ⟨rfl, rfl⟩

theorem setFromStream_keeps (libc : Libc) (filename stale : String) (ret : Option Int)
    (f : TaintFile) :
    (setFromStream libc filename stale ret f).filename = f.filename ∧
      (setFromStream libc filename stale ret f).size = f.size := by
  cases ret with
  | some fd => exact taintSetFile_keeps libc filename stale fd f
  | none => exact ⟨rfl, rfl⟩

theorem call_keeps (libc : Libc) (s : FdState) (a : FileCall) :
    (s.call libc a).tainted.filename = s.tainted.filename ∧
      (s.call libc a).tainted.size = s.tainted.size := by
  cases a with
  | openPath path stale result =>
    change (dfswOpen libc path stale result s.tainted).filename = _ ∧
      (dfswOpen libc path stale result s.tainted).size = _
    unfold dfswOpen
    split
    · exact taintSetFile_keeps libc path stale _ _
    · exact ⟨rfl, rfl⟩
  | fopen filename stale ret | fopen64 filename stale ret | freopen filename stale stream ret =>
    exact setFromStream_keeps libc filename stale ret _
  | close fd closed => exact taintCloseFile_keeps fd _
  | fclose stream ok closed =>
    cases ok with
    | true => exact taintCloseFile_keeps stream _
    | false => exact ⟨rfl, rfl⟩

theorem taintSetFile_fd (libc : Libc) (filename stale : String) (fd : Int) (f : TaintFile) :
    (taintSetFile libc filename stale fd f).fd =
      if f.filename = realpathBuffer libc filename stale then fd else f.fd := by
  unfold taintSetFile
  split <;> rfl

theorem taintCloseFile_fd (fd : Int) (f : TaintFile) :
    (taintCloseFile fd f).fd = if fd = f.fd then -1 else f.fd := by
  unfold taintCloseFile
  split <;> rfl

theorem realpathBuffer_of_some (h : libc.realpath filename = some name) :
    name = realpathBuffer libc filename stale := by
  rw [realpathBuffer, h]
  rfl

theorem Unused.not_refersTo (h : Unused files (some fd)) : ¬RefersTo files filename fd := by
  rintro ⟨_, he⟩
  rw [(h fd rfl).2] at he
  cases he

/-- `taint_close_file` is right for a descriptor of another file only: it leaves -1, which no
descriptor is. -/
theorem fdCell_taintCloseFile {f : TaintFile} (h : FdCell f.fd (RefersTo files f.filename)) :
    FdCell (taintCloseFile fd f).fd (RefersTo (closedIf files fd closed) f.filename) ↔
      ¬RefersTo files f.filename fd := by
  rw [taintCloseFile_fd]
  by_cases hfd : fd = f.fd
  · rw [if_pos hfd]
    refine iff_of_false ?_ fun hn => hn (hfd ▸ h.mem)
    intro h'
    exact absurd h'.mem.1 (by decide)
  · rw [if_neg hfd]
    have hn : ¬RefersTo files f.filename fd := fun hr => hfd (h.eq hr).symm
    refine iff_of_true ?_ hn
    cases closed with
    | true => exact (FdCell.congr fun x => refersTo_closed).2 (h.remove_iff.2 hn)
    | false => exact h

theorem fdCell_taintSetFile {f : TaintFile} (hu : Unused files (some fd)) :
    FdCell (taintSetFile libc filename stale fd f).fd
        (RefersTo (opened files (some fd) (libc.realpath filename)) f.filename) ↔
      if libc.realpath filename = some f.filename then ∀ x, ¬RefersTo files f.filename x
      else FdCell f.fd (RefersTo files f.filename) ∧
        f.filename ≠ realpathBuffer libc filename stale := by
  rw [taintSetFile_fd]
  by_cases hp : libc.realpath filename = some f.filename
  · rw [if_pos hp, if_pos (realpathBuffer_of_some hp), hp,
      FdCell.congr fun x => refersTo_opened (hu fd rfl).1]
    exact fdCell_insert hu.not_refersTo
  · rw [if_neg hp, FdCell.congr fun x => refersTo_opened_other (hu fd rfl).2 hp]
    by_cases hb : f.filename = realpathBuffer libc filename stale
    · rw [if_pos hb]
      refine iff_of_false ?_ fun h => h.2 hb
      exact fun h => hu.not_refersTo h.mem
    · rw [if_neg hb]
      exact (and_iff_left hb).symm

/-- If the tainted file is open already, only a name that is not taken for it is harmless. -/
theorem fdCell_taintSetFile_of {f : TaintFile} (h : FdCell f.fd (RefersTo files f.filename))
    (hu : Unused files (some fd)) :
    FdCell (taintSetFile libc filename stale fd f).fd
        (RefersTo (opened files (some fd) (libc.realpath filename)) f.filename) ↔
      f.filename ≠ realpathBuffer libc filename stale := by
  apply (fdCell_taintSetFile hu).trans
  by_cases hp : libc.realpath filename = some f.filename
  · rw [if_pos hp]
    exact iff_of_false (fun hn => hn _ h.mem) fun hb => hb (realpathBuffer_of_some hp)
  · rw [if_neg hp]
    exact and_iff_right h

theorem fdCell_setFromStream {f : TaintFile} (h : FdCell f.fd (RefersTo files f.filename))
    (hu : Unused files ret) :
    FdCell (setFromStream libc filename stale ret f).fd
        (RefersTo (opened files ret (libc.realpath filename)) f.filename) ↔
      (ret.isSome → f.filename ≠ realpathBuffer libc filename stale) := by
  cases ret with
  | none => exact iff_of_true h nofun
  | some fd => exact (fdCell_taintSetFile_of h hu).trans ⟨fun hb _ => hb, fun hb => hb rfl⟩

theorem fdCell_dfswOpen {f : TaintFile} (h : FdCell f.fd (RefersTo files f.filename))
    (hu : Unused files result) :
    FdCell (dfswOpen libc path stale result f).fd
        (RefersTo (opened files result (libc.realpath path)) f.filename) ↔
      if result = some 0 then libc.realpath path ≠ some f.filename
      else f.filename ≠ realpathBuffer libc path stale := by
  cases result with
  | none =>
    -- the failure is reported as -1, which is not 0
    change FdCell (taintSetFile libc path stale (-1) f).fd (RefersTo files f.filename) ↔ _
    rw [taintSetFile_fd, if_neg (by nofun : (none : Option Int) ≠ some 0)]
    by_cases hb : f.filename = realpathBuffer libc path stale
    · rw [if_pos hb]
      refine iff_of_false ?_ fun hn => hn hb
      intro h'
      exact absurd h'.mem.1 (by decide)
    · rw [if_neg hb]
      exact iff_of_true h hb
  | some fd =>
    by_cases h0 : fd = 0
    · subst h0
      rw [if_pos rfl, show dfswOpen libc path stale (some 0) f = f from if_neg fun h => h rfl]
      by_cases hp : libc.realpath path = some f.filename
      · rw [hp, FdCell.congr fun x => refersTo_opened (Int.le_refl 0)]
        refine iff_of_false ?_ fun hn => hn rfl
        intro h'
        have he : f.fd = 0 := h'.eq (.inl rfl)
        exact hu.not_refersTo (he ▸ h.mem)
      · rw [FdCell.congr fun x => refersTo_opened_other (hu 0 rfl).2 hp]
        exact iff_of_true h hp
    · rw [if_neg fun he => h0 (Option.some.inj he),
        show dfswOpen libc path stale (some fd) f = taintSetFile libc path stale fd f from
          if_pos h0]
      exact fdCell_taintSetFile_of h hu

theorem fdCell_dfswFreopen {f : TaintFile} (h : FdCell f.fd (RefersTo files f.filename))
    (hu : Unused (closedIf files stream true) ret) :
    FdCell (dfswFreopen libc filename stale ret f).fd
        (RefersTo (opened (closedIf files stream true) ret (libc.realpath filename)) f.filename) ↔
      if libc.realpath filename = some f.filename ∧ ret.isSome then
        RefersTo files f.filename stream
      else ¬RefersTo files f.filename stream ∧
        (ret.isSome → f.filename ≠ realpathBuffer libc filename stale) := by
  have hremove : FdCell f.fd (RefersTo (closedIf files stream true) f.filename) ↔
      ¬RefersTo files f.filename stream :=
    (FdCell.congr fun x => refersTo_closed).trans h.remove_iff
  cases ret with
  | none =>
    rw [if_neg fun hp => nomatch hp.2]
    exact hremove.trans (and_iff_left nofun).symm
  | some fd =>
    refine (fdCell_taintSetFile hu).trans ?_
    by_cases hp : libc.realpath filename = some f.filename
    · rw [if_pos hp, if_pos ⟨hp, rfl⟩, ← h.none_without (a := stream)]
      exact forall_congr' fun x => not_congr refersTo_closed
    · rw [if_neg hp, if_neg fun h => hp h.1, hremove]
      exact and_congr_right fun _ => ⟨fun hb _ => hb, fun hb => hb rfl⟩

/-- A call keeps the record right exactly when it meets its condition. -/
theorem call_tracks_iff (hsize : s.tainted.size ≠ 0) (h : Tracks s) (hposs : Possible s a) :
    Tracks (s.call libc a) ↔ Followed libc s a := by
  obtain ⟨hname, hsz⟩ := call_keeps libc s a
  rw [tracks_iff (hsz.trans_ne hsize)]
  unfold FdState.Refers
  rw [hname]
  have h := (tracks_iff hsize).1 h
  cases a with
  | openPath path stale result => exact fdCell_dfswOpen h hposs
  | fopen filename stale ret | fopen64 filename stale ret => exact fdCell_setFromStream h hposs
  | freopen filename stale stream ret => exact fdCell_dfswFreopen h hposs
  | close fd closed => exact fdCell_taintCloseFile h
  | fclose stream ok closed =>
    cases ok with
    | true =>
      change FdCell (taintCloseFile stream s.tainted).fd
        (RefersTo (closedIf s.files stream true) s.tainted.filename) ↔ _
      exact (fdCell_taintCloseFile h).trans ⟨fun hn _ => hn, fun hn => hn rfl⟩
    | false =>
      cases closed with
      | true =>
        apply (FdCell.congr fun x => refersTo_closed).trans
        exact h.remove_iff.trans ⟨fun hn _ => hn, fun hn => hn rfl⟩
      | false => exact iff_of_true h nofun

theorem initializeTaintFile_file {libc : Libc} (hstdin : name ≠ "stdin") (hempty : name ≠ "")
    (hpath : libc.realpath name = some path) (h : initializeTaintFile libc name = .ok f) :
    f = { filename := path, size := libc.statSize name } := by
  rw [initializeTaintFile, if_neg hstdin, if_neg hempty, hpath] at h
  simp only at h
  split at h
  · cases h
    rfl
  · cases h

/-- The tainted file is tracked throughout a run exactly when descriptor 0 and no other refers to
it at the start and every call meets its condition. -/
theorem tainted_file_tracked (hstdin : name ≠ "stdin") (hempty : name ≠ "")
    (hpath : libc.realpath name = some path) (hsize : libc.statSize name ≠ 0)
    (hinit : initializeTaintFile libc name = .ok f)
    (hcalls : EachStep (FdState.call libc) Possible ⟨f, files⟩ calls) :
    Throughout (FdState.call libc) Tracks ⟨f, files⟩ calls ↔
      (∀ fd, RefersTo files path fd ↔ fd = 0) ∧
        EachStep (FdState.call libc) (Followed libc) ⟨f, files⟩ calls := by
  have hf := initializeTaintFile_file hstdin hempty hpath hinit
  subst hf
  have hstart : Tracks ⟨{ filename := path, size := libc.statSize name }, files⟩ ↔
      ∀ fd, RefersTo files path fd ↔ fd = 0 := by
    rw [tracks_iff hsize]
    apply forall_congr'
    intro fd
    change (0 = fd ↔ RefersTo files path fd) ↔ _
    exact iff_comm.trans (iff_congr Iff.rfl eq_comm)
  rw [← hstart]
  apply throughout_iff (I := fun s => s.tainted.size ≠ 0) (F := Possible) _ _ _ hsize hcalls
  · intro s a hs
    exact (call_keeps libc s a).2.trans_ne hs
  · intro s a hs ht hposs
    exact call_tracks_iff hs ht hposs

/-- Every name but one is its own canonical name. -/
def plainLibc : Libc :=
  ⟨fun name => if name = "loop" then none else some name, fun _ => 100, none, true⟩

def redirectedFiles : Int → Option String := opened (fun _ => none) (some 0) (some "in")

theorem refersTo_redirectedFiles (fd : Int) : RefersTo redirectedFiles "in" fd ↔ fd = 0 := by
  apply (refersTo_opened (Int.le_refl 0)).trans
  apply or_iff_left
  rintro ⟨_, h⟩
  cases h

/-- The tainted file is the standard input of the program, which opens another file and one that
is not found, reopens its input and closes the other file. -/
theorem tainted_file_tracked_stdin :
    Throughout (FdState.call plainLibc) Tracks ⟨{ filename := "in", size := 100 }, redirectedFiles⟩
      [.openPath "other" "" (some 3), .fopen "loop" "in" none, .freopen "in" "" 0 (some 0),
        .close 3 true] := by
  have hposs : EachStep (FdState.call plainLibc) Possible
      ⟨{ filename := "in", size := 100 }, redirectedFiles⟩
      [.openPath "other" "" (some 3), .fopen "loop" "in" none, .freopen "in" "" 0 (some 0),
        .close 3 true] := by
    refine ⟨?_, nofun, ?_, trivial, trivial⟩
    · rintro _ ⟨⟩
      exact ⟨by decide, rfl⟩
    · rintro _ ⟨⟩
      exact ⟨by decide, rfl⟩
  have hname : "in" ≠ "stdin" := by decide
  apply (tainted_file_tracked hname (by decide) rfl (by decide) rfl hposs).2
  refine ⟨refersTo_redirectedFiles, ?_, nofun, ?_, ?_, trivial⟩
  · exact (by decide : "in" ≠ realpathBuffer plainLibc "other" "")
  · exact ⟨by decide, rfl⟩
  · rintro ⟨_, h⟩
    exact absurd h (by decide)

def terminalFiles : Int → Option String := opened (fun _ => none) (some 0) (some "tty")

/-- Before any call the terminal is taken for the tainted file; after two calls of `open` the
first descriptor is not; and once the file is closed -1 is taken for it. -/
theorem tainted_file_untracked :
    ∃ f, initializeTaintFile plainLibc "in" = .ok f ∧
      EachStep (FdState.call plainLibc) Possible ⟨f, terminalFiles⟩
        [.openPath "in" "" (some 3), .openPath "in" "" (some 4), .close 4 true] ∧
      ¬Tracks ⟨f, terminalFiles⟩ ∧
      ¬Tracks ([.openPath "in" "" (some 3), .openPath "in" "" (some 4)].foldl
        (FdState.call plainLibc) ⟨f, terminalFiles⟩) ∧
      taintGetFile ([.openPath "in" "" (some 3), .openPath "in" "" (some 4), .close 4 true].foldl
        (FdState.call plainLibc) ⟨f, terminalFiles⟩).tainted (-1) ≠ 0 := by
  refine ⟨_, rfl, ⟨?_, ?_, trivial, trivial⟩, ?_, ?_, by decide⟩
  · rintro _ ⟨⟩
    exact ⟨by decide, rfl⟩
  · rintro _ ⟨⟩
    exact ⟨by decide, rfl⟩
  · intro h
    exact absurd ((h 0).1 (by decide)).2 (by decide)
  · intro h
    exact (h 3).2 ⟨by decide, rfl⟩ rfl

end Kirenenko
