import Kirenenko.Runtime.IndexSafety
import Kirenenko.Runtime.InputWrappers

namespace Kirenenko
set_option autoImplicit true

/-- What a call of the `stat` family sees besides its path or descriptor: the names, the text in
the buffer of `realpath` before it is called, the files that the open descriptors refer to, the
runtime's record of the tainted file and the buffer to fill. -/
structure StatSite where
  libc : Libc
  stale : String
  files : Int → Option String
  file : TaintFile
  buf : Int

inductive StatCall where
  | stat (x : StatSite) (path : String)
  | xstat (x : StatSite) (path : String)
  | lstat (x : StatSite) (path : String)
  | lxstat (x : StatSite) (path : String)
  | fstat (x : StatSite) (fd : Int)
  | fxstat (x : StatSite) (fd : Int)

def StatCall.site : StatCall → StatSite
  | .stat x _ | .xstat x _ | .lstat x _ | .lxstat x _ | .fstat x _ | .fxstat x _ => x

def StatCall.exec (ret : Int) (s : InputState) : StatCall → Except Fault (Nat × InputState)
  | .stat x path => dfswStat x.libc path x.stale x.file ret x.buf s
  | .xstat x path => dfswXstat x.libc path x.stale x.file ret x.buf s
  | .lstat x path => dfswLstat x.libc path x.stale x.file ret x.buf s
  | .lxstat x path => dfswLxstat x.libc path x.stale x.file ret x.buf s
  | .fstat x fd => dfswFstat x.file fd ret x.buf s
  | .fxstat x fd => dfswFxstat x.file fd ret x.buf s

/-- The state after a successful call. -/
def StatCall.step (s : InputState) (c : StatCall) : Except Fault InputState :=
  (·.2) <$> c.exec 0 s

/-- What the wrappers take for a call on the tainted file: a descriptor counts only if it is the
one in the record and the file was not empty. -/
def StatCall.recognized : StatCall → Bool
  | .stat x path | .xstat x path | .lstat x path | .lxstat x path =>
    isTaintFile x.libc path x.stale x.file
  | .fstat x fd | .fxstat x fd => taintGetFile x.file fd ≠ 0

def fsizeKey : LabelKey :=
  { l1 := 0, l2 := 0, op := Operators.fsize.code, size := sizeofStSize * 8 }

def FsizeLabel (t : LabelTable) (l : Nat) : Prop :=
  constOffset ≤ l ∧ l ≤ t.lastLabel ∧ t.key l = fsizeKey

section
variable {s s' : InputState} {c : StatCall}

theorem StatCall.exec_eq (ret : Int) (s : InputState) (c : StatCall) :
    c.exec ret s = labelStat ret c.recognized c.site.buf s := by
  cases c <;> rfl

theorem fsizeKey_union (hinv : TableInv t S) (hu : dfsanUnion t fsizeKey = .ok (l, t')) :
    TableKept t t' ∧ FsizeLabel t' l := by
  have ha : Allocated t fsizeKey := ⟨Nat.zero_le _, fun _ => Nat.zero_le _⟩
  have hret := hinv.union_returns ha (ha.not_init hinv.ordered (by decide)) hu
  refine ⟨⟨hret.inv, hret.grows⟩, ?_⟩
  rcases hret.key with ⟨_, hc⟩ | ⟨hl, hk⟩
  · exact absurd hc (by decide)
  · exact ⟨hl, hret.label, hk⟩

theorem StatCall.exec_kept (hinv : TableInv s.table S) (h : c.exec ret s = .ok (l, s')) :
    TableKept s.table s'.table := by
  rw [c.exec_eq, labelStat] at h
  by_cases ht : ret = 0 ∧ c.recognized = true
  · rw [if_pos ht] at h
    obtain ⟨⟨l, t⟩, hu, h⟩ := except_bind_ok.1 h
    cases h
    exact (fsizeKey_union hinv hu).1
  · rw [if_neg ht] at h
    cases h
    exact hinv.kept

end

/-- Every path is its own real path, and `/input` is tainted. -/
def statLibc : Libc := ⟨some, fun _ => 1, none, true⟩

/-- Descriptor 3 is the tainted file. -/
def statFiles : Int → Option String := opened (fun _ => none) (some 3) (some "/input")

end Kirenenko
