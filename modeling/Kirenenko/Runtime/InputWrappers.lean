import Kirenenko.Lib.Bytes
import Kirenenko.Runtime.StoreLoad
import Kirenenko.Runtime.TaintFile

namespace Kirenenko
set_option autoImplicit true

/-- The label table and the shadow of the memory, one label for each byte. -/
structure InputState where
  table : LabelTable
  shadow : Int → Nat

/-- `dfsan_set_label` -/
def InputState.setLabel (s : InputState) (label : Nat) (addr : Int) (size : Nat) : InputState :=
  { s with shadow := fun a => if addr ≤ a ∧ a < addr + size then label else s.shadow a }

/-- The shadow cells from an address on, as a load gets them. -/
def InputState.cells (s : InputState) (addr : Int) (i : Nat) : Nat := s.shadow (addr + i)

/-- In file mode the labels have been created at the start. -/
def getLabelFor (f : TaintFile) (offset : Int) (t : LabelTable) :
    Except Fault (Nat × LabelTable) :=
  if f.isStdin then dfsanCreateLabel t offset
  else .ok (((offset + constOffset) % 2 ^ 32).toNat, t)

/-- The loop of the wrappers: the bytes at `addr + i` and on get the labels of `offset + i` and
on. -/
def labelBytes (f : TaintFile) (offset addr : Int) : Nat → Nat → InputState →
    Except Fault InputState
  | _, 0, s => .ok s
  | i, n + 1, s => do
    let (label, t) ← getLabelFor f (offset + i) s.table
    labelBytes f offset addr (i + 1) n ({ s with table := t }.setLabel label (addr + i) 1)

/-- What a wrapper is called with: the tainted file, the descriptor of the call, the position and
the buffer. -/
structure InputSite where
  file : TaintFile
  fd : Int
  offset : Int
  buf : Int

/-- The body shared by `__dfsw_read` and `__dfsw_pread`. The wrappers return the label of their
result and the state. -/
def labelRead (x : InputSite) (ret : Int) (s : InputState) : Except Fault (Nat × InputState) := do
  if 0 ≤ ret then
    if taintGetFile x.file x.fd ≠ 0 then
      let s ← labelBytes x.file x.offset x.buf 0 ret.toNat s
      return (0, s)
    else return (0, s.setLabel 0 x.buf ret.toNat)
  else return (0, s)

def dfswRead (x : InputSite) (ret : Int) (s : InputState) : Except Fault (Nat × InputState) :=
  labelRead x ret s

def dfswPread (x : InputSite) (ret : Int) (s : InputState) : Except Fault (Nat × InputState) :=
  labelRead x ret s

/-- The body shared by `__dfsw_fread` and `__dfsw_fread_unlocked`; the result counts items. -/
def labelItems (x : InputSite) (size ret : Nat) (s : InputState) :
    Except Fault (Nat × InputState) := do
  if ret ≠ 0 then
    if taintGetFile x.file x.fd ≠ 0 then
      let s ← labelBytes x.file x.offset x.buf 0 (ret * size) s
      return (0, s)
    else return (0, s.setLabel 0 x.buf (ret * size))
  else return (0, s)

def dfswFread (x : InputSite) (size ret : Nat) (s : InputState) :
    Except Fault (Nat × InputState) :=
  labelItems x size ret s

def dfswFreadUnlocked (x : InputSite) (size ret : Nat) (s : InputState) :
    Except Fault (Nat × InputState) :=
  labelItems x size ret s

/-- The body shared by `__dfsw_getline`, `__dfsw_getdelim` and `__dfsw___getdelim`; the buffer is
the line after the call. -/
def labelLine (x : InputSite) (ret : Int) (s : InputState) : Except Fault (Nat × InputState) := do
  if ret ≠ 0 then
    if taintGetFile x.file x.fd ≠ 0 then
      let s ← labelBytes x.file x.offset x.buf 0 ret.toNat s
      return (0, s.setLabel 0 (x.buf + ret) 1)
    else return (0, s.setLabel 0 x.buf (ret + 1).toNat)
  else return (0, s)

def dfswGetline (x : InputSite) (ret : Int) (s : InputState) : Except Fault (Nat × InputState) :=
  labelLine x ret s

def dfswGetdelim (x : InputSite) (ret : Int) (s : InputState) : Except Fault (Nat × InputState) :=
  labelLine x ret s

def dfswInternalGetdelim (x : InputSite) (ret : Int) (s : InputState) :
    Except Fault (Nat × InputState) :=
  labelLine x ret s

/-- The body shared by `__dfsw_fgets` and `__dfsw_fgets_unlocked`; the result is the string that
was read, or null. -/
def labelString (x : InputSite) (sLabel : Nat) (ret : Option (List UInt8)) (s : InputState) :
    Except Fault (Nat × InputState) := do
  match ret with
  | some bytes =>
    if taintGetFile x.file x.fd ≠ 0 then
      let s ← labelBytes x.file x.offset x.buf 0 (strlen bytes) s
      return (sLabel, s.setLabel 0 (x.buf + strlen bytes) 1)
    else return (sLabel, s.setLabel 0 x.buf (strlen bytes + 1))
  | none => return (0, s)

def dfswFgets (x : InputSite) (sLabel : Nat) (ret : Option (List UInt8)) (s : InputState) :
    Except Fault (Nat × InputState) :=
  labelString x sLabel ret s

def dfswFgetsUnlocked (x : InputSite) (sLabel : Nat) (ret : Option (List UInt8))
    (s : InputState) : Except Fault (Nat × InputState) :=
  labelString x sLabel ret s

/-- The bytes of a mapping that lie in the file; the difference is converted to a `size_t`. -/
def taintedLength (offset : Int) (length fsize : Nat) : Nat :=
  if (offset + length) % 2 ^ 64 > fsize then ((fsize - offset) % 2 ^ 64).toNat else length

/-- A mapping that succeeded. Bytes past the end of the file get the initializing label. -/
def dfswMmap (x : InputSite) (length : Nat) (s : InputState) : Except Fault (Nat × InputState) := do
  let fsize := taintGetFile x.file x.fd
  if fsize ≠ 0 then
    let n := taintedLength x.offset length fsize
    let s ← labelBytes x.file x.offset x.buf 0 n s
    return (0, s.setLabel kInitializingLabel (x.buf + n) (length - n))
  else return (0, s.setLabel 0 x.buf length)

def isTaintFile (libc : Libc) (filename stale : String) (f : TaintFile) : Bool :=
  f.filename == realpathBuffer libc filename stale

/-- `sizeof(struct stat)`, and the place of `st_size` in it, under the x86_64 ABI. -/
def sizeofStat : Nat := 144

def offsetofStSize : Nat := 48

def sizeofStSize : Nat := 8

/-- The body shared by the wrappers of `stat`. -/
def labelStat (ret : Int) (tainted : Bool) (buf : Int) (s : InputState) :
    Except Fault (Nat × InputState) := do
  if ret = 0 ∧ tainted then
    let s := s.setLabel 0 buf sizeofStat
    let (size, t) ← dfsanUnion s.table
      { l1 := 0, l2 := 0, op := Operators.fsize.code, size := sizeofStSize * 8 }
    return (0, { s with table := t }.setLabel size (buf + offsetofStSize) sizeofStSize)
  else return (0, s)

def dfswStat (libc : Libc) (path stale : String) (f : TaintFile) (ret buf : Int) (s : InputState) :
    Except Fault (Nat × InputState) :=
  labelStat ret (isTaintFile libc path stale f) buf s

def dfswXstat (libc : Libc) (path stale : String) (f : TaintFile) (ret buf : Int) (s : InputState) :
    Except Fault (Nat × InputState) :=
  labelStat ret (isTaintFile libc path stale f) buf s

def dfswFstat (f : TaintFile) (fd ret buf : Int) (s : InputState) :
    Except Fault (Nat × InputState) :=
  labelStat ret (taintGetFile f fd ≠ 0) buf s

def dfswFxstat (f : TaintFile) (fd ret buf : Int) (s : InputState) :
    Except Fault (Nat × InputState) :=
  labelStat ret (taintGetFile f fd ≠ 0) buf s

def dfswLstat (libc : Libc) (path stale : String) (f : TaintFile) (ret buf : Int) (s : InputState) :
    Except Fault (Nat × InputState) :=
  labelStat ret (isTaintFile libc path stale f) buf s

def dfswLxstat (libc : Libc) (path stale : String) (f : TaintFile) (ret buf : Int)
    (s : InputState) : Except Fault (Nat × InputState) :=
  labelStat ret (isTaintFile libc path stale f) buf s

end Kirenenko
