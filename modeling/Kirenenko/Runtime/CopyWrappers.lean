import Kirenenko.Lib.Cells
import Kirenenko.Runtime.StringCompare

namespace Kirenenko
set_option autoImplicit true

/-- The bytes of the program's memory with their labels. -/
structure TaggedMemory where
  data : Memory
  shadow : Nat → Nat

/-- How a wrapper can end the program: there is no memory, and no shadow, of the null page. -/
inductive MemoryFault where
  | nullPage
  | stackOverflow
deriving DecidableEq

/-- What a wrapper leaves: its result, the label of it and the memory. -/
structure Returned where
  ptr : Nat
  label : Nat
  memory : TaggedMemory

def internalMemcpy (dest src n : Nat) (c : Nat → α) : Nat → α := copyUp dest src 0 n c

def internalMemmove (dest src n : Nat) (c : Nat → α) : Nat → α :=
  if dest < src then copyUp dest src 0 n c
  else if src < dest then copyDown dest src n c
  else c

def internalMemset (s : Nat) (c : UInt8) (n : Nat) (mem : Memory) : Memory :=
  writeLoop s (fun _ => c) 0 n mem

def dfsanMemcpy (dest src n : Nat) (m : TaggedMemory) : TaggedMemory where
  data := internalMemcpy dest src n m.data
  shadow := internalMemcpy dest src n m.shadow

/-- The labels are set by `dfsan_set_label`. -/
def dfsanMemset (s : Nat) (c : UInt8) (cLabel n : Nat) (m : TaggedMemory) : TaggedMemory where
  data := internalMemset s c n m.data
  shadow := writeLoop s (fun _ => cLabel) 0 n m.shadow

def dfswMemcpy (dest src n destLabel : Nat) (m : TaggedMemory) : Returned :=
  ⟨dest, destLabel, dfsanMemcpy dest src n m⟩

def sizeofLabel : Nat := 4

/-- The labels go through an array on the stack, which has to have room for it. -/
def dfswMemmove (stack dest src n destLabel : Nat) (m : TaggedMemory) :
    Except MemoryFault Returned :=
  if n * sizeofLabel ≤ stack then
    let tmp i := m.shadow (src + i)
    .ok ⟨dest, destLabel,
      { data := internalMemmove dest src n m.data, shadow := writeLoop dest tmp 0 n m.shadow }⟩
  else .error .stackOverflow

def dfswStrcat (dest src dLabel : Nat) (m : TaggedMemory) : Returned :=
  let len := strlenAt m.data dest
  ⟨dest, dLabel, dfsanMemcpy (dest + len) src (strlenAt m.data src + 1) m⟩

/-- The body shared by the wrappers that allocate: the result of `malloc` is written to without a
check. -/
def duplicate (block : Option Nat) (s len : Nat) (m : TaggedMemory) :
    Except MemoryFault Returned :=
  match block with
  | some p => .ok ⟨p, 0, dfsanMemcpy p s (len + 1) m⟩
  | none => .error .nullPage

def dfswStrdup (block : Option Nat) (s : Nat) (m : TaggedMemory) : Except MemoryFault Returned :=
  duplicate block s (strlenAt m.data s) m

def dfswInternalStrdup (block : Option Nat) (s : Nat) (m : TaggedMemory) :
    Except MemoryFault Returned :=
  duplicate block s (strlenAt m.data s) m

/-- The length that `__dfsw___strndup` cuts a string to. -/
def cutTo (n len : Nat) : Nat := if len > n then n else len

def dfswInternalStrndup (block : Option Nat) (s n : Nat) (m : TaggedMemory) :
    Except MemoryFault Returned :=
  duplicate block s (cutTo n (strlenAt m.data s)) m

def dfswStrncpy (s1 s2 n s1Label : Nat) (m : TaggedMemory) : Returned :=
  let len := strlenAt m.data s2
  if len < n then
    ⟨s1, s1Label, dfsanMemset (s1 + (len + 1)) 0 0 (n - len - 1) (dfsanMemcpy s1 s2 (len + 1) m)⟩
  else ⟨s1, s1Label, dfsanMemcpy s1 s2 n m⟩

/-- What `strcpy` and `stpcpy` of the C library do to the bytes. -/
def libcStrcpy (dest src : Nat) (mem : Memory) : Memory :=
  written dest (fun i => mem (src + i)) (strlenAt mem src + 1) mem

/-- The body shared by `__dfsw_strcpy` and `__dfsw_stpcpy`, which copy the labels after the call. -/
def copyLabels (ret dest src : Nat) (mem : Memory) (shadow : Nat → Nat) : TaggedMemory where
  data := mem
  shadow := if ret ≠ 0 then internalMemcpy dest src (strlenAt mem src + 1) shadow else shadow

def dfswStpcpy (dest src destLabel : Nat) (m : TaggedMemory) : Returned :=
  let ret := dest + strlenAt m.data src
  ⟨ret, destLabel, copyLabels ret dest src (libcStrcpy dest src m.data) m.shadow⟩

def dfswStrcpy (dest src dstLabel : Nat) (m : TaggedMemory) : Returned :=
  ⟨dest, dstLabel, copyLabels dest dest src (libcStrcpy dest src m.data) m.shadow⟩

/-- What a function of the C library does to its destination: each byte is the copy of a byte, or a
NUL that is not copied from anywhere. -/
structure LibcCopy where
  dest : Nat
  length : Nat
  source : Nat → Option Nat

/-- What byte `i` of the destination gets. -/
def LibcCopy.value (p : LibcCopy) (c : Nat → α) (nul : α) (i : Nat) : α :=
  match p.source i with
  | some a => c a
  | none => nul

/-- The calls; `block` is what `malloc` returns and `stack` the room on the stack. -/
inductive CopyCall where
  | memcpy (dest src n destLabel : Nat)
  | memmove (stack dest src n destLabel : Nat)
  | strcpy (dest src dstLabel : Nat)
  | stpcpy (dest src destLabel : Nat)
  | strcat (dest src dLabel : Nat)
  | strncpy (s1 s2 n s1Label : Nat)
  | strdup (block : Option Nat) (s : Nat)
  | internalStrdup (block : Option Nat) (s : Nat)
  | internalStrndup (block : Option Nat) (s n : Nat)

def CopyCall.run (m : TaggedMemory) : CopyCall → Except MemoryFault Returned
  | .memcpy dest src n destLabel => .ok (dfswMemcpy dest src n destLabel m)
  | .memmove stack dest src n destLabel => dfswMemmove stack dest src n destLabel m
  | .strcpy dest src dstLabel => .ok (dfswStrcpy dest src dstLabel m)
  | .stpcpy dest src destLabel => .ok (dfswStpcpy dest src destLabel m)
  | .strcat dest src dLabel => .ok (dfswStrcat dest src dLabel m)
  | .strncpy s1 s2 n s1Label => .ok (dfswStrncpy s1 s2 n s1Label m)
  | .strdup block s => dfswStrdup block s m
  | .internalStrdup block s => dfswInternalStrdup block s m
  | .internalStrndup block s n => dfswInternalStrndup block s n m

/-- The copy of a range of bytes. -/
def LibcCopy.range (dest src n : Nat) : LibcCopy := ⟨dest, n, fun i => some (src + i)⟩

/-- The copy of some of the bytes of a range, with NUL in the place of the others. -/
def LibcCopy.partly (dest src n : Nat) (copied : Nat → Bool) : LibcCopy :=
  ⟨dest, n, fun i => if copied i then some (src + i) else none⟩

/-- What the C library does in the place of a wrapper: `strncpy` pads with NUL behind the string,
and `strndup` adds one if the string is cut. -/
def CopyCall.libc (m : TaggedMemory) : CopyCall → LibcCopy
  | .memcpy dest src n _ | .memmove _ dest src n _ => .range dest src n
  | .strcpy dest src _ | .stpcpy dest src _ => .range dest src (strlenAt m.data src + 1)
  | .strcat dest src _ =>
    .range (dest + strlenAt m.data dest) src (strlenAt m.data src + 1)
  | .strncpy s1 s2 n _ => .partly s1 s2 n fun i => i ≤ strlenAt m.data s2
  | .strdup block s | .internalStrdup block s =>
    .range (block.getD 0) s (strlenAt m.data s + 1)
  | .internalStrndup block s n =>
    .partly (block.getD 0) s (min n (strlenAt m.data s) + 1) fun i =>
      i < n ∨ strlenAt m.data s ≤ n

section
variable {m : TaggedMemory} {mem mem' : Memory}

theorem internalMemcpy_eq (h : Apart dest n src n) (c : Nat → α) :
    internalMemcpy dest src n c = written dest (fun i => c (src + i)) n c :=
  h.copyUp_eq

end

end Kirenenko
