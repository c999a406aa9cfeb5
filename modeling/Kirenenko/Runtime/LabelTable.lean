import Mathlib.Logic.Function.Basic
import Kirenenko.Lib.Chain
import Kirenenko.Runtime.Operators
import Kirenenko.Smt.Sorted

namespace Kirenenko
set_option autoImplicit true

def constOffset : Nat := 1

def constLabel : Nat := 0

/-- The `dfsan_label` -1. -/
def kInitializingLabel : Nat := 2 ^ 32 - 1

def unionTableAddr : Nat := 0x400000000000

def hashTableAddr : Nat := 0x400c00000000

/-- `sizeof(dfsan_label_info)` under the x86_64 ABI. -/
def labelInfoSize : Nat := 56

def unionTableSize : Nat := 2 ^ 18

/-- How a call into the runtime can end without returning. -/
inductive Fault where
  | die
  | badIndex (label : Nat)
  | outOfRange
  | stackOverflow
  | diverge
  | uncaught
deriving DecidableEq

/-- The fields of a `dfsan_label_info` that are written once and identify the label. -/
structure LabelKey where
  l1 : Nat := 0
  l2 : Nat := 0
  op : Nat := 0
  size : Nat := 0
  op1 : Nat := 0
  op2 : Nat := 0
deriving DecidableEq

/-- A record of the label table. Of `flags` only the bit `B_FLIPPED` is ever used. -/
structure LabelInfo extends LabelKey where
  flipped : Bool := false
  treeSize : Nat := 0
  hash : UInt32 := 0
  expr : Option Term := none
  deps : Option (Finset Nat) := none

/-- `__dfsan_label_info`, `__dfsan_last_label` and `__union_table`. -/
structure LabelTable where
  info : Nat → LabelInfo
  lastLabel : Nat
  bucket : Nat → List ChainEntry

def LabelTable.key (t : LabelTable) (label : Nat) : LabelKey := (t.info label).toLabelKey

def LabelTable.modifyInfo (t : LabelTable) (label : Nat) (f : LabelInfo → LabelInfo) :
    LabelTable :=
  { t with info := Function.update t.info label (f (t.info label)) }

/-- Sets the flag `B_FLIPPED`. -/
def LabelTable.flip (t : LabelTable) (label : Nat) : LabelTable :=
  t.modifyInfo label fun info => { info with flipped := true }

/-- The table after `dfsan_init`: every record is zero but the size of the constant label. -/
def LabelTable.initial : LabelTable where
  info := Function.update (fun _ => {}) constLabel { size := 8 }
  lastLabel := 0
  bucket := fun _ => []

/-- An access to a record that was never allocated is a fault of the model. -/
def LabelTable.getLabelInfo (t : LabelTable) (label : Nat) : Except Fault LabelInfo :=
  if label ≤ t.lastLabel then .ok (t.info label) else .error (.badIndex label)

def dfsanCheckLabel (label : Nat) : Except Fault Unit :=
  if label = kInitializingLabel then .error .die
  else if unionTableAddr + labelInfoSize * label ≥ hashTableAddr then .error .die
  else .ok ()

def rotl32 (x : UInt32) (r : UInt32) : UInt32 := (x <<< r) ||| (x >>> (32 - r))

def xxhash (h1 h2 h3 : UInt32) : UInt32 :=
  let round (h32 h : UInt32) : UInt32 := rotl32 (h32 + h * 3266489917) 17 * 668265263
  let h32 := round (round (round 374761393 h1) h2) h3
  let h32 := (h32 ^^^ (h32 >>> 15)) * 2246822519
  let h32 := (h32 ^^^ (h32 >>> 13)) * 3266489917
  h32 ^^^ (h32 >>> 16)

/-- `union_hashtable::hash`; the labels are added in 32 bits, the operands in 64. -/
def unionHash (k : LabelKey) : Nat :=
  ((((k.l1 + k.l2) % 2 ^ 32 + k.op1 + k.op2) % 2 ^ 64) ^^^ (k.op <<< 3) ^^^ k.size) &&&
    (unionTableSize - 1)

def LabelTable.lookup (t : LabelTable) (k : LabelKey) : Option Nat :=
  chainLookup unionHash t.key t.bucket k

def LabelTable.insert (t : LabelTable) (key entry : Nat) : LabelTable :=
  { t with bucket := chainInsert unionHash t.key t.bucket key entry }

def swapOperands (k : LabelKey) : LabelKey :=
  if k.l1 > k.l2 ∧ isCommutative k.op then
    { k with l1 := k.l2, l2 := k.l1, op1 := k.op2, op2 := k.op1 }
  else k

def zeroConcrete (k : LabelKey) : LabelKey :=
  { k with
    op1 := if k.l1 ≥ constOffset then 0 else k.op1
    op2 := if k.l2 ≥ constOffset then 0 else k.op2 }

/-- The label of a new record: `atomic_fetch_add` on the counter, then the check. -/
def LabelTable.allocate (t : LabelTable) (info : LabelInfo) : Except Fault (Nat × LabelTable) := do
  let label := (t.lastLabel + 1) % 2 ^ 32
  dfsanCheckLabel label
  return (label, { t with info := Function.update t.info label info, lastLabel := label })

/-- The label that already stands for a key, or a new one. -/
def LabelTable.intern (t : LabelTable) (k : LabelKey) : Except Fault (Nat × LabelTable) :=
  match t.lookup k with
  | some label => .ok (label, t)
  | none => do
    let h1 := if k.l1 ≠ 0 then (t.info k.l1).hash else 0
    let h2 := if k.l2 ≠ 0 then (t.info k.l2).hash else 0
    let h3 := (UInt32.ofNat k.op <<< 16) ||| UInt32.ofNat k.size
    let (label, t) ← t.allocate { k with hash := xxhash h1 h2 h3 }
    return (label, t.insert label label)

/-- `__taint_union`; its assertions are compiled out of the release build. -/
def taintUnion (t : LabelTable) (k : LabelKey) : Except Fault (Nat × LabelTable) :=
  let k := swapOperands k
  if k.l1 = 0 ∧ k.l2 < constOffset ∧ k.op ≠ Operators.fsize.code then .ok (0, t)
  else if k.l1 = kInitializingLabel ∨ k.l2 = kInitializingLabel then .ok (kInitializingLabel, t)
  else t.intern (zeroConcrete k)

/-- `dfsan_union`, whose size parameter is a `u8`. -/
def dfsanUnion (t : LabelTable) (k : LabelKey) : Except Fault (Nat × LabelTable) :=
  taintUnion t { k with size := k.size % 2 ^ 8 }

/-- A raw input byte: the offset goes through an `off_t` into a `u64`. -/
def dfsanCreateLabel (t : LabelTable) (offset : Int) : Except Fault (Nat × LabelTable) :=
  t.allocate { size := 8, op1 := (offset % 2 ^ 64).toNat }

end Kirenenko
