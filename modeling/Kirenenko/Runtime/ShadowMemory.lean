import Kirenenko.Runtime.LabelTable

namespace Kirenenko
set_option autoImplicit true

/-- What the check for consecutive input bytes says of a load. -/
inductive LoadShape where
  | consecutive
  | initializing
  | other
deriving DecidableEq

/-- The loop of the check from index `i` on, with `k` labels to go. Only the field `op1` of a label
is compared with the expected offset. -/
def shapeLoop (t : LabelTable) (ls : Nat → Nat) (offset : Nat) :
    Nat → Nat → Except Fault LoadShape
  | _, 0 => .ok .consecutive
  | i, k + 1 =>
    if ls i = kInitializingLabel then .ok .initializing
    else do
      let info ← t.getLabelInfo (ls i)
      if info.op1 ≠ (offset + i) % 2 ^ 64 then .ok .other
      else shapeLoop t ls offset (i + 1) k

/-- For `n = 0` the counter starts past its bound and wraps around. -/
def loadShape (t : LabelTable) (ls : Nat → Nat) (n : Nat) (info0 : LabelInfo) :
    Except Fault LoadShape :=
  if info0.op ≠ 0 then .ok .other
  else if n = 0 then .error .diverge
  else shapeLoop t ls info0.op1 1 (n - 1)

/-- The bits covered by leading labels that are extracted in order from `parent`. -/
def extractLoop (t : LabelTable) (ls : Nat → Nat) (parent : Nat) :
    Nat → Nat → Nat → Except Fault Nat
  | _, offset, 0 => .ok offset
  | i, offset, k + 1 => do
    let info ← t.getLabelInfo (ls i)
    if info.op ≠ Operators.Extract.code ∨ offset ≠ info.op2 ∨ parent ≠ info.l1 then .ok offset
    else extractLoop t ls parent (i + 1) (offset + info.size) k

/-- The label all the loaded ones are extracted from, if there is one. -/
def extractParent (t : LabelTable) (ls : Nat → Nat) (n : Nat) (info0 : LabelInfo) :
    Except Fault (Option Nat) :=
  if info0.op = Operators.Extract.code then do
    let offset ← extractLoop t ls info0.l1 0 0 n
    let parent ← t.getLabelInfo info0.l1
    return if parent.size = offset ∧ offset = n * 8 then some info0.l1 else none
  else .ok none

/-- The conversion of a `char` to a `u64`. -/
def charToU64 (c : UInt8) : Nat := if c < 128 then c.toNat else c.toNat + (2 ^ 64 - 2 ^ 8)

/-- The slow path of a load from index `i` on. A label of less than eight bits does not advance
the index, hence the bound `fuel`; `app i` is the byte of the application behind `ls i`. -/
def concatLoop (app : Nat → UInt8) (ls : Nat → Nat) (n : Nat) :
    Nat → LabelTable → Nat → Nat → Except Fault (Nat × LabelTable)
  | 0, _, _, _ => .error .diverge
  | fuel + 1, t, label, i =>
    if i < n then do
      let next ← t.getLabelInfo (ls i)
      if ls i ≠ constLabel then
        if next.size ≤ (n - i) * 8 then do
          let (label, t) ← taintUnion t
            { l1 := label, l2 := ls i, op := Operators.Concat.code,
              size := (i + next.size / 8) * 8 % 2 ^ 16 }
          concatLoop app ls n fuel t label (i + next.size / 8)
        else do
          let (trunc, t) ← taintUnion t
            { l1 := ls i, l2 := constLabel, op := Operators.Trunc.code,
              size := (n - i) * 8 % 2 ^ 16 }
          taintUnion t
            { l1 := label, l2 := trunc, op := Operators.Concat.code, size := n * 8 % 2 ^ 16 }
      else do
        let (label, t) ← taintUnion t
          { l1 := label, l2 := 0, op := Operators.Concat.code, size := (i + 1) * 8 % 2 ^ 16,
            op2 := charToU64 (app i) }
        concatLoop app ls n fuel t label (i + 1)
    else .ok (label, t)

def concatFuel (n : Nat) : Nat := n + 2 ^ 32

/-- The label of `n` consecutive input bytes. -/
def loadConsecutive (t : LabelTable) (ls : Nat → Nat) (n : Nat) : Except Fault (Nat × LabelTable) :=
  if n = 1 then .ok (ls 0, t)
  else taintUnion t
    { l1 := ls 0, l2 := n % 2 ^ 32, op := Operators.Load.code, size := n * 8 % 2 ^ 16 }

/-- `__taint_union_load` of `n` bytes; bit counts do not overflow a `uptr` for any access that
fits into memory. -/
def taintUnionLoad (t : LabelTable) (app : Nat → UInt8) (ls : Nat → Nat) (n : Nat) :
    Except Fault (Nat × LabelTable) :=
  if ls 0 = kInitializingLabel then .ok (kInitializingLabel, t)
  else if ls 0 = constLabel ∧ ∀ i < n, ls i = constLabel then .ok (constLabel, t)
  else do
    let info0 ← t.getLabelInfo (ls 0)
    match ← loadShape t ls n info0 with
    | .initializing => .ok (kInitializingLabel, t)
    | .consecutive => loadConsecutive t ls n
    | .other =>
      match ← extractParent t ls n info0 with
      | some parent => .ok (parent, t)
      | none => concatLoop app ls n (concatFuel n) t (ls 0) (info0.size / 8)

/-- The last loop of a store from index `i` on: one extraction for each of `k` bytes. -/
def storeExtracts (l : Nat) : Nat → Nat → LabelTable → (Nat → Nat) →
    Except Fault ((Nat → Nat) × LabelTable)
  | _, 0, t, ls => .ok (ls, t)
  | i, k + 1, t, ls => do
    let (x, t) ← taintUnion t
      { l1 := l, l2 := constLabel, op := Operators.Extract.code, size := 8, op2 := i * 8 }
    storeExtracts l (i + 1) k t (Function.update ls i x)

/-- `__taint_union_store`: the shadow cells and the table after a store of `n` bytes. -/
def taintUnionStore (t : LabelTable) (l : Nat) (ls : Nat → Nat) (n : Nat) :
    Except Fault ((Nat → Nat) × LabelTable) :=
  if l = kInitializingLabel ∨ l = 0 then .ok (fun i => if i < n then l else ls i, t)
  else do
    let info ← t.getLabelInfo l
    if n = 1 ∧ info.size = 8 then .ok (Function.update ls 0 l, t)
    else if info.op = Operators.Load.code then
      .ok (fun i => if i < n then (info.l1 + i) % 2 ^ 32 else ls i, t)
    else storeExtracts l 0 n t ls

end Kirenenko
