import Mathlib.Data.Finset.Insert
import Kirenenko.Lib.Bytes
import Kirenenko.Lib.Records
import Kirenenko.Pin.LogBuf

namespace Kirenenko
set_option autoImplicit true

def maxOrder : UInt32 := 16

def condSwOp : UInt32 := 0x00FF

def condFnOp : UInt32 := 0x8002

def condLenOp : UInt32 := 0x8003

def condFalseSt : UInt32 := 0

def condDoneSt : UInt32 := 2

structure CondStmt where
  cid : UInt32
  context : UInt32
  order : UInt32
  belong : UInt32
  condition : UInt32
  level : UInt32
  op : UInt32
  size : UInt32
  lb1 : UInt32
  lb2 : UInt32
  arg1 : UInt64
  arg2 : UInt64
deriving DecidableEq

def u32Bytes (x : UInt32) : List UInt8 := bytesOf 4 x.toNat

def u64Bytes (x : UInt64) : List UInt8 := bytesOf 8 x.toNat

/-- The 56 bytes of a statement in memory. -/
def CondStmt.bytes (s : CondStmt) : List UInt8 :=
  u32Bytes s.cid ++ u32Bytes s.context ++ u32Bytes s.order ++ u32Bytes s.belong ++
    u32Bytes s.condition ++ u32Bytes s.level ++ u32Bytes s.op ++ u32Bytes s.size ++
    u32Bytes s.lb1 ++ u32Bytes s.lb2 ++ u64Bytes s.arg1 ++ u64Bytes s.arg2

/-- The labels of the taint library: a label may carry a length mask and stands for segments of the
input. -/
structure TagApi where
  hasLenLb : UInt32 → Bool
  clearLenMask : UInt32 → UInt32
  tagIsEmpty : UInt32 → Bool
  tagSegSize : Nat
  tagGet : UInt32 → List (Vector UInt8 tagSegSize)
  clear_hasLen : ∀ t, hasLenLb (clearLenMask t) = false
  zero_hasLen : hasLenLb 0 = false
  one_hasLen : hasLenLb 1 = false

/-- The global `logger`; the counters are 32 bits wide. -/
structure Logger where
  numCond : UInt32
  numTag : UInt32
  numMb : UInt32
  condBuf : LogBuf
  tagBuf : LogBuf
  mbBuf : LogBuf
  orderMap : UInt64 → Option UInt32
  lbSet : Finset UInt32

def Logger.new (fresh : Nat → UInt8) : Logger where
  numCond := 0
  numTag := 0
  numMb := 0
  condBuf := .new fresh
  tagBuf := .new fresh
  mbBuf := .new fresh
  orderMap := fun _ => none
  lbSet := ∅

/-- The file that `save_buffers` writes when the program ends. -/
def Logger.saveBuffers (g : Logger) : List UInt8 :=
  u32Bytes g.numCond ++ u32Bytes g.numTag ++ u32Bytes g.numMb ++ g.condBuf.content ++
    g.tagBuf.content ++ g.mbBuf.content

def orderKey (cid ctx : UInt32) : UInt64 := (cid.toUInt64 <<< 32) ||| ctx.toUInt64

def Logger.getOrder (g : Logger) (cid ctx : UInt32) : UInt32 × Logger :=
  let key := orderKey cid ctx
  match g.orderMap key with
  | some n => (n + 1, { g with orderMap := Function.update g.orderMap key (some (n + 1)) })
  | none => (1, { g with orderMap := Function.update g.orderMap key (some 1) })

section
variable (api : TagApi)

/-- The bytes of the first segments of a label, as many as a 32-bit number counts. -/
def TagApi.segments (lb : UInt32) : List UInt8 :=
  (List.range (api.tagSegSize * (UInt32.ofNat (api.tagGet lb).length).toNat)).map
    (bytesAt ((api.tagGet lb).flatMap Vector.toList))

def Logger.saveTag (g : Logger) (lb : UInt32) : Except LogFault Logger :=
  if api.hasLenLb lb then .error .assertion
  else if lb > 0 ∧ lb ∉ g.lbSet then do
    let t := api.tagGet lb
    let n := UInt32.ofNat t.length
    let b ← g.tagBuf.push (u32Bytes lb)
    let b ← b.push (u32Bytes n)
    let b ← b.pushBytes (some (bytesAt (t.flatMap Vector.toList))) (api.tagSegSize * n.toNat)
    return { g with tagBuf := b, numTag := g.numTag + 1, lbSet := insert lb g.lbSet }
  else .ok g

/-- The pointers are null or point at some bytes that zeros follow. -/
def Logger.saveMb (g : Logger) (i arg1Len arg2Len : UInt32) (arg1 arg2 : Option (List UInt8)) :
    Except LogFault Logger :=
  if i > 0 then do
    let b ← g.mbBuf.push (u32Bytes i)
    let b ← b.push (u32Bytes arg1Len)
    let b ← b.push (u32Bytes arg2Len)
    let b ← b.pushBytes (arg1.map bytesAt) arg1Len.toNat
    let b ← b.pushBytes (arg2.map bytesAt) arg2Len.toNat
    return { g with mbBuf := b, numMb := g.numMb + 1 }
  else .ok g

def Logger.saveCond (g : Logger) (cond : CondStmt) : Except LogFault (UInt32 × Logger) := do
  let i := g.numCond
  let g := { g with numCond := g.numCond + 1 }
  let g ← g.saveTag api cond.lb1
  let g ← g.saveTag api cond.lb2
  let b ← g.condBuf.push cond.bytes
  return (i, { g with condBuf := b })

/-- The tags of the two compared registers are arguments. -/
def cmpHandler (cid ctx size op : UInt32) (arg1 arg2 : UInt64) (cond t1 t2 : UInt32) (g : Logger) :
    Except LogFault Logger := do
  let (ctr, g) := g.getOrder cid ctx
  let hasLen := api.hasLenLb t1 || api.hasLenLb t2
  let g ←
    if hasLen ∧ ctr ≤ maxOrder then
      Prod.snd <$> g.saveCond api
        { cid, context := ctx, order := ctr + 0x10000, belong := 0, condition := cond, level := 0,
          op := condLenOp, size, lb1 := 0, lb2 := 1, arg1, arg2 }
    else .ok g
  let t1 := if hasLen then api.clearLenMask t1 else t1
  let t2 := if hasLen then api.clearLenMask t2 else t2
  if api.tagIsEmpty t1 && api.tagIsEmpty t2 then .ok g
  else if ctr ≤ maxOrder then
    Prod.snd <$> g.saveCond api
      { cid, context := ctx, order := ctr, belong := 0, condition := cond, level := 0, op, size,
        lb1 := t1, lb2 := t2, arg1, arg2 }
  else .ok g

/-- The statement of one case of a switch. -/
def swStmt (cid ctx size ctr : UInt32) (cond : UInt64) (t i : UInt32) (arg : UInt64) : CondStmt :=
  { cid, context := ctx, order := ctr + (i <<< 16), belong := 0,
    condition := if cond = arg then condDoneSt else condFalseSt, level := 0, op := condSwOp, size,
    lb1 := t, lb2 := 0, arg1 := cond, arg2 := arg }

/-- The loop over the cases from number `i` on, with `k` of them to go. -/
def swLoop (stmt : UInt32 → UInt64 → CondStmt) (args : UInt32 → UInt64) :
    Nat → UInt32 → Logger → Except LogFault Logger
  | 0, _, g => .ok g
  | k + 1, i, g => do
    let (_, g) ← g.saveCond api (stmt i (args i))
    swLoop stmt args k (i + 1) g

def swHandler (cid ctx size : UInt32) (cond : UInt64) (num : UInt32) (args : UInt32 → UInt64)
    (t : UInt32) (g : Logger) : Except LogFault Logger :=
  let (ctr, g) := g.getOrder cid ctx
  let t := api.clearLenMask t
  if api.tagIsEmpty t then .ok g
  else if ctr ≤ maxOrder then swLoop api (swStmt cid ctx size ctr cond t) args num.toNat 0 g
  else .ok g

/-- The length of an argument: `size`, or for zero that of the string, cut to 32 bits. -/
def argLen (size : UInt32) (arg : Option (List UInt8)) : UInt32 :=
  if size = 0 then UInt32.ofNat (strlen (arg.getD [])) else size

def fnStmt (cid ctx ctr size lb1 lb2 : UInt32) : CondStmt :=
  { cid, context := ctx, order := ctr, belong := 0, condition := condFalseSt, level := 0,
    op := condFnOp, size, lb1, lb2, arg1 := 0, arg2 := 0 }

/-- The length of a null pointer's string is never found out. -/
def fnHandler (cid ctx size : UInt32) (arg1 arg2 : Option (List UInt8)) (t1 t2 : UInt32)
    (g : Logger) : Except LogFault Logger :=
  if size = 0 ∧ (arg1.isNone ∨ arg2.isNone) then .error .nullPointer
  else
    let arg1Len := argLen size arg1
    let arg2Len := argLen size arg2
    let t1 := api.clearLenMask t1
    let t2 := api.clearLenMask t2
    let (ctr, g) := g.getOrder cid ctx
    if ctr ≤ maxOrder then
      if !api.tagIsEmpty t1 then do
        let (condIdx, g) ← g.saveCond api (fnStmt cid ctx ctr arg2Len t1 0)
        g.saveMb condIdx arg1Len arg2Len arg1 arg2
      else if !api.tagIsEmpty t2 then do
        let (condIdx, g) ← g.saveCond api (fnStmt cid ctx ctr arg1Len 0 t2)
        g.saveMb condIdx arg1Len arg2Len arg1 arg2
      else .ok g
    else .ok g

def exploitHandler (cid ctx size op : UInt32) (val : UInt64) (t : UInt32) (g : Logger) :
    Except LogFault Logger :=
  let (ctr, g) := g.getOrder cid ctx
  let t := api.clearLenMask t
  if api.tagIsEmpty t then .ok g
  else if ctr ≤ maxOrder then
    Prod.snd <$> g.saveCond api
      { cid, context := ctx, order := ctr, belong := 0, condition := condFalseSt, level := 0, op,
        size, lb1 := t, lb2 := 0, arg1 := val, arg2 := 0 }
  else .ok g

/-- A call that the instrumented program makes, with the tags that the taint library has for its
arguments. -/
inductive HandlerCall where
  | cmp (cid ctx size op : UInt32) (arg1 arg2 : UInt64) (cond t1 t2 : UInt32)
  | sw (cid ctx size : UInt32) (cond : UInt64) (num : UInt32) (args : UInt32 → UInt64) (t : UInt32)
  | fn (cid ctx size : UInt32) (arg1 arg2 : Option (List UInt8)) (t1 t2 : UInt32)
  | exploit (cid ctx size op : UInt32) (val : UInt64) (t : UInt32)

def handle (g : Logger) : HandlerCall → Except LogFault Logger
  | .cmp cid ctx size op arg1 arg2 cond t1 t2 =>
    cmpHandler api cid ctx size op arg1 arg2 cond t1 t2 g
  | .sw cid ctx size cond num args t => swHandler api cid ctx size cond num args t g
  | .fn cid ctx size arg1 arg2 t1 t2 => fnHandler api cid ctx size arg1 arg2 t1 t2 g
  | .exploit cid ctx size op val t => exploitHandler api cid ctx size op val t g

end

end Kirenenko
