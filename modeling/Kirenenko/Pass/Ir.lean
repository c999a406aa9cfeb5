import Kirenenko.Lib.Bytes
import Kirenenko.Lib.ControlFlow
import Kirenenko.Lib.Machine
import Kirenenko.Pass.Shadows
import Kirenenko.Runtime.ShadowMapping

namespace Kirenenko
set_option autoImplicit true

/-- An SSA value: a literal, an argument, or the result of an instruction. -/
inductive IrValue where
  | const (v : Nat)
  | arg (i : Nat)
  | inst (id : Nat)
deriving DecidableEq

/-- The instructions of a function on integers, pointers and memory. A call names its callee, its
arguments with their widths, and the width of its result; `pread` is a call on the tainted file. -/
inductive IrInst where
  | binary (op : BinaryOps) (w : Nat) (a b : IrValue)
  | cast (op : CastOps) (w w' : Nat) (a : IrValue)
  | icmp (p : IntPredicate) (w : Nat) (a b : IrValue)
  | select (w : Nat) (c a b : IrValue)
  | gep (base index : IrValue) (scale : Nat)
  | alloca (w : Nat)
  | load (w : Nat) (ptr : IrValue)
  | store (w : Nat) (v ptr : IrValue)
  | memset (dest v len : IrValue)
  | memTransfer (dest src len : IrValue)
  | pread (buf count offset : IrValue)
  | call (callee : Nat) (args : List (Nat × IrValue)) (ret : Option Nat)
deriving DecidableEq

inductive IrTerm where
  | br (target : Nat)
  | condBr (c : IrValue) (t e : Nat)
  | switch (w : Nat) (c : IrValue) (cases : List (Nat × Nat)) (default : Nat)
  | ret (v : Option (Nat × IrValue))
deriving DecidableEq

structure IrPhi where
  id : Nat
  width : Nat
  incoming : List (Nat × IrValue)
deriving DecidableEq

structure IrBlock where
  phis : List IrPhi
  body : List (Nat × IrInst)
  term : IrTerm
deriving DecidableEq

structure IrFunction where
  name : String
  params : Nat
  ret : Option Nat
  blocks : List IrBlock
deriving DecidableEq

def IrInst.operands : IrInst → List IrValue
  | .binary _ _ a b => [a, b]
  | .cast _ _ _ a => [a]
  | .icmp _ _ a b => [a, b]
  | .select _ c a b => [c, a, b]
  | .gep base index _ => [base, index]
  | .alloca _ => []
  | .load _ ptr => [ptr]
  | .store _ v ptr => [v, ptr]
  | .memset dest v len => [dest, v, len]
  | .memTransfer dest src len => [dest, src, len]
  | .pread buf count offset => [buf, count, offset]
  | .call _ args _ => args.map Prod.snd

def IrTerm.operands : IrTerm → List IrValue
  | .br _ => []
  | .condBr c _ _ => [c]
  | .switch _ c _ _ => [c]
  | .ret v => v.toList.map Prod.snd

def IrTerm.successors : IrTerm → List Nat
  | .br target => [target]
  | .condBr _ t e => [t, e]
  | .switch _ _ cases default => default :: cases.map Prod.snd
  | .ret _ => []

def IrBlock.defs (b : IrBlock) : List Nat := b.phis.map IrPhi.id ++ b.body.map Prod.fst

/-- All uses in a block. -/
def IrBlock.operands (b : IrBlock) : List IrValue :=
  b.phis.flatMap (fun φ => φ.incoming.map Prod.snd) ++ b.body.flatMap (fun x => x.2.operands) ++
    b.term.operands

def IrFunction.successors (f : IrFunction) (b : Nat) : List Nat :=
  (f.blocks[b]?).elim [] fun blk => blk.term.successors

/-- A use of an alloca that reads or writes it as a whole. -/
def IrInst.wholeAccess (a : Nat) : IrInst → Bool
  | .load _ _ => true
  | .store _ _ ptr => ptr = .inst a
  | _ => false

/-- The scan of the users of an alloca: all of them are loads, or stores to it. -/
def IrFunction.allLoadsStores (f : IrFunction) (a : Nat) : Bool :=
  f.blocks.all fun b =>
    (b.phis.all fun φ => .inst a ∉ φ.incoming.map Prod.snd) &&
    (b.body.all fun x => .inst a ∉ x.2.operands || x.2.wholeAccess a) &&
    decide (.inst a ∉ b.term.operands)

/-- The allocas whose address goes nowhere. -/
def IrFunction.promoted (f : IrFunction) : List Nat :=
  (f.blocks.flatMap fun b => b.body.filterMap fun x =>
    match x.2 with
    | .alloca _ => some x.1
    | _ => none).filter f.allLoadsStores

/-- What an activation of a function holds: its arguments, the results of its instructions, and
the contents of the allocas whose address goes nowhere. -/
structure Locals where
  args : List Nat
  regs : Nat → Option Nat
  vars : Nat → Option Nat

def Locals.enter (args : List Nat) : Locals := ⟨args, fun _ => none, fun _ => none⟩

def Locals.read (l : Locals) (w : Nat) : IrValue → Option Nat
  | .const v => some (v % 2 ^ w)
  | .arg i => l.args[i]?
  | .inst id => l.regs id

def Locals.set (l : Locals) (id v : Nat) : Locals :=
  { l with regs := Function.update l.regs id (some v) }

def Locals.setVar (l : Locals) (a : Nat) (v : Option Nat) : Locals :=
  { l with vars := Function.update l.vars a v }

/-- The memory of the application, and how many allocas it has served. -/
structure IrMemory where
  mem : Nat → UInt8
  allocas : Nat

/-- What is left to the code generator and to the file system: where the `n`-th alloca is put, and
what the tainted file holds. -/
structure IrHost where
  place : Nat → Nat
  content : List UInt8

/-- `DataLayout::getTypeStoreSize` of an integer. -/
def storeSize (w : Nat) : Nat := (w + 7) / 8

def appRange (a n : Nat) : Option Unit :=
  if kAppAddr ≤ a ∧ a + n ≤ kAppEnd then some () else none

/-- The alloca that a pointer operand names, if it is one whose address goes nowhere. -/
def variableOf (slots : List Nat) : IrValue → Option Nat
  | .inst a => if a ∈ slots then some a else none
  | _ => none

/-- How many bytes there are to read. -/
def preadResult (content : List UInt8) (count offset : Nat) : Nat :=
  min count (content.length - offset)

/-- An instruction on the program's own state. A call is not one: it enters a function. -/
def execInst (host : IrHost) (slots : List Nat) (id : Nat) (l : Locals) (m : IrMemory) :
    IrInst → Except Stop (Locals × IrMemory)
  | .binary op w a b => do
    defined (integerWidth w)
    let x ← defined (l.read w a)
    let y ← defined (l.read w b)
    let v ← defined (op.exec w x y)
    return (l.set id v, m)
  | .cast op w w' a => do
    defined (integerWidth w)
    defined (integerWidth w')
    defined (if op.Valid w w' then some () else none)
    let x ← defined (l.read w a)
    return (l.set id (op.exec w w' x), m)
  | .icmp p w a b => do
    defined (integerWidth w)
    let x ← defined (l.read w a)
    let y ← defined (l.read w b)
    return (l.set id (p.exec w x y).toNat, m)
  | .select w c a b => do
    defined (integerWidth w)
    let k ← defined (l.read 1 c)
    let x ← defined (l.read w a)
    let y ← defined (l.read w b)
    return (l.set id (if k = 1 then x else y), m)
  | .gep base index scale => do
    let x ← defined (l.read 64 base)
    let y ← defined (l.read 64 index)
    return (l.set id ((x + y * scale) % 2 ^ 64), m)
  | .alloca _ =>
    if id ∈ slots then return ((l.set id 0).setVar id none, m)
    else return (l.set id (host.place m.allocas), { m with allocas := m.allocas + 1 })
  | .load w ptr => do
    defined (integerWidth w)
    match variableOf slots ptr with
    | some a =>
      let v ← defined (l.vars a)
      return (l.set id v, m)
    | none =>
      let p ← defined (l.read 64 ptr)
      defined (appRange p (storeSize w))
      return (l.set id (loadBytes m.mem p (storeSize w) % 2 ^ w), m)
  | .store w v ptr => do
    defined (integerWidth w)
    let x ← defined (l.read w v)
    match variableOf slots ptr with
    | some a => return (l.setVar a (some x), m)
    | none =>
      let p ← defined (l.read 64 ptr)
      defined (appRange p (storeSize w))
      return (l, { m with mem := storeBytes m.mem p (storeSize w) x })
  | .memset dest v len => do
    let p ← defined (l.read 64 dest)
    let x ← defined (l.read 8 v)
    let n ← defined (l.read 64 len)
    defined (appRange p n)
    return (l, { m with mem := written p (fun _ => UInt8.ofNat x) n m.mem })
  | .memTransfer dest src len => do
    let p ← defined (l.read 64 dest)
    let q ← defined (l.read 64 src)
    let n ← defined (l.read 64 len)
    defined (appRange p n)
    defined (appRange q n)
    return (l, { m with mem := written p (fun i => m.mem (q + i)) n m.mem })
  | .pread buf count offset => do
    let p ← defined (l.read 64 buf)
    let n ← defined (l.read 64 count)
    let o ← defined (l.read 64 offset)
    let ret := preadResult host.content n o
    defined (appRange p ret)
    return (l.set id ret,
      { m with mem := written p (fun i => host.content.getD (o + i) 0) ret m.mem })
  | .call _ _ _ => .error .undefined

/-- An activation with the instructions it has still to run in its block. While a call runs, it
stays the next instruction of the caller. -/
structure IrFrame where
  func : IrFunction
  block : Nat
  rest : List (Nat × IrInst)
  term : IrTerm
  locals : Locals

structure IrState where
  frames : List IrFrame
  memory : IrMemory
  result : Option Nat := none

/-- The values of the phi nodes of a block that is entered from block `p`. -/
def phiValues (l : Locals) (p : Nat) (phis : List IrPhi) : Option (List (Nat × Nat)) :=
  phis.mapM fun φ => do
    let v ← φ.incoming.lookup p
    let x ← l.read φ.width v
    return (φ.id, x)

/-- All phi nodes of a block get their values at once. -/
def Locals.setAll (l : Locals) (xs : List (Nat × Nat)) : Locals :=
  { l with regs := fun id => (xs.lookup id).or (l.regs id) }

def IrFrame.jump (f : IrFrame) (target : Nat) : Except Stop IrFrame := do
  let b ← defined f.func.blocks[target]?
  let xs ← defined (phiValues f.locals f.block b.phis)
  return { f with block := target, rest := b.body, term := b.term, locals := f.locals.setAll xs }

/-- The callers after a function has returned. -/
def returnTo (x : Option Nat) : List IrFrame → Except Stop (List IrFrame)
  | [] => .ok []
  | f :: fs =>
    match f.rest with
    | (id, .call _ _ _) :: rest =>
      .ok ({ f with rest := rest, locals := x.elim f.locals (f.locals.set id) } :: fs)
    | _ => .error .undefined

/-- The target that a terminator goes to. -/
def IrTerm.target (l : Locals) : IrTerm → Except Stop Nat
  | .br target => .ok target
  | .condBr c t e => do
    let x ← defined (l.read 1 c)
    return if x = 1 then t else e
  | .switch w c cases default => do
    let x ← defined (l.read w c)
    return (cases.lookup x).getD default
  | .ret _ => .error .undefined

/-- The value that a function returns, which there is exactly when its type is not void. -/
def returnValue (l : Locals) (type : Option Nat) (v : Option (Nat × IrValue)) :
    Except Stop (Option Nat) :=
  match type, v with
  | some _, some (w, v) => do
    let x ← defined (l.read w v)
    return some x
  | none, none => .ok none
  | _, _ => .error .undefined

def argValues (l : Locals) (args : List (Nat × IrValue)) : Option (List Nat) :=
  args.mapM fun a => l.read a.1 a.2

/-- The activation of a callee at the start of its entry block. -/
def IrFunction.start (g : IrFunction) (args : List Nat) (ret : Option Nat) :
    Except Stop IrFrame := do
  defined (if args.length = g.params ∧ g.ret = ret then some () else none)
  let b ← defined g.blocks[0]?
  return ⟨g, 0, b.body, b.term, .enter args⟩

/-- One step of the program itself, without any instrumentation. A program that has returned stays
where it is. -/
def IrState.step (host : IrHost) (m : List IrFunction) (s : IrState) : Except Stop IrState :=
  match s.frames with
  | [] => .ok s
  | f :: fs =>
    match f.rest with
    | (_, .call callee args ret) :: _ => do
      let g ← defined m[callee]?
      let xs ← defined (argValues f.locals args)
      let frame ← g.start xs ret
      return { s with frames := frame :: f :: fs }
    | (id, i) :: rest => do
      let (l, memory) ← execInst host f.func.promoted id f.locals s.memory i
      return { s with frames := { f with rest := rest, locals := l } :: fs, memory := memory }
    | [] =>
      match f.term with
      | .ret v => do
        let x ← returnValue f.locals f.func.ret v
        let frames ← returnTo x fs
        return { s with frames := frames, result := if fs.isEmpty then x else s.result }
      | term => do
        let target ← term.target f.locals
        let frame ← f.jump target
        return { s with frames := frame :: fs }

/-- A program that calls a function with no other activation. -/
def IrState.start (main : IrFunction) (args : List Nat) (m : IrMemory) : Except Stop IrState := do
  let frame ← main.start args main.ret
  return { frames := [frame], memory := m }

/-- What a program has computed when it is done: its result and its memory. -/
def IrState.outcome (s : IrState) : Option (Option Nat × IrMemory) :=
  if s.frames.isEmpty then some (s.result, s.memory) else none

end Kirenenko
