import Kirenenko.Pass.TaintVisitor

namespace Kirenenko
set_option autoImplicit true

/-- The length of the array `__dfsan_arg_tls`. -/
def argTlsSize : Nat := 64

/-- An activation of instrumented code: next to the values of the program it has registers for the
shadows of instructions and arguments, and the shadows of allocas. -/
structure CodeFrame where
  func : CodeFunction
  block : Nat
  rest : List Code
  term : IrTerm
  locals : Locals
  shadows : Nat → Option Nat := fun _ => none
  args : Nat → Option Nat := fun _ => none
  slots : Nat → Option Nat := fun _ => none

/-- What instrumented code shares between its activations. -/
structure CodeStore (σ : Type) where
  memory : IrMemory
  labels : LabelStore σ
  argTls : Nat → Nat
  retvalTls : Nat

structure CodeState (σ : Type) where
  frames : List CodeFrame
  store : CodeStore σ
  result : Option Nat := none

def CodeFrame.eval (f : CodeFrame) : Shadow → Option Nat
  | .zero => some 0
  | .arg i => f.args i
  | .inst id => f.shadows id

def CodeFrame.setShadow (f : CodeFrame) (id label : Nat) : CodeFrame :=
  { f with shadows := Function.update f.shadows id (some label) }

def CodeFrame.setSlot (f : CodeFrame) (a : Nat) (label : Option Nat) : CodeFrame :=
  { f with slots := Function.update f.slots a label }

/-- The call that an activation waits for. -/
def CodeFrame.site (f : CodeFrame) : TraceSite :=
  ⟨f.func.name, f.block, f.rest.head?.bind fun
    | .app id _ => some id
    | _ => none⟩

def readOptional (l : Locals) : Option (Nat × IrValue) → Except Stop (Option Nat)
  | none => .ok none
  | some (w, v) => do
    let x ← defined (l.read w v)
    return some x

section
variable {σ : Type}

def CodeStore.withLabels (s : CodeStore σ) (S : LabelStore σ) : CodeStore σ :=
  { s with labels := S }

def CodeStore.withTable (s : CodeStore σ) (t : LabelTable) : CodeStore σ :=
  { s with labels := { s.labels with table := t } }

def CodeStore.withShadow (s : CodeStore σ) (shadow : Nat → Nat) : CodeStore σ :=
  { s with labels := { s.labels with shadow := shadow } }

/-- One instruction of instrumented code, except for calls of instrumented functions. -/
def execCode (R : Reaction σ) (host : IrHost) (callers : List TraceSite) (f : CodeFrame)
    (s : CodeStore σ) : Code → Except Stop (CodeFrame × CodeStore σ)
  | .app id i => do
    let (l, memory) ← execInst host f.func.slots id f.locals s.memory i
    return ({ f with locals := l }, { s with memory := memory })
  | .taintUnion id v1 v2 op site => do
    let l1 ← defined (f.eval v1)
    let l2 ← defined (f.eval v2)
    let x ← defined (f.locals.read site.op1.1 site.op1.2)
    let y ← readOptional f.locals site.op2
    let pos : Position := ⟨site.resultWidth, site.operandWidth, site.predicate, x, y⟩
    let (label, t) ← runtime (taintUnion s.labels.table (pos.key (some l1) (some l2) op))
    return (f.setShadow id label, s.withTable t)
  | .select id c t e => do
    let k ← defined (f.locals.read 1 c)
    let lt ← defined (f.eval t)
    let le ← defined (f.eval e)
    return (f.setShadow id (if k = 1 then lt else le), s)
  | .traceCond id v c => do
    let label ← defined (f.eval v)
    let x ← defined (f.locals.read 1 c)
    let S ← s.labels.trace R s.memory.mem
      (.cond (⟨f.func.name, f.block, id⟩ :: callers) label x)
    return (f, s.withLabels S)
  | .traceCmp k v w c cv => do
    let label ← defined (f.eval v)
    let x ← defined (f.locals.read w c)
    let S ← s.labels.trace R s.memory.mem
      (.cmp (⟨f.func.name, f.block, none⟩ :: callers) k label w (x % 2 ^ 64) cv)
    return (f, s.withLabels S)
  | .allocaShadow a => .ok (f.setSlot a none, s)
  | .loadAlloca id a => do
    let label ← defined (f.slots a)
    return (f.setShadow id label, s)
  | .storeAlloca a v => do
    let label ← defined (f.eval v)
    return (f.setSlot a (some label), s)
  | .taintUnionLoad id ptr n => do
    let p ← defined (f.locals.read 64 ptr)
    defined (appRange p n)
    let (label, t) ← runtime (taintUnionLoad s.labels.table (fun i => s.memory.mem (p + i))
      (fun i => s.labels.shadow (p + i)) n)
    return (f.setShadow id label, s.withTable t)
  | .taintUnionStore v ptr n => do
    let label ← defined (f.eval v)
    let p ← defined (f.locals.read 64 ptr)
    defined (appRange p n)
    let (ls, t) ← runtime (taintUnionStore s.labels.table label
      (fun i => s.labels.shadow (p + i)) n)
    return (f, (s.withTable t).withShadow (written p ls n s.labels.shadow))
  | .storeZero ptr n => do
    let p ← defined (f.locals.read 64 ptr)
    defined (appRange p n)
    return (f, s.withShadow (written p (fun _ => 0) n s.labels.shadow))
  | .setLabel v dest len => do
    let label ← defined (f.eval v)
    let p ← defined (f.locals.read 64 dest)
    let n ← defined (f.locals.read 64 len)
    defined (appRange p n)
    return (f, s.withShadow (written p (fun _ => label) n s.labels.shadow))
  | .copyShadow dest src len => do
    let p ← defined (f.locals.read 64 dest)
    let q ← defined (f.locals.read 64 src)
    let n ← defined (f.locals.read 64 len)
    defined (appRange p n)
    defined (appRange q n)
    return (f, s.withShadow (written p (fun i => s.labels.shadow (q + i)) n s.labels.shadow))
  | .storeArgTls i v => do
    let label ← defined (f.eval v)
    defined (if i < argTlsSize then some () else none)
    return (f, { s with argTls := Function.update s.argTls i label })
  | .loadArgTls i => .ok ({ f with args := Function.update f.args i (some (s.argTls i)) }, s)
  | .storeRetvalTls v => do
    let label ← defined (f.eval v)
    return (f, { s with retvalTls := label })
  | .loadRetvalTls id => .ok (f.setShadow id s.retvalTls, s)
  | .dfswPread id buf count offset => do
    let (l, memory) ← execInst host f.func.slots id f.locals s.memory (.pread buf count offset)
    let p ← defined (f.locals.read 64 buf)
    let n ← defined (f.locals.read 64 count)
    let o ← defined (f.locals.read 64 offset)
    let labels := written p (fun i => (o + i + constOffset) % 2 ^ 32)
      (preadResult host.content n o) s.labels.shadow
    return ({ f with locals := l }.setShadow id 0,
      { s with memory := memory, labels := { s.labels with shadow := labels } })

/-- The shadows of the phi nodes of a block that is entered from block `p`. -/
def CodeFrame.phiShadows (f : CodeFrame) (phis : List (Nat × List (Nat × Shadow))) :
    Option (List (Nat × Nat)) :=
  phis.mapM fun φ => do
    let v ← φ.2.lookup f.block
    let label ← f.eval v
    return (φ.1, label)

def CodeFrame.jump (f : CodeFrame) (target : Nat) : Except Stop CodeFrame := do
  let b ← defined (f.func.block target)
  let xs ← defined (phiValues f.locals f.block b.phis)
  let ls ← defined (f.phiShadows b.shadowPhis)
  return { f with block := target, rest := b.body, term := b.term, locals := f.locals.setAll xs,
                  shadows := fun id => (ls.lookup id).or (f.shadows id) }

def returnToCode (x : Option Nat) : List CodeFrame → Except Stop (List CodeFrame)
  | [] => .ok []
  | f :: fs =>
    match f.rest with
    | .app id (.call _ _ _) :: rest =>
      .ok ({ f with rest := rest, locals := x.elim f.locals (f.locals.set id) } :: fs)
    | _ => .error .undefined

def CodeFunction.start (g : CodeFunction) (args : List Nat) (ret : Option Nat) :
    Except Stop CodeFrame := do
  defined (if args.length = g.params ∧ g.ret = ret then some () else none)
  let b ← defined (g.block 0)
  return { func := g, block := 0, rest := b.body, term := b.term, locals := .enter args }

/-- One step of instrumented code. -/
def CodeState.step (R : Reaction σ) (host : IrHost) (m : List CodeFunction) (s : CodeState σ) :
    Except Stop (CodeState σ) :=
  match s.frames with
  | [] => .ok s
  | f :: fs =>
    match f.rest with
    | .app _ (.call callee args ret) :: _ => do
      let g ← defined m[callee]?
      let xs ← defined (argValues f.locals args)
      let frame ← g.start xs ret
      return { s with frames := frame :: f :: fs }
    | code :: rest => do
      let (f, store) ← execCode R host (fs.map CodeFrame.site) f s.store code
      return { s with frames := { f with rest := rest } :: fs, store := store }
    | [] =>
      match f.term with
      | .ret v => do
        let x ← returnValue f.locals f.func.ret v
        let frames ← returnToCode x fs
        return { s with frames := frames, result := if fs.isEmpty then x else s.result }
      | term => do
        let target ← term.target f.locals
        let frame ← f.jump target
        return { s with frames := frame :: fs }

/-- Both variables for labels are zero when the first function is called. -/
def CodeState.start (main : CodeFunction) (args : List Nat) (m : IrMemory) (S : LabelStore σ) :
    Except Stop (CodeState σ) := do
  let frame ← main.start args main.ret
  return { frames := [frame], store := ⟨m, S, fun _ => 0, 0⟩ }

def CodeState.outcome (s : CodeState σ) : Option (Outcome σ) :=
  if s.frames.isEmpty then
    some ⟨s.result.map fun x => (x, s.store.retvalTls), s.store.memory, s.store.labels⟩
  else none

/-- `k` steps of instrumented code. -/
def CodeState.run (R : Reaction σ) (host : IrHost) (m : List CodeFunction) :
    Nat → CodeState σ → Except Stop (CodeState σ) :=
  stepsOf (CodeState.step R host m)

end

end Kirenenko
