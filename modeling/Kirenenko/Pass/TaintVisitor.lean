import Kirenenko.Pass.LabelFlow

namespace Kirenenko
set_option autoImplicit true

/-- A value of the shadow type: the constant `ZeroShadow`, the shadow of an argument, or what the
instrumentation of an instruction computes. -/
inductive Shadow where
  | zero
  | arg (i : Nat)
  | inst (id : Nat)
deriving DecidableEq

/-- What a call of `__taint_union` takes from the instruction it stands before. -/
structure UnionSite where
  resultWidth : Nat
  operandWidth : Nat
  predicate : Option IntPredicate
  op1 : Nat × IrValue
  op2 : Option (Nat × IrValue)
deriving DecidableEq

/-- Instrumented code: the instructions of the program and those the pass inserts. -/
inductive Code where
  | app (id : Nat) (i : IrInst)
  | taintUnion (id : Nat) (v1 v2 : Shadow) (op : Nat) (site : UnionSite)
  | select (id : Nat) (c : IrValue) (t e : Shadow)
  | traceCond (id : Option Nat) (s : Shadow) (c : IrValue)
  | traceCmp (k : Nat) (s : Shadow) (w : Nat) (c : IrValue) (cv : Nat)
  | allocaShadow (a : Nat)
  | loadAlloca (id a : Nat)
  | storeAlloca (a : Nat) (s : Shadow)
  | taintUnionLoad (id : Nat) (ptr : IrValue) (n : Nat)
  | taintUnionStore (s : Shadow) (ptr : IrValue) (n : Nat)
  | storeZero (ptr : IrValue) (n : Nat)
  | setLabel (s : Shadow) (dest len : IrValue)
  | copyShadow (dest src len : IrValue)
  | storeArgTls (i : Nat) (s : Shadow)
  | loadArgTls (i : Nat)
  | storeRetvalTls (s : Shadow)
  | loadRetvalTls (id : Nat)
  | dfswPread (id : Nat) (buf count offset : IrValue)
deriving DecidableEq

namespace TaintVisitor

/-- `combineShadows`: a call before the instruction, unless both shadows are the constant zero or
the result is too wide. -/
def combineShadows (id : Nat) (v1 v2 : Shadow) (op : Nat) (site : UnionSite) :
    List Code × Shadow :=
  if v1 = .zero ∧ v2 = .zero then ([], v1)
  else if site.resultWidth > 64 then ([], .zero)
  else ([.taintUnion id v1 v2 op site], .inst id)

/-- The code of an instruction whose shadow is computed before it, and the shadow. -/
def before (id : Nat) (i : IrInst) (x : List Code × Shadow) : List Code × Option Shadow :=
  (x.1 ++ [.app id i], some x.2)

def visitBinaryOperator (sh : IrValue → Shadow) (id : Nat) (op : BinaryOps) (w : Nat)
    (a b : IrValue) : List Code × Option Shadow :=
  before id (.binary op w a b) (combineShadows id (sh a) (sh b)
    (binaryShadowOp op w a.operand b.operand) ⟨w, w, none, (w, a), some (w, b)⟩)

def visitCastInst (sh : IrValue → Shadow) (id : Nat) (op : CastOps) (w w' : Nat) (a : IrValue) :
    List Code × Option Shadow :=
  before id (.cast op w w' a) (combineShadows id (sh a) .zero op.opcode.code
    ⟨w', w, none, (w, a), none⟩)

def visitCmpInst (sh : IrValue → Shadow) (id : Nat) (p : IntPredicate) (w : Nat)
    (a b : IrValue) : List Code × Option Shadow :=
  before id (.icmp p w a b) (combineShadows id (sh a) (sh b) Operators.ICmp.code
    ⟨1, w, some p, (w, a), some (w, b)⟩)

/-- A condition whose shadow is the constant zero is not traced. -/
def visitCondition (id : Option Nat) (s : Shadow) (c : IrValue) : List Code :=
  if s = .zero then [] else [.traceCond id s c]

def visitSelectInst (sh : IrValue → Shadow) (id w : Nat) (c a b : IrValue) :
    List Code × Option Shadow :=
  let sel : List Code × Shadow :=
    if sh a = sh b then ([], sh a) else ([.select id c (sh a) (sh b)], .inst id)
  (sel.1 ++ visitCondition (some id) (sh c) c ++ [.app id (.select w c a b)], some sel.2)

def visitAllocaInst (slots : List Nat) (id w : Nat) : List Code × Option Shadow :=
  ((if id ∈ slots then [.allocaShadow id] else []) ++ [.app id (.alloca w)], some .zero)

/-- `loadShadow`: from the shadow of an alloca or from the shadow memory. -/
def visitLoadInst (slots : List Nat) (id w : Nat) (ptr : IrValue) : List Code × Option Shadow :=
  match variableOf slots ptr with
  | some a => ([.loadAlloca id a, .app id (.load w ptr)], some (.inst id))
  | none => ([.taintUnionLoad id ptr (storeSize w), .app id (.load w ptr)], some (.inst id))

/-- `storeShadow`; the constant zero is stored directly. -/
def visitStoreInst (sh : IrValue → Shadow) (slots : List Nat) (id w : Nat) (v ptr : IrValue) :
    List Code × Option Shadow :=
  let code : Code :=
    match variableOf slots ptr with
    | some a => .storeAlloca a (sh v)
    | none =>
      if sh v = .zero then .storeZero ptr (storeSize w)
      else .taintUnionStore (sh v) ptr (storeSize w)
  ([code, .app id (.store w v ptr)], none)

def visitMemSetInst (sh : IrValue → Shadow) (id : Nat) (dest v len : IrValue) :
    List Code × Option Shadow :=
  ([.setLabel (sh v) dest len, .app id (.memset dest v len)], none)

def visitMemTransferInst (id : Nat) (dest src len : IrValue) : List Code × Option Shadow :=
  ([.copyShadow dest src len, .app id (.memTransfer dest src len)], none)

/-- The call of an instrumented function: the shadows of the arguments go through one array and the
one of the result through a variable, both local to the thread. -/
def visitCallSite (sh : IrValue → Shadow) (id callee : Nat) (args : List (Nat × IrValue))
    (ret : Option Nat) : List Code × Option Shadow :=
  let stores := args.zipIdx.map fun x => Code.storeArgTls x.2 (sh x.1.2)
  match ret with
  | some _ => (stores ++ [.app id (.call callee args ret), .loadRetvalTls id], some (.inst id))
  | none => (stores ++ [.app id (.call callee args ret)], none)

def visitInst (sh : IrValue → Shadow) (slots : List Nat) (id : Nat) :
    IrInst → List Code × Option Shadow
  | .binary op w a b => visitBinaryOperator sh id op w a b
  | .cast op w w' a => visitCastInst sh id op w w' a
  | .icmp p w a b => visitCmpInst sh id p w a b
  | .select w c a b => visitSelectInst sh id w c a b
  | .gep base index scale => ([.app id (.gep base index scale)], none)
  | .alloca w => visitAllocaInst slots id w
  | .load w ptr => visitLoadInst slots id w ptr
  | .store w v ptr => visitStoreInst sh slots id w v ptr
  | .memset dest v len => visitMemSetInst sh id dest v len
  | .memTransfer dest src len => visitMemTransferInst id dest src len
  | .pread buf count offset => ([.dfswPread id buf count offset], some (.inst id))
  | .call callee args ret => visitCallSite sh id callee args ret

/-- One call of `__taint_trace_cmp` for each case. -/
def visitSwitchInst (s : Shadow) (w : Nat) (c : IrValue) (cases : List (Nat × Nat)) : List Code :=
  if s = .zero then []
  else cases.zipIdx.map fun y => .traceCmp y.2 s w c (y.1.1 % 2 ^ w % 2 ^ 64)

def visitTerminator (sh : IrValue → Shadow) : IrTerm → List Code
  | .br _ => []
  | .condBr c _ _ => visitCondition none (sh c) c
  | .switch w c cases _ => visitSwitchInst (sh c) w c cases
  | .ret v => (v.toList.map fun v => .storeRetvalTls (sh v.2))

end TaintVisitor

/-- The operands whose shadows the visitor asks for. -/
def IrInst.shadowOperands : IrInst → List IrValue
  | .binary _ _ a b => [a, b]
  | .cast _ _ _ a => [a]
  | .icmp _ _ a b => [a, b]
  | .select _ c a b => [a, b, c]
  | .store _ v _ => [v]
  | .memset _ v _ => [v]
  | .pread buf count offset => [buf, count, offset]
  | .call _ args _ => args.map Prod.snd
  | _ => []

/-- What the pass keeps while it visits a function: the shadows of the instructions it has visited,
the arguments whose shadows it loads at the entry, and the allocas that have a shadow of their
own. -/
structure TaintFunction where
  valShadowMap : Nat → Option Shadow
  args : List Nat
  allocaShadowMap : List Nat

namespace TaintFunction

def initial : TaintFunction := ⟨fun _ => none, [], []⟩

def setShadow (TF : TaintFunction) (id : Nat) (s : Shadow) : TaintFunction :=
  { TF with valShadowMap := Function.update TF.valShadowMap id (some s) }

/-- The shadow that `getShadow` returns: for an instruction that has none yet it is zero. -/
def shadow (TF : TaintFunction) : IrValue → Shadow
  | .const _ => .zero
  | .arg i => .arg i
  | .inst id => (TF.valShadowMap id).getD .zero

/-- What `getShadow` leaves behind: the load of an argument's shadow, and the zero it gave to an
instruction that had none. -/
def demand (TF : TaintFunction) : IrValue → TaintFunction
  | .const _ => TF
  | .arg i => if i ∈ TF.args then TF else { TF with args := i :: TF.args }
  | .inst id => TF.setShadow id ((TF.valShadowMap id).getD .zero)

def demandAll (TF : TaintFunction) (vs : List IrValue) : TaintFunction := vs.foldl demand TF

def noteAlloca (TF : TaintFunction) (f : IrFunction) (id : Nat) : IrInst → TaintFunction
  | .alloca _ =>
    if f.allLoadsStores id then { TF with allocaShadowMap := id :: TF.allocaShadowMap } else TF
  | _ => TF

def visit (TF : TaintFunction) (f : IrFunction) (id : Nat) (i : IrInst) :
    List Code × TaintFunction :=
  let TF := (TF.demandAll i.shadowOperands).noteAlloca f id i
  let (code, s) := TaintVisitor.visitInst TF.shadow TF.allocaShadowMap id i
  (code, s.elim TF (TF.setShadow id))

/-- The shadow of a phi node is a phi node; its operands are filled in at the end. -/
def visitPHINode (TF : TaintFunction) (φ : IrPhi) : TaintFunction :=
  TF.setShadow φ.id (.inst φ.id)

def visitBody (f : IrFunction) : TaintFunction → List (Nat × IrInst) → List Code × TaintFunction
  | TF, [] => ([], TF)
  | TF, (id, i) :: rest =>
    let (code, TF) := TF.visit f id i
    let (codes, TF) := visitBody f TF rest
    (code ++ codes, TF)

def visitBlock (TF : TaintFunction) (f : IrFunction) (b : IrBlock) : List Code × TaintFunction :=
  let TF := b.phis.foldl visitPHINode TF
  let (code, TF) := visitBody f TF b.body
  let TF := TF.demandAll b.term.operands
  (code ++ TaintVisitor.visitTerminator TF.shadow b.term, TF)

def visitBlocks (f : IrFunction) : TaintFunction → List Nat → List (Nat × List Code) × TaintFunction
  | TF, [] => ([], TF)
  | TF, b :: bs =>
    match f.blocks[b]? with
    | none => visitBlocks f TF bs
    | some blk =>
      let (code, TF) := TF.visitBlock f blk
      let (codes, TF) := visitBlocks f TF bs
      ((b, code) :: codes, TF)

end TaintFunction

/-- The blocks in the order in which the pass visits them. -/
def IrFunction.visitOrder (f : IrFunction) : List Nat :=
  depthFirst f.successors
    (1 + pendingEdges f.successors [] (List.range f.blocks.length)) [0] []

structure CodeBlock where
  phis : List IrPhi
  shadowPhis : List (Nat × List (Nat × Shadow))
  body : List Code
  term : IrTerm

structure CodeFunction where
  name : String
  params : Nat
  ret : Option Nat
  slots : List Nat
  block : Nat → Option CodeBlock

/-- The state of the pass after all blocks, and the code of each. -/
def IrFunction.visited (f : IrFunction) : List (Nat × List Code) × TaintFunction :=
  TaintFunction.visitBlocks f .initial f.visitOrder

/-- The final shadow of a value. The operands of the phi nodes are asked for only then. -/
def IrFunction.shadow (f : IrFunction) : IrValue → Shadow := f.visited.2.shadow

/-- The arguments whose shadows are loaded at the entry: those asked for by an instruction, and
those that only phi nodes use. -/
def IrFunction.shadowArgs (f : IrFunction) : List Nat :=
  (f.visited.2.demandAll (f.visitOrder.flatMap fun b =>
    (f.blocks[b]?).elim [] fun blk =>
      blk.phis.flatMap fun φ => φ.incoming.map Prod.snd)).args

/-- The function that the pass leaves behind. -/
def IrFunction.instrument (f : IrFunction) : CodeFunction where
  name := f.name
  params := f.params
  ret := f.ret
  slots := f.promoted
  block b := do
    let blk ← f.blocks[b]?
    let code ← f.visited.1.lookup b
    return { phis := blk.phis
             shadowPhis := blk.phis.map fun φ =>
               (φ.id, φ.incoming.map fun x => (x.1, f.shadow x.2))
             body := (if b = 0 then f.shadowArgs.map .loadArgTls else []) ++ code
             term := blk.term }

end Kirenenko
