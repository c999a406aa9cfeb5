import Kirenenko.Pass.SolverReaction
import Kirenenko.Runtime.TableCongruence

namespace Kirenenko
set_option autoImplicit true

/-- Two activations that have got as far, and hold the same wherever there is no label. -/
structure LocalsAlike (g : LabelFrame) (l l' : Locals) : Prop where
  args : ∀ i : Nat, g.args i = 0 → l'.args[i]? = l.args[i]?
  regs : ∀ id, g.regs id = 0 → l'.regs id = l.regs id
  vars : ∀ a, g.vars a = 0 → l'.vars a = l.vars a
  passed : l'.args.length = l.args.length
  assigned : ∀ id, (l'.regs id).isSome = (l.regs id).isSome

/-- Two calls that differ at most in the value they tell of. -/
inductive TraceCall.Alike : TraceCall → TraceCall → Prop where
  | cond {label r r' : Nat} : TraceCall.Alike (.cond stack label r) (.cond stack label r')
  | cmp {label c1 c1' c2 : Nat} :
      TraceCall.Alike (.cmp stack k label size c1 c2) (.cmp stack k label size c1' c2)

/-- What a call tells of a branch or of a case. -/
def TraceCall.outcome : TraceCall → Nat
  | .cond _ _ r => r
  | .cmp _ _ _ _ c1 c2 => (decide (c1 = c2)).toNat

/-- The expression that the runtime makes for a call; for a case it is that of a new label. -/
def TraceCall.Expression (z : Z3) (mem : Memory) (t : LabelTable) (e : Term) : TraceCall → Prop
  | .cond _ label _ => ∃ deps t', serialize z mem (label + 1) label ∅ t = .ok (e, deps) t'
  | .cmp _ _ label w c1 c2 => ∃ temp t₁ deps t',
    dfsanUnion t (traceCmpKey label 0 w Predicate.bveq.code c1 c2) = .ok (temp, t₁) ∧
      serialize z mem (temp + 1) temp ∅ t₁ = .ok (e, deps) t'

/-- The branch that a call tells of is decided in the same way on another input. -/
def TraceCall.HoldsOn (z : Z3) (t : LabelTable) (env : Env) (c : TraceCall) : Prop :=
  c.label ≠ 0 → ∃ mem e, c.Expression z mem t e ∧ e.eval env = c.outcome

/-- An instruction that does not depend on the input but through the values it computes: where it
accesses memory, and how much, has no label. -/
def IrInst.Clean (slots : List Nat) (g : LabelFrame) : IrInst → Prop
  | .gep base index _ => g.label base = 0 ∧ g.label index = 0
  | .load _ ptr => variableOf slots ptr = none → g.label ptr = 0
  | .store _ _ ptr => variableOf slots ptr = none → g.label ptr = 0
  | .memset dest _ len => g.label dest = 0 ∧ g.label len = 0
  | .memTransfer dest src len => g.label dest = 0 ∧ g.label src = 0 ∧ g.label len = 0
  | .pread buf count offset => g.label buf = 0 ∧ g.label count = 0 ∧ g.label offset = 0
  | _ => True

/-- Two files of the same length, in the same process layout. -/
structure HostAlike (host host' : IrHost) : Prop where
  place : host'.place = host.place
  length : host'.content.length = host.content.length

/-- Two memories with the same labels that hold the same wherever there is none. -/
structure StoreAlike {σ : Type} (Q : σ → σ → Prop) (m m' : IrMemory) (S S' : LabelStore σ) :
    Prop where
  mem : ∀ a, S.shadow a = 0 → m'.mem a = m.mem a
  allocas : m'.allocas = m.allocas
  shadow : S'.shadow = S.shadow
  table : SameKeys S.table S'.table
  solver : Q S.solver S'.solver

/-- Two runtimes that do the same to the table for calls that differ only in the value they tell
of. -/
def Reaction.Alike {σ : Type} (R R' : Reaction σ) (env env' : Env) (z : Z3) (size : Nat)
    (Q : σ → σ → Prop) : Prop :=
  ∀ c c' mem mem' s s' t t' u v u' v', TraceCall.Alike c c' → Q s s' → SameKeys t t' →
    SoundTable env z size t → SoundTable env' z size t' → c.Tells env z t → c'.Tells env' z t' →
    R.react c mem s t = .ok (u, v) → R'.react c' mem' s' t' = .ok (u', v') →
    Q u u' ∧ SameKeys v v'

section
variable {env env' : Env} {z : Z3} {t t' u u' : LabelTable} {τ τ' : IrTyping} {l l' : Locals}
  {g : LabelFrame} {id : Nat}

theorem LocalsAlike.read_eq (h : LocalsAlike g l l') (h0 : g.label v = 0) :
    l'.read w v = l.read w v := by
  cases v with
  | const c => rfl
  | arg i => exact h.args i h0
  | inst id => exact h.regs id h0

theorem LocalsAlike.read (h : LocalsAlike g l l') (h0 : g.label v = 0) (hx : l.read w v = some x)
    (hx' : l'.read w v = some x') : x' = x := by
  rw [h.read_eq h0, hx] at hx'
  cases hx'
  rfl

theorem LocalsAlike.read_isSome (h : LocalsAlike g l l') (w : Nat) (v : IrValue) :
    (l'.read w v).isSome = (l.read w v).isSome := by
  cases v with
  | const c => rfl
  | arg i =>
    change l'.args[i]?.isSome = l.args[i]?.isSome
    have hlen := h.passed
    rcases Nat.lt_or_ge i l.args.length with hi | hi
    · rw [List.getElem?_eq_getElem hi, List.getElem?_eq_getElem (by omega)]
      rfl
    · rw [List.getElem?_eq_none hi, List.getElem?_eq_none (by omega)]
  | inst id => exact h.assigned id

theorem LocalsAlike.set (h : LocalsAlike g l l') (hv : label = 0 → v' = v) :
    LocalsAlike (g.set id label) (l.set id v) (l'.set id v') where
  args := h.args
  regs := update_forall₃ (P := fun _ label r r' => label = 0 → r' = r) h.regs
    fun h0 => congrArg some (hv h0)
  vars := h.vars
  passed := h.passed
  assigned := update_forall₂ (P := fun _ (r r' : Option Nat) => r'.isSome = r.isSome) h.assigned
    rfl

theorem LocalsAlike.setVar (h : LocalsAlike g l l') (hv : label = 0 → v' = v) :
    LocalsAlike (g.setVar a label) (l.setVar a v) (l'.setVar a v') where
  args := h.args
  regs := h.regs
  vars := update_forall₃ (P := fun _ label r r' => label = 0 → r' = r) h.vars hv
  passed := h.passed
  assigned := h.assigned

theorem LocalsAlike.fresh (h : LocalsAlike g l l') (a : Nat) :
    LocalsAlike g (l.setVar a none) (l'.setVar a none) where
  args := h.args
  regs := h.regs
  vars b hb :=
    update_forall₂ (P := fun b r r' => g.vars b = 0 → r' = r) h.vars (fun _ => rfl) b hb
  passed := h.passed
  assigned := h.assigned

theorem related_ok {Q : α → β → Prop} {x : Except ε α} {y : Except ε β} (h : Related Q x y)
    (hx : x = .ok a) (hy : y = .ok b) : Q a b := by
  rw [hx, hy] at h
  exact h

/-- The label of a result does not depend on the values of labelled operands. -/
theorem combinedLabel_alike (hk : SameKeys t t') (hx : l1 = 0 → x' = x) (hy : l2 = 0 → y' = y)
    (hr : combinedLabel t l1 l2 op ⟨w, w', p, x, y⟩ = .ok (label, u))
    (hr' : combinedLabel t' l1 l2 op ⟨w, w', p, x', y'⟩ = .ok (label', u')) :
    label' = label ∧ SameKeys u u' := by
  have hrel : Related SameAnswer (combinedLabel t l1 l2 op ⟨w, w', p, x, y⟩)
      (combinedLabel t' l1 l2 op ⟨w, w', p, x', y'⟩) := by
    unfold combinedLabel
    split
    · exact ⟨rfl, hk⟩
    · apply hk.taintUnion
      refine ⟨rfl, rfl, rfl, rfl, ?_, ?_⟩
      · intro h0
        exact congrArg (· % 2 ^ 64) (hx h0)
      · intro h0
        exact congrArg (fun y : Option Nat => y.getD 0 % 2 ^ 64) (hy h0)
  obtain ⟨hl, hs⟩ := related_ok hrel hr hr'
  exact ⟨hl.symm, hs⟩

theorem SoundTable.combined_zero {pos : Position} (h : SoundTable env z size t)
    (hr : combinedLabel t l1 l2 op pos = .ok (label, t')) (hp : pos.resultWidth ≤ 64)
    (hop : isOrdinary (pos.op op) = true) (h1 : l1 ≤ t.lastLabel) (h2 : l2 ≤ t.lastLabel)
    (h0 : label = 0) : l1 = 0 ∧ l2 = 0 := by
  unfold combinedLabel at hr
  rw [if_neg (by omega)] at hr
  exact (h.union_ordinary (k := pos.key (some l1) (some l2) op) hop h1 h2 hr).2.zero h0

theorem binaryShadowOp_ordinary (op : BinaryOps) (w : Nat) (a b : Operand) :
    isOrdinary (binaryShadowOp op w a b) = true := by
  unfold binaryShadowOp
  split
  · decide
  · exact op.ordinary

section
variable {σ : Type} {R R' : Reaction σ} {Q : σ → σ → Prop} {J J' : σ → Prop} {S S' : LabelStore σ}
  {host host' : IrHost} {m m' : IrMemory}

theorem StoreAlike.withTable (h : StoreAlike Q m m' S S') (hk : SameKeys t t') :
    StoreAlike Q m m' { S with table := t } { S' with table := t' } :=
  ⟨h.mem, h.allocas, h.shadow, hk, h.solver⟩

theorem StoreAlike.written {b b' : Nat → UInt8} (h : StoreAlike Q m m' S S') (hk : SameKeys t t')
    (hb : ∀ i < n, ls i = 0 → b' i = b i) :
    StoreAlike Q ⟨written p b n m.mem, m.allocas⟩ ⟨written p b' n m'.mem, m'.allocas⟩
      ⟨written p ls n S.shadow, t, S.solver⟩ ⟨written p ls n S'.shadow, t', S'.solver⟩ where
  mem a ha := by
    change Kirenenko.written p ls n S.shadow a = 0 at ha
    change Kirenenko.written p b' n m'.mem a = Kirenenko.written p b n m.mem a
    unfold Kirenenko.written at ha ⊢
    by_cases hin : p ≤ a ∧ a < p + n
    · rw [if_pos hin] at ha ⊢
      rw [if_pos hin]
      exact hb _ (by omega) ha
    · rw [if_neg hin] at ha ⊢
      rw [if_neg hin]
      exact h.mem a ha
  allocas := h.allocas
  shadow := by
    change Kirenenko.written p ls n S'.shadow = Kirenenko.written p ls n S.shadow
    rw [h.shadow]
  table := hk
  solver := h.solver

/-- The expression of a label decides the value that it stands for in another run. -/
theorem decided_eval (h : SoundTable env z size t) (hk : SameKeys t t')
    (he : serialize z mem (label + 1) label ∅ t = .ok (e, deps) t₁)
    (hs : Stands env' z t' label w v) : e.eval env' = v := by
  have hl : label ≤ t.lastLabel := hk.lastLabel ▸ hs.label
  have hterm : termOf z mem t label = .ok e :=
    (Coherent.serialize (h.cached mem) h.ordered hl).1 ⟨deps, t₁, he⟩
  rw [← hk.extends.termOf h.ordered hl] at hterm
  exact ((hs.agrees mem).value e hterm).eval

theorem dfsanUnion_alike (hk : SameKeys t t') (hl : label ≠ 0)
    (hu : dfsanUnion t (traceCmpKey label 0 w p c1 c2) = .ok (temp, u)) :
    ∃ u', dfsanUnion t' (traceCmpKey label 0 w p c1' c2) = .ok (temp, u') ∧ SameKeys u u' := by
  have hrel : Related SameAnswer (dfsanUnion t (traceCmpKey label 0 w p c1 c2))
      (dfsanUnion t' (traceCmpKey label 0 w p c1' c2)) :=
    hk.taintUnion ⟨rfl, rfl, rfl, rfl, fun h0 => (hl h0).elim, fun _ => rfl⟩
  obtain ⟨⟨temp', u'⟩, hu', htemp, hkeys⟩ := hrel.ok_left hu
  cases htemp
  exact ⟨u', hu', hkeys⟩

theorem TraceCall.Alike.decided {c c' : TraceCall} (h : TraceCall.Alike c c') (hz : z.Lawful)
    (ht : SoundTable env z size t) (ht' : SoundTable env' z size t') (hk : SameKeys t t')
    (hc : c.Tells env z t) (hc' : c'.Tells env' z t') (hl : c.label ≠ 0)
    (he : c.Expression z mem t e) : e.eval env' = c'.outcome := by
  cases h with
  | cond =>
    obtain ⟨deps, t₁, he⟩ := he
    exact decided_eval ht hk he hc'
  | cmp =>
    obtain ⟨temp, u, deps, t₁, hu, he⟩ := he
    obtain ⟨hlo, hhi, hc2, hs⟩ := hc
    obtain ⟨_, _, _, hs'⟩ := hc'
    obtain ⟨u', hu', hkeys⟩ := dfsanUnion_alike hk hl hu
    obtain ⟨hsound, -, -⟩ := ht.traceCmp hz hu ⟨hlo, hhi⟩ hc2 hs
    obtain ⟨-, -, hst⟩ := ht'.traceCmp hz hu' ⟨hlo, hhi⟩ hc2 hs'
    exact decided_eval hsound hkeys he hst

theorem TraceCall.Alike.outcome_eq {c c' : TraceCall} (h : TraceCall.Alike c c') (hz : z.Lawful)
    (ht : SoundTable env z size t) (ht' : SoundTable env' z size t') (hk : SameKeys t t')
    (hc : c.Tells env z t) (hc' : c'.Tells env' z t') (hholds : c.HoldsOn z t env')
    (h0 : c.label = 0 → c'.value = c.value) : c'.outcome = c.outcome := by
  by_cases hl : c.label = 0
  · cases h with
    | cond => exact h0 hl
    | cmp => exact congrArg (fun x => (decide (x = _)).toNat) (h0 hl)
  · obtain ⟨mem, e, he, hr⟩ := hholds hl
    exact (h.decided hz ht ht' hk hc hc' hl he).symm.trans hr

theorem StoreAlike.trace (h : StoreAlike Q m m' S S') (hR : R.Alike R' env env' z size Q)
    (hcc : TraceCall.Alike c c') (hs : StoreStands env z size J S m.mem)
    (hs' : StoreStands env' z size J' S' m'.mem) (hc : c.Tells env z S.table)
    (hc' : c'.Tells env' z S'.table) (ht : S.trace R m.mem c = .ok S₁)
    (ht' : S'.trace R' m'.mem c' = .ok S₁') : StoreAlike Q m m' S₁ S₁' := by
  obtain ⟨⟨s, u⟩, hr, ht⟩ := except_bind_ok.1 ht
  obtain ⟨⟨s', u'⟩, hr', ht'⟩ := except_bind_ok.1 ht'
  cases ht
  cases ht'
  obtain ⟨hq, hk⟩ := hR c c' _ _ _ _ _ _ s u s' u' hcc h.solver h.table hs.table hs'.table hc hc'
    (runtime_ok.1 hr) (runtime_ok.1 hr')
  exact ⟨h.mem, h.allocas, h.shadow, hk, hq⟩

/-- Two activations at the same place of two runs, each with labels that stand for its values. -/
structure PairStands (env env' : Env) (z : Z3) (size : Nat) (J J' : σ → Prop) (Q : σ → σ → Prop)
    (τ τ' : IrTyping) (l l' : Locals) (m m' : IrMemory) (g : LabelFrame) (S S' : LabelStore σ) :
    Prop where
  frame : FrameStands env z S.table τ l g
  frame' : FrameStands env' z S'.table τ' l' g
  store : StoreStands env z size J S m.mem
  store' : StoreStands env' z size J' S' m'.mem
  locals : LocalsAlike g l l'
  memory : StoreAlike Q m m' S S'

/-- Two runs are left with the same labels, and with the same values where there is none. -/
def LeftAlike (Q : σ → σ → Prop) (g g' : LabelFrame) (l l' : Locals) (m m' : IrMemory)
    (S S' : LabelStore σ) : Prop :=
  g' = g ∧ LocalsAlike g l l' ∧ StoreAlike Q m m' S S'

section
variable {l₁ l₁' : Locals} {m₁ m₁' : IrMemory} {g₁ g₁' : LabelFrame} {S₁ S₁' : LabelStore σ}
  {slots : List Nat} {stack : List TraceSite} {a b c ptr v dest src len : IrValue}

theorem PairStands.combined {p : Option IntPredicate} {y y' : Option Nat}
    (hp : PairStands env env' z size J J' Q τ τ' l l' m m' g S S')
    (hc : combinedLabel S.table l1 l2 op ⟨w, w', p, x, y⟩ = .ok (label, t))
    (hc' : combinedLabel S'.table l1 l2 op ⟨w, w', p, x', y'⟩ = .ok (label', t'))
    (hw : w ≤ 64) (hop : isOrdinary (Position.op ⟨w, w', p, x, y⟩ op) = true)
    (h1 : l1 ≤ S.table.lastLabel) (h2 : l2 ≤ S.table.lastLabel) (hx : l1 = 0 → x' = x)
    (hy : l2 = 0 → y' = y) (hv : l1 = 0 → l2 = 0 → r' = r) :
    LeftAlike Q (g.set id label) (g.set id label') (l.set id r) (l'.set id r') m m'
      { S with table := t } { S' with table := t' } := by
  obtain ⟨rfl, hk⟩ := combinedLabel_alike hp.memory.table hx hy hc hc'
  refine ⟨rfl, hp.locals.set ?_, hp.memory.withTable hk⟩
  intro h0
  obtain ⟨hl1, hl2⟩ := hp.store.table.combined_zero hc hw hop h1 h2 h0
  exact hv hl1 hl2

theorem PairStands.binary (hp : PairStands env env' z size J J' Q τ τ' l l' m m' g S S')
    (hty : (IrInst.binary op w a b).Typed types τ slots id)
    (h : TaggedInst R host slots id stack l m g S (.binary op w a b) l₁ m₁ g₁ S₁)
    (h' : TaggedInst R' host' slots id stack l' m' g S' (.binary op w a b) l₁' m₁' g₁' S₁') :
    LeftAlike Q g₁ g₁' l₁ l₁' m₁ m₁' S₁ S₁' := by
  obtain ⟨ha, hb, _⟩ := hty
  cases h with
  | binary hw hx hy hv hc =>
    cases h' with
    | binary _ hx' hy' hv' hc' =>
      refine hp.combined hc hc' hw.2 (binaryShadowOp_ordinary ..) (hp.frame.read ha hx).label
        (hp.frame.read hb hy).label (fun h0 => hp.locals.read h0 hx hx')
        (fun h0 => congrArg some (hp.locals.read h0 hy hy')) ?_
      intro h1 h2
      rw [hp.locals.read h1 hx hx', hp.locals.read h2 hy hy', hv] at hv'
      cases hv'
      rfl

theorem PairStands.cast (hp : PairStands env env' z size J J' Q τ τ' l l' m m' g S S')
    (hty : (IrInst.cast op w w' a).Typed types τ slots id)
    (h : TaggedInst R host slots id stack l m g S (.cast op w w' a) l₁ m₁ g₁ S₁)
    (h' : TaggedInst R' host' slots id stack l' m' g S' (.cast op w w' a) l₁' m₁' g₁' S₁') :
    LeftAlike Q g₁ g₁' l₁ l₁' m₁ m₁' S₁ S₁' := by
  cases h with
  | cast hw hw' _ hx hc =>
    cases h' with
    | cast _ _ _ hx' hc' =>
      refine hp.combined hc hc' hw'.2 (CastOps.ordinary _) (hp.frame.read hty.1 hx).label
        (Nat.zero_le _) (fun h0 => hp.locals.read h0 hx hx') (fun _ => rfl) ?_
      intro h1 _
      rw [hp.locals.read h1 hx hx']

theorem PairStands.icmp (hp : PairStands env env' z size J J' Q τ τ' l l' m m' g S S')
    (hty : (IrInst.icmp p w a b).Typed types τ slots id)
    (h : TaggedInst R host slots id stack l m g S (.icmp p w a b) l₁ m₁ g₁ S₁)
    (h' : TaggedInst R' host' slots id stack l' m' g S' (.icmp p w a b) l₁' m₁' g₁' S₁') :
    LeftAlike Q g₁ g₁' l₁ l₁' m₁ m₁' S₁ S₁' := by
  obtain ⟨ha, hb, _⟩ := hty
  cases h with
  | icmp hw hx hy hc =>
    cases h' with
    | icmp _ hx' hy' hc' =>
      refine hp.combined hc hc' (by decide) (cmpOp_ordinary _) (hp.frame.read ha hx).label
        (hp.frame.read hb hy).label (fun h0 => hp.locals.read h0 hx hx')
        (fun h0 => congrArg some (hp.locals.read h0 hy hy')) ?_
      intro h1 h2
      rw [hp.locals.read h1 hx hx', hp.locals.read h2 hy hy']

theorem PairStands.select (hp : PairStands env env' z size J J' Q τ τ' l l' m m' g S S')
    (hz : z.Lawful) (hR : R.Alike R' env env' z size Q)
    (hty : (IrInst.select w c a b).Typed types τ slots id)
    (hty' : (IrInst.select w c a b).Typed types τ' slots id)
    (hholds : ∀ k, l.read 1 c = some k →
      (TraceCall.cond stack (g.label c) k).HoldsOn z S.table env')
    (h : TaggedInst R host slots id stack l m g S (.select w c a b) l₁ m₁ g₁ S₁)
    (h' : TaggedInst R' host' slots id stack l' m' g S' (.select w c a b) l₁' m₁' g₁' S₁') :
    LeftAlike Q g₁ g₁' l₁ l₁' m₁ m₁' S₁ S₁' := by
  cases h with
  | select _ hk hx hy ht =>
    cases h' with
    | select _ hk' hx' hy' ht' =>
      have hst := hp.frame.read hty.1 hk
      have hst' := hp.frame'.read hty'.1 hk'
      have hkk := TraceCall.Alike.outcome_eq .cond hz hp.store.table hp.store'.table
        hp.memory.table hst hst' (hholds _ hk) fun h0 => hp.locals.read h0 hk hk'
      simp only [TraceCall.outcome] at hkk
      refine ⟨by rw [hkk], hp.locals.set ?_,
        hp.memory.trace hR .cond hp.store hp.store' hst hst' ht ht'⟩
      rw [hkk]
      split
      · exact fun h0 => hp.locals.read h0 hx hx'
      · exact fun h0 => hp.locals.read h0 hy hy'

theorem PairStands.alloca (hp : PairStands env env' z size J J' Q τ τ' l l' m m' g S S')
    (hh : HostAlike host host')
    (h : TaggedInst R host slots id stack l m g S (.alloca w) l₁ m₁ g₁ S₁)
    (h' : TaggedInst R' host' slots id stack l' m' g S' (.alloca w) l₁' m₁' g₁' S₁') :
    LeftAlike Q g₁ g₁' l₁ l₁' m₁ m₁' S₁ S₁' := by
  have hst := hp.memory
  cases h with
  | promoted hslot =>
    cases h' with
    | promoted _ => exact ⟨rfl, (hp.locals.set fun _ => rfl).fresh _, hst⟩
    | alloca hne => exact (hne hslot).elim
  | alloca hne =>
    cases h' with
    | promoted hslot => exact (hne hslot).elim
    | alloca _ =>
      refine ⟨rfl, hp.locals.set fun _ => ?_,
        ⟨hst.mem, congrArg (· + 1) hst.allocas, hst.shadow, hst.table, hst.solver⟩⟩
      rw [hh.place, hst.allocas]

theorem PairStands.load (hp : PairStands env env' z size J J' Q τ τ' l l' m m' g S S')
    (hz : z.Lawful) (hty : (IrInst.load w ptr).Typed types τ slots id)
    (hex : (IrInst.load w ptr).ExactAt slots l m.mem S) (hclean : (IrInst.load w ptr).Clean slots g)
    (h : TaggedInst R host slots id stack l m g S (.load w ptr) l₁ m₁ g₁ S₁)
    (h' : TaggedInst R' host' slots id stack l' m' g S' (.load w ptr) l₁' m₁' g₁' S₁') :
    LeftAlike Q g₁ g₁' l₁ l₁' m₁ m₁' S₁ S₁' := by
  have hst := hp.memory
  cases h with
  | loadVar _ hv hx =>
    cases h' with
    | loadVar _ hv' hx' =>
      rw [hv] at hv'
      cases hv'
      refine ⟨rfl, hp.locals.set fun h0 => ?_, hst⟩
      rw [hp.locals.vars _ h0, hx] at hx'
      cases hx'
      rfl
    | load _ hv' =>
      rw [hv] at hv'
      cases hv'
  | @load _ _ p _ _ hw hv hr _ hc =>
    cases h' with
    | loadVar _ hv' =>
      rw [hv] at hv'
      cases hv'
    | load _ _ hr' _ hc' =>
      obtain ⟨_, hn0, hn⟩ := storeSize_whole hw (hty.1.2 hv).2
      cases hp.locals.read (hclean hv) hr hr'
      rw [hst.shadow] at hc'
      obtain ⟨rfl, hk⟩ := related_ok (hst.table.taintUnionLoad (fun i => hst.mem (p + i)) _) hc hc'
      obtain ⟨_, _, _, hzero⟩ := hp.store.table.load hz (fun j _ => hp.store.cells (p + j)) hn0 hn
        (hex hv p hr) hc
      refine ⟨rfl, hp.locals.set fun h0 => ?_, hst.withTable hk⟩
      rw [loadBytes_congr fun i hi => hst.mem (p + i) (hzero h0 i hi)]

theorem PairStands.store_inst (hp : PairStands env env' z size J J' Q τ τ' l l' m m' g S S')
    (hty : (IrInst.store w v ptr).Typed types τ slots id)
    (hclean : (IrInst.store w v ptr).Clean slots g)
    (h : TaggedInst R host slots id stack l m g S (.store w v ptr) l₁ m₁ g₁ S₁)
    (h' : TaggedInst R' host' slots id stack l' m' g S' (.store w v ptr) l₁' m₁' g₁' S₁') :
    LeftAlike Q g₁ g₁' l₁ l₁' m₁ m₁' S₁ S₁' := by
  have hst := hp.memory
  cases h with
  | storeVar _ hx hv =>
    cases h' with
    | storeVar _ hx' hv' =>
      rw [hv] at hv'
      cases hv'
      exact ⟨rfl, hp.locals.setVar fun h0 => congrArg some (hp.locals.read h0 hx hx'), hst⟩
    | store _ _ hv' =>
      rw [hv] at hv'
      cases hv'
  | store hw hx hv hr _ hc =>
    cases h' with
    | storeVar _ _ hv' =>
      rw [hv] at hv'
      cases hv'
    | store _ hx' _ hr' _ hc' =>
      obtain ⟨ha, hpt⟩ := hty
      obtain ⟨h8, hn0, hn⟩ := storeSize_whole hw (hpt.2 hv).2
      cases hp.locals.read (hclean hv) hr hr'
      rw [hst.shadow] at hc'
      obtain ⟨rfl, hk⟩ := related_ok (hst.table.taintUnionStore _ _ _) hc hc'
      have hsx := hp.frame.read ha hx
      rw [← h8] at hsx
      obtain ⟨_, _, hcells⟩ := hp.store.table.store hsx hn0 hn hc
      refine ⟨rfl, hp.locals, hst.written hk fun i hi h0 => ?_⟩
      rw [hp.locals.read ((hcells i hi).2 h0) hx hx']

theorem PairStands.memTransfer (hp : PairStands env env' z size J J' Q τ τ' l l' m m' g S S')
    (hclean : (IrInst.memTransfer dest src len).Clean slots g)
    (h : TaggedInst R host slots id stack l m g S (.memTransfer dest src len) l₁ m₁ g₁ S₁)
    (h' : TaggedInst R' host' slots id stack l' m' g S' (.memTransfer dest src len) l₁' m₁' g₁'
      S₁') :
    LeftAlike Q g₁ g₁' l₁ l₁' m₁ m₁' S₁ S₁' := by
  have hst := hp.memory
  cases h with
  | @memTransfer _ _ _ q _ _ hd hq hn _ _ =>
    cases h' with
    | memTransfer hd' hq' hn' _ _ =>
      cases hp.locals.read hclean.1 hd hd'
      cases hp.locals.read hclean.2.1 hq hq'
      cases hp.locals.read hclean.2.2 hn hn'
      have hcells : (fun i => S'.shadow (q + i)) = fun i => S.shadow (q + i) := by rw [hst.shadow]
      rw [hcells]
      exact ⟨rfl, hp.locals, hst.written hst.table fun i _ => hst.mem (q + i)⟩

theorem PairStands.pread (hp : PairStands env env' z size J J' Q τ τ' l l' m m' g S S')
    (hh : HostAlike host host') (hin : HostInput env size host)
    (hclean : (IrInst.pread a b c).Clean slots g)
    (h : TaggedInst R host slots id stack l m g S (.pread a b c) l₁ m₁ g₁ S₁)
    (h' : TaggedInst R' host' slots id stack l' m' g S' (.pread a b c) l₁' m₁' g₁' S₁') :
    LeftAlike Q g₁ g₁' l₁ l₁' m₁ m₁' S₁ S₁' := by
  have hst := hp.memory
  cases h with
  | @pread _ _ _ n _ o hd hn ho _ =>
    cases h' with
    | pread hd' hn' ho' _ =>
      cases hp.locals.read hclean.1 hd hd'
      cases hp.locals.read hclean.2.1 hn hn'
      cases hp.locals.read hclean.2.2 ho ho'
      have hret : preadResult host'.content n o = preadResult host.content n o := by
        unfold preadResult
        rw [hh.length]
      rw [hret]
      refine ⟨rfl, hp.locals.set fun _ => rfl, hst.written hst.table fun i hi h0 => ?_⟩
      -- The label of a byte that is read is not zero.
      rw [hp.store.table.pread_label (hin.pread_lt hi)] at h0
      cases h0

/-- An instruction does the same to the labels in both runs, and the same to values that have
none. -/
theorem TaggedInst.alike {i : IrInst}
    (h : TaggedInst R host slots id stack l m g S i l₁ m₁ g₁ S₁)
    (h' : TaggedInst R' host' slots id stack l' m' g S' i l₁' m₁' g₁' S₁')
    (hp : PairStands env env' z size J J' Q τ τ' l l' m m' g S S') (hz : z.Lawful)
    (hR : R.Alike R' env env' z size Q) (hh : HostAlike host host') (hin : HostInput env size host)
    (hty : i.Typed types τ slots id) (hty' : i.Typed types τ' slots id)
    (hex : i.ExactAt slots l m.mem S) (hclean : i.Clean slots g)
    (hholds : ∀ w c a b k, i = .select w c a b → l.read 1 c = some k →
      (TraceCall.cond stack (g.label c) k).HoldsOn z S.table env') :
    LeftAlike Q g₁ g₁' l₁ l₁' m₁ m₁' S₁ S₁' := by
  cases i with
  | binary op w a b => exact hp.binary hty h h'
  | cast op w w' a => exact hp.cast hty h h'
  | icmp p w a b => exact hp.icmp hty h h'
  | select w c a b =>
    exact hp.select hz hR hty hty' (fun k hk => hholds w c a b k rfl hk) h h'
  | gep base index scale =>
    cases h with
    | gep hx hy =>
      cases h' with
      | gep hx' hy' =>
        refine ⟨rfl, hp.locals.set fun _ => ?_, hp.memory⟩
        rw [hp.locals.read hclean.1 hx hx', hp.locals.read hclean.2 hy hy']
  | alloca w => exact hp.alloca hh h h'
  | load w ptr => exact hp.load hz hty hex hclean h h'
  | store w v ptr => exact hp.store_inst hty hclean h h'
  | memset dest v len =>
    cases h with
    | memset hd hx hn _ =>
      cases h' with
      | memset hd' hx' hn' _ =>
        cases hp.locals.read hclean.1 hd hd'
        cases hp.locals.read hclean.2 hn hn'
        refine ⟨rfl, hp.locals, hp.memory.written hp.memory.table fun i hi h0 => ?_⟩
        rw [hp.locals.read h0 hx hx']
  | memTransfer dest src len => exact hp.memTransfer hclean h h'
  | pread buf count offset => exact hp.pread hh hin hclean h h'
  | call callee args ret => cases h

end

end

end

end Kirenenko
