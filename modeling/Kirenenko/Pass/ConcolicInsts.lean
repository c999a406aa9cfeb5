import Kirenenko.Pass.Agreement
import Kirenenko.Pass.IrTyping
import Kirenenko.Pass.MemoryAgreement
import Kirenenko.Pass.TaggedSteps

namespace Kirenenko
set_option autoImplicit true

/-- The labels of an activation stand for its values, each of its own width. -/
structure FrameStands (env : Env) (z : Z3) (t : LabelTable) (τ : IrTyping) (l : Locals)
    (g : LabelFrame) : Prop where
  args : ∀ i w x, τ.params[i]? = some w → l.args[i]? = some x → Stands env z t (g.args i) w x
  regs : ∀ id x, l.regs id = some x → Stands env z t (g.regs id) (τ.regs id) x
  vars : ∀ a x, l.vars a = some x → Stands env z t (g.vars a) (τ.vars a) x

/-- The labels of the memory stand for its bytes, over a sound table and an accepted state of the
solver. -/
structure StoreStands {σ : Type} (env : Env) (z : Z3) (size : Nat) (J : σ → Prop)
    (S : LabelStore σ) (mem : Nat → UInt8) : Prop where
  table : SoundTable env z size S.table
  cells : ∀ a, Stands env z S.table (S.shadow a) 8 (mem a).toNat
  solver : J S.solver

/-- What a call tells the runtime of a branch is what the label stands for. -/
def TraceCall.Tells (env : Env) (z : Z3) (t : LabelTable) : TraceCall → Prop
  | .cond _ label r => Stands env z t label 1 r
  | .cmp _ _ label size c1 c2 =>
    1 ≤ size ∧ size ≤ 64 ∧ c2 < 2 ^ size ∧ Stands env z t label size c1

/-- A runtime that, told the truth, keeps the table sound and its own state acceptable. -/
def Reaction.Sound {σ : Type} (R : Reaction σ) (env : Env) (z : Z3) (size : Nat) (J : σ → Prop) :
    Prop :=
  ∀ c mem s t s' t', SoundTable env z size t → J s → c.Tells env z t →
    R.react c mem s t = .ok (s', t') → SoundTable env z size t' ∧ Extends t t' ∧ J s'

/-- The interpretation of the input bytes is the file, and pointers have 64 bits. -/
structure HostInput (env : Env) (size : Nat) (host : IrHost) : Prop where
  place : ∀ n, host.place n < 2 ^ 64
  length : host.content.length = size
  bytes : ∀ i < size, inputByte i env = (host.content.getD i 0).toNat

/-- An instruction that does not load from memory, or does so exactly. -/
def IrInst.ExactAt {σ : Type} (slots : List Nat) (l : Locals) (mem : Nat → UInt8)
    (S : LabelStore σ) : IrInst → Prop
  | .load w ptr => variableOf slots ptr = none → ∀ p ∈ l.read 64 ptr,
    LoadsExactly S.table (fun i => mem (p + i)) (fun i => S.shadow (p + i)) (storeSize w)
  | _ => True

section
variable {env : Env} {z : Z3} {t t' : LabelTable} {τ : IrTyping} {l : Locals} {g : LabelFrame}
  {id : Nat}

theorem FrameStands.read (h : FrameStands env z t τ l g) (ht : τ.Has w v)
    (hr : l.read w v = some x) : Stands env z t (g.label v) w x := by
  cases v with
  | const c =>
    cases hr
    exact .zero (Nat.mod_lt _ (Nat.two_pow_pos w))
  | arg i => exact h.args i w x ht hr
  | inst id =>
    cases ht
    exact h.regs id x hr

theorem FrameStands.extends (h : FrameStands env z t τ l g) (ho : Ordered t) (hg : Extends t t') :
    FrameStands env z t' τ l g where
  args i w x hw hx := (h.args i w x hw hx).extends ho hg
  regs id x hx := (h.regs id x hx).extends ho hg
  vars a x hx := (h.vars a x hx).extends ho hg

theorem FrameStands.set (h : FrameStands env z t τ l g) (hs : Stands env z t label (τ.regs id) v) :
    FrameStands env z t τ (l.set id v) (g.set id label) where
  args := h.args
  regs := by
    apply update_forall₂ (P := fun j r label => ∀ x, r = some x → Stands env z t label (τ.regs j) x)
      h.regs
    intro x hx
    cases hx
    exact hs
  vars := h.vars

theorem FrameStands.setVar (h : FrameStands env z t τ l g)
    (hs : ∀ v ∈ val, Stands env z t label (τ.vars a) v) :
    FrameStands env z t τ (l.setVar a val) (g.setVar a label) where
  args := h.args
  regs := h.regs
  vars :=
    update_forall₂ (P := fun b r label => ∀ x, r = some x → Stands env z t label (τ.vars b) x)
      h.vars hs

theorem FrameStands.fresh (h : FrameStands env z t τ l g) (a : Nat) :
    FrameStands env z t τ (l.setVar a none) g := by
  have hself : g.setVar a (g.vars a) = g := by
    unfold LabelFrame.setVar
    rw [Function.update_eq_self]
  rw [← hself]
  apply h.setVar
  intro v hv
  cases hv

theorem SoundTable.combine {pos : Position} (h : SoundTable env z size t)
    (hr : combinedLabel t l1 l2 op pos = .ok (label, t')) (hp : pos.resultWidth ≤ 64)
    (hop : isOrdinary (pos.op op) = true) (h1 : Stands env z t l1 w1 x1)
    (h2 : Stands env z t l2 w2 x2) (hv : v < 2 ^ w) (hsize : w ≠ 1 → pos.size % 2 ^ 8 = w)
    (hnode : ∀ mem key sub e, (∀ e, sub l1 = .ok e → HasValue env e w1 x1) →
      (∀ e, sub l2 = .ok e → HasValue env e w2 x2) →
      nodeTerm z mem key (canonical (pos.key (some l1) (some l2) op)) sub = .ok e →
      HasValue env e w v) :
    SoundTable env z size t' ∧ Extends t t' ∧ Stands env z t' label w v := by
  unfold combinedLabel at hr
  rw [if_neg (by omega)] at hr
  obtain ⟨htab, hret⟩ := h.union_ordinary (k := pos.key (some l1) (some l2) op) hop h1.label
    h2.label hr
  refine ⟨htab, hret.grows, hret.stands hv hsize ?_⟩
  intro mem e he
  exact hnode mem _ _ e ((h1.extends h.ordered hret.grows).agrees mem).value
    ((h2.extends h.ordered hret.grows).agrees mem).value he

theorem BinaryOps.ordinary (op : BinaryOps) : isOrdinary op.opcode.code = true := by
  cases op <;> decide

theorem CastOps.ordinary (op : CastOps) : isOrdinary op.opcode.code = true := by
  cases op <;> decide

theorem cmpOp_ordinary (p : IntPredicate) : isOrdinary (cmpOp p) = true := by
  cases p <;> decide

theorem isConstantOne_read (h : isConstantOne w v.operand = true) (hr : l.read w v = some x) :
    g.label v = 0 ∧ x = 1 := by
  cases v with
  | const c =>
    cases hr
    exact ⟨rfl, eq_of_beq h⟩
  | arg i => cases h
  | inst id => cases h

theorem SoundTable.binary (h : SoundTable env z size t) (hz : z.Lawful) (hw : 1 ≤ w ∧ w ≤ 64)
    (hf : FrameStands env z t τ l g) (ha : τ.Has w a) (hb : τ.Has w b)
    (hx : l.read w a = some x) (hy : l.read w b = some y) (hv : op.exec w x y = some v)
    (hr : combinedLabel t (g.label a) (g.label b) (binaryShadowOp op w a.operand b.operand)
      ⟨w, w, none, x, some y⟩ = .ok (label, t')) :
    SoundTable env z size t' ∧ Extends t t' ∧ Stands env z t' label w v := by
  have hsx := hf.read ha hx
  have hsy := hf.read hb hy
  have hlt := BinaryOps.exec_lt hsx.bound hsy.bound hv
  unfold binaryShadowOp at hr
  by_cases hnot : w = 1 ∧ op = .Xor ∧
      (isConstantOne w b.operand ∨ isConstantOne w a.operand)
  · rw [if_pos hnot] at hr
    have hop : isOrdinary Operators.Not.code = true := by decide
    refine h.combine hr hw.2 hop hsx hsy hlt (fun _ => width_mod hw) ?_
    intro mem key sub e h1 h2 he
    obtain ⟨rfl, rfl, hone⟩ := hnot
    cases hv
    simp only [Position.key, Position.op, Position.size, Option.getD_some, value_mod hw hsx.bound,
      value_mod hw hsy.bound, width_mod hw] at he
    refine not_node ?_ h1 h2 he
    rcases hone with hone | hone
    · exact .inr (isConstantOne_read hone hy)
    · exact .inl (isConstantOne_read hone hx)
  · rw [if_neg hnot] at hr
    refine h.combine hr hw.2 op.ordinary hsx hsy hlt (fun _ => width_mod hw) ?_
    intro mem key sub e h1 h2 he
    simp only [Position.key, Position.op, Position.size, Option.getD_some, value_mod hw hsx.bound,
      value_mod hw hsy.bound, width_mod hw] at he
    exact binary_node hz hw hsx.bound hsy.bound hv h1 h2 he

theorem SoundTable.cast {op : CastOps} (h : SoundTable env z size t) (hw : 1 ≤ w ∧ w ≤ 64)
    (hw' : 1 ≤ w' ∧ w' ≤ 64) (hvalid : op.Valid w w') (hf : FrameStands env z t τ l g)
    (ha : τ.Has w a) (hx : l.read w a = some x)
    (hr : combinedLabel t (g.label a) 0 op.opcode.code ⟨w', w, none, x, none⟩ =
      .ok (label, t')) :
    SoundTable env z size t' ∧ Extends t t' ∧ Stands env z t' label w' (op.exec w w' x) := by
  have hsx := hf.read ha hx
  have h0 : Stands env z t 0 0 0 := .zero Nat.one_pos
  refine h.combine hr hw'.2 op.ordinary hsx h0 (CastOps.exec_lt hw.2 hsx.bound hvalid)
    (fun _ => width_mod hw') ?_
  intro mem key sub e h1 _ he
  simp only [Position.key, Position.op, Position.size, Option.getD_some, Option.getD_none,
    value_mod hw hsx.bound, width_mod hw'] at he
  exact cast_node hw'.2 h1 he

theorem SoundTable.icmp (h : SoundTable env z size t) (hz : z.Lawful) (hw : 1 ≤ w ∧ w ≤ 64)
    (hf : FrameStands env z t τ l g) (ha : τ.Has w a) (hb : τ.Has w b)
    (hx : l.read w a = some x) (hy : l.read w b = some y)
    (hr : combinedLabel t (g.label a) (g.label b) Operators.ICmp.code ⟨1, w, some p, x, some y⟩ =
      .ok (label, t')) :
    SoundTable env z size t' ∧ Extends t t' ∧ Stands env z t' label 1 (p.exec w x y).toNat := by
  have hsx := hf.read ha hx
  have hsy := hf.read hb hy
  refine h.combine hr (by decide : (1 : Nat) ≤ 64) (cmpOp_ordinary p) hsx hsy (bool_toNat_lt _)
    (fun h1 => (h1 rfl).elim) ?_
  intro mem key sub e h1 h2 he
  simp only [Position.key, Position.op, Position.size, Option.getD_some, value_mod hw hsx.bound,
    value_mod hw hsy.bound, width_mod hw] at he
  exact cmp_node hz hw hsx.bound hsy.bound h1 h2 he

section
variable {σ : Type} {R : Reaction σ} {J : σ → Prop} {S S' : LabelStore σ} {mem mem' : Nat → UInt8}
  {host : IrHost} {m m' : IrMemory} {l' : Locals} {g' : LabelFrame}

theorem StoreStands.withTable (h : StoreStands env z size J S mem)
    (htab : SoundTable env z size t') (hg : Extends S.table t') :
    StoreStands env z size J { S with table := t' } mem where
  table := htab
  cells a := (h.cells a).extends h.table.ordered hg
  solver := h.solver

theorem StoreStands.written {b : Nat → UInt8} (h : StoreStands env z size J S mem)
    (htab : SoundTable env z size t') (hg : Extends S.table t')
    (hcells : ∀ i < n, Stands env z t' (ls i) 8 (b i).toNat) :
    StoreStands env z size J ⟨written p ls n S.shadow, t', S.solver⟩ (written p b n mem) where
  table := htab
  cells a := by
    change Stands env z t' (Kirenenko.written p ls n S.shadow a) 8
      (Kirenenko.written p b n mem a).toNat
    unfold Kirenenko.written
    by_cases ha : p ≤ a ∧ a < p + n
    · rw [if_pos ha, if_pos ha]
      exact hcells _ (by omega)
    · rw [if_neg ha, if_neg ha]
      exact (h.cells a).extends h.table.ordered hg
  solver := h.solver

theorem StoreStands.trace (h : StoreStands env z size J S mem) (hR : R.Sound env z size J)
    (ht : S.trace R mem' c = .ok S') (hc : c.Tells env z S.table) :
    StoreStands env z size J S' mem ∧ Extends S.table S'.table := by
  obtain ⟨⟨s, t⟩, hr, ht⟩ := except_bind_ok.1 ht
  cases ht
  obtain ⟨htab, hg, hs⟩ := hR c mem' _ _ s t h.table h.solver hc (runtime_ok.1 hr)
  exact ⟨⟨htab, fun a => (h.cells a).extends h.table.ordered hg, hs⟩, hg⟩

theorem storeSize_whole (hw : 1 ≤ w ∧ w ≤ 64) (h8 : w % 8 = 0) :
    8 * storeSize w = w ∧ storeSize w ≠ 0 ∧ storeSize w ≤ 31 := by
  unfold storeSize
  omega

theorem Stands.ofNat_byte (h : Stands env z t l1 8 x) :
    Stands env z t l1 8 (UInt8.ofNat x).toNat := by
  rw [UInt8.toNat_ofNat', Nat.mod_eq_of_lt h.bound]
  exact h

theorem HostInput.pread_lt (h : HostInput env size host)
    (hi : i < preadResult host.content n o) : o + i < size := by
  rw [← h.length]
  unfold preadResult at hi
  omega

theorem SoundTable.pread_label (h : SoundTable env z size t) (hi : o + i < size) :
    (o + i + constOffset) % 2 ^ 32 = o + i + constOffset := by
  have hsmall := h.small
  exact Nat.mod_eq_of_lt (by unfold constOffset; omega)

theorem SoundTable.pread (h : SoundTable env z size t) (hin : HostInput env size host)
    (hi : i < preadResult host.content n o) :
    Stands env z t ((o + i + constOffset) % 2 ^ 32) 8 (host.content.getD (o + i) 0).toNat := by
  have hlt := hin.pread_lt hi
  rw [h.pread_label hlt, ← hin.bytes _ hlt]
  exact h.byte hlt

theorem TaggedInst.stands (h : TaggedInst R host slots id stack l m g S i l' m' g' S')
    (hz : z.Lawful) (hR : R.Sound env z size J) (hin : HostInput env size host)
    (hty : i.Typed types τ slots id) (hex : i.ExactAt slots l m.mem S)
    (hf : FrameStands env z S.table τ l g) (hs : StoreStands env z size J S m.mem) :
    FrameStands env z S'.table τ l' g' ∧ StoreStands env z size J S' m'.mem ∧
      Extends S.table S'.table := by
  have ho := hs.table.ordered
  cases h with
  | binary hw hx hy hv hc =>
    obtain ⟨ha, hb, hid⟩ := hty
    obtain ⟨htab, hg, hst⟩ := hs.table.binary hz hw hf ha hb hx hy hv hc
    rw [← hid] at hst
    exact ⟨(hf.extends ho hg).set hst, hs.withTable htab hg, hg⟩
  | cast hw hw' hvalid hx hc =>
    obtain ⟨ha, hid⟩ := hty
    obtain ⟨htab, hg, hst⟩ := hs.table.cast hw hw' hvalid hf ha hx hc
    rw [← hid] at hst
    exact ⟨(hf.extends ho hg).set (hid ▸ hst), hs.withTable htab hg, hg⟩
  | icmp hw hx hy hc =>
    obtain ⟨ha, hb, hid⟩ := hty
    obtain ⟨htab, hg, hst⟩ := hs.table.icmp hz hw hf ha hb hx hy hc
    rw [← hid] at hst
    exact ⟨(hf.extends ho hg).set hst, hs.withTable htab hg, hg⟩
  | select _ hk hx hy ht =>
    obtain ⟨hc, ha, hb, hid⟩ := hty
    obtain ⟨hs', hg⟩ := hs.trace hR ht (hf.read hc hk)
    refine ⟨(hf.extends ho hg).set ?_, hs', hg⟩
    rw [hid]
    split
    · exact (hf.read ha hx).extends ho hg
    · exact (hf.read hb hy).extends ho hg
  | gep _ _ =>
    obtain ⟨_, _, hid⟩ := hty
    refine ⟨hf.set (.zero ?_), hs, .refl _⟩
    rw [hid]
    exact Nat.mod_lt _ (by decide)
  | promoted _ => exact ⟨(hf.set (.zero (Nat.two_pow_pos _))).fresh _, hs, .refl _⟩
  | alloca _ =>
    refine ⟨hf.set (.zero ?_), hs, .refl _⟩
    rw [hty.1]
    exact hin.place _
  | loadVar _ hv hx =>
    obtain ⟨hp, hid⟩ := hty
    refine ⟨hf.set ?_, hs, .refl _⟩
    rw [hid, ← hp.1 _ hv]
    exact hf.vars _ _ hx
  | @load w _ p _ _ hw hv hp _ hc =>
    obtain ⟨hpt, hid⟩ := hty
    obtain ⟨h8, hn0, hn⟩ := storeSize_whole hw (hpt.2 hv).2
    obtain ⟨htab, hg, hst, -⟩ :=
      hs.table.load hz (fun j _ => hs.cells (p + j)) hn0 hn (hex hv p hp) hc
    rw [h8] at hst
    have hval : loadBytes m.mem p (storeSize w) % 2 ^ w = loadBytes m.mem p (storeSize w) :=
      Nat.mod_eq_of_lt hst.bound
    refine ⟨(hf.extends ho hg).set ?_, hs.withTable htab hg, hg⟩
    rw [hid, hval]
    exact hst
  | storeVar _ hx hv =>
    obtain ⟨ha, hp⟩ := hty
    refine ⟨hf.setVar ?_, hs, .refl _⟩
    intro x hx'
    cases hx'
    rw [hp.1 _ hv]
    exact hf.read ha hx
  | @store w _ x _ p ls t hw hx hv _ _ hc =>
    obtain ⟨ha, hpt⟩ := hty
    obtain ⟨h8, hn0, hn⟩ := storeSize_whole hw (hpt.2 hv).2
    have hsx := hf.read ha hx
    rw [← h8] at hsx
    obtain ⟨htab, hg, hcells⟩ := hs.table.store hsx hn0 hn hc
    have hbytes : ∀ i < storeSize w,
        Stands env z t (ls i) 8 (UInt8.ofNat (x / 2 ^ (8 * i))).toNat := by
      intro i hi
      rw [UInt8.toNat_ofNat']
      exact (hcells i hi).1
    exact ⟨hf.extends ho hg, hs.written htab hg hbytes, hg⟩
  | memset _ hx _ _ =>
    have hsx := hf.read hty.2.1 hx
    exact ⟨hf, hs.written hs.table (.refl _) fun _ _ => hsx.ofNat_byte, .refl _⟩
  | @memTransfer _ _ _ q =>
    exact ⟨hf, hs.written hs.table (.refl _) fun i _ => hs.cells (q + i), .refl _⟩
  | pread _ hn _ _ =>
    obtain ⟨_, hc, _, hid⟩ := hty
    refine ⟨hf.set (.zero ?_), hs.written hs.table (.refl _) fun _ => hs.table.pread hin, .refl _⟩
    rw [hid]
    exact Nat.lt_of_le_of_lt (Nat.min_le_left _ _) (hf.read hc hn).bound

end

end

end Kirenenko
