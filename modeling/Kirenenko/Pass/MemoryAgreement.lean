import Kirenenko.Pass.SoundTable
import Kirenenko.Runtime.RoundTrip

namespace Kirenenko
set_option autoImplicit true

/-- The operators whose records need no condition of their own. -/
def isOrdinary (op : Nat) : Bool :=
  op != 0 && [Operators.Load, .Extract, .Neg, .fmemcmp, .fsize].all fun o => op != o.code

/-- A load that the shortcuts of `__taint_union_load` do not mistake for another: labels that are
taken for consecutive input bytes are labels of input bytes, and concrete bytes in front of the
first labelled one are zero. -/
def LoadsExactly (t : LabelTable) (app : Nat → UInt8) (ls : Nat → Nat) (n : Nat) : Prop :=
  (∃ i < n, ls i ≠ constLabel) →
    (Consecutive t ls n → ∀ i < n, ls i ≠ constLabel ∧ (t.key (ls i)).op = 0) ∧
      ∀ j < n, (∀ m ≤ j, ls m = constLabel) → app j = 0

instance : Decidable (LoadsExactly t app ls n) := by
  unfold LoadsExactly
  infer_instance

section
variable {env : Env} {z : Z3} {t t' : LabelTable} {app : Nat → UInt8} {ls : Nat → Nat}

theorem isOrdinary_ne (h : isOrdinary op = true) :
    op ≠ 0 ∧ op ≠ Operators.Load.code ∧ op ≠ Operators.Extract.code ∧ op ≠ Operators.Neg.code ∧
      op ≠ Operators.fmemcmp.code ∧ op ≠ Operators.fsize.code := by
  simpa only [isOrdinary, List.all_cons, List.all_nil, Bool.and_true, Bool.and_eq_true,
    bne_iff_ne] using h

theorem SoundRecord.ordinary (h : isOrdinary k.op = true) : SoundRecord env z size t k := by
  obtain ⟨_, hL, hE, hplain⟩ := isOrdinary_ne h
  exact ⟨hplain, fun h => (hL h).elim, fun h => (hE h).elim⟩

theorem SoundTable.union_ordinary (h : SoundTable env z size t) (hop : isOrdinary k.op = true)
    (h1 : k.l1 ≤ t.lastLabel) (h2 : k.l2 ≤ t.lastLabel) (hu : taintUnion t k = .ok (l, t')) :
    SoundTable env z size t' ∧ UnionReturns t k l t' := by
  have ha : Allocated t k := ⟨h1, fun _ => h2⟩
  obtain ⟨h0, hL, _⟩ := isOrdinary_ne hop
  exact h.union ha h0 (ha.not_init h.ordered hL) (.ordinary (by rw [canonical_op]; exact hop)) hu

theorem UnionReturns.zero (h : UnionReturns t k l t') (hl : l = 0) : k.l1 = 0 ∧ k.l2 = 0 := by
  rcases h.key with ⟨_, hc⟩ | ⟨hlo, _⟩
  · have h2 : (swapOperands k).l2 = 0 := Nat.lt_one_iff.1 hc.2.1
    have h1 := hc.1
    unfold swapOperands at h1 h2
    split at h1
    · rw [if_pos ‹_›] at h2
      exact ⟨h2, h1⟩
    · rw [if_neg ‹_›] at h2
      exact ⟨h1, h2⟩
  · exact absurd hl (Nat.ne_of_gt hlo)

theorem SoundTable.cell_size (h : SoundTable env z size t) (hc : Stands env z t l 8 v) :
    (t.key l).size = 8 := by
  by_cases h0 : l = 0
  · rw [h0]
    exact congrArg LabelKey.size h.zero_key
  · exact hc.size h0 (by decide)

/-- An operand of a concatenation, with the width `u` of the constant that stands for it if it has
no label. -/
theorem operandTermOf_hasValue (hz : z.Lawful) (h1 : k.size ≠ 1) (hu : u ≠ 0)
    (hc : l = 0 → u = w ∧ o % 2 ^ w = x) (hag : ∀ e, sub l = .ok e → HasValue env e w x)
    (he : operandTermOf z k l (.bvVal o u) o sub = .ok e) : HasValue env e w x := by
  unfold operandTermOf at he
  by_cases hl : l ≥ constOffset
  · rw [if_pos hl] at he
    obtain ⟨e', hs, rfl⟩ := except_map_ok.1 he
    exact (hag e' hs).simplify hz
  · rw [if_neg hl, concreteOperand, if_neg h1] at he
    cases he
    obtain ⟨rfl, rfl⟩ := hc (Nat.lt_one_iff.1 (Nat.lt_of_not_le hl))
    exact ⟨.inl (Term.sort_bvVal_of_ne o hu), rfl⟩

/-- One more byte on top of the `i` bytes that a label stands for. -/
theorem concat_stands (hz : z.Lawful) (h : SoundTable env z size t) (hi : i < 31)
    (hl : constOffset ≤ l) (hlast : l ≤ t.lastLabel) (hk : t.key l = concatKey app ls L i)
    (hL : Stands env z t L (8 * i) v) (hzero : L = 0 → v = 0)
    (hc : Stands env z t (ls i) 8 (app i).toNat) (hne : ¬(L = 0 ∧ ls i = 0)) :
    Stands env z t l (8 * (i + 1)) ((app i).toNat * 2 ^ (8 * i) + v) := by
  have hsize : (concatKey app ls L i).size = 8 * (i + 1) := by
    change (i + 1) * 8 % 2 ^ 16 = _
    omega
  have hleft : L = 0 → leftWidth (concatKey app ls L i) (t.key (ls i)).size = 8 * i := by
    rintro rfl
    rw [h.cell_size hc, leftWidth, if_pos ⟨rfl, rfl⟩, hsize]
    unfold sizeDiff
    omega
  have hright : ls i = 0 →
      rightWidth (concatKey app ls L i) (t.key L).size (t.key (ls i)).size = 8 := by
    intro h0
    rw [hL.size (fun hL0 => hne ⟨hL0, h0⟩) (by omega), rightWidth, if_pos ⟨rfl, h0⟩, hsize]
    unfold sizeDiff
    omega
  have hbyte : ls i = 0 → (concatKey app ls L i).op2 % 2 ^ 8 = (app i).toNat := by
    intro h0
    have hconst : ls i = constLabel := h0
    rw [concatKey, if_pos hconst]
    exact charToU64_mod _
  refine ⟨?_, fun _ _ => by rw [hk]; exact hsize, fun mem => ⟨hlast, ?_⟩⟩
  · have hlt := hL.bound
    have hb := (app i).toNat_lt
    have hmul := Nat.mul_le_mul_right (2 ^ (8 * i)) hb
    rw [Nat.mul_succ, Nat.pow_add, Nat.mul_comm (2 ^ (8 * i))]
    rw [Nat.succ_mul] at hmul
    omega
  · intro e he
    have hs : isSpecialOp (concatKey app ls L i).op = false := by
      change isSpecialOp Operators.Concat.code = false
      decide
    rw [termOf_eq h.ordered hl hlast, hk, nodeTerm_common hs] at he
    obtain ⟨hu, hv, e1, e2, he1, he2, he⟩ := he
    have hs1 : (concatKey app ls L i).size ≠ 1 := by omega
    have hv1 := operandTermOf_hasValue (w := 8 * i) (x := v) hz hs1 hu
      (fun h0 => ⟨hleft h0, by rw [hzero h0]; exact Nat.zero_mod _⟩) (hL.agrees mem).value he1
    have hv2 := operandTermOf_hasValue (w := 8) (x := (app i).toNat) hz hs1 hv
      (fun h0 => ⟨hright h0, hbyte h0⟩) (hc.agrees mem).value he2
    obtain ⟨rfl, σ, hσ⟩ := checked_eq_ok.1 he
    obtain ⟨w2, w1, hw, hs2, hs1⟩ := Term.sort_inversion hσ
    obtain rfl := hv1.width_eq hs1
    obtain rfl := hv2.width_eq hs2
    rw [hw] at hσ
    refine ⟨.inl (hσ.trans ?_), ?_⟩
    · rw [Nat.mul_succ, Nat.add_comm]
    · rw [Term.eval, hv1.eval, hv2.eval, Term.width_eq hs1]

/-- The slow path of a load after `i` bytes: its label stands for them, and it has none only as long
as no byte has one. -/
structure ChainStands (env : Env) (z : Z3) (size : Nat) (app : Nat → UInt8) (ls : Nat → Nat)
    (n : Nat) (t : LabelTable) (L i : Nat) : Prop where
  table : SoundTable env z size t
  cells : ∀ j < n, Stands env z t (ls j) 8 (app j).toNat
  value : Stands env z t L (8 * i) (littleEndian 8 (fun j => (app j).toNat) i)
  leading : L = 0 → ∀ j < i, ls j = constLabel

theorem ChainStands.sized (h : ChainStands env z size app ls n t L i) : SizedLabels t ls n :=
  ⟨fun j hj => (h.cells j hj).label, fun j hj => h.table.cell_size (h.cells j hj)⟩

theorem taintUnion_concatKey_const (app : Nat → UInt8) (hc : ls i = constLabel) :
    taintUnion t (concatKey app ls 0 i) = .ok (0, t) := by
  have hconst : ConstUnion (concatKey app ls 0 i) := by
    refine ⟨rfl, ?_, (by decide : Operators.Concat.code ≠ Operators.fsize.code)⟩
    change ls i < constOffset
    rw [hc]
    decide
  rw [taintUnion_eq, concatKey_swap, if_pos hconst]

theorem ChainStands.step (h : ChainStands env z size app ls n t L i) (hz : z.Lawful)
    (hn : n ≤ 31) (hi : i < n)
    (hlead : ∀ j < n, (∀ m ≤ j, ls m = constLabel) → app j = 0) :
    taintUnion t (concatKey app ls L i) = .error .die ∧ t.lastLabel = maxLabel ∨
      ∃ l t', taintUnion t (concatKey app ls L i) = .ok (l, t') ∧ TableGrows t t' 1 ∧
        ChainStands env z size app ls n t' l (i + 1) := by
  obtain ⟨S, hS⟩ := h.table.inv
  have hci := h.cells i hi
  by_cases hne : L = constLabel ∧ ls i = constLabel
  · obtain ⟨rfl, hx0⟩ := hne
    have hall : ∀ m < i + 1, ls m = constLabel := by
      intro m hm
      rcases Nat.lt_succ_iff_lt_or_eq.1 hm with hlt | rfl
      · exact h.leading rfl m hlt
      · exact hx0
    have hval : littleEndian 8 (fun j => (app j).toNat) (i + 1) = 0 := by
      apply littleEndian_eq_zero.2
      intro j hj
      rw [hlead j (by omega) fun m hm => hall m (by omega)]
      rfl
    refine .inr ⟨0, t, taintUnion_concatKey_const app hx0, hS.tableGrows.mono (Nat.zero_le 1),
      h.table, h.cells, ?_, fun _ => hall⟩
    rw [hval]
    exact .zero (Nat.two_pow_pos _)
  · rcases h.sized.concat_union app hS hi h.value.label hne with
      hdie | ⟨l, t', hu, hg, hl, hlast, hk⟩
    · exact .inl hdie
    have hordinary : isOrdinary (concatKey app ls L i).op = true :=
      (by decide : isOrdinary Operators.Concat.code = true)
    have htab := (h.table.union_ordinary hordinary h.value.label hci.label hu).1
    have ho := h.table.ordered
    refine .inr ⟨l, t', hu, hg, htab, fun j hj => (h.cells j hj).extends ho hg.grows, ?_,
      fun h0 => absurd h0 (Nat.ne_of_gt hl)⟩
    rw [littleEndian_succ]
    refine concat_stands hz htab (by omega) hl hlast hk (h.value.extends ho hg.grows) ?_
      (hci.extends ho hg.grows) hne
    intro h0
    apply littleEndian_eq_zero.2
    intro j hj
    rw [hlead j (by omega) fun m hm => h.leading h0 m (by omega)]
    rfl

theorem SoundTable.concat_load (h : SoundTable env z size t) (hz : z.Lawful)
    (hcells : ∀ j < n, Stands env z t (ls j) 8 (app j).toNat) (hn0 : n ≠ 0) (hn : n ≤ 31)
    (hlead : ∀ j < n, (∀ m ≤ j, ls m = constLabel) → app j = 0)
    (hu : concatLoop app ls n (concatFuel n) t (ls 0) 1 = .ok (l, t')) :
    SoundTable env z size t' ∧ Extends t t' ∧
      Stands env z t' l (8 * n) (littleEndian 8 (fun j => (app j).toNat) n) ∧
      (l = 0 → ∀ i < n, ls i = constLabel) := by
  obtain ⟨S, hS⟩ := h.inv
  have hpos : 0 < n := Nat.pos_of_ne_zero hn0
  have hstart : ChainStands env z size app ls n t (ls 0) 1 := by
    refine ⟨h, hcells, ?_, ?_⟩
    · rw [littleEndian_one]
      exact hcells 0 hpos
    · intro h0 j hj
      obtain rfl : j = 0 := by omega
      exact h0
  have hfuel : n - 1 < concatFuel n := by
    unfold concatFuel
    omega
  rcases hstart.sized.concat_run (Q := fun t L i => ChainStands env z size app ls n t L i)
    (fun t S L i _ _ hi _ hQ => hQ.step hz hn hi hlead) hS Nat.one_ne_zero
    (by omega) hfuel hstart with ⟨hdie, _⟩ | ⟨l', t'', hrun, hg, hQ⟩
  · rw [hdie] at hu
    cases hu
  · rw [hrun] at hu
    cases hu
    exact ⟨hQ.table, hg.grows, hQ.value, hQ.leading⟩

theorem SoundTable.byte_eq (h : SoundTable env z size t) (hi : i < size)
    (hs : Stands env z t (i + 1) 8 v) : v = inputByte i env := by
  have hlo : constOffset ≤ i + 1 := Nat.le_add_left _ _
  have hb := byteTerm_ok.2 ⟨h.nameable hi, rfl⟩
  have hterm : termOf z (fun _ => 0) t (i + 1) = .ok (.const (.int (i % 2 ^ 32)) 8) := by
    rw [termOf_eq h.ordered hlo hs.label, h.file.key (i + 1) hlo hi, nodeTerm_raw rfl, ofZ3_eq_ok]
    exact hb
  rw [← ((hs.agrees _).value _ hterm).eval]
  exact (byteTerm_isBv hb).2.eval env

theorem SoundTable.raw_labels (h : SoundTable env z size t) (hn : n ≤ 31)
    (hl : ∀ i < n, ls i ≤ t.lastLabel)
    (hraw : ∀ i < n, ls i ≠ constLabel ∧ (t.key (ls i)).op = 0) (hc : Consecutive t ls n) :
    ∃ o, ∀ i < n, o + i < size ∧ ls i = o + i + 1 := by
  have hsmall := h.small
  have hin : ∀ i < n, constOffset ≤ ls i ∧ ls i ≤ size ∧ (t.key (ls i)).op1 = ls i - 1 := by
    intro i hi
    have hlo : constOffset ≤ ls i := Nat.pos_of_ne_zero (hraw i hi).1
    have hsize := (h.file.raw _ hlo (hl i hi)).1 (hraw i hi).2
    rw [h.file.key _ hlo hsize]
    exact ⟨hlo, hsize, rfl⟩
  refine ⟨ls 0 - 1, ?_⟩
  intro i hi
  obtain ⟨h1, h2, h3⟩ := hin i hi
  obtain ⟨g1, g2, g3⟩ := hin 0 (by omega)
  unfold constOffset at h1 g1
  rcases Nat.eq_zero_or_pos i with rfl | hpos
  · omega
  · have := hc.2 i hi hpos
    rw [h3, g3] at this
    omega

theorem SoundTable.consecutive_load (h : SoundTable env z size t)
    (hcells : ∀ j < n, Stands env z t (ls j) 8 (app j).toNat) (hn0 : n ≠ 0) (hn : n ≤ 31)
    (hraw : ∀ i < n, ls i ≠ constLabel ∧ (t.key (ls i)).op = 0) (hc : Consecutive t ls n)
    (hu : loadConsecutive t ls n = .ok (l, t')) :
    SoundTable env z size t' ∧ Extends t t' ∧
      Stands env z t' l (8 * n) (littleEndian 8 (fun j => (app j).toNat) n) ∧ l ≠ 0 := by
  obtain ⟨o, ho⟩ := h.raw_labels hn (fun i hi => (hcells i hi).label) hraw hc
  have hsmall := h.small
  obtain ⟨hlt0, h0⟩ := ho 0 (by omega)
  have hbytes : littleEndian 8 (fun j => (app j).toNat) n = inputBytes o n env := by
    apply littleEndian_congr
    intro i hi
    obtain ⟨hlt, hi'⟩ := ho i hi
    have hs := hcells i hi
    rw [hi'] at hs
    exact h.byte_eq hlt hs
  unfold loadConsecutive at hu
  by_cases h1 : n = 1
  · rw [if_pos h1] at hu
    cases hu
    subst h1
    rw [littleEndian_one]
    exact ⟨h, .refl _, hcells 0 Nat.zero_lt_one, (hraw 0 Nat.zero_lt_one).1⟩
  · rw [if_neg h1] at hu
    have hmod : n % 2 ^ 32 = n := Nat.mod_eq_of_lt (by omega)
    obtain ⟨hlast, _⟩ := ho (n - 1) (by omega)
    have hrec : SoundRecord env z size t (canonical (loadKey ls n)) := by
      rw [loadKey_canonical]
      refine ⟨(by decide : Operators.Load.code ≠ Operators.Neg.code ∧
        Operators.Load.code ≠ Operators.fmemcmp.code ∧
        Operators.Load.code ≠ Operators.fsize.code), fun _ => ?_, fun hop => ?_⟩
      · change constOffset ≤ ls 0 ∧ constOffset ≤ n % 2 ^ 32 ∧ ls 0 + n % 2 ^ 32 ≤ size + 1 ∧
          n * 8 % 2 ^ 16 = 8 * (n % 2 ^ 32)
        rw [hmod]
        unfold constOffset
        omega
      · exact absurd hop (by change Operators.Load.code ≠ _; decide)
    have hinit : ¬InitUnion (swapOperands (loadKey ls n)) := by
      rw [loadKey_swap]
      have hb := h.ordered.bound
      have hl0 := (hcells 0 (by omega)).label
      rintro (hi | hi)
      · change ls 0 = _ at hi
        omega
      · change n % 2 ^ 32 = _ at hi
        unfold kInitializingLabel at hi
        omega
    have ha : Allocated t (loadKey ls n) :=
      ⟨(hcells 0 (by omega)).label, fun hL => (hL rfl).elim⟩
    obtain ⟨htab, hret⟩ := h.union ha (by change Operators.Load.code ≠ 0; decide) hinit hrec hu
    refine ⟨htab, hret.grows, hret.stands ?_ ?_ ?_, ?_⟩
    · exact littleEndian_lt fun i _ => (app i).toNat_lt
    · intro _
      change n * 8 % 2 ^ 16 = _
      omega
    · intro mem e he
      have hkey : (t'.key (ls 0)).op1 = o := by
        rw [hret.grows.key (ls 0) ha.l1, h0, Nat.add_zero,
          h.file.key (o + 1) (Nat.le_add_left _ _) hlt0]
        rfl
      rw [loadKey_canonical, nodeTerm_load rfl, ofZ3_eq_ok] at he
      change loadTerm (t'.key (ls 0)).op1 (n % 2 ^ 32 - 1) = .ok e at he
      rw [hkey, hmod] at he
      have hbv := (loadTerm_isBv he).2
      rw [Nat.sub_add_cancel (Nat.pos_of_ne_zero hn0)] at hbv
      rw [hbytes]
      exact ⟨.inl hbv.sort, hbv.eval env⟩
    · intro hl0
      exact (hraw 0 (by omega)).1 (hret.zero hl0).1

theorem SoundTable.extracted_load (h : SoundTable env z size t)
    (hcells : ∀ j < n, Stands env z t (ls j) 8 (app j).toNat) (hn0 : n ≠ 0) (hn : n ≤ 31)
    (he : Extracted t ls n) :
    Stands env z t (t.key (ls 0)).l1 (8 * n) (littleEndian 8 (fun j => (app j).toNat) n) ∧
      (t.key (ls 0)).l1 ≠ 0 := by
  have hlo : ∀ i < n, constOffset ≤ ls i := by
    intro i hi
    refine Nat.pos_of_ne_zero fun h0 => ?_
    have hop := (he.1 i hi).1
    rw [h0] at hop
    rw [show t.key 0 = _ from h.zero_key] at hop
    cases hop
  have hpos : 0 < n := Nat.pos_of_ne_zero hn0
  obtain ⟨hparent, v, hv⟩ :=
    (h.records (ls 0) (hlo 0 hpos) (hcells 0 hpos).label).parent (he.1 0 hpos).1
  rw [he.2] at hv
  refine ⟨⟨littleEndian_lt fun i _ => (app i).toNat_lt, hv.size, fun mem => ⟨hv.label, ?_⟩⟩,
    hparent⟩
  intro e hterm
  have hval := (hv.agrees mem).value e hterm
  have hsort : e.sort = some (.bv (8 * n)) := by
    rcases hval.sort with hs | ⟨hw, _⟩
    · exact hs
    · omega
  have hdigit : ∀ i < n, (app i).toNat = v / 2 ^ (8 * i) % 2 ^ 8 := by
    intro i hi
    obtain ⟨hop, hop2, hl1⟩ := he.1 i hi
    have hcell := hcells i hi
    obtain ⟨e', he'⟩ : ∃ e', extractTerm (8 * i) 8 e = .ok e' :=
      extractTerm_isBv (by omega) (by decide) (Term.IsBv.of_sort hsort) (by omega)
    have hcellTerm : termOf z mem t (ls i) = .ok e' := by
      rw [termOf_eq h.ordered (hlo i hi) hcell.label, nodeTerm_extract hop, hl1, hop2,
        h.cell_size hcell]
      exact ⟨e, hterm, he'⟩
    rw [← ((hcell.agrees mem).value e' hcellTerm).eval, ← hval.eval]
    exact (extractTerm_value env (by omega) he').2
  rw [littleEndian_congr hdigit, littleEndian_digits, Nat.mod_eq_of_lt hv.bound]
  exact hval

/-- The label of a load stands for what is loaded when every label in memory stands for its byte. -/
theorem SoundTable.load (h : SoundTable env z size t) (hz : z.Lawful)
    (hcells : ∀ j < n, Stands env z t (ls j) 8 (app j).toNat) (hn0 : n ≠ 0) (hn : n ≤ 31)
    (hex : LoadsExactly t app ls n) (hu : taintUnionLoad t app ls n = .ok (l, t')) :
    SoundTable env z size t' ∧ Extends t t' ∧
      Stands env z t' l (8 * n) (littleEndian 8 (fun j => (app j).toNat) n) ∧
      (l = 0 → ∀ i < n, ls i = constLabel) := by
  have hpos : 0 < n := Nat.pos_of_ne_zero hn0
  have hl : ∀ i < n, ls i ≤ t.lastLabel := fun i hi => (hcells i hi).label
  have hs : ∀ i < n, (t.key (ls i)).size = 8 := fun i hi => h.cell_size (hcells i hi)
  have hp : (t.key (ls 0)).l1 ≤ t.lastLabel := by
    by_cases h0 : ls 0 = constLabel
    · rw [h0, h.zero_key]
      exact Nat.zero_le _
    · have := h.ordered.l1 (ls 0) (Nat.pos_of_ne_zero h0) (hl 0 hpos)
      have := hl 0 hpos
      omega
  rw [taintUnionLoad_of_parent app h.ordered.bound hn0 hl (extractParent_spec hn0 hl hs hp),
    hs 0 hpos] at hu
  by_cases hconst : ∀ i < n, ls i = constLabel
  · rw [if_pos hconst] at hu
    cases hu
    exact ⟨h, .refl _, .zero (littleEndian_lt fun i _ => (app i).toNat_lt), fun _ => hconst⟩
  rw [if_neg hconst] at hu
  obtain ⟨hraw, hlead⟩ := hex (by simpa only [not_forall, exists_prop] using hconst)
  by_cases hc : Consecutive t ls n
  · rw [if_pos hc] at hu
    obtain ⟨htab, hg, hst, hne⟩ := h.consecutive_load hcells hn0 hn (hraw hc) hc hu
    exact ⟨htab, hg, hst, fun h0 => (hne h0).elim⟩
  rw [if_neg hc] at hu
  by_cases he : Extracted t ls n
  · rw [if_pos he] at hu
    cases hu
    obtain ⟨hst, hne⟩ := h.extracted_load hcells hn0 hn he
    exact ⟨h, .refl _, hst, fun h0 => (hne h0).elim⟩
  · rw [if_neg he] at hu
    exact h.concat_load hz hcells hn0 hn hlead hu

theorem SoundTable.extract (h : SoundTable env z size t) (hl : l ≠ 0)
    (hv : Stands env z t l (8 * n) x) (hn : n ≤ 31) (hi : i < n)
    (hu : taintUnion t (extractKey l i) = .ok (y, t')) :
    SoundTable env z size t' ∧ Extends t t' ∧
      Stands env z t' y 8 (x / 2 ^ (8 * i) % 2 ^ 8) ∧ y ≠ 0 := by
  have hsize := hv.size hl (by omega)
  have hrec : SoundRecord env z size t (canonical (extractKey l i)) := by
    rw [extractKey_canonical]
    refine ⟨(by decide : Operators.Extract.code ≠ Operators.Neg.code ∧
      Operators.Extract.code ≠ Operators.fmemcmp.code ∧
      Operators.Extract.code ≠ Operators.fsize.code), fun hop => ?_, fun _ => ⟨hl, x, ?_⟩⟩
    · exact absurd hop (by change Operators.Extract.code ≠ _; decide)
    · change Stands env z t l (t.key l).size x
      rw [hsize]
      exact hv
  have ha : Allocated t (extractKey l i) := ⟨hv.label, fun _ => Nat.zero_le _⟩
  have hL : (extractKey l i).op ≠ Operators.Load.code := by
    change Operators.Extract.code ≠ _
    decide
  obtain ⟨htab, hret⟩ := h.union ha (by change Operators.Extract.code ≠ 0; decide)
    (ha.not_init h.ordered hL) hrec hu
  refine ⟨htab, hret.grows, hret.stands (Nat.mod_lt _ (by decide)) (fun _ => rfl) ?_,
    fun h0 => hl (hret.zero h0).1⟩
  intro mem e he
  rw [extractKey_canonical, nodeTerm_extract rfl] at he
  obtain ⟨base, hb, he⟩ := he
  have hbase := ((hv.extends h.ordered hret.grows).agrees mem).value base hb
  have hval := extractTerm_value env (by change i * 8 + 8 ≤ _; omega) he
  refine ⟨.inl hval.1, hval.2.trans ?_⟩
  rw [hbase.eval]
  change x / 2 ^ (i * 8) % 2 ^ 8 = _
  rw [Nat.mul_comm i]

theorem SoundTable.extracts (h : SoundTable env z size t) (hl : l ≠ 0)
    (hv : Stands env z t l (8 * n) x) (hn : n ≤ 31) (hi : i + k ≤ n)
    (hu : storeExtracts l i k t ls = .ok (ls', t')) :
    SoundTable env z size t' ∧ Extends t t' ∧ (∀ j < i, ls' j = ls j) ∧
      ∀ j, i ≤ j → j < i + k →
        Stands env z t' (ls' j) 8 (x / 2 ^ (8 * j) % 2 ^ 8) ∧ ls' j ≠ 0 := by
  induction k generalizing i t ls with
  | zero =>
    cases hu
    exact ⟨h, .refl _, fun _ _ => rfl, fun j hj hj' => by omega⟩
  | succ k ih =>
    have heq : storeExtracts l i (k + 1) t ls = taintUnion t (extractKey l i) >>= fun p =>
      storeExtracts l (i + 1) k p.2 (Function.update ls i p.1) := rfl
    rw [heq] at hu
    obtain ⟨⟨y, t₁⟩, hy, hu⟩ := except_bind_ok.1 hu
    obtain ⟨htab, hg, hcell, hne⟩ := h.extract hl hv hn (by omega) hy
    obtain ⟨htab', hg', hold, hcells⟩ := ih htab (hv.extends h.ordered hg) (by omega) hu
    have hyi : ls' i = y := by rw [hold i (Nat.lt_succ_self i), Function.update_self]
    refine ⟨htab', hg.trans hg', ?_, ?_⟩
    · intro j hj
      rw [hold j (Nat.lt_succ_of_lt hj), Function.update_of_ne (Nat.ne_of_lt hj)]
    · intro j hj hj'
      rcases Nat.eq_or_lt_of_le hj with rfl | hlt
      · rw [hyi]
        exact ⟨hcell.extends htab.ordered hg', hne⟩
      · exact hcells j hlt (by omega)

theorem SoundTable.load_bytes (h : SoundTable env z size t) (hl : l ≠ 0)
    (hv : Stands env z t l (8 * n) x) (hn0 : n ≠ 0) (hn : n ≤ 31)
    (hop : (t.key l).op = Operators.Load.code) (hi : i < n) :
    Stands env z t (((t.key l).l1 + i) % 2 ^ 32) 8 (x / 2 ^ (8 * i) % 2 ^ 8) ∧
      ((t.key l).l1 + i) % 2 ^ 32 ≠ 0 := by
  have hlo : constOffset ≤ l := Nat.pos_of_ne_zero hl
  obtain ⟨h1, _, hle, hsize⟩ := (h.records l hlo hv.label).load hop
  rw [hv.size hl (by omega)] at hsize
  have hsmall := h.small
  obtain ⟨o, ho⟩ : ∃ o, (t.key l).l1 = o + 1 := Nat.exists_eq_add_of_le' h1
  rw [ho] at hle
  have hk1 : (t.key (t.key l).l1).op1 = o := by
    rw [ho, h.file.key (o + 1) (Nat.le_add_left _ _) (by omega)]
    rfl
  obtain ⟨e, he⟩ := loadTerm_exists (o := o) (k := n - 1) fun j hj => h.nameable (by omega)
  have hbv := (loadTerm_isBv he).2
  have hterm : termOf z (fun _ => 0) t l = .ok e := by
    rw [termOf_eq h.ordered hlo hv.label, nodeTerm_load hop, hk1,
      show (t.key l).l2 - 1 = n - 1 by omega, he]
    rfl
  have hx : x = inputBytes o n env := by
    rw [← ((hv.agrees _).value e hterm).eval, hbv.eval env,
      Nat.sub_add_cancel (Nat.pos_of_ne_zero hn0)]
  have hdigit : x / 2 ^ (8 * i) % 2 ^ 8 = inputByte (o + i) env := by
    rw [hx]
    exact littleEndian_digit (fun j _ => inputByte_lt (o + j) env) hi
  rw [hdigit, ho, Nat.mod_eq_of_lt (by omega), Nat.add_right_comm]
  exact ⟨h.byte (by omega), Nat.succ_ne_zero _⟩

/-- The labels that a store leaves stand for the bytes that are stored. -/
theorem SoundTable.store (h : SoundTable env z size t) (hv : Stands env z t l (8 * n) x)
    (hn0 : n ≠ 0) (hn : n ≤ 31) (hu : taintUnionStore t l ls n = .ok (ls', t')) :
    SoundTable env z size t' ∧ Extends t t' ∧
      ∀ i < n, Stands env z t' (ls' i) 8 (x / 2 ^ (8 * i) % 2 ^ 8) ∧ (ls' i = 0 → l = 0) := by
  by_cases h0 : l = 0
  · subst h0
    cases hu
    refine ⟨h, .refl _, ?_⟩
    intro i hi
    simp only [if_pos hi]
    exact ⟨.zero (Nat.mod_lt _ (by decide)), fun _ => trivial⟩
  rw [taintUnionStore_eq h.ordered (Nat.pos_of_ne_zero h0) hv.label] at hu
  by_cases h1 : n = 1 ∧ (t.key l).size = 8
  · rw [if_pos h1] at hu
    cases hu
    obtain ⟨rfl, _⟩ := h1
    refine ⟨h, .refl _, ?_⟩
    intro i hi
    obtain rfl : i = 0 := by omega
    rw [Function.update_self, Nat.mul_zero, Nat.pow_zero, Nat.div_one,
      Nat.mod_eq_of_lt hv.bound]
    exact ⟨hv, id⟩
  rw [if_neg h1] at hu
  by_cases hop : (t.key l).op = Operators.Load.code
  · rw [if_pos hop] at hu
    cases hu
    refine ⟨h, .refl _, ?_⟩
    intro i hi
    simp only [if_pos hi]
    obtain ⟨hst, hne⟩ := h.load_bytes h0 hv hn0 hn hop hi
    exact ⟨hst, fun hz => (hne hz).elim⟩
  · rw [if_neg hop] at hu
    obtain ⟨htab, hg, _, hcells⟩ := h.extracts h0 hv hn (by omega) hu
    refine ⟨htab, hg, ?_⟩
    intro i hi
    obtain ⟨hst, hne⟩ := hcells i (Nat.zero_le i) (by omega)
    exact ⟨hst, fun hz => (hne hz).elim⟩

end

end Kirenenko
