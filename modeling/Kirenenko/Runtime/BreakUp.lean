import Kirenenko.Runtime.InputLabels

namespace Kirenenko
set_option autoImplicit true

/-- An allocated label of a load of consecutive input bytes. -/
structure LoadLabel (t : LabelTable) (l : Nat) : Prop where
  label : l ≤ t.lastLabel
  op : (t.key l).op = Operators.Load.code

/-- When a store breaks a load of `n` bytes up into its first `m`: the labels of their offsets
follow one another, and the size of the load is not recorded as that of one byte. -/
structure BreaksUp (t : LabelTable) (l o n m : Nat) : Prop where
  labels : ∀ i < m, RawInput t (l + i) (o + i)
  size : m = 1 → n * 8 % 2 ^ 16 ≠ 8

section
variable {t t' : LabelTable} {ls : Nat → Nat} {l n m o : Nat}

theorem Extends.rawInput (h : Extends t t') (hl : l ≤ t.lastLabel) :
    RawInput t' l o ↔ RawInput t l o := by
  have hl' : l ≤ t'.lastLabel := Nat.le_trans hl h.lastLabel
  simp only [RawInput, h.key l hl, hl, hl', true_and]

theorem LoadLabel.not_rawInput (h : LoadLabel t l) : ¬RawInput t l o := by
  rintro ⟨_, _, hk⟩
  have hop := h.op
  rw [hk] at hop
  cases hop

theorem LoadLabel.extends (h : LoadLabel t l) (hg : Extends t t') : LoadLabel t' l where
  label := Nat.le_trans h.label hg.lastLabel
  op := by rw [hg.key l h.label]; exact h.op

theorem rawInput_consecutive (ho : o + n ≤ 2 ^ 64) (hraw : ∀ i < n, RawInput t (ls i) (o + i))
    (hn : n ≠ 0) : Consecutive t ls n := by
  have h0 : t.key (ls 0) = { size := 8, op1 := o } := (hraw 0 (Nat.pos_of_ne_zero hn)).2.2
  refine ⟨by rw [h0], ?_⟩
  intro i hi _
  have hmod : (o + i) % 2 ^ 64 = o + i := Nat.mod_eq_of_lt (by omega)
  rw [(hraw i hi).2.2, h0]
  exact hmod.symm

theorem rawInput_load (app : Nat → UInt8) (hinv : TableInv t S) (ho : o + n ≤ 2 ^ 64)
    (hraw : ∀ i < n, RawInput t (ls i) (o + i)) (hn : n ≠ 0) :
    taintUnionLoad t app ls n = loadConsecutive t ls n := by
  have hpos : 0 < n := Nat.pos_of_ne_zero hn
  obtain ⟨hl0, hlast0, hk0⟩ := hraw 0 hpos
  have hsize : ∀ i < n, (t.key (ls i)).size = 8 := by
    intro i hi
    rw [(hraw i hi).2.2]
  have hp : (t.key (ls 0)).l1 ≤ t.lastLabel := by
    rw [hk0]
    exact Nat.zero_le _
  rw [taintUnionLoad_eq hinv.ordered.bound hn (fun i hi => (hraw i hi).2.1) hsize hp
    ⟨0, hpos, Nat.ne_of_gt hl0⟩, if_pos (rawInput_consecutive ho hraw hn)]

theorem loadConsecutive_key (hinv : TableInv t S) (h0 : ls 0 ≤ t.lastLabel)
    (hne : ls 0 ≠ constLabel) (hop : (t.key (ls 0)).op = 0)
    (hload : loadConsecutive t ls n = .ok (l, t')) (hl : LoadLabel t' l) :
    taintUnion t (loadKey ls n) = .ok (l, t') ∧ TableGrows t t' 1 ∧ constOffset ≤ l ∧
      t'.key l = loadKey ls n := by
  by_cases h1 : n = 1
  · rw [loadConsecutive, if_pos h1] at hload
    cases hload
    have := hop.symm.trans hl.op
    cases this
  have heq : loadConsecutive t ls n = taintUnion t (loadKey ls n) := if_neg h1
  rw [heq] at hload
  have hnc : ¬ConstUnion (loadKey ls n) := fun hc => hne hc.1
  by_cases hk : n % 2 ^ 32 = kInitializingLabel
  · rw [taintUnion_eq, loadKey_swap, if_neg hnc, if_pos (.inr hk)] at hload
    cases hload
    have := hl.label
    have := hinv.ordered.bound
    omega
  rcases hinv.load_union h0 hnc hk with ⟨hdie, _⟩ | ⟨l', u, hu, hg, hl', _, hkey⟩
  · rw [hload] at hdie
    cases hdie
  · rw [hload] at hu
    cases hu
    exact ⟨hload, hg, hl', hkey⟩

theorem LoadLabel.below (h : LoadLabel t l) (ho : Ordered t) (hlt : j < l)
    (hraw : ∀ i < m, RawInput t ((j + i) % 2 ^ 32) (o + i)) : ∀ i < m, j + i < l := by
  have hb := ho.bound
  have hlabel := h.label
  intro i hi
  induction i with
  | zero => exact hlt
  | succ i ih =>
    have hbelow := ih (Nat.lt_of_succ_lt hi)
    rcases Nat.lt_or_eq_of_le (Nat.succ_le_of_lt hbelow) with hlt' | heq
    · exact hlt'
    · have hr := hraw (i + 1) hi
      have hmod : (j + (i + 1)) % 2 ^ 32 = l := by
        unfold kInitializingLabel at hb
        omega
      rw [hmod] at hr
      exact (h.not_rawInput hr).elim

theorem taintUnionStore_load (h : LoadLabel t l) (ho : Ordered t) (hl : constOffset ≤ l)
    (cells : Nat → Nat) :
    taintUnionStore t l cells m = .ok (if m = 1 ∧ (t.key l).size = 8 then
      Function.update cells 0 l
      else fun i => if i < m then ((t.key l).l1 + i) % 2 ^ 32 else cells i, t) := by
  have hb := ho.bound
  have hlabel := h.label
  have hspecial : ¬(l = kInitializingLabel ∨ l = 0) := by
    unfold constOffset at hl
    omega
  rw [taintUnionStore, if_neg hspecial, getLabelInfo_ok h.label, except_ok_bind]
  change (if m = 1 ∧ (t.key l).size = 8 then _ else if (t.key l).op = _ then _ else _) = _
  rw [if_pos h.op]
  split <;> rfl

theorem breaksUp_iff (hg : TableGrows t u 1) (hg' : Extends u t') (ho' : Ordered t')
    (hl : LoadLabel u l) (hpos : constOffset ≤ l) (hk : u.key l = loadKey ls n)
    (hstore : taintUnionStore t' l cells m = .ok (cells', t')) :
    (∀ i < m, RawInput t' (cells' i) (o + i)) ↔ BreaksUp t (ls 0) o n m := by
  have hl' := hl.extends hg'
  have hkey : t'.key l = loadKey ls n := (hg'.key l hl.label).trans hk
  have hsize : (t'.key l).size = n * 8 % 2 ^ 16 := by rw [hkey]; rfl
  have hl1 : (t'.key l).l1 = ls 0 := by rw [hkey]; rfl
  rw [taintUnionStore_load hl' ho' hpos, hsize, hl1] at hstore
  have hcells := (Prod.mk.inj (Except.ok.inj hstore)).1
  subst hcells
  by_cases hone : m = 1 ∧ n * 8 % 2 ^ 16 = 8
  · rw [if_pos hone]
    constructor
    · intro h
      have h0 := h 0 (by omega)
      rw [Function.update_self] at h0
      exact (hl'.not_rawInput h0).elim
    · intro h
      exact (h.size hone.1 hone.2).elim
  rw [if_neg hone]
  have hb := hg'.lastLabel
  have hinit := ho'.bound
  unfold kInitializingLabel at hinit
  constructor
  · intro h
    have hraw : ∀ i < m, RawInput t' ((ls 0 + i) % 2 ^ 32) (o + i) := by
      intro i hi
      have hi' := h i hi
      rw [if_pos hi] at hi'
      exact hi'
    have hlt : ls 0 < l := by
      have := ho'.l1 l hpos hl'.label
      rw [hl1] at this
      exact this
    have hbelow := hl'.below ho' hlt hraw
    refine ⟨?_, fun h1 h8 => hone ⟨h1, h8⟩⟩
    intro i hi
    have hle : ls 0 + i ≤ t.lastLabel := by
      have := hbelow i hi
      have := hl.label
      have := hg.bound
      omega
    have hi' := hraw i hi
    rw [Nat.mod_eq_of_lt (by have := hg.grows.lastLabel; omega)] at hi'
    exact ((hg.grows.trans hg').rawInput hle).1 hi'
  · intro h i hi
    have hr := h.labels i hi
    have hle := hr.2.1
    rw [if_pos hi, Nat.mod_eq_of_lt (by have := hg.grows.lastLabel; omega)]
    exact ((hg.grows.trans hg').rawInput hle).2 hr

end

theorem TableStep.read {f : TaintFile} {s : TableHistory} (hf : f.isStdin = true)
    (h : getLabelFor f offset s.table = .ok (l, t)) :
    TableStep z s (.create offset) { s with table := t } := by
  rw [getLabelFor, if_pos hf] at h
  exact .create h

/-- Whenever a load of input bytes is broken up, each byte gets back a label of its offset exactly
if these labels were created one after another; `s` is the table at the time of the load and `s'`
the one at the time of the store. -/
theorem load_broken_up {s s' : TableHistory} (cells : Nat → Nat)
    (hr : Steps (TableStep z) .initial as s) (hn : 1 ≤ n) (ho : o + n ≤ 2 ^ 64)
    (hraw : ∀ i < n, RawInput s.table (ls i) (o + i))
    (hload : taintUnionLoad s.table app ls n = .ok (l, t)) (hl : LoadLabel t l)
    (hlater : Steps (TableStep z) (s.afterUnion l t) bs s') :
    ∃ cells', taintUnionStore s'.table l cells m = .ok (cells', s'.table) ∧
      ((∀ i < m, RawInput s'.table (cells' i) (o + i)) ↔ BreaksUp s.table (ls 0) o n m) := by
  have hinv : s.Inv := (hr.table_inv TableHistory.initial_inv).1
  obtain ⟨hl0, hlast0, hk0⟩ := hraw 0 hn
  have hne : ls 0 ≠ constLabel := Nat.ne_of_gt hl0
  have hop : (s.table.key (ls 0)).op = 0 := by rw [hk0]
  rw [rawInput_load app hinv ho hraw (Nat.ne_of_gt hn)] at hload
  obtain ⟨hu, hg, hpos, hk⟩ := loadConsecutive_key hinv hlast0 hne hop hload hl
  have hstep : TableStep z s (.union (loadKey ls n)) (s.afterUnion l t) :=
    .union ⟨hlast0, fun h => (h rfl).elim⟩ hu
  have hinv₁ := (hstep.inv hinv).1
  have hg' : Extends t s'.table := by
    have := hlater.table_extends hinv₁
    rw [TableHistory.afterUnion_table] at this
    exact this
  have ho' : Ordered s'.table := TableInv.ordered (hlater.table_inv hinv₁).1
  have hstore := taintUnionStore_load (m := m) (hl.extends hg') ho' hpos cells
  exact ⟨_, hstore, breaksUp_iff hg hg' ho' hl hpos hk hstore⟩

/-- A byte from standard input, a sum with it, and the next byte. -/
def interruptedOps : List TableOp :=
  [.create 0, .union { l1 := 1, l2 := 0, op := Operators.Add.code, size := 8, op2 := 1 }, .create 1]

def stdinFile : TaintFile := { isStdin := true, size := 1 }

/-- The second byte comes back as the sum, which has the next number after the first byte. -/
theorem load_broken_up_interrupted :
    ∃ s, Steps (TableStep .idle) .initial interruptedOps s ∧
      RawInput s.table 1 0 ∧ RawInput s.table 3 1 ∧
      ∃ l t, taintUnionLoad s.table (fun _ => 0) (fun i => 2 * i + 1) 2 = .ok (l, t) ∧
        LoadLabel t l ∧
        ∃ cells, taintUnionStore t l (fun _ => 0) 2 = .ok (cells, t) ∧ ¬RawInput t (cells 1) 1 := by
  have h : Steps (TableStep .idle) .initial interruptedOps _ :=
    .cons (.read (f := stdinFile) rfl rfl) (.cons (.union ⟨by decide, fun _ => by decide⟩ rfl)
      (.cons (.read (f := stdinFile) rfl rfl) .nil))
  refine ⟨_, h, ⟨by decide, by decide, rfl⟩, ⟨by decide, by decide, rfl⟩, _, _, rfl,
    ⟨by decide, rfl⟩, _, rfl, ?_⟩
  rintro ⟨_, _, hk⟩
  exact absurd (congrArg LabelKey.op hk) (by decide)

/-- Two bytes that are read one after the other come back as they were. -/
theorem load_broken_up_in_order :
    ∃ s l t cells, Steps (TableStep .idle) .initial [.create 0, .create 1] s ∧
      taintUnionLoad s.table (fun _ => 0) (fun i => i + 1) 2 = .ok (l, t) ∧
      taintUnionStore t l (fun _ => 0) 2 = .ok (cells, t) ∧
      ∀ i < 2, RawInput t (cells i) (0 + i) := by
  obtain ⟨s, l, t, h, hraw, hload, hl⟩ : ∃ s l t,
      Steps (TableStep .idle) .initial [.create 0, .create 1] s ∧
      (∀ i < 2, RawInput s.table (i + 1) (0 + i)) ∧
      taintUnionLoad s.table (fun _ => 0) (fun i => i + 1) 2 = .ok (l, t) ∧ LoadLabel t l := by
    have h : Steps (TableStep .idle) .initial [.create 0, .create 1] _ :=
      .cons (.read (f := stdinFile) rfl rfl) (.cons (.read (f := stdinFile) rfl rfl) .nil)
    refine ⟨_, _, _, h, ?_, rfl, ⟨by decide, rfl⟩⟩
    intro i hi
    obtain rfl | rfl : i = 0 ∨ i = 1 := by omega
    · exact ⟨by decide, by decide, rfl⟩
    · exact ⟨by decide, by decide, rfl⟩
  obtain ⟨cells, hstore, hiff⟩ := load_broken_up (m := 2) (fun _ => 0) h (by decide) (by decide)
    hraw hload hl .nil
  rw [TableHistory.afterUnion_table] at hstore hiff
  refine ⟨s, l, t, cells, h, hload, hstore, hiff.2 ⟨?_, by decide⟩⟩
  intro i hi
  have hi' := hraw i hi
  rw [Nat.add_comm i 1] at hi'
  exact hi'

end Kirenenko
