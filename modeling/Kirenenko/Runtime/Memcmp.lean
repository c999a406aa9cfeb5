import Mathlib.Order.Interval.Finset.Nat
import Kirenenko.Runtime.BreakUp

namespace Kirenenko
set_option autoImplicit true

def dfsanReadLabel (mem : Memory) (addr size : Nat) (s : InputState) :
    Except Fault (Nat × LabelTable) :=
  if size = 0 then .ok (0, s.table)
  else taintUnionLoad s.table (fun i => mem (addr + i)) (s.cells addr) size

/-- The record asked for by a comparison of `n` bytes. -/
def memcmpKey (ls1 ls2 n s1 s2 : Nat) : LabelKey :=
  { l1 := ls1, l2 := ls2, op := Operators.fmemcmp.code, size := n, op1 := s1, op2 := s2 }

/-- The label of a comparison of `n` bytes, as all the wrappers make it. -/
def compareLabel (mem : Memory) (s1 s2 n : Nat) (s : InputState) :
    Except Fault (Nat × LabelTable) := do
  let (ls1, t) ← dfsanReadLabel mem s1 n s
  let (ls2, t) ← dfsanReadLabel mem s2 n { s with table := t }
  dfsanUnion t (memcmpKey ls1 ls2 n s1 s2)

/-- `!!memcmp(s1, s2, n)` -/
def memcmpResult (mem : Memory) (s1 s2 n : Nat) : Nat :=
  if ∀ i < n, mem (s1 + i) = mem (s2 + i) then 0 else 1

/-- The result, its label and the table. -/
def dfswMemcmp (mem : Memory) (s1 s2 n : Nat) (s : InputState) :
    Except Fault (Nat × Nat × LabelTable) := do
  let (label, t) ← compareLabel mem s1 s2 n s
  return (memcmpResult mem s1 s2 n, label, t)

/-- The little-endian value of `n` bytes of memory. -/
def memoryBytes (mem : Memory) (addr n : Nat) : Nat :=
  littleEndian 8 (fun i => (mem (addr + i)).toNat) n

theorem concreteTerm_isBv (mem : Memory) (addr k : Nat) :
    ∃ e, concreteTerm mem addr k = .ok e ∧
      e.IsBv (8 * (k + 1)) fun _ => memoryBytes mem addr (k + 1) := by
  have hbyte : ∀ c : UInt8, (Term.bvVal c.toNat 8).IsBv 8 fun _ => c.toNat :=
    fun c => ⟨rfl, fun _ => Nat.mod_eq_of_lt c.toNat_lt⟩
  induction k with
  | zero =>
    refine ⟨_, checked_of_isBv (hbyte _), ?_⟩
    rw [memoryBytes, littleEndian_one]
    exact hbyte _
  | succ k ih =>
    obtain ⟨val, hval, hbv⟩ := ih
    have hcat := (hbyte (mem (addr + (k + 1)))).concat hbv
    refine ⟨_, except_bind_ok.2 ⟨val, hval, except_bind_ok.2 ⟨_, checked_of_isBv (hbyte _),
      checked_of_isBv hcat⟩⟩, ?_⟩
    rw [memoryBytes, littleEndian_succ, Nat.mul_succ, Nat.add_comm (8 * (k + 1))]
    exact hcat

/-- The number of bytes that `read_concrete` reads for a recorded size. -/
def concreteSize (n : Nat) : Nat := n % 2 ^ 8 - 1 + 1

theorem concreteSize_eq : concreteSize n = n ↔ 1 ≤ n ∧ n ≤ 255 := by
  unfold concreteSize
  omega

/-- One side of a comparison: a label, or memory. -/
def sideTerm (z : Z3) (mem : Memory) (t : LabelTable) (ls addr n : Nat) : Except Exn Term :=
  if constOffset ≤ ls then termOf z mem t ls else ofZ3 (readConcrete mem addr (n % 2 ^ 8))

def SideDenotes (z : Z3) (mem : Memory) (t : LabelTable) (ls addr n w : Nat) (g : Env → Nat) :
    Prop :=
  ∃ e, sideTerm z mem t ls addr n = .ok e ∧ e.IsBv w g

/-- A label stands for the comparison of input bytes with given ones. -/
def Compares (z : Z3) (mem : Memory) (t : LabelTable) (l o n : Nat) (bytes : Nat → UInt8) : Prop :=
  ∃ f, Denotes z mem t l 32 f ∧
    ∀ env, f env = if ∀ i < n, inputByte (o + i) env = (bytes i).toNat then 0 else 1

section
variable {z : Z3} {mem mem' : Memory} {t t' : LabelTable} {f g g1 : Env → Nat}

theorem sideDenotes_label (ho : Ordered t) (h : constOffset ≤ ls) (hl : ls ≤ t.lastLabel) :
    SideDenotes z mem t ls addr n w g ↔ Denotes z mem t ls w g := by
  unfold SideDenotes sideTerm
  rw [if_pos h, denotes_iff ho hl]

theorem sideDenotes_const (haddr : addr ≠ 0) :
    SideDenotes z mem t constLabel addr n (8 * concreteSize n)
      fun _ => memoryBytes mem addr (concreteSize n) := by
  have h0 : ¬constOffset ≤ constLabel := by decide
  obtain ⟨e, he, hbv⟩ := concreteTerm_isBv mem addr (n % 2 ^ 8 - 1)
  refine ⟨e, ?_, hbv⟩
  rw [sideTerm, if_neg h0, readConcrete, if_neg haddr, Nat.mod_mod]
  exact ofZ3_eq_ok.2 he

theorem SideDenotes.unique (h : SideDenotes z mem t ls addr n w f)
    (h' : SideDenotes z mem t ls addr n v g) : w = v ∧ f = g := by
  obtain ⟨e, he, hbv⟩ := h
  obtain ⟨e', he', hbv'⟩ := h'
  rw [he] at he'
  cases he'
  exact hbv.unique hbv'

theorem memcmpTerm_sort (h : memcmpTerm a b = .ok e) :
    ∃ σ, a.sort = some σ ∧ b.sort = some σ := by
  obtain ⟨_, σ, hσ⟩ := checked_eq_ok.1 h
  obtain ⟨hc, _, _⟩ := Term.sort_inversion hσ
  exact (Term.sort_inversion hc).2

theorem memcmpTerm_isBv (ha : a.IsBv v g1) (hb : b.IsBv v g) :
    ∃ e, memcmpTerm a b = .ok e ∧ e.IsBv 32 fun env => if g1 env = g env then 0 else 1 := by
  have hbv : (Term.ite (.eq a b) (.bvVal 0 32) (.bvVal 1 32)).IsBv 32
      fun env => if g1 env = g env then 0 else 1 := by
    constructor
    · simp only [Term.sort, ha.sort, hb.sort, if_true]
      rfl
    · intro env
      simp only [Term.eval, ha.eval, hb.eval]
      by_cases h : g1 env = g env
      · simp [h]
      · simp [h]
  exact ⟨_, checked_of_isBv hbv, hbv⟩

/-- The record of a comparison has the side with the smaller label first. -/
theorem memcmpKey_canonical (h : ls1 ≤ ls2) (h2 : constOffset ≤ ls2) :
    canonical (memcmpKey ls1 ls2 n s1 s2) =
      { l1 := ls1, l2 := ls2, op := Operators.fmemcmp.code, size := n,
        op1 := if constOffset ≤ ls1 then 0 else s1, op2 := 0 } := by
  have hswap : swapOperands (memcmpKey ls1 ls2 n s1 s2) = memcmpKey ls1 ls2 n s1 s2 :=
    if_neg fun hs => absurd hs.1 (Nat.not_lt.2 h)
  rw [canonical, hswap]
  simp only [zeroConcrete, memcmpKey, ge_iff_le, if_pos h2]

theorem memcmpKey_swapped (h : ls2 < ls1) :
    canonical (memcmpKey ls1 ls2 n s1 s2) = canonical (memcmpKey ls2 ls1 n s2 s1) := by
  have hcomm : isCommutative Operators.fmemcmp.code := by decide
  have hswap : swapOperands (memcmpKey ls1 ls2 n s1 s2) = memcmpKey ls2 ls1 n s2 s1 :=
    if_pos ⟨h, hcomm⟩
  have hstay : swapOperands (memcmpKey ls2 ls1 n s2 s1) = memcmpKey ls2 ls1 n s2 s1 :=
    if_neg fun hs => absurd hs.1 (Nat.not_lt.2 (Nat.le_of_lt h))
  rw [canonical, canonical, hswap, hstay]

theorem memcmp_nodeTerm (h : ls1 ≤ ls2) (h2 : constOffset ≤ ls2)
    (hk : k = canonical (memcmpKey ls1 ls2 (n % 2 ^ 8) s1 s2)) :
    nodeTerm z mem key k (termOf z mem t) = .ok e ↔ ∃ e1 e2,
      sideTerm z mem t ls1 s1 n = .ok e1 ∧ sideTerm z mem t ls2 s2 n = .ok e2 ∧
        memcmpTerm e1 e2 = .ok e := by
  rw [memcmpKey_canonical h h2] at hk
  have hop : k.op = Operators.fmemcmp.code := by rw [hk]
  have hl2 : k.l2 = ls2 := by rw [hk]
  have hside : memcmpTermOf mem k (termOf z mem t) = sideTerm z mem t ls1 s1 n := by
    rw [hk]
    unfold memcmpTermOf sideTerm
    by_cases h1 : constOffset ≤ ls1
    · simp only [ge_iff_le, if_pos h1]
    · simp only [ge_iff_le, if_neg h1]
  have hside2 : sideTerm z mem t ls2 s2 n = termOf z mem t ls2 := if_pos h2
  rw [nodeTerm_memcmp hop, hside, hl2, hside2, and_iff_right h2]

theorem memcmp_denotes (ho : Ordered t) (hl : constOffset ≤ l) (hlast : l ≤ t.lastLabel)
    (hle : ls1 ≤ ls2) (h2 : constOffset ≤ ls2)
    (hk : t.key l = canonical (memcmpKey ls1 ls2 (n % 2 ^ 8) s1 s2))
    (hbv : (∃ v g, SideDenotes z mem t ls1 s1 n v g) ∨ ∃ v g, SideDenotes z mem t ls2 s2 n v g) :
    Denotes z mem t l w f ↔ w = 32 ∧ ∃ v g1 g2, SideDenotes z mem t ls1 s1 n v g1 ∧
      SideDenotes z mem t ls2 s2 n v g2 ∧ f = fun env => if g1 env = g2 env then 0 else 1 := by
  simp only [denotes_node ho hl hlast, memcmp_nodeTerm hle h2 hk]
  constructor
  · rintro ⟨e, ⟨e1, e2, he1, he2, he⟩, hbv'⟩
    obtain ⟨σ, hσ1, hσ2⟩ := memcmpTerm_sort he
    obtain ⟨v, rfl⟩ : ∃ v, σ = .bv v := by
      rcases hbv with ⟨v, g, e', he', hb⟩ | ⟨v, g, e', he', hb⟩
      · rw [he1] at he'
        cases he'
        exact ⟨v, Option.some.inj (hσ1.symm.trans hb.sort)⟩
      · rw [he2] at he'
        cases he'
        exact ⟨v, Option.some.inj (hσ2.symm.trans hb.sort)⟩
    obtain ⟨e', he', hbv''⟩ := memcmpTerm_isBv (.of_sort hσ1) (.of_sort hσ2)
    rw [he] at he'
    cases he'
    obtain ⟨rfl, rfl⟩ := hbv'.unique hbv''
    exact ⟨rfl, v, _, _, ⟨e1, he1, .of_sort hσ1⟩, ⟨e2, he2, .of_sort hσ2⟩, rfl⟩
  · rintro ⟨rfl, v, g1, g2, ⟨e1, he1, hb1⟩, ⟨e2, he2, hb2⟩, rfl⟩
    obtain ⟨e, he, hb⟩ := memcmpTerm_isBv hb1 hb2
    exact ⟨e, ⟨e1, e2, he1, he2, he⟩, hb⟩

theorem memcmpKey_denotes (ho : Ordered t) (hl : constOffset ≤ l) (hlast : l ≤ t.lastLabel)
    (hk : t.key l = canonical (memcmpKey ls1 ls2 (n % 2 ^ 8) s1 s2))
    (hne : ¬(ls1 = constLabel ∧ ls2 = constLabel))
    (hbv : (∃ v g, SideDenotes z mem t ls1 s1 n v g) ∨ ∃ v g, SideDenotes z mem t ls2 s2 n v g) :
    Denotes z mem t l w f ↔ w = 32 ∧ ∃ v g1 g2, SideDenotes z mem t ls1 s1 n v g1 ∧
      SideDenotes z mem t ls2 s2 n v g2 ∧ f = fun env => if g1 env = g2 env then 0 else 1 := by
  unfold constLabel at hne
  rcases Nat.lt_or_ge ls2 ls1 with hlt | hle
  · have h1 : constOffset ≤ ls1 := Nat.lt_of_le_of_lt (Nat.zero_le ls2) hlt
    rw [memcmpKey_swapped hlt] at hk
    rw [memcmp_denotes ho hl hlast (Nat.le_of_lt hlt) h1 hk hbv.symm]
    refine and_congr_right fun _ => ⟨?_, ?_⟩
    · rintro ⟨v, g2, g1, hg2, hg1, rfl⟩
      exact ⟨v, g1, g2, hg1, hg2, by simp only [eq_comm]⟩
    · rintro ⟨v, g1, g2, hg1, hg2, rfl⟩
      exact ⟨v, g2, g1, hg2, hg1, by simp only [eq_comm]⟩
  · have h2 : constOffset ≤ ls2 := by
      unfold constOffset
      omega
    exact memcmp_denotes ho hl hlast hle h2 hk hbv

theorem TableInv.memcmp_union (hinv : TableInv t S) (h1 : ls1 ≤ t.lastLabel)
    (h2 : ls2 ≤ t.lastLabel) (hne : ¬(ls1 = constLabel ∧ ls2 = constLabel)) :
    dfsanUnion t (memcmpKey ls1 ls2 n s1 s2) = .error .die ∧ t.lastLabel = maxLabel ∨
      ∃ l t', dfsanUnion t (memcmpKey ls1 ls2 n s1 s2) = .ok (l, t') ∧ TableGrows t t' 1 ∧
        constOffset ≤ l ∧ l ≤ t'.lastLabel ∧
        t'.key l = canonical (memcmpKey ls1 ls2 (n % 2 ^ 8) s1 s2) := by
  have heq : dfsanUnion t (memcmpKey ls1 ls2 n s1 s2) =
      Kirenenko.taintUnion t (memcmpKey ls1 ls2 (n % 2 ^ 8) s1 s2) := rfl
  have ha : Allocated t (memcmpKey ls1 ls2 (n % 2 ^ 8) s1 s2) := ⟨h1, fun _ => h2⟩
  have hop : Operators.fmemcmp.code ≠ Operators.Load.code := by decide
  rw [heq]
  rcases hinv.union_cases ha (ha.not_init hinv.ordered hop) with hdie | ⟨l, t', hu, hret⟩
  · exact .inl hdie
  · refine .inr ⟨l, t', hu, hret.tableGrows, ?_⟩
    rcases hret.key with ⟨_, hcu⟩ | ⟨hl, hk⟩
    · obtain ⟨hc1, hc2, _⟩ := hcu
      unfold constOffset at hc2
      rcases swapOperands_cases (memcmpKey ls1 ls2 (n % 2 ^ 8) s1 s2) with ⟨e1, e2⟩ | ⟨_, e1, e2⟩
      · exact (hne ⟨e1.symm.trans hc1, e2.symm.trans (Nat.lt_one_iff.1 hc2)⟩).elim
      · exact (hne ⟨e2.symm.trans (Nat.lt_one_iff.1 hc2), e1.symm.trans hc1⟩).elim
    · exact ⟨hl, hret.label, hk⟩

theorem const_load (app : Nat → UInt8) (h : ∀ i < n, ls i = constLabel) (hn : n ≠ 0) :
    taintUnionLoad t app ls n = .ok (constLabel, t) := by
  have h0 : ls 0 = constLabel := h 0 (Nat.pos_of_ne_zero hn)
  have hinit : ls 0 ≠ kInitializingLabel := by
    rw [h0]
    decide
  rw [taintUnionLoad, if_neg hinit, if_pos ⟨h0, h⟩]

theorem rawInput_count {ls : Nat → Nat} (h : ∀ i < n, RawInput t (ls i) (o + i)) :
    n ≤ t.lastLabel := by
  have hmaps : Set.MapsTo ls (Finset.range n) (Finset.Icc 1 t.lastLabel) := by
    intro i hi
    obtain ⟨hl, hlast, _⟩ := h i (Finset.mem_range.1 hi)
    exact Finset.mem_coe.2 (Finset.mem_Icc.2 ⟨hl, hlast⟩)
  have hinj : Set.InjOn ls (Finset.range n) := by
    intro i hi j hj hij
    have hi' := (h i (Finset.mem_range.1 hi)).2.2
    have hj' := (h j (Finset.mem_range.1 hj)).2.2
    rw [hij, hj'] at hi'
    have := congrArg LabelKey.op1 hi'
    simp only at this
    omega
  have hcard := Finset.card_le_card_of_injOn ls hmaps hinj
  rw [Finset.card_range, Nat.card_Icc, Nat.add_sub_cancel] at hcard
  exact hcard

theorem rawInput_label {ls : Nat → Nat} (hinv : TableInv t S)
    (hraw : ∀ i < n, RawInput t (ls i) (o + i)) (hn : n ≠ 0) :
    loadConsecutive t ls n = .error .die ∧ t.lastLabel = maxLabel ∨
      ∃ l t', loadConsecutive t ls n = .ok (l, t') ∧ TableGrows t t' 1 ∧ constOffset ≤ l ∧
        l ≤ t'.lastLabel ∧ ∀ z mem w g, Denotes z mem t' l w g ↔
          (∀ i < n, Nameable (o + i)) ∧ w = 8 * n ∧ g = inputBytes o n := by
  obtain ⟨hl0, hlast0, hk0⟩ := hraw 0 (Nat.pos_of_ne_zero hn)
  have hlt : n < kInitializingLabel := by
    have := rawInput_count hraw
    have := hinv.ordered.bound
    omega
  have hop1 : (t.key (ls 0)).op1 = o := by rw [hk0]; rfl
  have hop : (t.key (ls 0)).op = 0 := by rw [hk0]
  have h := consecutive_denotes hinv hlast0 (Nat.ne_of_gt hl0) hop hn hlt
  rw [hop1] at h
  exact h

/-- A buffer of input bytes and a concrete buffer. -/
structure OneTainted (s : InputState) (tainted concrete o n : Nat) : Prop where
  count : 1 ≤ n
  offsets : o + n ≤ 2 ^ 64
  raw : ∀ i < n, RawInput s.table (s.cells tainted i) (o + i)
  const : ∀ i < n, s.cells concrete i = constLabel
  addr : concrete ≠ 0

theorem OneTainted.denotes (h : OneTainted s tainted concrete o n) (hg : Extends t t')
    (ho : Ordered t) (ho' : Ordered t') (hlt : constOffset ≤ lt) (hltl : lt ≤ t.lastLabel)
    (hd : ∀ w g, Denotes z mem t lt w g ↔
      (∀ i < n, Nameable (o + i)) ∧ w = 8 * n ∧ g = inputBytes o n)
    (hl : constOffset ≤ l) (hlast : l ≤ t'.lastLabel)
    (hk : t'.key l = canonical (memcmpKey lt constLabel (n % 2 ^ 8) tainted concrete)) :
    Denotes z mem t' l w f ↔ w = 32 ∧ n ≤ 255 ∧ (∀ i < n, Nameable (o + i)) ∧
      f = fun env => if inputBytes o n env = memoryBytes mem concrete n then 0 else 1 := by
  have hcount := h.count
  have hconst : SideDenotes z mem t' constLabel concrete n _ _ := sideDenotes_const h.addr
  have hltl' : lt ≤ t'.lastLabel := Nat.le_trans hltl hg.lastLabel
  have hside : ∀ w g, SideDenotes z mem t' lt tainted n w g ↔
      (∀ i < n, Nameable (o + i)) ∧ w = 8 * n ∧ g = inputBytes o n := by
    intro w g
    rw [sideDenotes_label ho' hlt hltl', hg.denotes ho ho' hltl, hd]
  rw [memcmpKey_denotes ho' hl hlast hk (fun hc => absurd hlt (by rw [hc.1]; decide))
    (.inr ⟨_, _, hconst⟩)]
  refine and_congr_right fun _ => ?_
  constructor
  · rintro ⟨v, g1, g2, h1, h2, rfl⟩
    obtain ⟨hname, rfl, rfl⟩ := (hside v g1).1 h1
    obtain ⟨hv, rfl⟩ := h2.unique hconst
    have hsize : concreteSize n = n := by omega
    rw [hsize]
    exact ⟨(concreteSize_eq.1 hsize).2, hname, rfl⟩
  · rintro ⟨hle, hname, rfl⟩
    have hsize : concreteSize n = n := concreteSize_eq.2 ⟨hcount, hle⟩
    rw [hsize] at hconst
    exact ⟨_, _, _, (hside _ _).2 ⟨hname, rfl, rfl⟩, hconst, rfl⟩

theorem dfsanUnion_memcmp_comm (t : LabelTable) :
    dfsanUnion t (memcmpKey ls1 ls2 n s1 s2) = dfsanUnion t (memcmpKey ls2 ls1 n s2 s1) := by
  have hcomm : isCommutative (memcmpKey ls2 ls1 (n % 2 ^ 8) s2 s1).op := by
    change isCommutative Operators.fmemcmp.code
    decide
  exact taintUnion_swapped t hcomm

theorem compareLabel_concrete {s : InputState} {s1 s2 tainted concrete : Nat} (mem : Memory)
    (hn : n ≠ 0)
    (hconst : ∀ i < n, s.cells concrete i = constLabel)
    (hs : s1 = tainted ∧ s2 = concrete ∨ s1 = concrete ∧ s2 = tainted) :
    compareLabel mem s1 s2 n s = dfsanReadLabel mem tainted n s >>= fun p =>
      dfsanUnion p.2 (memcmpKey p.1 constLabel n tainted concrete) := by
  have hread : ∀ t, dfsanReadLabel mem concrete n { s with table := t } = .ok (constLabel, t) := by
    intro t
    rw [dfsanReadLabel, if_neg hn]
    exact const_load _ hconst hn
  unfold compareLabel
  rcases hs with ⟨rfl, rfl⟩ | ⟨rfl, rfl⟩
  · simp only [hread, except_ok_bind]
  · rw [hread s.table, except_ok_bind]
    exact congrArg (dfsanReadLabel mem s2 n s >>= ·) (funext fun p => dfsanUnion_memcmp_comm p.2)

theorem OneTainted.dfsanReadLabel_eq (h : OneTainted s tainted concrete o n) (mem : Memory)
    (hinv : TableInv s.table S) :
    dfsanReadLabel mem tainted n s = loadConsecutive s.table (s.cells tainted) n := by
  have hn : n ≠ 0 := Nat.ne_of_gt h.count
  rw [dfsanReadLabel, if_neg hn]
  exact rawInput_load _ hinv h.offsets h.raw hn

theorem OneTainted.compareLabel_eq (h : OneTainted s tainted concrete o n) (mem : Memory)
    (hinv : TableInv s.table S)
    (hs : s1 = tainted ∧ s2 = concrete ∨ s1 = concrete ∧ s2 = tainted) :
    compareLabel mem s1 s2 n s = loadConsecutive s.table (s.cells tainted) n >>= fun p =>
      dfsanUnion p.2 (memcmpKey p.1 constLabel n tainted concrete) := by
  rw [compareLabel_concrete mem (Nat.ne_of_gt h.count) h.const hs, h.dfsanReadLabel_eq mem hinv]

theorem OneTainted.compare_cases (h : OneTainted s tainted concrete o n) (mem : Memory)
    (hinv : TableInv s.table S)
    (hs : s1 = tainted ∧ s2 = concrete ∨ s1 = concrete ∧ s2 = tainted) :
    compareLabel mem s1 s2 n s = .error .die ∧ maxLabel < s.table.lastLabel + 2 ∨
      ∃ l t, compareLabel mem s1 s2 n s = .ok (l, t) ∧ TableGrows s.table t 2 ∧
        constOffset ≤ l ∧ l ≤ t.lastLabel ∧ ∀ z mem' w f, Denotes z mem' t l w f ↔
          w = 32 ∧ n ≤ 255 ∧ (∀ i < n, Nameable (o + i)) ∧
            f = fun env => if inputBytes o n env = memoryBytes mem' concrete n then 0 else 1 := by
  rw [h.compareLabel_eq mem hinv hs]
  rcases rawInput_label hinv h.raw (Nat.ne_of_gt h.count) with
    ⟨hdie, hfull⟩ | ⟨lt, t, hload, hg, hlt, hltl, hd⟩
  · rw [hdie]
    exact .inl ⟨rfl, by omega⟩
  obtain ⟨S', hinv'⟩ := hg.inv
  rw [hload, except_ok_bind]
  rcases hinv'.memcmp_union hltl (Nat.zero_le _) fun hc => Nat.ne_of_gt hlt hc.1 with
    ⟨hdie, hfull⟩ | ⟨l, t', hu, hg', hl, hlast, hk⟩
  · have := hg.bound
    exact .inl ⟨hdie, by omega⟩
  · exact .inr ⟨l, t', hu, hg.trans hg', hl, hlast, fun z mem' w f =>
      h.denotes hg'.grows hg.ordered hg'.ordered hlt hltl (hd z mem') hl hlast hk⟩

theorem inputBytes_eq_memoryBytes (env : Env) : inputBytes o n env = memoryBytes mem addr n ↔
    ∀ i < n, inputByte (o + i) env = (mem (addr + i)).toNat :=
  littleEndian_inj (fun _ _ => inputByte_lt _ env) fun _ _ => UInt8.toNat_lt _

theorem memoryBytes_congr (h : ∀ i < n, mem' (addr + i) = mem (addr + i)) :
    memoryBytes mem' addr n = memoryBytes mem addr n :=
  littleEndian_congr fun i hi => congrArg UInt8.toNat (h i hi)

theorem compares_iff (hmem : ∀ i < n, mem' (addr + i) = mem (addr + i))
    (hd : ∀ w f, Denotes z mem' t l w f ↔ w = 32 ∧ n ≤ 255 ∧ (∀ i < n, Nameable (o + i)) ∧
      f = fun env => if inputBytes o n env = memoryBytes mem' addr n then 0 else 1) :
    Compares z mem' t l o n (fun i => mem (addr + i)) ↔
      n ≤ 255 ∧ ∀ i < n, Nameable (o + i) := by
  constructor
  · rintro ⟨f, hf, _⟩
    obtain ⟨_, hle, hname, _⟩ := (hd 32 f).1 hf
    exact ⟨hle, hname⟩
  · rintro ⟨hle, hname⟩
    refine ⟨_, (hd 32 _).2 ⟨rfl, hle, hname, rfl⟩, ?_⟩
    intro env
    rw [memoryBytes_congr hmem]
    simp only [inputBytes_eq_memoryBytes]

theorem Compares.result (h : Compares z mem' t l o n fun i => mem (concrete + i))
    (hs : s1 = tainted ∧ s2 = concrete ∨ s1 = concrete ∧ s2 = tainted)
    (hf : Denotes z mem' t l 32 f)
    (henv : ∀ i < n, inputByte (o + i) env = (mem (tainted + i)).toNat) :
    f env = memcmpResult mem s1 s2 n := by
  obtain ⟨f', hf', hval⟩ := h
  obtain ⟨_, rfl⟩ := hf.unique hf'
  rw [hval, memcmpResult]
  congr 1
  refine propext (forall₂_congr fun i hi => ?_)
  rw [henv i hi, UInt8.toNat_inj]
  rcases hs with ⟨rfl, rfl⟩ | ⟨rfl, rfl⟩
  · rfl
  · exact eq_comm

/-- The label of a comparison of input bytes with concrete ones stands for that comparison exactly
if its length fits into eight bits and the bytes have names. -/
theorem memcmp_label {s : TableHistory} (mem mem' : Memory)
    (hr : Steps (TableStep z) .initial as s) (h : OneTainted ⟨s.table, shadow⟩ tainted concrete o n)
    (hs : s1 = tainted ∧ s2 = concrete ∨ s1 = concrete ∧ s2 = tainted)
    (hmem : ∀ i < n, mem' (concrete + i) = mem (concrete + i)) :
    dfswMemcmp mem s1 s2 n ⟨s.table, shadow⟩ = .error .die ∧ maxLabel < s.table.lastLabel + 2 ∨
      ∃ ret l t, dfswMemcmp mem s1 s2 n ⟨s.table, shadow⟩ = .ok (ret, l, t) ∧
        (Compares z mem' t l o n (fun i => mem (concrete + i)) ∧
            (∀ f env, Denotes z mem' t l 32 f →
              (∀ i < n, inputByte (o + i) env = (mem (tainted + i)).toNat) → f env = ret) ↔
          n ≤ 255 ∧ ∀ i < n, Nameable (o + i)) := by
  have hinv : TableInv s.table s.Stored := (hr.table_inv TableHistory.initial_inv).1
  unfold dfswMemcmp
  rcases h.compare_cases mem hinv hs with ⟨hdie, hfull⟩ | ⟨l, t, hu, _, _, _, hd⟩
  · rw [hdie]
    exact .inl ⟨rfl, hfull⟩
  · rw [hu]
    refine .inr ⟨_, l, t, rfl, ?_⟩
    rw [← compares_iff hmem (hd z mem')]
    exact ⟨fun hc => hc.1, fun hc => ⟨hc, fun f env hf henv => hc.result hs hf henv⟩⟩

end

/-- The shadow of a buffer of `n` input bytes at address 4096. -/
def inputShadow (n : Nat) (a : Int) : Nat :=
  if 4096 ≤ a ∧ a < 4096 + n then (a - 4095).toNat else 0

theorem inputShadow_cells (t : LabelTable) (h : o + i < n) :
    InputState.cells ⟨t, inputShadow n⟩ (4096 + o : Nat) i = o + i + 1 := by
  change (if _ then _ else _) = _
  rw [if_pos (by omega)]
  omega

theorem inputShadow_oneTainted (h : FileMode t n) (hn : 1 ≤ n) (hlt : n ≤ 2 ^ 64)
    (hc : c ≠ 0) (hle : c + n ≤ 4096) : OneTainted ⟨t, inputShadow n⟩ 4096 c 0 n where
  count := hn
  offsets := by omega
  raw i hi := by
    have hi' : 0 + i < n := by omega
    have hlabel : InputState.cells ⟨t, inputShadow n⟩ (4096 : Nat) i = _ := inputShadow_cells t hi'
    rw [hlabel]
    exact h.rawInput hi'
  const i hi := by
    apply if_neg
    omega
  addr := hc

/-- A comparison of 256 bytes cannot be serialized. -/
theorem memcmp_label_long :
    ∃ s, Steps (TableStep .idle) .initial (preallocate 256) s ∧
      OneTainted ⟨s.table, inputShadow 256⟩ 4096 64 0 256 ∧
      ∃ ret l t, dfswMemcmp (fun _ => 0) 4096 64 256 ⟨s.table, inputShadow 256⟩ =
          .ok (ret, l, t) ∧
        ¬∃ w f, Denotes .idle (fun _ => 0) t l w f := by
  obtain ⟨s, hr⟩ := preallocate_exists .idle (by decide : 256 ≤ maxLabel)
  obtain ⟨hmode, hlast⟩ := preallocate_fileMode hr
  have hinv : TableInv s.table s.Stored := (hr.table_inv TableHistory.initial_inv).1
  have h := inputShadow_oneTainted hmode (by decide) (by decide) (by decide : 64 ≠ 0) (by decide)
  refine ⟨s, hr, h, ?_⟩
  rcases h.compare_cases (fun _ => 0) hinv (.inl ⟨rfl, rfl⟩) with
    ⟨_, hfull⟩ | ⟨l, t, hu, _, _, _, hd⟩
  · rw [hlast] at hfull
    exact absurd hfull (by decide)
  · refine ⟨_, l, t, by rw [dfswMemcmp, hu]; rfl, ?_⟩
    rintro ⟨w, f, hf⟩
    exact absurd ((hd _ _ w f).1 hf).2.1 (by decide)

/-- "abc" at address 64, and "abd" at address 4096. -/
def wordMemory : Memory := fun a =>
  if a < 4096 then [97, 98, 99].getD (a - 64) 0 else [97, 98, 100].getD (a - 4096) 0

/-- The input that is in memory at address 4096. -/
def inputInMemory (mem : Memory) : Env
  | .int o, _ => (mem (4096 + o)).toNat
  | .str _, _ => 0

/-- Three bytes of the input, compared as the second argument. -/
theorem memcmp_label_word :
    ∃ s l t, Steps (TableStep .idle) .initial (preallocate 3) s ∧
      dfswMemcmp wordMemory 64 4096 3 ⟨s.table, inputShadow 3⟩ = .ok (1, l, t) ∧
      Compares .idle wordMemory t l 0 3 fun i => wordMemory (64 + i) := by
  obtain ⟨s, hr⟩ := preallocate_exists .idle (by decide : 3 ≤ maxLabel)
  obtain ⟨hmode, hlast⟩ := preallocate_fileMode hr
  have h := inputShadow_oneTainted hmode (by decide) (by decide) (by decide : 64 ≠ 0) (by decide)
  have hname : ∀ i < 3, Nameable (0 + i) := by
    unfold Nameable
    decide
  rcases memcmp_label wordMemory wordMemory hr h (.inr ⟨rfl, rfl⟩) (fun _ _ => rfl) with
    ⟨_, hfull⟩ | ⟨ret, l, t, hu, hiff⟩
  · rw [hlast] at hfull
    exact absurd hfull (by decide)
  · obtain ⟨⟨f, hf, hvalue⟩, hret⟩ := hiff.2 ⟨by decide, hname⟩
    -- On the input in memory the label has the value of the comparison.
    have hone : ret = 1 := by
      rw [← hret f (inputInMemory wordMemory) hf (by decide), hvalue]
      decide
    rw [hone] at hu
    exact ⟨s, l, t, hr, hu, f, hf, hvalue⟩

end Kirenenko
