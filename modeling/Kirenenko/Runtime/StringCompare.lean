import Kirenenko.Runtime.LabelBounds
import Kirenenko.Runtime.Memcmp

namespace Kirenenko
set_option autoImplicit true

/-- `strlen` from index `i` on; `fuel` bounds the bytes that are looked at. -/
def strlenLoop (mem : Memory) (addr : Nat) : Nat → Nat → Nat
  | 0, i => i
  | fuel + 1, i => if mem (addr + i) = 0 then i else strlenLoop mem addr fuel (i + 1)

/-- A string ends somewhere in the 64-bit address space. -/
def strlenAt (mem : Memory) (addr : Nat) : Nat := strlenLoop mem addr (2 ^ 64) 0

/-- `!!strncmp` from index `i` on, with `n` bytes to go. -/
def strncmpLoop (mem : Memory) (s1 s2 : Nat) : Nat → Nat → Nat
  | 0, _ => 0
  | n + 1, i =>
    if mem (s1 + i) ≠ mem (s2 + i) then 1
    else if mem (s1 + i) = 0 then 0
    else strncmpLoop mem s1 s2 n (i + 1)

def strncmpResult (mem : Memory) (s1 s2 n : Nat) : Nat := strncmpLoop mem s1 s2 n 0

def strcmpResult (mem : Memory) (s1 s2 : Nat) : Nat := strncmpResult mem s1 s2 (2 ^ 64)

def dfsanGetLabel (addr : Nat) (s : InputState) : Nat := s.shadow addr

/-- The number of bytes that stand for a string comparison. -/
def strcmpSize (mem : Memory) (s1 s2 : Nat) (s : InputState) : Nat :=
  if dfsanGetLabel s1 s ≠ 0 then strlenAt mem s2 + 1 else strlenAt mem s1 + 1

def dfswStrcmp (mem : Memory) (s1 s2 : Nat) (s : InputState) :
    Except Fault (Nat × Nat × LabelTable) := do
  let (label, t) ← compareLabel mem s1 s2 (strcmpSize mem s1 s2 s) s
  return (strcmpResult mem s1 s2, label, t)

/-- The length is cut down to a string whose first byte is concrete. -/
def cutLength (mem : Memory) (addr : Nat) (s : InputState) (n : Nat) : Nat :=
  if dfsanGetLabel addr s = 0 ∧ strlenAt mem addr < n - 1 then strlenAt mem addr + 1 else n

def strncmpSize (mem : Memory) (s1 s2 n : Nat) (s : InputState) : Nat :=
  cutLength mem s2 s (cutLength mem s1 s n)

def dfswStrncmp (mem : Memory) (s1 s2 n : Nat) (s : InputState) :
    Except Fault (Nat × Nat × LabelTable) :=
  if n = 0 then .ok (0, 0, s.table)
  else do
    let (label, t) ← compareLabel mem s1 s2 (strncmpSize mem s1 s2 n s) s
    return (strncmpResult mem s1 s2 n, label, t)

/-- A string of a given length, with anything behind its terminator. -/
structure IsString (mem : Memory) (addr len : Nat) : Prop where
  nonzero : ∀ i < len, mem (addr + i) ≠ 0
  nul : mem (addr + len) = 0
  bound : len < 2 ^ 64

section
variable {mem : Memory} {s : InputState} {s1 s2 n : Nat}

theorem strlenLoop_eq (h : IsString mem addr len) (hi : i ≤ len) (hf : len < i + fuel) :
    strlenLoop mem addr fuel i = len := by
  induction fuel generalizing i with
  | zero => omega
  | succ fuel ih =>
    rw [strlenLoop]
    rcases Nat.lt_or_eq_of_le hi with hlt | rfl
    · rw [if_neg (h.nonzero i hlt)]
      exact ih hlt (by omega)
    · rw [if_pos h.nul]

theorem IsString.strlenAt (h : IsString mem addr len) : strlenAt mem addr = len :=
  strlenLoop_eq h (Nat.zero_le len) (by have := h.bound; omega)

theorem memcmpResult_comm : memcmpResult mem s1 s2 n = memcmpResult mem s2 s1 n := by
  unfold memcmpResult
  simp only [eq_comm]

theorem strncmpLoop_comm (n i : Nat) : strncmpLoop mem s1 s2 n i = strncmpLoop mem s2 s1 n i := by
  induction n generalizing i with
  | zero => rfl
  | succ n ih =>
    rw [strncmpLoop, strncmpLoop, ih]
    by_cases h : mem (s1 + i) = mem (s2 + i)
    · simp only [h, ne_eq, not_true_eq_false, if_false]
    · rw [if_pos h, if_pos (Ne.symm h)]

theorem strncmpLoop_eq (h : IsString mem s1 len) (hi : i ≤ len) :
    strncmpLoop mem s1 s2 n i =
      if ∀ j < min n (len + 1 - i), mem (s1 + (i + j)) = mem (s2 + (i + j)) then 0 else 1 := by
  induction n generalizing i with
  | zero =>
    rw [if_pos]
    · rfl
    · intro j hj
      omega
  | succ n ih =>
    obtain ⟨m, hm⟩ : ∃ m, min (n + 1) (len + 1 - i) = m + 1 :=
      Nat.exists_eq_add_one_of_ne_zero (by omega)
    have hfirst : (∀ j < m + 1, mem (s1 + (i + j)) = mem (s2 + (i + j))) ↔
        mem (s1 + i) = mem (s2 + i) ∧
          ∀ j < m, mem (s1 + (i + 1 + j)) = mem (s2 + (i + 1 + j)) := by
      simp only [Nat.forall_lt_succ_left, Nat.add_zero, Nat.succ_add_eq_add_succ]
    rw [strncmpLoop, hm]
    simp only [hfirst]
    by_cases he : mem (s1 + i) = mem (s2 + i)
    · rw [if_neg (fun hne => hne he)]
      simp only [he, true_and]
      rcases Nat.lt_or_eq_of_le hi with hlt | rfl
      · have hne := h.nonzero i hlt
        have hm' : m = min n (len + 1 - (i + 1)) := by omega
        rw [he] at hne
        rw [if_neg hne, ih hlt, hm']
      · have hnul := h.nul
        rw [he] at hnul
        rw [if_pos hnul, if_pos]
        intro j hj
        omega
    · rw [if_pos he, if_neg fun hall => he hall.1]

theorem IsString.strncmpResult (h : IsString mem s1 len) :
    strncmpResult mem s1 s2 n = memcmpResult mem s1 s2 (min n (len + 1)) := by
  rw [Kirenenko.strncmpResult, strncmpLoop_eq h (Nat.zero_le len), memcmpResult]
  simp only [Nat.zero_add, Nat.sub_zero]

theorem IsString.strncmpResult_right (h : IsString mem s2 len) :
    Kirenenko.strncmpResult mem s1 s2 n = memcmpResult mem s1 s2 (min n (len + 1)) := by
  rw [Kirenenko.strncmpResult, strncmpLoop_comm, memcmpResult_comm]
  exact h.strncmpResult

theorem IsString.cutLength (h : IsString mem addr len) (s : InputState) (n : Nat) :
    cutLength mem addr s n = if dfsanGetLabel addr s = 0 then min n (len + 1) else n := by
  unfold Kirenenko.cutLength
  rw [h.strlenAt]
  by_cases h0 : dfsanGetLabel addr s = 0
  · rw [if_pos h0]
    by_cases hlt : len < n - 1
    · rw [if_pos ⟨h0, hlt⟩]
      omega
    · rw [if_neg fun hc => hlt hc.2]
      omega
  · rw [if_neg h0, if_neg fun hc => h0 hc.1]

theorem strcmpSize_result (h1 : IsString mem s1 len1) (h2 : IsString mem s2 len2) :
    memcmpResult mem s1 s2 (strcmpSize mem s1 s2 s) = strcmpResult mem s1 s2 := by
  have hb1 := h1.bound
  have hb2 := h2.bound
  unfold strcmpSize strcmpResult
  by_cases h : dfsanGetLabel s1 s ≠ 0
  · rw [if_pos h, h2.strlenAt, h2.strncmpResult_right, Nat.min_eq_right hb2]
  · rw [if_neg h, h1.strlenAt, h1.strncmpResult, Nat.min_eq_right hb1]

theorem strncmpSize_result (h1 : IsString mem s1 len1) (h2 : IsString mem s2 len2)
    (h : dfsanGetLabel s1 s = 0 ∨ dfsanGetLabel s2 s = 0) :
    memcmpResult mem s1 s2 (strncmpSize mem s1 s2 n s) = strncmpResult mem s1 s2 n := by
  unfold strncmpSize
  rw [h2.cutLength, h1.cutLength]
  by_cases hz1 : dfsanGetLabel s1 s = 0
  · have hcut : strncmpResult mem s1 s2 (min n (len1 + 1)) = strncmpResult mem s1 s2 n := by
      rw [h1.strncmpResult, h1.strncmpResult, Nat.min_assoc, Nat.min_self]
    rw [if_pos hz1]
    by_cases hz2 : dfsanGetLabel s2 s = 0
    · rw [if_pos hz2, ← h2.strncmpResult_right, hcut]
    · rw [if_neg hz2, ← h1.strncmpResult]
  · have hz2 := h.resolve_left hz1
    rw [if_neg hz1, if_pos hz2, ← h2.strncmpResult_right]

theorem strncmpSize_tainted (h1 : dfsanGetLabel s1 s ≠ 0) (h2 : dfsanGetLabel s2 s ≠ 0) :
    strncmpSize mem s1 s2 n s = n := by
  unfold strncmpSize cutLength
  rw [if_neg fun hc => h2 hc.1, if_neg fun hc => h1 hc.1]

theorem strncmpSize_bounds (h1 : IsString mem s1 len1) (h2 : IsString mem s2 len2) (hn : n ≠ 0) :
    strncmpSize mem s1 s2 n s ≠ 0 ∧ strncmpSize mem s1 s2 n s ≤ n := by
  unfold strncmpSize
  rw [h2.cutLength, h1.cutLength]
  split <;> split <;> omega

/-- Some of the bytes of a buffer are tainted. -/
def Tainted (s : InputState) (addr n : Nat) : Prop := ∃ i < n, s.cells addr i ≠ constLabel

/-- The label read for a buffer with a tainted byte denotes, on the input `env`, what is in
memory. -/
def ReadsMemory (z : Z3) (mem : Memory) (env : Env) (s : InputState) (addr n : Nat) : Prop :=
  Tainted s addr n → ∀ l t, dfsanReadLabel mem addr n s = .ok (l, t) →
    ∃ g, Denotes z mem t l (8 * n) g ∧ g env = memoryBytes mem addr n

/-- A side of a comparison, and whether it is tainted. -/
structure SideReads (z : Z3) (mem : Memory) (env : Env) (t : LabelTable) (ls addr n : Nat)
    (T : Prop) : Prop where
  const : ¬T → ls = constLabel
  denotes : T → ∃ g, Denotes z mem t ls (8 * n) g ∧ g env = memoryBytes mem addr n

theorem SideReads.extends (h : SideReads z mem env t ls addr n T) (hg : Extends t t')
    (ho : Ordered t) (ho' : Ordered t') : SideReads z mem env t' ls addr n T where
  const := h.const
  denotes hT := by
    obtain ⟨g, hd, hval⟩ := h.denotes hT
    exact ⟨g, (hg.denotes ho ho' hd.label.2).2 hd, hval⟩

theorem SideReads.label (h : SideReads z mem env t ls addr n T) : ls ≤ t.lastLabel := by
  by_cases hT : T
  · obtain ⟨g, hd, _⟩ := h.denotes hT
    exact hd.label.2
  · rw [h.const hT]
    exact Nat.zero_le _

theorem SideReads.tainted (h : SideReads z mem env t ls addr n T) (hT : T) : ls ≠ constLabel := by
  obtain ⟨g, hd, _⟩ := h.denotes hT
  exact Nat.ne_of_gt hd.label.1

/-- The width of a side, which is that of the buffer unless the length of concrete memory is cut
to eight bits, and its value. -/
theorem SideReads.value (h : SideReads z mem env t ls addr n T) (ho : Ordered t) (ha : addr ≠ 0) :
    ∃ w g, SideDenotes z mem t ls addr n w g ∧ (T → w = 8 * n) ∧
      (¬T → w = 8 * concreteSize n) ∧ (w = 8 * n → g env = memoryBytes mem addr n) := by
  by_cases hT : T
  · obtain ⟨g, hd, hval⟩ := h.denotes hT
    exact ⟨8 * n, g, (sideDenotes_label ho hd.label.1 hd.label.2).2 hd, fun _ => rfl,
      fun hnot => (hnot hT).elim, fun _ => hval⟩
  · rw [h.const hT]
    refine ⟨_, _, sideDenotes_const ha, fun hT' => (hT hT').elim, fun _ => rfl, ?_⟩
    intro hw
    have hsize : concreteSize n = n := by omega
    rw [hsize]

theorem read_side (hinv : TableInv s.table S) (hs : s.AllHeld) (hn : n ≠ 0)
    (hr : ReadsMemory z mem env s addr n) (hread : dfsanReadLabel mem addr n s = .ok (l, t)) :
    TableKept s.table t ∧ SideReads z mem env t l addr n (Tainted s addr n) := by
  have hkept : Ends (fun _ => True) (ReturnsHeld s.table) (dfsanReadLabel mem addr n s) := by
    rw [dfsanReadLabel, if_neg hn]
    apply (taintUnionLoad_ends keptByLoads_true (fun _ _ => trivial) hinv trivial
      (.of_all fun i => hs _) fun _ _ => .inr trivial).mono
    exact fun _ hret => hret.1
  rw [hread] at hkept
  refine ⟨hkept.1, ?_, fun hT => hr hT l t hread⟩
  intro hT
  have hconst : ∀ i < n, s.cells addr i = constLabel := by
    intro i hi
    by_contra hne
    exact hT ⟨i, hi, hne⟩
  rw [dfsanReadLabel, if_neg hn, const_load _ hconst hn] at hread
  cases hread
  rfl

theorem memoryBytes_eq : memoryBytes mem s1 n = memoryBytes mem s2 n ↔
    ∀ i < n, mem (s1 + i) = mem (s2 + i) := by
  refine (littleEndian_inj (fun _ _ => UInt8.toNat_lt _) fun _ _ => UInt8.toNat_lt _).trans ?_
  simp only [UInt8.toNat_inj]

/-- Both buffers of a comparison are read as they are in memory. -/
structure ReadsBoth (z : Z3) (mem : Memory) (env : Env) (s : InputState) (s1 s2 n : Nat) :
    Prop where
  first : ReadsMemory z mem env s s1 n
  second : ∀ l t, dfsanReadLabel mem s1 n s = .ok (l, t) →
    ReadsMemory z mem env { s with table := t } s2 n

/-- A buffer holds the bytes of the input `env` from the offset `o` on, with their labels. -/
structure HoldsInput (mem : Memory) (env : Env) (s : InputState) (addr o n : Nat) : Prop where
  offsets : o + n ≤ 2 ^ 64
  raw : ∀ i < n, RawInput s.table (s.cells addr i) (o + i)
  nameable : ∀ i < n, Nameable (o + i)
  value : ∀ i < n, inputByte (o + i) env = (mem (addr + i)).toNat

theorem HoldsInput.extends (h : HoldsInput mem env s addr o n) (hg : Extends s.table t) :
    HoldsInput mem env { s with table := t } addr o n where
  offsets := h.offsets
  raw i hi := (hg.rawInput (h.raw i hi).2.1).2 (h.raw i hi)
  nameable := h.nameable
  value := h.value

theorem HoldsInput.readsMemory (h : HoldsInput mem env s addr o n) (hinv : TableInv s.table S) :
    ReadsMemory z mem env s addr n := by
  rintro ⟨i, hi, _⟩ l t hread
  have hn : n ≠ 0 := Nat.ne_zero_of_lt hi
  rw [dfsanReadLabel, if_neg hn, rawInput_load _ hinv h.offsets h.raw hn] at hread
  rcases rawInput_label hinv h.raw hn with ⟨hdie, _⟩ | ⟨l', t', hok, _, _, _, hd⟩
  · rw [hdie] at hread
    cases hread
  · rw [hok] at hread
    cases hread
    exact ⟨_, (hd z mem _ _).2 ⟨h.nameable, rfl, rfl⟩, (inputBytes_eq_memoryBytes env).2 h.value⟩

theorem ReadsMemory.of_const {addr : Nat} (h : ∀ i < n, s.cells addr i = constLabel) :
    ReadsMemory z mem env s addr n := by
  rintro ⟨i, hi, hne⟩
  exact (hne (h i hi)).elim

theorem ReadsBoth.of_readsMemory (hinv : TableInv s.table S) (hs : s.AllHeld)
    (h1 : ReadsMemory z mem env s s1 n)
    (h2 : ∀ S' t, TableInv t S' → Extends s.table t →
      ReadsMemory z mem env { s with table := t } s2 n) : ReadsBoth z mem env s s1 s2 n where
  first := h1
  second l t hread := by
    by_cases hn : n = 0
    · rintro ⟨i, hi, _⟩
      omega
    · obtain ⟨hk, _⟩ := read_side hinv hs hn h1 hread
      obtain ⟨S', hinv'⟩ := hk.inv
      exact h2 S' t hinv' hk.grows

theorem HoldsInput.readsBoth (h1 : HoldsInput mem env s s1 o1 n) (h2 : HoldsInput mem env s s2 o2 n)
    (hinv : TableInv s.table S) (hs : s.AllHeld) : ReadsBoth z mem env s s1 s2 n :=
  .of_readsMemory hinv hs (h1.readsMemory hinv) fun _ _ hinv' hg =>
    (h2.extends hg).readsMemory hinv'

theorem HoldsInput.readsBoth_const (h1 : HoldsInput mem env s s1 o n)
    (h2 : ∀ i < n, s.cells s2 i = constLabel) (hinv : TableInv s.table S) (hs : s.AllHeld) :
    ReadsBoth z mem env s s1 s2 n :=
  .of_readsMemory hinv hs (h1.readsMemory hinv) fun _ _ _ _ => .of_const h2

/-- On the input `env`, a label of a comparison has the value `r`. -/
def EvaluatesTo (z : Z3) (mem : Memory) (env : Env) (t : LabelTable) (l r : Nat) : Prop :=
  ∃ f, Denotes z mem t l 32 f ∧ f env = r

theorem compare_value (ho : Ordered t) (ha1 : s1 ≠ 0) (ha2 : s2 ≠ 0) (hn : n ≠ 0)
    (h1 : SideReads z mem env t ls1 s1 n T1) (h2 : SideReads z mem env t ls2 s2 n T2)
    (hT : T1 ∨ T2) (hl : constOffset ≤ l) (hlast : l ≤ t.lastLabel)
    (hk : t.key l = canonical (memcmpKey ls1 ls2 (n % 2 ^ 8) s1 s2)) :
    EvaluatesTo z mem env t l r ↔ (n ≤ 255 ∨ T1 ∧ T2) ∧ memcmpResult mem s1 s2 n = r := by
  obtain ⟨w1, g1, hd1, hfull1, hcut1, hv1⟩ := h1.value ho ha1
  obtain ⟨w2, g2, hd2, hfull2, hcut2, hv2⟩ := h2.value ho ha2
  have hne : ¬(ls1 = constLabel ∧ ls2 = constLabel) := by
    rintro ⟨hc1, hc2⟩
    rcases hT with hT1 | hT2
    · exact h1.tainted hT1 hc1
    · exact h2.tainted hT2 hc2
  have hsize : concreteSize n = n ↔ n ≤ 255 := by
    rw [concreteSize_eq]
    omega
  have hwidth : (w1 = w2 ↔ n ≤ 255 ∨ T1 ∧ T2) ∧ (w1 = w2 → w1 = 8 * n) := by
    by_cases hT1 : T1
    · by_cases hT2 : T2
      · simp only [hfull1 hT1, hfull2 hT2, hT1, hT2, and_self, or_true, implies_true]
      · simp only [hfull1 hT1, hcut2 hT2, hT2, and_false, or_false, ← hsize, implies_true, and_true]
        omega
    · have hT2 := hT.resolve_left hT1
      simp only [hcut1 hT1, hfull2 hT2, hT1, false_and, or_false, ← hsize, imp_self, and_true]
      omega
  have hval : w1 = w2 → (if g1 env = g2 env then 0 else 1) = memcmpResult mem s1 s2 n := by
    intro hw
    have hw1 := hwidth.2 hw
    rw [hv1 hw1, hv2 (hw.symm.trans hw1), memcmpResult]
    simp only [memoryBytes_eq]
  rw [← hwidth.1]
  constructor
  · rintro ⟨f, hf, hfr⟩
    obtain ⟨_, v, g1', g2', hs1, hs2, rfl⟩ :=
      (memcmpKey_denotes ho hl hlast hk hne (.inl ⟨_, _, hd1⟩)).1 hf
    obtain ⟨rfl, rfl⟩ := hs1.unique hd1
    obtain ⟨hw, rfl⟩ := hs2.unique hd2
    exact ⟨hw, (hval hw).symm.trans hfr⟩
  · rintro ⟨hw, hr⟩
    rw [← hw] at hd2
    exact ⟨_, (memcmpKey_denotes ho hl hlast hk hne (.inl ⟨_, _, hd1⟩)).2
      ⟨rfl, w1, g1, g2, hd1, hd2, rfl⟩, (hval hw).trans hr⟩

theorem compareLabel_value (hinv : TableInv s.table S) (hs : s.AllHeld) (ha1 : s1 ≠ 0)
    (ha2 : s2 ≠ 0) (hn : n ≠ 0) (hr : ReadsBoth z mem env s s1 s2 n)
    (hu : compareLabel mem s1 s2 n s = .ok (l, t)) (hl : l ≠ constLabel) :
    EvaluatesTo z mem env t l r ↔ (n ≤ 255 ∨ Tainted s s1 n ∧ Tainted s s2 n) ∧
      memcmpResult mem s1 s2 n = r := by
  obtain ⟨⟨ls1, t1⟩, hread1, hu⟩ := except_bind_ok.1 hu
  obtain ⟨⟨ls2, t2⟩, hread2, hu⟩ := except_bind_ok.1 hu
  change dfsanUnion t2 (memcmpKey ls1 ls2 n s1 s2) = .ok (l, t) at hu
  obtain ⟨hk1, hside1⟩ := read_side hinv hs hn hr.first hread1
  obtain ⟨S1, hinv1⟩ := hk1.inv
  have hs' : InputState.AllHeld { s with table := t1 } := fun a => (hs a).extends hk1.grows
  obtain ⟨hk2, hside2⟩ := read_side hinv1 hs' hn (hr.second ls1 t1 hread1) hread2
  obtain ⟨S2, hinv2⟩ := hk2.inv
  have hside1' := hside1.extends hk2.grows hinv1.ordered hinv2.ordered
  have hT : Tainted s s1 n ∨ Tainted s s2 n := by
    by_contra hnot
    obtain ⟨hn1, hn2⟩ := not_or.1 hnot
    rw [hside1.const hn1, hside2.const hn2] at hu
    cases hu
    exact hl rfl
  have hne : ¬(ls1 = constLabel ∧ ls2 = constLabel) := by
    rintro ⟨hc1, hc2⟩
    rcases hT with hT1 | hT2
    · exact hside1.tainted hT1 hc1
    · exact hside2.tainted hT2 hc2
  rcases hinv2.memcmp_union hside1'.label hside2.label hne with
    ⟨hdie, _⟩ | ⟨l', t', hok, hg, hl', hlast, hk⟩
  · rw [hdie] at hu
    cases hu
  · rw [hok] at hu
    cases hu
    have ho := hg.ordered
    exact compare_value ho ha1 ha2 hn (hside1'.extends hg.grows hinv2.ordered ho)
      (hside2.extends hg.grows hinv2.ordered ho) hT hl' hlast hk

/-- The strings are short enough for their length to be recorded, or both are tainted. -/
def StrcmpFits (mem : Memory) (s1 s2 : Nat) (s : InputState) : Prop :=
  strcmpSize mem s1 s2 s ≤ 255 ∨
    Tainted s s1 (strcmpSize mem s1 s2 s) ∧ Tainted s s2 (strcmpSize mem s1 s2 s)

/-- If the first bytes of both strings are tainted, equal strings do not differ behind their
terminators. -/
def StrncmpFits (mem : Memory) (s1 s2 n : Nat) (s : InputState) : Prop :=
  dfsanGetLabel s1 s ≠ 0 → dfsanGetLabel s2 s ≠ 0 → strncmpResult mem s1 s2 n = 0 →
    ∀ i < n, mem (s1 + i) = mem (s2 + i)

theorem memcmpResult_of_strncmp (h1 : IsString mem s1 len) :
    memcmpResult mem s1 s2 n = strncmpResult mem s1 s2 n ↔
      (strncmpResult mem s1 s2 n = 0 → ∀ i < n, mem (s1 + i) = mem (s2 + i)) := by
  rw [h1.strncmpResult]
  unfold memcmpResult
  by_cases hall : ∀ i < n, mem (s1 + i) = mem (s2 + i)
  · have hmin : ∀ i < min n (len + 1), mem (s1 + i) = mem (s2 + i) :=
      fun i hi => hall i (by omega)
    simp only [if_pos hall, if_pos hmin, true_iff]
    exact fun _ => hall
  · by_cases hmin : ∀ i < min n (len + 1), mem (s1 + i) = mem (s2 + i)
    · rw [if_neg hall, if_pos hmin]
      exact iff_of_false Nat.one_ne_zero fun h => hall (h rfl)
    · simp only [if_neg hall, if_neg hmin, Nat.one_ne_zero, false_imp_iff]

theorem strcmp_value (hinv : TableInv s.table S) (hs : s.AllHeld) (ha1 : s1 ≠ 0) (ha2 : s2 ≠ 0)
    (h1 : IsString mem s1 len1) (h2 : IsString mem s2 len2)
    (hr : ReadsBoth z mem env s s1 s2 (strcmpSize mem s1 s2 s))
    (hu : dfswStrcmp mem s1 s2 s = .ok (ret, l, t)) (hl : l ≠ constLabel) :
    EvaluatesTo z mem env t l ret ↔ StrcmpFits mem s1 s2 s := by
  obtain ⟨⟨l', t'⟩, hcmp, hret⟩ := except_bind_ok.1 hu
  cases hret
  have hn : strcmpSize mem s1 s2 s ≠ 0 := by
    unfold strcmpSize
    split <;> exact Nat.succ_ne_zero _
  rw [compareLabel_value hinv hs ha1 ha2 hn hr hcmp hl, and_iff_left (strcmpSize_result h1 h2)]
  rfl

theorem strncmp_value (hinv : TableInv s.table S) (hs : s.AllHeld) (ha1 : s1 ≠ 0) (ha2 : s2 ≠ 0)
    (h1 : IsString mem s1 len1) (h2 : IsString mem s2 len2) (hn : n < 256)
    (hr : ReadsBoth z mem env s s1 s2 (strncmpSize mem s1 s2 n s))
    (hu : dfswStrncmp mem s1 s2 n s = .ok (ret, l, t)) (hl : l ≠ constLabel) :
    EvaluatesTo z mem env t l ret ↔ StrncmpFits mem s1 s2 n s := by
  unfold dfswStrncmp at hu
  by_cases hn0 : n = 0
  · rw [if_pos hn0] at hu
    cases hu
    exact (hl rfl).elim
  rw [if_neg hn0] at hu
  obtain ⟨⟨l', t'⟩, hcmp, hret⟩ := except_bind_ok.1 hu
  cases hret
  obtain ⟨hpos, hle⟩ := strncmpSize_bounds h1 h2 hn0
  have h255 : strncmpSize mem s1 s2 n s ≤ 255 := Nat.le_trans hle (Nat.le_of_lt_succ hn)
  rw [compareLabel_value hinv hs ha1 ha2 hpos hr hcmp hl, and_iff_right (.inl h255)]
  unfold StrncmpFits
  by_cases hz1 : dfsanGetLabel s1 s = 0
  · exact iff_of_true (strncmpSize_result h1 h2 (.inl hz1)) fun hne => (hne hz1).elim
  by_cases hz2 : dfsanGetLabel s2 s = 0
  · exact iff_of_true (strncmpSize_result h1 h2 (.inr hz2)) fun _ hne => (hne hz2).elim
  rw [strncmpSize_tainted hz1 hz2, memcmpResult_of_strncmp h1]
  exact ⟨fun h _ _ => h, fun h => h hz1 hz2⟩

end

/-- The labels of string comparisons have the results of the wrappers as their values on the
actual input `env`, but for long strings that are compared with concrete ones and for equal strings
with different bytes behind their terminators. -/
theorem string_comparison_labels {s : TableHistory} (hr : Steps (TableStep z) .initial as s)
    (hs : InputState.AllHeld ⟨s.table, shadow⟩) (h1 : IsString mem s1 len1)
    (h2 : IsString mem s2 len2) (ha1 : s1 ≠ 0) (ha2 : s2 ≠ 0) :
    (ReadsBoth z mem env ⟨s.table, shadow⟩ s1 s2 (strcmpSize mem s1 s2 ⟨s.table, shadow⟩) →
      ∀ ret l t, dfswStrcmp mem s1 s2 ⟨s.table, shadow⟩ = .ok (ret, l, t) → l ≠ constLabel →
        (EvaluatesTo z mem env t l ret ↔ StrcmpFits mem s1 s2 ⟨s.table, shadow⟩)) ∧
    ∀ n < 256,
      ReadsBoth z mem env ⟨s.table, shadow⟩ s1 s2 (strncmpSize mem s1 s2 n ⟨s.table, shadow⟩) →
      ∀ ret l t, dfswStrncmp mem s1 s2 n ⟨s.table, shadow⟩ = .ok (ret, l, t) → l ≠ constLabel →
        (EvaluatesTo z mem env t l ret ↔ StrncmpFits mem s1 s2 n ⟨s.table, shadow⟩) := by
  have hinv : TableInv s.table s.Stored := (hr.table_inv TableHistory.initial_inv).1
  constructor
  · intro hread ret l t hu hl
    exact strcmp_value hinv hs ha1 ha2 h1 h2 hread hu hl
  · intro n hn hread ret l t hu hl
    exact strncmp_value hinv hs ha1 ha2 h1 h2 hn hread hu hl

theorem inputShadow_holdsInput (h : FileMode t n) (mem : Memory) (hle : o + m ≤ n)
    (hn : n ≤ 2 ^ 30) : HoldsInput mem (inputInMemory mem) ⟨t, inputShadow n⟩ (4096 + o) o m where
  offsets := by omega
  raw i hi := by
    have hi' : o + i < n := by omega
    rw [inputShadow_cells t hi']
    exact h.rawInput hi'
  nameable i hi := by
    unfold Nameable
    omega
  value i hi := by
    have hmod : (o + i) % 2 ^ 32 = o + i := Nat.mod_eq_of_lt (by omega)
    rw [inputByte, hmod, inputInMemory, ← Nat.add_assoc]
    exact Nat.mod_eq_of_lt (UInt8.toNat_lt _)

theorem inputShadow_allHeld (h : t.lastLabel = n) : InputState.AllHeld ⟨t, inputShadow n⟩ := by
  intro a
  apply Or.inl
  change inputShadow n a ≤ t.lastLabel
  unfold inputShadow
  split
  · apply Int.toNat_le.2
    omega
  · exact Nat.zero_le _

/-- Two empty strings, with different bytes behind their terminators. -/
def emptyStrings : Memory := fun a => if a = 4097 then 1 else if a = 4099 then 2 else 0

/-- Two empty strings are equal, but their label says that they differ. -/
theorem string_comparison_labels_behind_nul :
    ∃ s, Steps (TableStep .idle) .initial (preallocate 4) s ∧
      InputState.AllHeld ⟨s.table, inputShadow 4⟩ ∧
      IsString emptyStrings 4096 0 ∧ IsString emptyStrings 4098 0 ∧
      ReadsBoth .idle emptyStrings (inputInMemory emptyStrings) ⟨s.table, inputShadow 4⟩ 4096 4098
        (strncmpSize emptyStrings 4096 4098 2 ⟨s.table, inputShadow 4⟩) ∧
      ∃ ret l t, dfswStrncmp emptyStrings 4096 4098 2 ⟨s.table, inputShadow 4⟩ = .ok (ret, l, t) ∧
        l ≠ constLabel ∧
        ¬EvaluatesTo .idle emptyStrings (inputInMemory emptyStrings) t l ret := by
  have hr : Steps (TableStep .idle) .initial (preallocate 4) _ :=
    .cons (.create rfl) (.cons (.create rfl) (.cons (.create rfl) (.cons (.create rfl) .nil)))
  obtain ⟨hmode, hlast⟩ := preallocate_fileMode hr
  have hinv : TableInv _ _ := (hr.table_inv TableHistory.initial_inv).1
  have hs := inputShadow_allHeld hlast
  have h1 : IsString emptyStrings 4096 0 := ⟨by simp, rfl, by decide⟩
  have h2 : IsString emptyStrings 4098 0 := ⟨by simp, rfl, by decide⟩
  have hread : ReadsBoth .idle emptyStrings (inputInMemory emptyStrings) _ 4096 4098 2 :=
    (inputShadow_holdsInput hmode emptyStrings (by decide : 0 + 2 ≤ 4) (by decide)).readsBoth
      (inputShadow_holdsInput hmode emptyStrings (by decide : 2 + 2 ≤ 4) (by decide)) hinv hs
  refine ⟨_, hr, hs, h1, h2, hread, _, _, _, rfl, by decide, ?_⟩
  rw [strncmp_value hinv hs (by decide) (by decide) h1 h2 (by decide) hread rfl (by decide)]
  intro h
  exact absurd (h (by decide) (by decide) rfl 1 (by decide)) (by decide)

/-- "abd" from the input, compared with the concrete "abc": the strings differ, and their first two
bytes do not. -/
theorem string_comparison_labels_word :
    ∃ s, Steps (TableStep .idle) .initial (preallocate 4) s ∧
      (∃ l t, dfswStrcmp wordMemory 4096 64 ⟨s.table, inputShadow 4⟩ = .ok (1, l, t) ∧
        l ≠ constLabel ∧ EvaluatesTo .idle wordMemory (inputInMemory wordMemory) t l 1) ∧
      ∃ l t, dfswStrncmp wordMemory 4096 64 2 ⟨s.table, inputShadow 4⟩ = .ok (0, l, t) ∧
        l ≠ constLabel ∧ EvaluatesTo .idle wordMemory (inputInMemory wordMemory) t l 0 := by
  have hr : Steps (TableStep .idle) .initial (preallocate 4) _ :=
    .cons (.create rfl) (.cons (.create rfl) (.cons (.create rfl) (.cons (.create rfl) .nil)))
  obtain ⟨hmode, hlast⟩ := preallocate_fileMode hr
  have hinv : TableInv _ _ := (hr.table_inv TableHistory.initial_inv).1
  have hs := inputShadow_allHeld hlast
  have h1 : IsString wordMemory 4096 3 := ⟨by decide, rfl, by decide⟩
  have h2 : IsString wordMemory 64 3 := ⟨by decide, rfl, by decide⟩
  have hconst : ∀ i : Nat, i < 4 → inputShadow 4 ((64 : Nat) + (i : Int)) = constLabel := by
    decide
  have hread : ∀ n ≤ 4, ReadsBoth .idle wordMemory (inputInMemory wordMemory) _ 4096 64 n :=
    fun n hn => (inputShadow_holdsInput hmode wordMemory (by omega : 0 + n ≤ 4)
      (by decide)).readsBoth_const (fun i hi => hconst i (by omega)) hinv hs
  obtain ⟨hcmp, hncmp⟩ := string_comparison_labels hr hs h1 h2 (by decide) (by decide)
  have hcmp' := hcmp (hread 4 (by decide)) _ _ _ rfl (by decide)
  have hncmp' := hncmp 2 (by decide) (hread 2 (by decide)) _ _ _ rfl (by decide)
  exact ⟨_, hr, ⟨_, _, rfl, by decide, hcmp'.2 (.inl (by decide))⟩,
    _, _, rfl, by decide, hncmp'.2 fun _ h => absurd rfl h⟩

end Kirenenko
