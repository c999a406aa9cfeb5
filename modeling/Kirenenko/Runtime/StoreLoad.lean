import Kirenenko.Runtime.LoadSemantics

namespace Kirenenko
set_option autoImplicit true

/-- File mode: the raw input labels are the ones preallocated for the `size` bytes of the file. -/
structure FileMode (t : LabelTable) (size : Nat) : Prop where
  bound : size ≤ t.lastLabel
  raw : ∀ l, constOffset ≤ l → l ≤ t.lastLabel → ((t.key l).op = 0 ↔ l ≤ size)
  key : ∀ l, constOffset ≤ l → l ≤ size → t.key l = { size := 8, op1 := l - 1 }

/-- The loop of `InitializeTaintFile` that creates a label for each byte of the file. -/
def preallocate (size : Nat) : List TableOp :=
  (List.range size).map fun i => .create (Int.ofNat i)

section
variable {z : Z3} {mem : Memory} {t t' : LabelTable} {app : Nat → UInt8} {ls : Nat → Nat}
  {g : Env → Nat} {n : Nat}

theorem TableStep.create_inv {s s' : TableHistory} (hs : s.Inv)
    (h : TableStep z s (.create offset) s') :
    ∃ info, FreshInfo { size := 8, op1 := (offset % 2 ^ 64).toNat } info ∧
      s'.table = s.table.extended info := by
  cases h with
  | create hc =>
    rcases TableInv.dfsanCreateLabel hs offset with ⟨_, hr⟩ | ⟨_, info, hinfo, hr⟩
    · rw [hr] at hc
      cases hc
    · rw [hr] at hc
      cases hc
      exact ⟨info, hinfo, rfl⟩

theorem FileMode.create (h : FileMode t t.lastLabel) (hinv : TableInv t S)
    (hinfo : FreshInfo { size := 8, op1 := ((t.lastLabel : Int) % 2 ^ 64).toNat } info) :
    FileMode (t.extended info) (t.extended info).lastLabel where
  bound := Nat.le_refl _
  raw l hl hlast := by
    refine iff_of_true ?_ hlast
    rcases Nat.lt_or_ge t.lastLabel l with hlt | hle
    · obtain rfl : l = t.lastLabel + 1 := Nat.le_antisymm hlast hlt
      rw [extended_key_new, hinfo.key]
    · rw [extended_key_old t info hle]
      exact (h.raw l hl hle).2 hle
  key l hl hlast := by
    rcases Nat.lt_or_ge t.lastLabel l with hlt | hle
    · obtain rfl : l = t.lastLabel + 1 := Nat.le_antisymm hlast hlt
      have hb := hinv.bound
      unfold maxLabel at hb
      have hmod : ((t.lastLabel : Int) % 2 ^ 64).toNat = t.lastLabel := by omega
      rw [extended_key_new, hinfo.key, hmod]
      rfl
    · rw [extended_key_old t info hle]
      exact h.key l hl hle

theorem preallocate_succ (size : Nat) :
    preallocate (size + 1) = preallocate size ++ [.create (Int.ofNat size)] := by
  rw [preallocate, List.range_succ, List.map_append]
  rfl

theorem preallocate_fileMode {s : TableHistory}
    (h : Steps (TableStep z) .initial (preallocate size) s) :
    FileMode s.table size ∧ s.table.lastLabel = size := by
  induction size generalizing s with
  | zero =>
    cases h
    refine ⟨⟨Nat.le_refl _, ?_, ?_⟩, rfl⟩
    · intro l hl hlast
      change l ≤ 0 at hlast
      unfold constOffset at hl
      omega
    · intro l hl hlast
      unfold constOffset at hl
      omega
  | succ size ih =>
    rw [preallocate_succ] at h
    obtain ⟨s', hrun, hlast⟩ := h.of_append
    obtain ⟨hmode, hlen⟩ := ih hrun
    have hinv : s'.Inv := (hrun.table_inv TableHistory.initial_inv).1
    cases hlast with
    | cons hstep hnil =>
      cases hnil
      obtain ⟨info, hinfo, htab⟩ := hstep.create_inv hinv
      rw [← hlen] at hmode hinfo
      have := hmode.create hinv hinfo
      have hsucc : (s'.table.extended info).lastLabel = size + 1 := congrArg (· + 1) hlen
      rw [hsucc] at this
      rw [htab]
      exact ⟨this, hsucc⟩

theorem preallocate_exists (z : Z3) (h : size ≤ maxLabel) :
    ∃ s, Steps (TableStep z) .initial (preallocate size) s := by
  induction size with
  | zero => exact ⟨_, .nil⟩
  | succ size ih =>
    obtain ⟨s, hrun⟩ := ih (Nat.le_of_succ_le h)
    have hlast := (preallocate_fileMode hrun).2
    have hinv : s.Inv := (hrun.table_inv TableHistory.initial_inv).1
    rw [preallocate_succ]
    rcases TableInv.dfsanCreateLabel hinv (Int.ofNat size) with ⟨hfull, _⟩ | ⟨_, info, _, hc⟩
    · omega
    · exact ⟨_, hrun.append (.single (.create hc))⟩

/-- The record of a byte of a stored label. -/
def extractKey (l i : Nat) : LabelKey :=
  { l1 := l, l2 := constLabel, op := Operators.Extract.code, size := 8, op2 := i * 8 }

theorem extractKey_swap : swapOperands (extractKey l i) = extractKey l i :=
  if_neg fun h => absurd h.2 (by decide : ¬isCommutative Operators.Extract.code)

theorem extractKey_canonical : canonical (extractKey l i) = extractKey l i := by
  rw [canonical, extractKey_swap]
  unfold zeroConcrete extractKey
  have h0 : ¬constLabel ≥ constOffset := by decide
  simp only [if_neg h0, ite_self]

theorem TableHistory.Inv.extract_step {s : TableHistory} (hs : s.Inv) (hl : constOffset ≤ l)
    (hlast : l ≤ s.table.lastLabel) (z : Z3) (i : Nat) :
    taintUnion s.table (extractKey l i) = .error .die ∧ s.table.lastLabel = maxLabel ∨
      ∃ x s', taintUnion s.table (extractKey l i) = .ok (x, s'.table) ∧
        TableStep z s (.union (extractKey l i)) s' ∧ s'.table.lastLabel ≤ s.table.lastLabel + 1 ∧
        constOffset ≤ x ∧ x ≤ s'.table.lastLabel ∧ s'.table.key x = extractKey l i := by
  have hinv : TableInv s.table s.Stored := hs
  have ha : Allocated s.table (extractKey l i) := ⟨hlast, fun _ => Nat.zero_le _⟩
  have hL : Operators.Extract.code ≠ Operators.Load.code := by decide
  rcases hinv.union_cases ha (ha.not_init hinv.ordered hL) with hdie | ⟨x, t', hu, hret⟩
  · exact .inl hdie
  · have htab := s.afterUnion_table x t'
    refine .inr ⟨x, s.afterUnion x t', ?_, .union ha hu, ?_⟩
    · rw [htab]
      exact hu
    · rw [htab]
      refine ⟨hret.next, ?_⟩
      rcases hret.key with ⟨_, hcu⟩ | ⟨hx, hk⟩
      · rw [extractKey_swap] at hcu
        exact absurd hcu.1 (Nat.ne_of_gt hl)
      · rw [extractKey_canonical] at hk
        exact ⟨hx, hret.label, hk⟩

/-- The cells written by the last loop of a store. -/
structure ExtractCells (t : LabelTable) (l : Nat) (ls : Nat → Nat) (i k : Nat) : Prop where
  label : ∀ j, i ≤ j → j < i + k → constOffset ≤ ls j ∧ ls j ≤ t.lastLabel
  key : ∀ j, i ≤ j → j < i + k → t.key (ls j) = extractKey l j

theorem storeExtracts_spec {s : TableHistory} (hs : s.Inv) (hl : constOffset ≤ l)
    (hlast : l ≤ s.table.lastLabel) (z : Z3) :
    storeExtracts l i k s.table ls = .error .die ∧ maxLabel < s.table.lastLabel + k ∨
      ∃ ls' us s', storeExtracts l i k s.table ls = .ok (ls', s'.table) ∧
        Steps (TableStep z) s us s' ∧ (∀ j < i, ls' j = ls j) ∧
        ExtractCells s'.table l ls' i k := by
  induction k generalizing i s ls with
  | zero =>
    refine .inr ⟨ls, [], s, rfl, .nil, fun _ _ => rfl, ⟨?_, ?_⟩⟩
    · intro j hj hj'
      omega
    · intro j hj hj'
      omega
  | succ k ih =>
    have heq : storeExtracts l i (k + 1) s.table ls =
        taintUnion s.table (extractKey l i) >>= fun p =>
          storeExtracts l (i + 1) k p.2 (Function.update ls i p.1) := rfl
    rw [heq]
    rcases hs.extract_step hl hlast z i with ⟨hu, hfull⟩ | ⟨x, s₁, hu, hstep, hnext, hx, hxl, hk⟩
    · rw [hu]
      exact .inl ⟨rfl, by omega⟩
    · have hs₁ := (hstep.inv hs).1
      have hext := hstep.extends hs
      rw [hu, except_ok_bind]
      have hih : storeExtracts l (i + 1) k s₁.table (Function.update ls i x) = _ ∧ _ ∨ _ :=
        ih hs₁ (Nat.le_trans hlast hext.lastLabel)
      rcases hih with ⟨hdie, hfull⟩ | ⟨ls', us, s₂, hrun, hus, hold, hcells⟩
      · exact .inl ⟨hdie, by omega⟩
      · have hext₂ := hus.table_extends hs₁
        have hxi : ls' i = x := by
          rw [hold i (Nat.lt_succ_self i), Function.update_self]
        refine .inr ⟨ls', _, s₂, hrun, .cons hstep hus, ?_, ⟨?_, ?_⟩⟩
        · intro j hj
          rw [hold j (Nat.lt_succ_of_lt hj), Function.update_of_ne (Nat.ne_of_lt hj)]
        · intro j hj hj'
          rcases Nat.eq_or_lt_of_le hj with rfl | hlt
          · rw [hxi]
            exact ⟨hx, Nat.le_trans hxl hext₂.lastLabel⟩
          · exact hcells.label j hlt (by omega)
        · intro j hj hj'
          rcases Nat.eq_or_lt_of_le hj with rfl | hlt
          · rw [hxi, hext₂.key x hxl]
            exact hk
          · exact hcells.key j hlt (by omega)

/-- A label that a load of one byte takes for the first byte of a one-byte parent. -/
def LoadsParent (t : LabelTable) (l : Nat) : Prop :=
  (t.key l).op = Operators.Extract.code ∧ (t.key l).op2 = 0 ∧ (t.key (t.key l).l1).size = 8

instance : Decidable (LoadsParent t l) := by
  unfold LoadsParent
  infer_instance

theorem load_single (app : Nat → UInt8) (ls : Nat → Nat) (ho : Ordered t)
    (h0 : constOffset ≤ ls 0) (hlast : ls 0 ≤ t.lastLabel) (hsize : (t.key (ls 0)).size = 8) :
    taintUnionLoad t app ls 1 =
      .ok (if LoadsParent t (ls 0) then (t.key (ls 0)).l1 else ls 0, t) := by
  have hall : ∀ i < 1, i = 0 := by omega
  have hp : (t.key (ls 0)).l1 ≤ t.lastLabel := by
    have := ho.l1 (ls 0) h0 hlast
    omega
  have hl : ∀ i < 1, ls i ≤ t.lastLabel := by
    intro i hi
    rw [hall i hi]
    exact hlast
  have hs : ∀ i < 1, (t.key (ls i)).size = 8 := by
    intro i hi
    rw [hall i hi]
    exact hsize
  have hext : Extracted t ls 1 ↔ LoadsParent t (ls 0) := by
    constructor
    · rintro ⟨h, h8⟩
      exact ⟨(h 0 Nat.zero_lt_one).1, (h 0 Nat.zero_lt_one).2.1, h8⟩
    · rintro ⟨hop, hop2, h8⟩
      refine ⟨?_, h8⟩
      intro i hi
      rw [hall i hi]
      exact ⟨hop, hop2, rfl⟩
  rw [taintUnionLoad_eq ho.bound Nat.one_ne_zero hl hs hp
    ⟨0, Nat.zero_lt_one, Nat.ne_of_gt h0⟩]
  by_cases hc : Consecutive t ls 1
  · have hnot : ¬LoadsParent t (ls 0) := by
      intro h
      have := hc.1.symm.trans h.1
      cases this
    rw [if_pos hc, if_neg hnot]
    rfl
  · rw [if_neg hc]
    by_cases he : LoadsParent t (ls 0)
    · rw [if_pos (hext.2 he), if_pos he]
    · rw [if_neg fun h => he (hext.1 h), if_neg he]
      exact concatLoop_done (Nat.lt_irrefl 1)

theorem extractKey_denotes (ho : Ordered t) (hx : constOffset ≤ x) (hxl : x ≤ t.lastLabel)
    (hk : t.key x = extractKey l i) (hd : Denotes z mem t l (8 * n) g) (hi : i < n)
    (hn : n < 8192) : Denotes z mem t x 8 fun env => g env / 2 ^ (8 * i) % 2 ^ 8 := by
  have hop2 : (t.key x).op2 = 8 * i := by
    rw [hk, Nat.mul_comm]
    rfl
  have hop : (t.key x).op = Operators.Extract.code := by
    rw [hk]
    rfl
  have hs : (t.key x).size = 8 := by
    rw [hk]
    rfl
  have hle : 8 * i + 8 ≤ 2 ^ 32 := by omega
  rw [denotes_extract ho hx hxl hop hs hop2 hle]
  refine ⟨by decide, rfl, 8 * n, g, ?_, by omega, rfl⟩
  rw [hk]
  exact hd

/-- Loading the `n` cells gives the stored meaning, and loading one of them its byte. -/
structure RoundTrip (z : Z3) (mem : Memory) (t : LabelTable) (app : Nat → UInt8) (ls : Nat → Nat)
    (n : Nat) (g : Env → Nat) : Prop where
  whole : ∃ l t', taintUnionLoad t app ls n = .ok (l, t') ∧ Denotes z mem t' l (8 * n) g
  cell : ∀ i < n, ∃ l t', taintUnionLoad t app (fun j => ls (i + j)) 1 = .ok (l, t') ∧
    Denotes z mem t' l 8 fun env => g env / 2 ^ (8 * i) % 2 ^ 8

end

end Kirenenko
