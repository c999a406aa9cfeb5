import Kirenenko.Runtime.InputWrappers
import Kirenenko.Runtime.LoadWidth

namespace Kirenenko
set_option autoImplicit true

theorem InputState.cells_setLabel (s : InputState) (l : Nat) (addr : Int) {a : Nat}
    (h : a + n ≤ k) :
    ∀ i < n, (s.setLabel l addr k).cells (addr + a) i = l := by
  intro i hi
  apply if_pos
  omega

/-- A label that a load takes for the whole of a parent with as many bytes. -/
def LoadsWhole (t : LabelTable) (l k : Nat) : Prop :=
  (t.key l).op = Operators.Extract.code ∧ (t.key l).op2 = 0 ∧ (t.key (t.key l).l1).size = 8 * k

instance : Decidable (LoadsWhole t l k) := by
  unfold LoadsWhole
  infer_instance

/-- A load takes a label for all it stands for. -/
structure WholeRange (z : Z3) (mem : Memory) (t : LabelTable) (l k n : Nat) : Prop where
  whole : n = k
  parent : LoadsWhole t l k → HasWidth z mem t (t.key l).l1 (8 * k)

section
variable {z : Z3} {mem : Memory} {t : LabelTable} {ls : Nat → Nat}

/-- The first cell may be an extraction at the right place, a second one is not. -/
theorem extractLoop_same (hls : ∀ i < n, ls i = l) (hn : n ≠ 0) (hl : l ≤ t.lastLabel)
    (hop : (t.key l).op = Operators.Extract.code) (hs : (t.key l).size ≠ 0) :
    extractLoop t ls (t.key l).l1 0 0 n =
      .ok (if (t.key l).op2 = 0 then (t.key l).size else 0) := by
  have hstep : ∀ i o k, i < n → extractLoop t ls (t.key l).l1 i o (k + 1) =
      if (t.key l).op2 = o then extractLoop t ls (t.key l).l1 (i + 1) (o + (t.key l).size) k
      else .ok o := by
    intro i o k hi
    rw [extractLoop, hls i hi, getLabelInfo_ok hl, except_ok_bind]
    change (if (t.key l).op ≠ _ ∨ o ≠ (t.key l).op2 ∨ (t.key l).l1 ≠ (t.key l).l1 then _ else _) = _
    by_cases ho : (t.key l).op2 = o
    · rw [if_pos ho, if_neg]
      · rfl
      · rintro (h | h | h)
        · exact h hop
        · exact h ho.symm
        · exact h rfl
    · rw [if_neg ho, if_pos (.inr (.inl (Ne.symm ho)))]
  obtain ⟨m, rfl⟩ := Nat.exists_eq_succ_of_ne_zero hn
  rw [hstep 0 0 m (Nat.succ_pos m)]
  by_cases h0 : (t.key l).op2 = 0
  · rw [if_pos h0, if_pos h0, Nat.zero_add (t.key l).size]
    cases m with
    | zero => rfl
    | succ m =>
      rw [hstep (0 + 1) _ m (by omega), h0, if_neg (Ne.symm hs)]
  · rw [if_neg h0, if_neg h0]

theorem extractParent_same (hls : ∀ i < n, ls i = l) (hn : n ≠ 0) (ho : Ordered t)
    (h0 : constOffset ≤ l) (hl : l ≤ t.lastLabel) (hs : (t.key l).size = 8 * k) (hk : k ≠ 0) :
    extractParent t ls n (t.info l) =
      .ok (if LoadsWhole t l k ∧ n = k then some (t.key l).l1 else none) := by
  have hp : (t.key l).l1 ≤ t.lastLabel := Nat.le_trans (Nat.le_of_lt (ho.l1 l h0 hl)) hl
  unfold extractParent
  change (if (t.key l).op = _ then _ else _) = _
  by_cases hop : (t.key l).op = Operators.Extract.code
  · rw [if_pos hop]
    change (do let offset ← extractLoop t ls (t.key l).l1 0 0 n; _) = _
    rw [extractLoop_same hls hn hl hop (by omega), except_ok_bind]
    change (do let parent ← t.getLabelInfo (t.key l).l1; _) = _
    rw [getLabelInfo_ok hp, except_ok_bind, hs]
    change Except.ok (if (t.key (t.key l).l1).size = _ ∧ _ then _ else _) = _
    congr 2
    unfold LoadsWhole
    by_cases h2 : (t.key l).op2 = 0
    · simp only [hop, h2, if_true, true_and]
      refine propext (and_congr_right fun _ => ?_)
      omega
    · simp only [h2, if_false, false_and, and_false]
      refine propext (iff_false_intro ?_)
      omega
  · rw [if_neg hop, if_neg fun h => hop h.1.1]

/-- A load of a label that all its cells hold takes its parent, or goes on behind the bytes of the
label. -/
theorem taintUnionLoad_repeated (app : Nat → UInt8) (hls : ∀ i < n, ls i = l) (hn : n ≠ 0)
    (ho : Ordered t) (h0 : constOffset ≤ l) (hl : l ≤ t.lastLabel)
    (hs : (t.key l).size = 8 * k) (hk : k ≠ 0) (hop : (t.key l).op ≠ 0) :
    taintUnionLoad t app ls n =
      if LoadsWhole t l k ∧ n = k then .ok ((t.key l).l1, t)
      else concatLoop app ls n (concatFuel n) t l k := by
  have hls0 : ls 0 = l := hls 0 (Nat.pos_of_ne_zero hn)
  have hinit : l ≠ kInitializingLabel := Nat.ne_of_lt (Nat.lt_of_le_of_lt hl ho.bound)
  have hconst : l ≠ constLabel := Nat.ne_of_gt h0
  have hshape : loadShape t ls n (t.info l) = .ok .other := if_pos hop
  have hstart : (t.info l).size / 8 = k := by
    change (t.key l).size / 8 = k
    omega
  rw [taintUnionLoad, hls0, if_neg hinit, if_neg fun h => hconst h.1, getLabelInfo_ok hl,
    except_ok_bind, hshape, except_ok_bind]
  simp only [extractParent_same hls hn ho h0 hl hs hk, except_ok_bind, hstart]
  by_cases hw : LoadsWhole t l k ∧ n = k
  · simp only [if_pos hw]
  · simp only [if_neg hw]

theorem taintUnionLoad_same (app : Nat → UInt8) (hls : ∀ i < n, ls i = l) (hn : n ≠ 0)
    (hnk : n ≤ k) (ho : Ordered t) (h0 : constOffset ≤ l) (hl : l ≤ t.lastLabel)
    (hs : (t.key l).size = 8 * k) (hop : (t.key l).op ≠ 0) :
    taintUnionLoad t app ls n =
      .ok (if LoadsWhole t l k ∧ n = k then (t.key l).l1 else l, t) := by
  obtain ⟨fuel, hfuel⟩ := Nat.exists_eq_succ_of_ne_zero (by unfold concatFuel; omega :
    concatFuel n ≠ 0)
  rw [taintUnionLoad_repeated app hls hn ho h0 hl hs (by omega) hop, hfuel,
    concatLoop_done (Nat.not_lt.2 hnk)]
  by_cases hw : LoadsWhole t l k ∧ n = k
  · rw [if_pos hw, if_pos hw]
  · rw [if_neg hw, if_neg hw]

theorem denotes_whole (ho : Ordered t) (hs : (t.key l).size = 8 * k) (h16 : 8 * k < 2 ^ 16)
    (hd : Denotes z mem t l (8 * k) f) (hw : LoadsWhole t l k) :
    Denotes z mem t (t.key l).l1 (8 * k) f ↔ HasWidth z mem t (t.key l).l1 (8 * k) := by
  obtain ⟨hop, hop2, _⟩ := hw
  obtain ⟨_, _, v, g, hg, _, hf⟩ := (denotes_extract ho hd.label.1 hd.label.2 hop hs hop2
    (by omega)).1 hd
  constructor
  · intro h
    exact ⟨f, h⟩
  · rintro ⟨g', hg'⟩
    obtain ⟨rfl, rfl⟩ := hg.unique hg'
    have hfg : f = g := by
      funext env
      rw [hf]
      change g env / 2 ^ 0 % 2 ^ (8 * k) = _
      rw [Nat.pow_zero, Nat.div_one, Nat.mod_eq_of_lt (hg.lt env)]
    rw [hfg]
    exact hg

/-- A label on all the cells of a multi-byte value is loaded right only as a whole: a load of fewer
bytes returns the label itself. -/
theorem subrange_load {s : TableHistory} {f : Env → Nat} {a : Nat} (app : Nat → UInt8)
    (shadow : Int → Nat) (addr : Int) (hr : Steps (TableStep z) .initial as s)
    (hsize : (s.table.key l).size = 8 * k) (h16 : 8 * k < 2 ^ 16) (hop : (s.table.key l).op ≠ 0)
    (hd : Denotes z mem s.table l (8 * k) f) (hn : 1 ≤ n) (han : a + n ≤ k) :
    ∃ l' t, taintUnionLoad s.table app
        ((InputState.mk s.table shadow).setLabel l addr k |>.cells (addr + a)) n = .ok (l', t) ∧
      ((t.key l').size = 8 * n ∧
          Denotes z mem t l' (8 * n) (fun env => f env / 2 ^ (8 * a) % 2 ^ (8 * n)) ↔
        WholeRange z mem s.table l k n) := by
  have ho : Ordered s.table := ((hr.table_inv TableHistory.initial_inv).1).ordered
  have hls := InputState.cells_setLabel ⟨s.table, shadow⟩ l addr han
  have hload := taintUnionLoad_same app hls (by omega) (by omega) ho hd.label.1 hd.label.2 hsize hop
  refine ⟨_, _, hload, ?_⟩
  by_cases hnk : n = k
  · subst hnk
    obtain rfl : a = 0 := by omega
    have hf : (fun env => f env / 2 ^ (8 * 0) % 2 ^ (8 * n)) = f := by
      funext env
      rw [Nat.mul_zero, Nat.pow_zero, Nat.div_one, Nat.mod_eq_of_lt (hd.lt env)]
    rw [hf]
    by_cases hw : LoadsWhole s.table l n
    · rw [if_pos ⟨hw, rfl⟩, denotes_whole ho hsize h16 hd hw]
      exact ⟨fun h => ⟨rfl, fun _ => h.2⟩, fun h => ⟨hw.2.2, h.parent hw⟩⟩
    · rw [if_neg fun h => hw h.1]
      exact ⟨fun _ => ⟨rfl, fun h => (hw h).elim⟩, fun _ => ⟨hsize, hd⟩⟩
  · rw [if_neg fun h => hnk h.2]
    constructor
    · rintro ⟨h, _⟩
      omega
    · intro h
      exact (hnk h.whole).elim

end

def statOps : List TableOp := [.union { op := Operators.fsize.code, size := 64 }]

theorem dfswFstat_run : ∃ s shadow, Steps (TableStep .idle) .initial statOps s ∧
    dfswFstat { fd := 3, size := 1 } 3 0 0 ⟨.initial, fun _ => 0⟩ =
      .ok (0, (InputState.mk s.table shadow).setLabel 1 offsetofStSize sizeofStSize) ∧
    (s.table.key 1).size = 8 * sizeofStSize ∧ (s.table.key 1).op = Operators.fsize.code ∧
    HasWidth .idle (fun _ => 0) s.table 1 (8 * sizeofStSize) := by
  have h : Steps (TableStep .idle) .initial statOps _ :=
    .cons (.union ⟨by decide, fun _ => by decide⟩ rfl) .nil
  exact ⟨_, _, h, rfl, rfl, rfl, _, _, _, _, rfl, .of_sort rfl⟩

/-- The lower half of a 64-bit file size is loaded as all of it. -/
theorem subrange_load_lower :
    ∃ s shadow f, Steps (TableStep .idle) .initial statOps s ∧
      dfswFstat { fd := 3, size := 1 } 3 0 0 ⟨.initial, fun _ => 0⟩ =
        .ok (0, (InputState.mk s.table shadow).setLabel 1 offsetofStSize sizeofStSize) ∧
      (s.table.key 1).size = 8 * sizeofStSize ∧ (s.table.key 1).op ≠ 0 ∧
      (s.table.key 1).op ≠ Operators.Load.code ∧
      Denotes .idle (fun _ => 0) s.table 1 (8 * sizeofStSize) f ∧
      ∃ l t, taintUnionLoad s.table (fun _ => 0)
          ((InputState.mk s.table shadow).setLabel 1 offsetofStSize sizeofStSize
            |>.cells (offsetofStSize + (0 : Nat))) 4 = .ok (l, t) ∧
        (t.key l).size ≠ 8 * 4 ∧
        ¬Denotes .idle (fun _ => 0) t l (8 * 4) fun env => f env / 2 ^ (8 * 0) % 2 ^ (8 * 4) := by
  obtain ⟨s, shadow, hr, hstat, hsize, hop, f, hd⟩ := dfswFstat_run
  have ho : Ordered s.table := ((hr.table_inv TableHistory.initial_inv).1).ordered
  have hls := InputState.cells_setLabel ⟨s.table, shadow⟩ 1 offsetofStSize (a := 0) (n := 4)
    (k := sizeofStSize) (by decide)
  have hop0 : (s.table.key 1).op ≠ 0 := by rw [hop]; decide
  have hopL : (s.table.key 1).op ≠ Operators.Load.code := by rw [hop]; decide
  have hload := taintUnionLoad_same (fun _ => 0) hls (by decide) (by decide) ho hd.label.1
    hd.label.2 hsize hop0
  rw [if_neg fun h => absurd h.2 (by decide)] at hload
  refine ⟨s, shadow, f, hr, hstat, hsize, hop0, hopL, hd, 1, s.table, hload, ?_, ?_⟩
  · rw [hsize]
    decide
  · intro h
    exact absurd (h.unique hd).1 (by decide)

/-- All eight bytes give the file size. -/
theorem subrange_load_all :
    ∃ s shadow, ∃ f : Env → Nat, ∃ l t, Steps (TableStep .idle) .initial statOps s ∧
      taintUnionLoad s.table (fun _ => 0)
          ((InputState.mk s.table shadow).setLabel 1 offsetofStSize sizeofStSize
            |>.cells (offsetofStSize + (0 : Nat))) 8 = .ok (l, t) ∧
      (t.key l).size = 8 * 8 ∧
      Denotes .idle (fun _ => 0) t l (8 * 8) fun env => f env / 2 ^ (8 * 0) % 2 ^ (8 * 8) := by
  obtain ⟨s, shadow, hr, _, hsize, hop, f, hd⟩ := dfswFstat_run
  have hop0 : (s.table.key 1).op ≠ 0 := by rw [hop]; decide
  obtain ⟨l, t, hload, hiff⟩ := subrange_load (fun _ => 0) shadow offsetofStSize hr hsize
    (by decide) hop0 hd (by decide : 1 ≤ 8) (by decide : 0 + 8 ≤ sizeofStSize)
  have hw : WholeRange .idle (fun _ => 0) s.table 1 sizeofStSize 8 := by
    refine ⟨rfl, ?_⟩
    rintro ⟨h, _⟩
    rw [hop] at h
    cases h
  exact ⟨s, shadow, f, l, t, hr, hload, hiff.2 hw⟩

end Kirenenko
