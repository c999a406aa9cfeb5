import Kirenenko.Runtime.LoadSemantics

namespace Kirenenko
set_option autoImplicit true

/-- Whatever was serialized and cached before, `serialize` returns a bit-vector of this width. -/
def Serializes (z : Z3) (mem : Memory) (t : LabelTable) (l w : Nat) : Prop :=
  ∀ t', Coherent z mem t t' → ∃ e deps t'',
    serialize z mem (l + 1) l ∅ t' = .ok (e, deps) t'' ∧ e.sort = some (.bv w)

def HasWidth (z : Z3) (mem : Memory) (t : LabelTable) (l w : Nat) : Prop :=
  ∃ f, Denotes z mem t l w f

/-- The width of byte `i` of a load, which has eight bits if it is concrete. -/
def CellWidth (z : Z3) (mem : Memory) (t : LabelTable) (ls : Nat → Nat) (i w : Nat) : Prop :=
  if ls i = constLabel then w = 8 else HasWidth z mem t (ls i) w

/-- The widths of the first bytes of a load, added up. -/
inductive CellsWidth (z : Z3) (mem : Memory) (t : LabelTable) (ls : Nat → Nat) : Nat → Nat → Prop
    where
  | nil : CellsWidth z mem t ls 0 0
  | snoc : CellsWidth z mem t ls i w → CellWidth z mem t ls i v →
      CellsWidth z mem t ls (i + 1) (v + w)

/-- A concatenation of the first `i` bytes of a load, as far as its width goes. -/
structure ChainWidth (z : Z3) (mem : Memory) (t : LabelTable) (ls : Nat → Nat) (L i : Nat) : Prop
    where
  tainted : L ≠ constLabel
  label : L ≤ t.lastLabel
  size : (t.key L).size = 8 * i % 2 ^ 16
  width : ∀ w, HasWidth z mem t L w ↔ i ≤ 31 ∧ CellsWidth z mem t ls i w

/-- When a load serializes to its full width, by the path it takes. -/
structure LoadSerializes (z : Z3) (mem : Memory) (t : LabelTable) (ls : Nat → Nat) (n : Nat) :
    Prop where
  consecutive : Consecutive t ls n → ∀ i < n, Nameable ((t.key (ls 0)).op1 + i)
  extracted : ¬Consecutive t ls n → Extracted t ls n → HasWidth z mem t (t.key (ls 0)).l1 (8 * n)
  concat : ¬Consecutive t ls n → ¬Extracted t ls n → n ≤ 31 ∧ CellsWidth z mem t ls n (8 * n)

section
variable {z : Z3} {mem : Memory} {t t' : LabelTable} {app : Nat → UInt8} {ls : Nat → Nat} {n : Nat}

theorem serializes_iff (ho : Ordered t) (hl : l ≤ t.lastLabel) :
    Serializes z mem t l w ↔ HasWidth z mem t l w := by
  constructor
  · intro h
    obtain ⟨e, deps, t'', hs, hsort⟩ := h _ (uncached_coherent z mem t)
    exact ⟨_, e, deps, t'', hs, .of_sort hsort⟩
  · rintro ⟨f, hd⟩ t' hc
    obtain ⟨e, he, hbv⟩ := (denotes_iff ho hl).1 hd
    obtain ⟨deps, t'', hs⟩ := (hc.serialize ho hl).2 he
    exact ⟨e, deps, t'', hs, hbv.sort⟩

theorem Extends.hasWidth (h : Extends t t') (ho : Ordered t) (ho' : Ordered t')
    (hl : l ≤ t.lastLabel) : HasWidth z mem t' l w ↔ HasWidth z mem t l w :=
  exists_congr fun _ => h.denotes ho ho' hl

theorem Extends.cellWidth (h : Extends t t') (ho : Ordered t) (ho' : Ordered t')
    (hl : ls i ≤ t.lastLabel) : CellWidth z mem t' ls i w ↔ CellWidth z mem t ls i w := by
  unfold CellWidth
  rw [h.hasWidth ho ho' hl]

theorem operand_cellWidth (hv : ls i = constLabel → v = 8) :
    (∃ g, OperandDenotes z mem t (ls i) o v w g) ↔ CellWidth z mem t ls i w := by
  unfold OperandDenotes CellWidth
  by_cases hc : ls i = constLabel
  · have h0 : ¬constOffset ≤ constLabel := by decide
    simp only [hc, if_neg h0, if_true, hv hc, exists_and_left, exists_eq, and_true]
  · have hpos : constOffset ≤ ls i := Nat.pos_of_ne_zero hc
    simp only [hc, hpos, if_false, if_true]
    rfl

theorem cellsWidth_succ : CellsWidth z mem t ls (i + 1) u ↔
    ∃ w v, CellsWidth z mem t ls i w ∧ CellWidth z mem t ls i v ∧ u = v + w := by
  constructor
  · intro h
    cases h with
    | snoc h hv => exact ⟨_, _, h, hv, rfl⟩
  · rintro ⟨w, v, h, hv, rfl⟩
    exact .snoc h hv

theorem Extends.cellsWidth (h : Extends t t') (ho : Ordered t) (ho' : Ordered t')
    (hl : ∀ i < n, ls i ≤ t.lastLabel) :
    CellsWidth z mem t' ls n w ↔ CellsWidth z mem t ls n w := by
  induction n generalizing w with
  | zero =>
    constructor <;> rintro ⟨⟩ <;> exact .nil
  | succ n ih =>
    have hn : ∀ i < n, ls i ≤ t.lastLabel := fun i hi => hl i (Nat.lt_succ_of_lt hi)
    simp only [cellsWidth_succ, ih hn, h.cellWidth ho ho' (hl n (Nat.lt_succ_self n))]

theorem concat_width (hz : z.Lawful) (ho : Ordered t) (hL : L ≠ constLabel)
    (hsize : (t.key L).size = 8 * i % 2 ^ 16) (hl : constOffset ≤ l) (hlast : l ≤ t.lastLabel)
    (hk : t.key l = concatKey app ls L i) :
    HasWidth z mem t l u ↔ (i + 1) % 32 ≠ 0 ∧
      ∃ w v, HasWidth z mem t L w ∧ CellWidth z mem t ls i v ∧ u = v + w := by
  have hv : ls i = constLabel →
      rightWidth (concatKey app ls L i) (t.key L).size (t.key (ls i)).size = 8 := by
    intro hc
    rw [hsize, concatKey_rightWidth_const hc]
  have hden : ∀ g, Denotes z mem t l u g ↔ _ :=
    fun g => concatKey_denotes hz ho hL hsize hl hlast hk rfl
  have hcell : ∀ v, (∃ g, OperandDenotes z mem t (ls i) (concatKey app ls L i).op2 _ v g) ↔ _ :=
    fun v => operand_cellWidth hv
  unfold HasWidth
  simp only [hden, ← hcell]
  constructor
  · rintro ⟨g, hu, w, f1, v, f2, h1, h2, hw, _⟩
    exact ⟨hu, w, v, ⟨f1, h1⟩, ⟨f2, h2⟩, hw⟩
  · rintro ⟨hu, w, v, ⟨f1, h1⟩, ⟨f2, h2⟩, hw⟩
    exact ⟨_, hu, w, f1, v, f2, h1, h2, hw, rfl⟩

theorem SizedLabels.width_step (h : SizedLabels t ls n) (app : Nat → UInt8) (hz : z.Lawful)
    (hinv : TableInv t S) (hi : i < n) (hc : ChainWidth z mem t ls L i) :
    taintUnion t (concatKey app ls L i) = .error .die ∧ t.lastLabel = maxLabel ∨
      ∃ l t', taintUnion t (concatKey app ls L i) = .ok (l, t') ∧ TableGrows t t' 1 ∧
        ChainWidth z mem t' ls l (i + 1) := by
  have ho := hinv.ordered
  rcases h.concat_union app hinv hi hc.label fun h => hc.tainted h.1 with
    hdie | ⟨l, t', hu, hg, hl, hlast, hk⟩
  · exact .inl hdie
  · refine .inr ⟨l, t', hu, hg, Nat.ne_of_gt hl, hlast, ?_, ?_⟩
    · rw [hk]
      change (i + 1) * 8 % 2 ^ 16 = 8 * (i + 1) % 2 ^ 16
      rw [Nat.mul_comm]
    · intro w
      have hsize : (t'.key L).size = 8 * i % 2 ^ 16 := by
        rw [hg.grows.key _ hc.label]
        exact hc.size
      have hcells : ∀ j < i, ls j ≤ t.lastLabel := fun j hj => h.label j (Nat.lt_trans hj hi)
      rw [concat_width hz hg.ordered hc.tainted hsize hl hlast hk, cellsWidth_succ]
      simp only [hg.grows.hasWidth ho hg.ordered hc.label, hc.width,
        hg.grows.cellsWidth ho hg.ordered hcells]
      constructor
      · rintro ⟨hmod, w, v, ⟨hle, hw⟩, hv, rfl⟩
        exact ⟨by omega, w, v, hw, hv, rfl⟩
      · rintro ⟨hle, w, v, hw, hv, rfl⟩
        exact ⟨by omega, w, v, ⟨by omega, hw⟩, hv, rfl⟩

theorem SizedLabels.width_start (h : SizedLabels t ls n) (hn : n ≠ 0) (h0 : ls 0 ≠ constLabel) :
    ChainWidth z mem t ls (ls 0) 1 where
  tainted := h0
  label := h.label 0 (Nat.pos_of_ne_zero hn)
  size := h.size 0 (Nat.pos_of_ne_zero hn)
  width w := by
    have hcell : ∀ v, CellWidth z mem t ls 0 v ↔ HasWidth z mem t (ls 0) v := by
      intro v
      rw [CellWidth, if_neg h0]
    rw [cellsWidth_succ]
    constructor
    · intro hw
      exact ⟨by decide, 0, w, .nil, (hcell w).2 hw, rfl⟩
    · rintro ⟨_, _, v, ⟨⟩, hv, rfl⟩
      exact (hcell _).1 hv

theorem SizedLabels.width_run (h : SizedLabels t ls n) (app : Nat → UInt8) (mem : Memory)
    (hz : z.Lawful) (hinv : TableInv t S) (hn : n ≠ 0) (h0 : ls 0 ≠ constLabel) :
    concatLoop app ls n (concatFuel n) t (ls 0) 1 = .error .die ∧ maxLabel < t.lastLabel + n ∨
      ∃ l t', concatLoop app ls n (concatFuel n) t (ls 0) 1 = .ok (l, t') ∧ TableGrows t t' n ∧
        ChainWidth z mem t' ls l n := by
  have hfuel : n - 1 < concatFuel n := by
    unfold concatFuel
    omega
  have hstart : ChainWidth z mem t ls (ls 0) 1 := h.width_start hn h0
  rcases h.concat_run (fun t S L i hinv h hi _ hc => h.width_step app hz hinv hi hc) hinv
      Nat.one_ne_zero (by omega) hfuel hstart with ⟨hdie, hfull⟩ | ⟨l, t', hrun, hg, hc⟩
  · exact .inl ⟨hdie, by omega⟩
  · exact .inr ⟨l, t', hrun, hg.mono (Nat.sub_le n 1), hc⟩

theorem SizedLabels.consecutive_width (h : SizedLabels t ls n) (hinv : TableInv t S) (hn : n ≠ 0)
    (hlt : n < kInitializingLabel) (h0 : ls 0 ≠ constLabel) (hc : Consecutive t ls n) :
    loadConsecutive t ls n = .error .die ∧ maxLabel < t.lastLabel + n ∨
      ∃ l t', loadConsecutive t ls n = .ok (l, t') ∧ TableGrows t t' 1 ∧ l ≤ t'.lastLabel ∧
        (HasWidth z mem t' l (8 * n) ↔ ∀ i < n, Nameable ((t.key (ls 0)).op1 + i)) := by
  rcases consecutive_denotes hinv (h.label 0 (Nat.pos_of_ne_zero hn)) h0 hc.1 hn hlt with
    ⟨hdie, hfull⟩ | ⟨l, t', hu, hg, _, hl, hd⟩
  · exact .inl ⟨hdie, by omega⟩
  · refine .inr ⟨l, t', hu, hg, hl, ?_⟩
    unfold HasWidth
    simp only [hd, true_and, exists_and_left, exists_eq, and_true]

theorem SizedLabels.load_serializes (h : SizedLabels t ls n) (app : Nat → UInt8) (hz : z.Lawful)
    (hinv : TableInv t S) (hn : n ≠ 0) (hlt : n < kInitializingLabel) (h0 : ls 0 ≠ constLabel) :
    taintUnionLoad t app ls n = .error .die ∧ maxLabel < t.lastLabel + n ∨
      ∃ l t', taintUnionLoad t app ls n = .ok (l, t') ∧
        (Serializes z mem t' l (8 * n) ↔ LoadSerializes z mem t ls n) := by
  have hpos : 0 < n := Nat.pos_of_ne_zero hn
  have ho := hinv.ordered
  have hl0 := h.label 0 hpos
  have hp : (t.key (ls 0)).l1 ≤ t.lastLabel :=
    Nat.le_trans (Nat.le_of_lt (ho.l1 (ls 0) (Nat.pos_of_ne_zero h0) hl0)) hl0
  rw [taintUnionLoad_eq ho.bound hn h.label h.size hp ⟨0, hpos, h0⟩]
  by_cases hc : Consecutive t ls n
  · rw [if_pos hc]
    rcases h.consecutive_width hinv hn hlt h0 hc with hdie | ⟨l, t', hu, hg, hl, hw⟩
    · exact .inl hdie
    · refine .inr ⟨l, t', hu, (serializes_iff hg.ordered hl).trans (hw.trans ⟨?_, ?_⟩)⟩
      · intro hname
        exact ⟨fun _ => hname, fun hnc => (hnc hc).elim, fun hnc => (hnc hc).elim⟩
      · intro hx
        exact hx.consecutive hc
  rw [if_neg hc]
  by_cases he : Extracted t ls n
  · rw [if_pos he]
    refine .inr ⟨_, t, rfl, (serializes_iff ho hp).trans ⟨?_, ?_⟩⟩
    · intro hw
      exact ⟨fun hc' => (hc hc').elim, fun _ _ => hw, fun _ hne => (hne he).elim⟩
    · intro hx
      exact hx.extracted hc he
  · rw [if_neg he]
    rcases h.width_run app mem hz hinv hn h0 with hdie | ⟨l, t', hu, hg, hw⟩
    · exact .inl hdie
    · refine .inr ⟨l, t', hu, (serializes_iff hg.ordered hw.label).trans ⟨?_, ?_⟩⟩
      · intro hd
        obtain ⟨hle, hcells⟩ := (hw.width _).1 hd
        have hold := (hg.grows.cellsWidth ho hg.ordered h.label).1 hcells
        exact ⟨fun hc' => (hc hc').elim, fun _ he' => (he he').elim, fun _ _ => ⟨hle, hold⟩⟩
      · intro hx
        obtain ⟨hle, hcells⟩ := hx.concat hc he
        exact (hw.width _).2 ⟨hle, (hg.grows.cellsWidth ho hg.ordered h.label).2 hcells⟩

/-- A load whose first byte is tainted serializes to its full width exactly when no prefix of the
concatenation is a multiple of 256 bits wide and its bytes are eight bits wide together, or one of
the shortcuts applies to labels that have the width it assumes. -/
theorem mixed_load_serializes {s : TableHistory} (hz : z.Lawful)
    (hr : Steps (TableStep z) .initial as s) (hn : 1 ≤ n) (hn' : n < 8192)
    (hl : ∀ i < n, ls i ≤ s.table.lastLabel) (hsize : ∀ i < n, (s.table.key (ls i)).size = 8)
    (h0 : ls 0 ≠ constLabel) :
    taintUnionLoad s.table app ls n = .error .die ∧ maxLabel < s.table.lastLabel + n ∨
      ∃ l t, taintUnionLoad s.table app ls n = .ok (l, t) ∧
        (Serializes z mem t l (8 * n) ↔ LoadSerializes z mem s.table ls n) := by
  have hinv : TableInv s.table s.Stored := (hr.table_inv TableHistory.initial_inv).1
  have hs : SizedLabels s.table ls n := ⟨hl, hsize⟩
  have hlt : n < kInitializingLabel := by
    unfold kInitializingLabel
    omega
  exact hs.load_serializes app hz hinv (by omega) hlt h0

end

/-- One tainted byte followed by concrete ones. -/
def leadingLabels (i : Nat) : Nat := if i = 0 then 1 else 0

theorem leadingLabels_run : ∃ s, Steps (TableStep .idle) .initial [.create 0] s ∧
    (∀ n, SizedLabels s.table leadingLabels n) ∧ s.table.lastLabel = 1 ∧
    HasWidth .idle (fun _ => 0) s.table 1 8 ∧
    ∀ n, 1 < n → ¬Consecutive s.table leadingLabels n ∧ ¬Extracted s.table leadingLabels n := by
  have h : Steps (TableStep .idle) .initial [.create 0] _ := .cons (.create rfl) .nil
  refine ⟨_, h, ?_, rfl, ⟨_, _, _, _, rfl, .of_sort rfl⟩, ?_⟩
  · refine fun n => ⟨fun i _ => ?_, fun i _ => ?_⟩
    · unfold leadingLabels
      split <;> decide
    · unfold leadingLabels
      split <;> rfl
  · intro n hn
    constructor
    · rintro ⟨_, hc⟩
      exact absurd (hc 1 hn Nat.one_pos) (by decide)
    · rintro ⟨he, _⟩
      exact absurd (he 0 (Nat.lt_trans Nat.zero_lt_one hn)).1 (by decide)

/-- One tainted byte and 31 concrete ones are serialized by way of a width of zero. -/
theorem mixed_load_rejected :
    ∃ s, Steps (TableStep .idle) .initial [.create 0] s ∧
      (∀ i < 32, leadingLabels i ≤ s.table.lastLabel ∧ (s.table.key (leadingLabels i)).size = 8) ∧
      leadingLabels 0 ≠ constLabel ∧ ¬Consecutive s.table leadingLabels 32 ∧
      ∃ l t, taintUnionLoad s.table (fun _ => 0) leadingLabels 32 = .ok (l, t) ∧
        ¬Serializes .idle (fun _ => 0) t l (8 * 32) := by
  obtain ⟨s, hr, hs, hlast, _, hpath⟩ := leadingLabels_run
  have hinv : TableInv s.table s.Stored := (hr.table_inv TableHistory.initial_inv).1
  obtain ⟨hc, he⟩ := hpath 32 (by decide)
  refine ⟨s, hr, fun i hi => ⟨(hs 32).label i hi, (hs 32).size i hi⟩, by decide, hc, ?_⟩
  rcases (hs 32).load_serializes (fun _ => 0) Z3.idle_lawful hinv (by decide) (by decide)
    (by decide) with ⟨_, hfull⟩ | ⟨l, t, hu, hiff⟩
  · rw [hlast] at hfull
    exact absurd hfull (by decide)
  · refine ⟨l, t, hu, ?_⟩
    intro hser
    exact absurd ((hiff.1 hser).concat hc he).1 (by decide)

/-- With one concrete byte the load serializes to sixteen bits. -/
theorem mixed_load_serializes_pair :
    ∃ s l t, Steps (TableStep .idle) .initial [.create 0] s ∧
      taintUnionLoad s.table (fun _ => 0) leadingLabels 2 = .ok (l, t) ∧
      Serializes .idle (fun _ => 0) t l (8 * 2) := by
  obtain ⟨s, hr, hs, hlast, hw, hpath⟩ := leadingLabels_run
  obtain ⟨hc, he⟩ := hpath 2 (by decide)
  have hcells : CellsWidth .idle (fun _ => 0) s.table leadingLabels 2 (8 + (8 + 0)) :=
    .snoc (.snoc .nil hw) rfl
  rcases mixed_load_serializes Z3.idle_lawful hr (by decide) (by decide) (hs 2).label (hs 2).size
    (by decide) with ⟨_, hfull⟩ | ⟨l, t, hu, hiff⟩
  · rw [hlast] at hfull
    exact absurd hfull (by decide)
  · refine ⟨s, l, t, hr, hu, hiff.2 ⟨?_, ?_, ?_⟩⟩
    · exact fun hc' => (hc hc').elim
    · exact fun _ he' => (he he').elim
    · exact fun _ _ => ⟨by decide, hcells⟩

end Kirenenko
