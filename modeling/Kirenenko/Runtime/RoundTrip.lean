import Kirenenko.Runtime.StoreLoad

namespace Kirenenko
set_option autoImplicit true

section
variable {z : Z3} {mem : Memory} {t t' : LabelTable} {app : Nat → UInt8} {ls : Nat → Nat}
  {g : Env → Nat} {n : Nat}

theorem roundTrip_single (ho : Ordered t) (hsize : (t.key (ls 0)).size = 8)
    (hd : Denotes z mem t (ls 0) 8 g) :
    RoundTrip z mem t app ls 1 g ↔
      (LoadsParent t (ls 0) → ∃ g', Denotes z mem t (t.key (ls 0)).l1 8 g') := by
  have hload := load_single app ls ho hd.label.1 hd.label.2 hsize
  constructor
  · intro h hp
    obtain ⟨l, t', hl, hd'⟩ := h.whole
    rw [hload, if_pos hp] at hl
    cases hl
    exact ⟨g, hd'⟩
  · intro h
    have hres : Denotes z mem t (if LoadsParent t (ls 0) then (t.key (ls 0)).l1 else ls 0) 8 g := by
      by_cases hp : LoadsParent t (ls 0)
      · rw [if_pos hp]
        obtain ⟨g', hg'⟩ := h hp
        obtain ⟨_, _, v, g₁, hg₁, _, hval⟩ := (denotes_extract ho hd.label.1 hd.label.2 hp.1 hsize
          hp.2.1 (by decide)).1 hd
        obtain ⟨rfl, rfl⟩ := hg₁.unique hg'
        have hg : g = g₁ := by
          funext env
          rw [hval]
          change g₁ env / 2 ^ 0 % 2 ^ 8 = _
          rw [Nat.pow_zero, Nat.div_one]
          exact Nat.mod_eq_of_lt (hg₁.lt env)
        rw [hg]
        exact hg₁
      · rw [if_neg hp]
        exact hd
    refine ⟨⟨_, t, hload, hres⟩, ?_⟩
    intro i hi
    obtain rfl : i = 0 := by omega
    have hls : (fun j => ls (0 + j)) = ls := by
      funext j
      rw [Nat.zero_add]
    have hbyte : (fun env => g env / 2 ^ (8 * 0) % 2 ^ 8) = g := by
      funext env
      rw [Nat.mul_zero, Nat.pow_zero, Nat.div_one]
      exact Nat.mod_eq_of_lt (hd.lt env)
    rw [hls, hbyte]
    exact ⟨_, t, hload, hres⟩

/-- The cells of a stored load: consecutive preallocated labels. -/
structure LoadCells (t : LabelTable) (ls : Nat → Nat) (n o : Nat) : Prop where
  label : ∀ i < n, constOffset ≤ ls i ∧ ls i ≤ t.lastLabel
  key : ∀ i < n, t.key (ls i) = { size := 8, op1 := o + i }
  bound : o + n < 2 ^ 32

theorem TableInv.loadKey_stored (hinv : TableInv t S) (hl : constOffset ≤ l)
    (hlast : l ≤ t.lastLabel) (hk : t.key l = loadKey ls n) : S (loadKey ls n) l := by
  rcases hinv.raw l hl hlast with ⟨k, hS⟩ | ⟨o, ho⟩
  · have := (hinv.stored k l hS).1
    rw [hk] at this
    rw [this]
    exact hS
  · rw [hk] at ho
    cases congrArg LabelKey.op ho

theorem LoadCells.roundTrip (h : LoadCells t ls n o) (hinv : TableInv t S) (hn : 2 ≤ n)
    (hn' : n < 8192) (hk : t.key l = loadKey ls n) (hd : Denotes z mem t l (8 * n) g) :
    RoundTrip z mem t app ls n g := by
  have ho := hinv.ordered
  have hb := ho.bound
  have h32 := h.bound
  have h0 : 0 < n := by omega
  have hmod : n % 2 ^ 32 = n := Nat.mod_eq_of_lt (by omega)
  have hkey0 := h.key 0 h0
  have hsize : ∀ i < n, (t.key (ls i)).size = 8 := fun i hi => congrArg LabelKey.size (h.key i hi)
  have hcons : Consecutive t ls n := by
    refine ⟨congrArg LabelKey.op hkey0, ?_⟩
    intro i hi _
    rw [h.key i hi, hkey0]
    exact (Nat.mod_eq_of_lt (by change o + 0 + i < _; omega)).symm
  obtain ⟨hname, _, hval⟩ := (loadKey_denotes ho (.refl t) (h.label 0 h0).2
    (by omega : n % 2 ^ 32 - 1 + 1 = n) hd.label.1 hd.label.2 hk).1 hd
  have hop1 : (t.key (ls 0)).op1 = o := congrArg LabelKey.op1 hkey0
  rw [hop1] at hname hval
  refine ⟨⟨l, t, ?_, hd⟩, ?_⟩
  · have hp : (t.key (ls 0)).l1 ≤ t.lastLabel := by
      rw [hkey0]
      exact Nat.zero_le _
    have hne : ls 0 ≠ constLabel := Nat.ne_of_gt (h.label 0 h0).1
    rw [taintUnionLoad_eq hb (by omega) (fun i hi => (h.label i hi).2) hsize hp ⟨0, h0, hne⟩,
      if_pos hcons, loadConsecutive, if_neg (by omega)]
    change taintUnion t (loadKey ls n) = _
    have hinit : ¬InitUnion (loadKey ls n) := by
      have h0' := (h.label 0 h0).2
      rintro (hi | hi)
      · change ls 0 = kInitializingLabel at hi
        omega
      · change n % 2 ^ 32 = kInitializingLabel at hi
        unfold kInitializingLabel at hi
        omega
    rw [taintUnion_eq, loadKey_swap, if_neg fun hc => hne hc.1, if_neg hinit, loadKey_canonical]
    exact intern_stored hinv (hinv.loadKey_stored hd.label.1 hd.label.2 hk)
  · intro i hi
    have hop : (t.key (ls i)).op = 0 := congrArg LabelKey.op (h.key i hi)
    have hnot : ¬LoadsParent t (ls i) := by
      intro hp
      cases hop.symm.trans hp.1
    have hsingle := load_single app (fun j => ls (i + j)) ho (h.label i hi).1 (h.label i hi).2
      (hsize i hi)
    refine ⟨ls i, t, hsingle.trans (by rw [Nat.add_zero, if_neg hnot]), ?_⟩
    rw [denotes_raw ho (h.label i hi).1 (h.label i hi).2 hop, h.key i hi]
    refine ⟨hname i hi, rfl, ?_⟩
    funext env
    rw [hval]
    exact littleEndian_digit (fun j _ => inputByte_lt (o + j) env) hi

theorem ExtractCells.roundTrip (h : ExtractCells t l ls 0 n) (ho : Ordered t) (hn : 2 ≤ n)
    (hn' : n < 8192) (hsize : (t.key l).size = 8 * n) (hd : Denotes z mem t l (8 * n) g) :
    RoundTrip z mem t app ls n g := by
  have h0 : 0 < n := by omega
  have hlab : ∀ i < n, constOffset ≤ ls i ∧ ls i ≤ t.lastLabel :=
    fun i hi => h.label i (Nat.zero_le i) (by omega)
  have hkey : ∀ i < n, t.key (ls i) = extractKey l i :=
    fun i hi => h.key i (Nat.zero_le i) (by omega)
  have hs : ∀ i < n, (t.key (ls i)).size = 8 := fun i hi => congrArg LabelKey.size (hkey i hi)
  have hl1 : (t.key (ls 0)).l1 = l := congrArg LabelKey.l1 (hkey 0 h0)
  refine ⟨⟨l, t, ?_, hd⟩, ?_⟩
  · have hcons : ¬Consecutive t ls n := by
      intro hc
      have hop := hc.1
      rw [hkey 0 h0] at hop
      cases hop
    have hext : Extracted t ls n := by
      refine ⟨?_, by rw [hl1]; exact hsize⟩
      intro i hi
      rw [hl1, hkey i hi]
      exact ⟨rfl, Nat.mul_comm i 8, rfl⟩
    rw [taintUnionLoad_eq ho.bound (by omega) (fun i hi => (hlab i hi).2) hs
      (by rw [hl1]; exact hd.label.2) ⟨0, h0, Nat.ne_of_gt (hlab 0 h0).1⟩, if_neg hcons,
      if_pos hext, hl1]
  · intro i hi
    have hnot : ¬LoadsParent t (ls i) := by
      intro hp
      have h8 := hp.2.2
      rw [hkey i hi] at h8
      change (t.key l).size = 8 at h8
      omega
    have hsingle := load_single app (fun j => ls (i + j)) ho (hlab i hi).1 (hlab i hi).2 (hs i hi)
    exact ⟨ls i, t, hsingle.trans (by rw [Nat.add_zero, if_neg hnot]),
      extractKey_denotes ho (hlab i hi).1 (hlab i hi).2 (hkey i hi) hd hi hn'⟩

theorem taintUnionStore_eq (ho : Ordered t) (hl : constOffset ≤ l) (hlast : l ≤ t.lastLabel) :
    taintUnionStore t l ls n =
      if n = 1 ∧ (t.key l).size = 8 then .ok (Function.update ls 0 l, t)
      else if (t.key l).op = Operators.Load.code then
        .ok (fun i => if i < n then ((t.key l).l1 + i) % 2 ^ 32 else ls i, t)
      else storeExtracts l 0 n t ls := by
  have hb := ho.bound
  have hc : ¬(l = kInitializingLabel ∨ l = 0) := by
    unfold constOffset at hl
    omega
  rw [taintUnionStore, if_neg hc, getLabelInfo_ok hlast]
  rfl

theorem Extends.loadsParent (h : Extends t t') (ho : Ordered t) (hl : constOffset ≤ l)
    (hlast : l ≤ t.lastLabel) : LoadsParent t' l ↔ LoadsParent t l := by
  have h1 := ho.l1 l hl hlast
  unfold LoadsParent
  rw [h.key l hlast, h.key _ (Nat.le_trans (Nat.le_of_lt h1) hlast)]

theorem TableInv.load_record (hinv : TableInv t S) (hl : constOffset ≤ l) (hlast : l ≤ t.lastLabel)
    (hop : (t.key l).op = Operators.Load.code) (h1 : (t.key l).l1 = ls 0)
    (h0 : constOffset ≤ ls 0) (h2 : (t.key l).l2 = n) (hn : 1 ≤ n) (hn' : n < 8192)
    (hsize : (t.key l).size = 8 * n) : t.key l = loadKey ls n := by
  rcases hinv.raw l hl hlast with ⟨k, hS⟩ | ⟨o, ho⟩
  · have hk := (hinv.stored k l hS).1
    obtain ⟨hz1, hz2⟩ := hinv.zeroed k l hS
    rw [← hk, h1] at hz1
    rw [← hk, h2] at hz2
    have hsize' : n * 8 % 2 ^ 16 = 8 * n := by omega
    have hmod : n % 2 ^ 32 = n := by omega
    unfold loadKey
    rw [hsize', hmod, ← hsize, ← h1, ← h2, ← hop]
    have hop1 := hz1 h0
    have hop2 := hz2 hn
    cases hkey : t.key l with
    | mk a b c d e f =>
      rw [hkey] at hop1 hop2
      cases hop1
      cases hop2
      rfl
  · rw [ho] at hop
    cases hop

/-- The cells after a store of a load: its bytes, one label each. -/
def loadCells (l1 n : Nat) (ls : Nat → Nat) (i : Nat) : Nat :=
  if i < n then (l1 + i) % 2 ^ 32 else ls i

theorem FileMode.loadCells (h : FileMode t size) (ls : Nat → Nat) (hinv : TableInv t S)
    (hg : Extends t t') (hl1 : constOffset ≤ l1) (hle : l1 + n ≤ size + 1) :
    (∀ i < n, Kirenenko.loadCells l1 n ls i = l1 + i) ∧
      LoadCells t' (Kirenenko.loadCells l1 n ls) n (l1 - 1) := by
  have hb := hinv.bound
  have hsize := h.bound
  have hlast := hg.lastLabel
  unfold maxLabel at hb
  unfold constOffset at hl1
  have hcell : ∀ i < n, Kirenenko.loadCells l1 n ls i = l1 + i := by
    intro i hi
    rw [Kirenenko.loadCells, if_pos hi]
    exact Nat.mod_eq_of_lt (by omega)
  refine ⟨hcell, ⟨?_, ?_, by omega⟩⟩
  · intro i hi
    rw [hcell i hi]
    exact ⟨Nat.le_trans hl1 (Nat.le_add_right _ _), by omega⟩
  · intro i hi
    have hoff : l1 + i - 1 = l1 - 1 + i := by omega
    rw [hcell i hi, hg.key _ (by omega), h.key _ (Nat.le_trans hl1 (Nat.le_add_right _ _))
      (by omega), hoff]

theorem ExtractCells.extends (h : ExtractCells t l ls i k) (hg : Extends t t') :
    ExtractCells t' l ls i k where
  label j hj hj' := ⟨(h.label j hj hj').1, Nat.le_trans (h.label j hj hj').2 hg.lastLabel⟩
  key j hj hj' := by
    rw [hg.key _ (h.label j hj hj').2]
    exact h.key j hj hj'

section
variable {s s₂ : TableHistory}

theorem roundTrip_byte (hs : s.Inv) (hrun : Steps (TableStep z) s bs s₂) (hl : constOffset ≤ l)
    (hlast : l ≤ s.table.lastLabel) (hsize : (s.table.key l).size = 8 * 1)
    (hd : Denotes z mem s.table l (8 * 1) g) :
    RoundTrip z mem s₂.table app (Function.update ls 0 l) 1 g ↔
      (LoadsParent s.table l → ∃ g', Denotes z mem s.table (s.table.key l).l1 8 g') := by
  have ho : Ordered s.table := TableInv.ordered hs
  have hext := hrun.table_extends hs
  have ho₂ : Ordered s₂.table := TableInv.ordered (hrun.table_inv hs).1
  have hcell : Function.update ls 0 l 0 = l := Function.update_self ..
  have hpar := Nat.le_trans (Nat.le_of_lt (ho.l1 l hl hlast)) hlast
  rw [roundTrip_single ho₂ (by rw [hcell, hext.key l hlast]; exact hsize)
    (by rw [hcell]; exact (hext.denotes ho ho₂ hlast).2 hd), hcell, hext.loadsParent ho hl hlast,
    hext.key l hlast]
  simp only [hext.denotes ho ho₂ hpar]

theorem roundTrip_load (app : Nat → UInt8) (ls : Nat → Nat) (hs : s.Inv)
    (hrun : Steps (TableStep z) s bs s₂) (hfile : FileMode s.table size) (hl : constOffset ≤ l)
    (hlast : l ≤ s.table.lastLabel) (hn : 2 ≤ n) (hn' : n < 8192)
    (hsize : (s.table.key l).size = 8 * n) (hd : Denotes z mem s.table l (8 * n) g)
    (hop : (s.table.key l).op = Operators.Load.code)
    (h2 : (s.table.key l).l2 = n) (hl1 : constOffset ≤ (s.table.key l).l1)
    (hle : (s.table.key l).l1 + n ≤ size + 1) :
    RoundTrip z mem s₂.table app (loadCells (s.table.key l).l1 n ls) n g := by
  have hinv : TableInv s.table s.Stored := hs
  have hext := hrun.table_extends hs
  have hinv₂ : TableInv s₂.table s₂.Stored := (hrun.table_inv hs).1
  obtain ⟨hcell, hcells⟩ := hfile.loadCells ls hinv hext hl1 hle
  have h0 := hcell 0 (by omega)
  have hk : s₂.table.key l = loadKey (loadCells (s.table.key l).l1 n ls) n := by
    rw [hext.key l hlast]
    exact hinv.load_record hl hlast hop h0.symm (by rw [h0]; exact hl1) h2 (by omega) hn' hsize
  exact hcells.roundTrip hinv₂ hn hn' hk ((hext.denotes hinv.ordered hinv₂.ordered hlast).2 hd)

theorem roundTrip_extracts {s₁ : TableHistory} (hs : s.Inv) (hus : Steps (TableStep z) s us s₁)
    (hrun : Steps (TableStep z) s₁ bs s₂) (hlast : l ≤ s.table.lastLabel) (hn : 2 ≤ n)
    (hn' : n < 8192) (hsize : (s.table.key l).size = 8 * n)
    (hd : Denotes z mem s.table l (8 * n) g) (hcells : ExtractCells s₁.table l ls' 0 n) :
    RoundTrip z mem s₂.table app ls' n g := by
  have ho : Ordered s.table := TableInv.ordered hs
  have hs₁ := (hus.table_inv hs).1
  have hext₂ := hrun.table_extends hs₁
  have hext := (hus.table_extends hs).trans hext₂
  have ho₂ : Ordered s₂.table := TableInv.ordered (hrun.table_inv hs₁).1
  apply (hcells.extends hext₂).roundTrip ho₂ hn hn'
  · rw [hext.key l hlast]
    exact hsize
  · exact (hext.denotes ho ho₂ hlast).2 hd

end

/-- A stored label comes back from memory, as a whole and byte by byte, whatever is done to the
table in between, unless a load of one byte takes its parent for it. -/
theorem store_load_round_trip {s : TableHistory} (app : Nat → UInt8) (ls : Nat → Nat)
    (hr : Steps (TableStep z) .initial as s) (hfile : FileMode s.table size)
    (hl : constOffset ≤ l) (hlast : l ≤ s.table.lastLabel) (hn : 1 ≤ n) (hn' : n < 8192)
    (hsize : (s.table.key l).size = 8 * n) (hd : Denotes z mem s.table l (8 * n) g)
    (hload : (s.table.key l).op = Operators.Load.code → (s.table.key l).l2 = n ∧
      constOffset ≤ (s.table.key l).l1 ∧ (s.table.key l).l1 + n ≤ size + 1) :
    taintUnionStore s.table l ls n = .error .die ∧ maxLabel < s.table.lastLabel + n ∨
      ∃ ls' us s₁, taintUnionStore s.table l ls n = .ok (ls', s₁.table) ∧
        Steps (TableStep z) s us s₁ ∧
        ∀ bs s₂, Steps (TableStep z) s₁ bs s₂ →
          (RoundTrip z mem s₂.table app ls' n g ↔
            (n = 1 → LoadsParent s.table l →
              ∃ g', Denotes z mem s.table (s.table.key l).l1 8 g')) := by
  have hs : s.Inv := (hr.table_inv TableHistory.initial_inv).1
  rw [taintUnionStore_eq (TableInv.ordered hs) hl hlast]
  by_cases h1 : n = 1
  · subst h1
    rw [if_pos ⟨rfl, hsize⟩]
    refine .inr ⟨_, [], s, rfl, .nil, ?_⟩
    intro bs s₂ hrun
    rw [roundTrip_byte hs hrun hl hlast hsize hd]
    exact ⟨fun h _ => h, fun h => h rfl⟩
  rw [if_neg fun h => h1 h.1]
  have hn2 : 2 ≤ n := by omega
  by_cases hop : (s.table.key l).op = Operators.Load.code
  · rw [if_pos hop]
    obtain ⟨h2, hl1, hle⟩ := hload hop
    refine .inr ⟨loadCells (s.table.key l).l1 n ls, [], s, rfl, .nil, ?_⟩
    intro bs s₂ hrun
    have hround := roundTrip_load app ls hs hrun hfile hl hlast hn2 hn' hsize hd hop h2 hl1 hle
    exact iff_of_true hround fun h => (h1 h).elim
  · rw [if_neg hop]
    rcases storeExtracts_spec hs hl hlast z with hdie | ⟨ls', us, s₁, hstore, hus, _, hcells⟩
    · exact .inl hdie
    · refine .inr ⟨ls', us, s₁, hstore, hus, ?_⟩
      intro bs s₂ hrun
      exact iff_of_true (roundTrip_extracts hs hus hrun hlast hn2 hn' hsize hd hcells)
        fun h => (h1 h).elim

end

theorem forall_label {P : Nat → Prop} (h : ∀ l < n + 1, constOffset ≤ l → P l) :
    ∀ l, constOffset ≤ l → l ≤ n → P l :=
  fun l hl hn => h l (Nat.lt_succ_of_le hn) hl

/-- An input byte widened to 64 bits, compared with eight bytes of memory, and the first byte of
the 32-bit result; the recorded size of the comparison is its number of bytes. -/
def memcmpOps : List TableOp :=
  preallocate 1 ++ [
    .union { l1 := 1, l2 := 0, op := Operators.ZExt.code, size := 64 },
    .union { l1 := 2, l2 := 0, op := Operators.fmemcmp.code, size := 8, op1 := 64, op2 := 4096 },
    .union { l1 := 3, l2 := 0, op := Operators.Extract.code, size := 8 }]

/-- The byte of a comparison is stored as itself, but the load returns the whole comparison. -/
theorem store_load_round_trip_memcmp :
    ∃ s g, Steps (TableStep .idle) .initial memcmpOps s ∧ FileMode s.table 1 ∧
      s.table.lastLabel = 4 ∧ (s.table.key 4).size = 8 * 1 ∧
      (s.table.key 4).op = Operators.Extract.code ∧
      Denotes .idle (fun _ => 0) s.table 4 (8 * 1) g ∧
      taintUnionStore s.table 4 id 1 = .ok (Function.update id 0 4, s.table) ∧
      ¬RoundTrip .idle (fun _ => 0) s.table (fun _ => 0) (Function.update id 0 4) 1 g := by
  refine ⟨_, _, .cons (.create rfl) (.cons (.union ⟨by decide, fun _ => by decide⟩ rfl)
    (.cons (.union ⟨by decide, fun _ => by decide⟩ rfl)
    (.cons (.union ⟨by decide, fun _ => by decide⟩ rfl) .nil))),
    ⟨by decide, forall_label (by decide), forall_label (by decide)⟩, rfl, rfl, rfl,
    ⟨_, _, _, rfl, rfl, fun _ => rfl⟩, rfl, ?_⟩
  intro h
  obtain ⟨l, t, hload, hd⟩ := h.whole
  cases hload
  obtain ⟨e, deps, t', hs, hbv⟩ := hd
  cases hs
  exact absurd hbv.sort (by decide)

/-- A load of two input bytes is broken up and put together again. -/
theorem store_load_round_trip_load :
    ∃ s ls' s₁, Steps (TableStep .idle) .initial (preallocate 2 ++
        [.union { l1 := 1, l2 := 2, op := Operators.Load.code, size := 16 }]) s ∧
      taintUnionStore s.table 3 id 2 = .ok (ls', s₁.table) ∧
      ∀ bs s₂, Steps (TableStep .idle) s₁ bs s₂ →
        RoundTrip .idle (fun _ => 0) s₂.table (fun _ => 0) ls' 2 (inputBytes 0 2) := by
  obtain ⟨s, hr, hfile, hlast, hkey, hd⟩ : ∃ s, Steps (TableStep .idle) .initial (preallocate 2 ++
        [.union { l1 := 1, l2 := 2, op := Operators.Load.code, size := 16 }]) s ∧
      FileMode s.table 2 ∧ s.table.lastLabel = 3 ∧
      s.table.key 3 = { l1 := 1, l2 := 2, op := Operators.Load.code, size := 16 } ∧
      Denotes .idle (fun _ => 0) s.table 3 (8 * 2) (inputBytes 0 2) := by
    refine ⟨_, .cons (.create rfl) (.cons (.create rfl)
      (.cons (.union ⟨by decide, fun h => (h rfl).elim⟩ rfl) .nil)),
      ⟨by decide, forall_label (by decide),
        forall_label (by decide)⟩, rfl, rfl, _, _, _, rfl, rfl, ?_⟩
    intro env
    rw [inputBytes_succ, inputBytes_one]
    rfl
  have hl1 : (s.table.key 3).l1 = 1 := congrArg LabelKey.l1 hkey
  rcases store_load_round_trip (fun _ => 0) id hr hfile (by decide) (Nat.le_of_eq hlast.symm)
    (by decide) (by decide) (congrArg LabelKey.size hkey) hd
    (fun _ => ⟨congrArg LabelKey.l2 hkey, by rw [hl1]; decide, by rw [hl1]⟩) with
    ⟨_, hfull⟩ | ⟨ls', us, s₁, hstore, _, hiff⟩
  · unfold maxLabel at hfull
    omega
  · refine ⟨s, ls', s₁, hr, hstore, ?_⟩
    intro bs s₂ hrun
    exact (hiff bs s₂ hrun).2 fun h => absurd h (by decide)

end Kirenenko
