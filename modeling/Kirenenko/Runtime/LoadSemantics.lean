import Kirenenko.Runtime.ConcatChain
import Kirenenko.Runtime.HashConsing

namespace Kirenenko
set_option autoImplicit true

section
variable {z : Z3} {mem : Memory} {t t' : LabelTable} {app : Nat → UInt8} {ls : Nat → Nat}
  {f : Nat → Env → Nat} {n : Nat}

theorem ByteLabels.byte_lt (h : ByteLabels z mem t ls n f) (app : Nat → UInt8) (env : Env) :
    ∀ i < n, loadedByte app ls f i env < 2 ^ 8 := by
  intro i hi
  unfold loadedByte
  by_cases hc : ls i = constLabel
  · rw [if_pos hc]
    exact (app i).toNat_lt
  · rw [if_neg hc]
    exact (h.denotes i hi hc).lt env

theorem ByteLabels.chain_start (h : ByteLabels z mem t ls n f) (hn : n ≠ 0) :
    ChainAt z mem t app ls f (ls 0) 1 := by
  have h0 : 0 < n := Nat.pos_of_ne_zero hn
  by_cases hc : ls 0 = constLabel
  · rw [hc]
    refine .const ?_
    intro m hm
    obtain rfl : m = 0 := by omega
    exact hc
  · refine .label hc (h.label 0 h0) (h.size 0 h0) ⟨0, Nat.zero_lt_one, hc⟩ ?_
    have hval : loadedValue app ls f 1 = f 0 := by
      funext env
      rw [loadedValue, littleEndian_one, loadedByte, if_neg hc]
    rw [hval]
    refine ⟨fun _ => ⟨?_, .inl (by decide)⟩, fun _ => h.denotes 0 h0 hc⟩
    intro j hj hall
    obtain rfl : j = 0 := by omega
    exact (hc (hall 0 (Nat.le_refl 0))).elim

theorem ByteLabels.concat_load (h : ByteLabels z mem t ls n f) (app : Nat → UInt8) (hz : z.Lawful)
    (hinv : TableInv t S) (hn : n ≠ 0) (htaint : ∃ i < n, ls i ≠ constLabel) :
    concatLoop app ls n (concatFuel n) t (ls 0) 1 = .error .die ∧
        maxLabel < t.lastLabel + n ∨
      ∃ l t', concatLoop app ls n (concatFuel n) t (ls 0) 1 = .ok (l, t') ∧
        (Denotes z mem t' l (8 * n) (loadedValue app ls f n) ↔ ConcatExact app ls n) := by
  have hfuel : n - 1 < concatFuel n := by
    unfold concatFuel
    omega
  rcases h.chain_run hz hinv Nat.one_ne_zero (by omega) hfuel (h.chain_start hn) with
    ⟨hdie, hfull⟩ | ⟨l, t', hrun, _, hc⟩
  · exact .inl ⟨hdie, by omega⟩
  · refine .inr ⟨l, t', hrun, ?_⟩
    cases hc with
    | const hall =>
      obtain ⟨i, hi, hne⟩ := htaint
      exact (hne (hall i hi)).elim
    | label _ _ _ _ hden => exact hden

/-- The record of a load of consecutive bytes. -/
def loadKey (ls : Nat → Nat) (n : Nat) : LabelKey :=
  { l1 := ls 0, l2 := n % 2 ^ 32, op := Operators.Load.code, size := n * 8 % 2 ^ 16 }

theorem loadKey_swap : swapOperands (loadKey ls n) = loadKey ls n :=
  if_neg fun h => absurd h.2 (by decide : ¬isCommutative Operators.Load.code)

theorem loadKey_canonical : canonical (loadKey ls n) = loadKey ls n := by
  rw [canonical, loadKey_swap]
  unfold zeroConcrete loadKey
  simp only [ite_self]

theorem TableInv.load_union (hinv : TableInv t S) (h0 : ls 0 ≤ t.lastLabel)
    (hconst : ¬ConstUnion (loadKey ls n)) (hn : n % 2 ^ 32 ≠ kInitializingLabel) :
    Kirenenko.taintUnion t (loadKey ls n) = .error .die ∧ t.lastLabel = maxLabel ∨
      ∃ l t', Kirenenko.taintUnion t (loadKey ls n) = .ok (l, t') ∧ TableGrows t t' 1 ∧
        constOffset ≤ l ∧ l ≤ t'.lastLabel ∧ t'.key l = loadKey ls n := by
  have ha : Allocated t (loadKey ls n) := ⟨h0, fun h => (h rfl).elim⟩
  have hb := hinv.ordered.bound
  have hi : ¬InitUnion (swapOperands (loadKey ls n)) := by
    rw [loadKey_swap]
    rintro (h | h)
    · change ls 0 = kInitializingLabel at h
      omega
    · exact hn h
  rcases hinv.union_cases ha hi with hdie | ⟨l, t', hu, hret⟩
  · exact .inl hdie
  · refine .inr ⟨l, t', hu, hret.tableGrows, ?_⟩
    rcases hret.key with ⟨_, hcu⟩ | ⟨hl, hk⟩
    · rw [loadKey_swap] at hcu
      exact (hconst hcu).elim
    · rw [loadKey_canonical] at hk
      exact ⟨hl, hret.label, hk⟩

theorem loadKey_denotes (ho' : Ordered t') (hg : Extends t t') (h0 : ls 0 ≤ t.lastLabel)
    (hm : n % 2 ^ 32 - 1 + 1 = m) (hl : constOffset ≤ l) (hlast : l ≤ t'.lastLabel)
    (hk : t'.key l = loadKey ls n) :
    Denotes z mem t' l w g ↔ (∀ i < m, Nameable ((t.key (ls 0)).op1 + i)) ∧ w = 8 * m ∧
      g = inputBytes (t.key (ls 0)).op1 m := by
  have hop : (t'.key l).op = Operators.Load.code := by
    rw [hk]
    rfl
  have h2 : (t'.key l).l2 - 1 + 1 = m := by
    rw [hk]
    exact hm
  have h1 : (t'.key (t'.key l).l1).op1 = (t.key (ls 0)).op1 := by
    rw [hk]
    change (t'.key (ls 0)).op1 = _
    rw [hg.key _ h0]
  rw [denotes_load ho' hl hlast hop h2, h1]

/-- The loaded bytes really are the input bytes that their labels are taken for. -/
def ReadsInput (z : Z3) (mem : Memory) (t : LabelTable) (ls : Nat → Nat) (n : Nat) : Prop :=
  ∀ i < n, Nameable ((t.key (ls 0)).op1 + i) ∧
    Denotes z mem t (ls i) 8 (inputByte ((t.key (ls 0)).op1 + i))

theorem ByteLabels.readsInput_iff (h : ByteLabels z mem t ls n f) (app : Nat → UInt8)
    (hall : ∀ i < n, ls i ≠ constLabel) :
    ReadsInput z mem t ls n ↔ (∀ i < n, Nameable ((t.key (ls 0)).op1 + i)) ∧
      loadedValue app ls f n = inputBytes (t.key (ls 0)).op1 n := by
  have hbyte : ∀ i < n, ∀ env, loadedByte app ls f i env = f i env :=
    fun i hi env => if_neg (hall i hi)
  have hinj := fun env => littleEndian_inj (h.byte_lt app env)
    fun i (_ : i < n) => inputByte_lt ((t.key (ls 0)).op1 + i) env
  constructor
  · intro hr
    refine ⟨fun i hi => (hr i hi).1, ?_⟩
    funext env
    refine (hinj env).2 ?_
    intro i hi
    rw [hbyte i hi env, ((h.denotes i hi (hall i hi)).unique (hr i hi).2).2]
  · rintro ⟨hn, hval⟩ i hi
    have hf : f i = inputByte ((t.key (ls 0)).op1 + i) := by
      funext env
      rw [← hbyte i hi env]
      exact (hinj env).1 (congrFun hval env) i hi
    rw [← hf]
    exact ⟨hn i hi, h.denotes i hi (hall i hi)⟩

theorem consecutive_denotes (hinv : TableInv t S) (h0 : ls 0 ≤ t.lastLabel)
    (hne : ls 0 ≠ constLabel) (hop : (t.key (ls 0)).op = 0) (hn : n ≠ 0)
    (hlt : n < kInitializingLabel) :
    loadConsecutive t ls n = .error .die ∧ t.lastLabel = maxLabel ∨
      ∃ l t', loadConsecutive t ls n = .ok (l, t') ∧ TableGrows t t' 1 ∧ constOffset ≤ l ∧
        l ≤ t'.lastLabel ∧ ∀ z mem w g, Denotes z mem t' l w g ↔
          (∀ i < n, Nameable ((t.key (ls 0)).op1 + i)) ∧ w = 8 * n ∧
            g = inputBytes (t.key (ls 0)).op1 n := by
  have hl0 : constOffset ≤ ls 0 := Nat.pos_of_ne_zero hne
  by_cases h1 : n = 1
  · subst h1
    refine .inr ⟨ls 0, t, rfl, hinv.tableGrows.mono (Nat.zero_le 1), hl0, h0, ?_⟩
    intro z mem w g
    rw [denotes_raw hinv.ordered hl0 h0 hop, inputBytes_one]
    simp only [Nat.lt_one_iff, forall_eq, Nat.add_zero, Nat.mul_one]
  · have heq : loadConsecutive t ls n = taintUnion t (loadKey ls n) := if_neg h1
    have hmod : n % 2 ^ 32 = n := by
      unfold kInitializingLabel at hlt
      omega
    have hnc : ¬ConstUnion (loadKey ls n) := fun hc => hne hc.1
    have hnk : n % 2 ^ 32 ≠ kInitializingLabel := by omega
    have hm : n % 2 ^ 32 - 1 + 1 = n := by omega
    rw [heq]
    rcases hinv.load_union h0 hnc hnk with hdie | ⟨l, t', hu, hg, hl, hlast, hk⟩
    · exact .inl hdie
    · exact .inr ⟨l, t', hu, hg, hl, hlast,
        fun _ _ _ _ => loadKey_denotes hg.ordered hg.grows h0 hm hl hlast hk⟩

theorem ByteLabels.consecutive_load (h : ByteLabels z mem t ls n f) (app : Nat → UInt8)
    (hinv : TableInv t S) (hn : n ≠ 0) (hlt : n < kInitializingLabel)
    (hall : ∀ i < n, ls i ≠ constLabel) (hc : Consecutive t ls n) :
    loadConsecutive t ls n = .error .die ∧ maxLabel < t.lastLabel + n ∨
      ∃ l t', loadConsecutive t ls n = .ok (l, t') ∧
        (Denotes z mem t' l (8 * n) (loadedValue app ls f n) ↔ ReadsInput z mem t ls n) := by
  have hpos : 0 < n := Nat.pos_of_ne_zero hn
  rcases consecutive_denotes hinv (h.label 0 hpos) (hall 0 hpos) hc.1 hn hlt with
    ⟨hdie, hfull⟩ | ⟨l, t', hu, _, _, _, hd⟩
  · exact .inl ⟨hdie, by omega⟩
  · refine .inr ⟨l, t', hu, ?_⟩
    rw [hd, h.readsInput_iff app hall]
    simp only [true_and]

theorem ByteLabels.extracted_load (h : ByteLabels z mem t ls n f) (hinv : TableInv t S)
    (hn : n < 2 ^ 29) (he : Extracted t ls n) :
    Denotes z mem t (t.key (ls 0)).l1 (8 * n) (loadedValue app ls f n) ↔
      ∃ g, Denotes z mem t (t.key (ls 0)).l1 (8 * n) g := by
  refine ⟨fun hd => ⟨_, hd⟩, ?_⟩
  rintro ⟨g, hd⟩
  have hval : loadedValue app ls f n = g := by
    funext env
    have hdig : ∀ i < n, loadedByte app ls f i env = g env / 2 ^ (8 * i) % 2 ^ 8 := by
      intro i hi
      obtain ⟨hop, hop2, hl1⟩ := he.1 i hi
      have hne : ls i ≠ constLabel := by
        intro hc
        rw [hc, hinv.zero] at hop
        cases hop
      have hdi := h.denotes i hi hne
      obtain ⟨_, _, v, g', hg', _, hf⟩ := (denotes_extract hinv.ordered hdi.label.1 hdi.label.2
        hop (h.size i hi) hop2 (by omega)).1 hdi
      rw [hl1] at hg'
      rw [loadedByte, if_neg hne, hf, (hg'.unique hd).2]
    rw [loadedValue, littleEndian_congr hdig, littleEndian_digits]
    exact Nat.mod_eq_of_lt (hd.lt env)
  rw [hval]
  exact hd

/-- When a load of tainted bytes denotes their concatenation, by the path it takes. -/
structure FullLoadExact (z : Z3) (mem : Memory) (t : LabelTable) (ls : Nat → Nat) (n : Nat) :
    Prop where
  consecutive : Consecutive t ls n → ReadsInput z mem t ls n
  extracted : ¬Consecutive t ls n → Extracted t ls n →
    ∃ g, Denotes z mem t (t.key (ls 0)).l1 (8 * n) g
  concat : ¬Consecutive t ls n → ¬Extracted t ls n → n ≤ 31

theorem concatExact_of_tainted (hall : ∀ i < n, ls i ≠ constLabel) (hn : n ≠ 0) :
    ConcatExact app ls n ↔ n ≤ 31 := by
  have h0 := hall 0 (Nat.pos_of_ne_zero hn)
  constructor
  · rintro ⟨_, h | ⟨_, _, h⟩⟩
    · exact h
    · exact (h0 (h 0 (by omega))).elim
  · intro h
    exact ⟨fun j hj hz => (hall j hj (hz j (Nat.le_refl j))).elim, .inl h⟩

theorem ByteLabels.full_load (h : ByteLabels z mem t ls n f) (hz : z.Lawful)
    (hinv : TableInv t S) (hn : n ≠ 0) (hlt : n < 2 ^ 29) (hall : ∀ i < n, ls i ≠ constLabel) :
    taintUnionLoad t app ls n = .error .die ∧ maxLabel < t.lastLabel + n ∨
      ∃ l t', taintUnionLoad t app ls n = .ok (l, t') ∧
        (Denotes z mem t' l (8 * n) (loadedValue app ls f n) ↔ FullLoadExact z mem t ls n) := by
  have hpos : 0 < n := Nat.pos_of_ne_zero hn
  have hl0 : constOffset ≤ ls 0 := Nat.pos_of_ne_zero (hall 0 hpos)
  have h0 := h.label 0 hpos
  have hp : (t.key (ls 0)).l1 ≤ t.lastLabel := by
    have := hinv.ordered.l1 (ls 0) hl0 h0
    omega
  rw [taintUnionLoad_eq hinv.ordered.bound hn h.label h.size hp ⟨0, hpos, hall 0 hpos⟩]
  by_cases hc : Consecutive t ls n
  · have hk : n < kInitializingLabel := by
      unfold kInitializingLabel
      omega
    rw [if_pos hc]
    rcases h.consecutive_load app hinv hn hk hall hc with hdie | ⟨l, t', hu, hd⟩
    · exact .inl hdie
    · refine .inr ⟨l, t', hu, hd.trans ⟨fun hr => ⟨fun _ => hr, ?_, ?_⟩, fun hx => hx.1 hc⟩⟩
      · exact fun hne => (hne hc).elim
      · exact fun hne => (hne hc).elim
  rw [if_neg hc]
  by_cases he : Extracted t ls n
  · rw [if_pos he]
    refine .inr ⟨_, t, rfl, (h.extracted_load hinv hlt he).trans ⟨fun hg => ⟨?_, ?_, ?_⟩, ?_⟩⟩
    · exact fun hc' => (hc hc').elim
    · exact fun _ _ => hg
    · exact fun _ hne => (hne he).elim
    · exact fun hx => hx.2 hc he
  · rw [if_neg he]
    rcases h.concat_load app hz hinv hn ⟨0, hpos, hall 0 hpos⟩ with
      hdie | ⟨l, t', hu, hd⟩
    · exact .inl hdie
    · rw [concatExact_of_tainted hall hn] at hd
      refine .inr ⟨l, t', hu, hd.trans ⟨fun h31 => ⟨?_, ?_, fun _ _ => h31⟩, fun hx => hx.3 hc he⟩⟩
      · exact fun hc' => (hc hc').elim
      · exact fun _ he' => (he he').elim

/-- A load of tainted bytes denotes their little-endian concatenation exactly when the path it
takes is the right one for its labels; it can only fail to return by filling the table. -/
theorem fully_tainted_load {s : TableHistory} (hz : z.Lawful)
    (hr : Steps (TableStep z) .initial as s) (hn : 1 ≤ n) (hn' : 8 * n < 65536)
    (hl : ∀ i < n, constOffset ≤ ls i ∧ ls i ≤ s.table.lastLabel)
    (hsize : ∀ i < n, (s.table.key (ls i)).size = 8)
    (hd : ∀ i < n, Denotes z mem s.table (ls i) 8 (f i)) :
    taintUnionLoad s.table app ls n = .error .die ∧ maxLabel < s.table.lastLabel + n ∨
      ∃ l t, taintUnionLoad s.table app ls n = .ok (l, t) ∧
        (Denotes z mem t l (8 * n) (fun env => littleEndian 8 (fun i => f i env) n) ↔
          FullLoadExact z mem s.table ls n) := by
  have hinv : TableInv s.table s.Stored := (hr.table_inv TableHistory.initial_inv).1
  have hb : ByteLabels z mem s.table ls n f :=
    ⟨fun i hi => (hl i hi).2, hsize, fun i hi _ => hd i hi⟩
  have hall : ∀ i < n, ls i ≠ constLabel := fun i hi => Nat.ne_of_gt (hl i hi).1
  have hval : loadedValue app ls f n = fun env => littleEndian 8 (fun i => f i env) n := by
    funext env
    exact littleEndian_congr fun i hi => if_neg (hall i hi)
  rw [← hval]
  exact hb.full_load hz hinv (by omega) (by omega) hall

end

/-- Two input bytes, and the second one incremented. -/
def incrementedOps : List TableOp :=
  [.create 0, .create 1,
    .union { l1 := 0, l2 := 2, op := Operators.Add.code, size := 8, op1 := 1 }]

/-- The first byte and the incremented second one, as labels and as values. -/
def incrementedLabels (i : Nat) : Nat := if i = 0 then 1 else 3

def incrementedBytes (i : Nat) (env : Env) : Nat :=
  if i = 0 then inputByte 0 env else (inputByte 1 env + 1) % 2 ^ 8

/-- The incremented byte is recorded with the operand 1, the offset expected at its place. -/
theorem fully_tainted_load_incremented :
    ∃ s, Steps (TableStep .idle) .initial incrementedOps s ∧
      (∀ i < 2, constOffset ≤ incrementedLabels i ∧ incrementedLabels i ≤ s.table.lastLabel ∧
        (s.table.key (incrementedLabels i)).size = 8 ∧
        Denotes .idle (fun _ => 0) s.table (incrementedLabels i) 8 (incrementedBytes i)) ∧
      ∃ l t, taintUnionLoad s.table (fun _ => 0) incrementedLabels 2 = .ok (l, t) ∧
        ¬Denotes .idle (fun _ => 0) t l (8 * 2)
          (fun env => littleEndian 8 (fun i => incrementedBytes i env) 2) := by
  have h : Steps (TableStep .idle) .initial incrementedOps _ :=
    .cons (.create rfl) (.cons (.create rfl) (.cons (.union ⟨by decide, fun _ => by decide⟩ rfl)
      .nil))
  refine ⟨_, h, ?_, ?_⟩
  · intro i hi
    obtain rfl | rfl : i = 0 ∨ i = 1 := by omega
    · exact ⟨by decide, by decide, rfl, _, _, _, rfl, rfl, fun _ => rfl⟩
    · refine ⟨by decide, by decide, rfl, _, _, _, rfl, rfl, ?_⟩
      intro env
      change (BitVec.ofNat 8 1 + BitVec.ofNat 8 (inputByte 1 env)).toNat =
        (inputByte 1 env + 1) % 2 ^ 8
      have := inputByte_lt 1 env
      rw [BitVec.toNat_add, BitVec.toNat_ofNat, BitVec.toNat_ofNat]
      omega
  · refine ⟨_, _, rfl, ?_⟩
    rintro ⟨e, deps, t', hs, hbv⟩
    cases hs
    exact absurd (hbv.eval fun _ _ => 0) (by decide)

/-- The unmodified bytes are loaded as they are. -/
theorem fully_tainted_load_unmodified :
    ∃ s l t, Steps (TableStep .idle) .initial incrementedOps s ∧
      taintUnionLoad s.table (fun _ => 0) (fun i => i + 1) 2 = .ok (l, t) ∧
      Consecutive s.table (fun i => i + 1) 2 ∧
      Denotes .idle (fun _ => 0) t l (8 * 2)
        fun env => littleEndian 8 (fun i => inputByte i env) 2 := by
  obtain ⟨s, h, hlast, hc, h0, hbytes⟩ : ∃ s, Steps (TableStep .idle) .initial incrementedOps s ∧
      s.table.lastLabel = 3 ∧ Consecutive s.table (fun i => i + 1) 2 ∧
      (s.table.key 1).op1 = 0 ∧ ∀ i < 2, (s.table.key (i + 1)).size = 8 ∧
        Denotes .idle (fun _ => 0) s.table (i + 1) 8 (inputByte i) := by
    refine ⟨_, .cons (.create rfl) (.cons (.create rfl)
      (.cons (.union ⟨by decide, fun _ => by decide⟩ rfl) .nil)), rfl, by decide, rfl, ?_⟩
    intro i hi
    obtain rfl | rfl : i = 0 ∨ i = 1 := by omega
    · exact ⟨rfl, _, _, _, rfl, rfl, fun _ => rfl⟩
    · exact ⟨rfl, _, _, _, rfl, rfl, fun _ => rfl⟩
  have hl : ∀ i < 2, constOffset ≤ i + 1 ∧ i + 1 ≤ s.table.lastLabel := by
    intro i hi
    exact ⟨Nat.le_add_left _ _, by omega⟩
  have hreads : ReadsInput .idle (fun _ => 0) s.table (fun i => i + 1) 2 := by
    intro i hi
    rw [h0, Nat.zero_add]
    exact ⟨by unfold Nameable; omega, (hbytes i hi).2⟩
  rcases fully_tainted_load Z3.idle_lawful h (by decide) (by decide) hl
    (fun i hi => (hbytes i hi).1) (fun i hi => (hbytes i hi).2) with ⟨_, hfull⟩ | ⟨l, t, hu, hd⟩
  · unfold maxLabel at hfull
    omega
  · exact ⟨s, l, t, h, hu, hc, hd.2 ⟨fun _ => hreads, fun hn => (hn hc).elim,
      fun hn => (hn hc).elim⟩⟩

end Kirenenko
