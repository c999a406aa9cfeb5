import Kirenenko.Runtime.LoadSemantics

namespace Kirenenko
set_option autoImplicit true

section
variable {z : Z3} {mem : Memory} {t t' : LabelTable} {app : Nat → UInt8} {ls : Nat → Nat}
  {f : Nat → Env → Nat} {n : Nat}

theorem inputByte_varies (o c : Nat) : ∃ env, inputByte o env ≠ c := by
  by_cases hc : c = 0
  · refine ⟨fun _ _ => 1, ?_⟩
    subst hc
    change 1 % 2 ^ 8 ≠ 0
    decide
  · refine ⟨fun _ _ => 0, ?_⟩
    change 0 % 2 ^ 8 ≠ c
    omega

theorem ByteLabels.not_inputBytes (h : ByteLabels z mem t ls n f) (app : Nat → UInt8) (hi : i < n)
    (hc : ls i = constLabel) (o : Nat) : loadedValue app ls f n ≠ inputBytes o n := by
  intro heq
  obtain ⟨env, henv⟩ := inputByte_varies (o + i) (app i).toNat
  have hdig := (littleEndian_inj (h.byte_lt app env) fun j (_ : j < n) =>
    inputByte_lt (o + j) env).1 (congrFun heq env) i hi
  rw [loadedByte, if_pos hc] at hdig
  exact henv hdig.symm

theorem not_denotes_const : ¬Denotes z mem t constLabel w g :=
  fun h => absurd h.label.1 (by decide)

theorem not_denotes_init (ho : Ordered t) : ¬Denotes z mem t kInitializingLabel w g := by
  intro h
  have := h.label.2
  have := ho.bound
  omega

theorem ByteLabels.consecutive_loses (h : ByteLabels z mem t ls n f) (app : Nat → UInt8)
    (hinv : TableInv t S) (hn : 2 ≤ n) (hi : i < n) (hc : ls i = constLabel) :
    loadConsecutive t ls n = .error .die ∧ maxLabel < t.lastLabel + n ∨
      ∃ l t', loadConsecutive t ls n = .ok (l, t') ∧
        ¬Denotes z mem t' l (8 * n) (loadedValue app ls f n) := by
  have h0 := h.label 0 (by omega)
  have heq : loadConsecutive t ls n = taintUnion t (loadKey ls n) := if_neg (by omega)
  rw [heq]
  by_cases hconst : ConstUnion (loadKey ls n)
  · refine .inr ⟨0, t, ?_, not_denotes_const⟩
    rw [taintUnion_eq, loadKey_swap, if_pos hconst]
  by_cases hinit : n % 2 ^ 32 = kInitializingLabel
  · refine .inr ⟨kInitializingLabel, t, ?_, not_denotes_init hinv.ordered⟩
    rw [taintUnion_eq, loadKey_swap, if_neg hconst, if_pos (.inr hinit)]
  rcases hinv.load_union h0 hconst hinit with ⟨hdie, hfull⟩ | ⟨l, t', hu, hg, hl, hlast, hk⟩
  · exact .inl ⟨hdie, by omega⟩
  · refine .inr ⟨l, t', hu, ?_⟩
    intro hd
    obtain ⟨_, hw, hval⟩ :=
      (loadKey_denotes hg.ordered hg.grows h0 rfl hl hlast hk).1 hd
    have hm : n % 2 ^ 32 - 1 + 1 = n := by omega
    rw [hm] at hval
    exact h.not_inputBytes app hi hc _ hval

theorem concatExact_of_head (h0 : ls 0 ≠ constLabel) (h : ConcatExact app ls n) : n ≤ 31 := by
  rcases h.2 with hn | ⟨_, _, hlead⟩
  · exact hn
  · exact (h0 (hlead 0 (by omega))).elim

/-- The offset expected at a concrete byte is zero, and wraps around to an unnameable one. -/
theorem consecutive_const_large (hinv : TableInv t S) (hcons : Consecutive t ls n)
    (hd : Denotes z mem t (ls 0) 8 g) (hi : i < n) (hc : ls i = constLabel) : 31 < n := by
  have hi0 : i ≠ 0 := by
    rintro rfl
    rw [hc] at hd
    exact not_denotes_const hd
  obtain ⟨hname, _⟩ := (denotes_raw hinv.ordered hd.label.1 hd.label.2 hcons.1).1 hd
  have hop := hcons.2 i hi (Nat.pos_of_ne_zero hi0)
  rw [hc, hinv.zero] at hop
  unfold Nameable at hname
  change 0 = _ at hop
  omega

/-- Loads with concrete and tainted bytes: the concrete ones are kept exactly when the leading
ones are zero, are not taken for input, and no recorded width wraps around. -/
theorem ByteLabels.partial_load (h : ByteLabels z mem t ls n f) (app : Nat → UInt8)
    (hz : z.Lawful) (hinv : TableInv t S) (hn : 2 ≤ n) (hconst : ∃ i < n, ls i = constLabel)
    (htaint : ∃ i < n, ls i ≠ constLabel) :
    taintUnionLoad t app ls n = .error .die ∧ maxLabel < t.lastLabel + n ∨
      ∃ l t', taintUnionLoad t app ls n = .ok (l, t') ∧
        (Denotes z mem t' l (8 * n) (loadedValue app ls f n) ↔
          (ls 0 = constLabel → ¬Consecutive t ls n) ∧ ConcatExact app ls n) := by
  obtain ⟨i, hi, hci⟩ := hconst
  have hn0 : n ≠ 0 := by omega
  have h0 : ls 0 ≤ t.lastLabel := h.label 0 (by omega)
  have hp : (t.key (ls 0)).l1 ≤ t.lastLabel := by
    by_cases hc : ls 0 = constLabel
    · rw [hc, hinv.zero]
      exact Nat.zero_le _
    · have := hinv.ordered.l1 (ls 0) (Nat.pos_of_ne_zero hc) h0
      omega
  rw [taintUnionLoad_eq hinv.ordered.bound hn0 h.label h.size hp htaint]
  by_cases hcons : Consecutive t ls n
  · rw [if_pos hcons]
    rcases h.consecutive_loses app hinv hn hi hci with hdie | ⟨l, t', hu, hnd⟩
    · exact .inl hdie
    · refine .inr ⟨l, t', hu, fun hd => (hnd hd).elim, ?_⟩
      rintro ⟨hne, hexact⟩
      have hc0 : ls 0 ≠ constLabel := fun hc => hne hc hcons
      have h31 := concatExact_of_head hc0 hexact
      have hlarge := consecutive_const_large hinv hcons (h.denotes 0 (by omega) hc0) hi hci
      omega
  · have hext : ¬Extracted t ls n := by
      intro he
      have hop := (he.1 i hi).1
      rw [hci, hinv.zero] at hop
      cases hop
    rw [if_neg hcons, if_neg hext]
    rcases h.concat_load app hz hinv hn0 htaint with hdie | ⟨l, t', hu, hd⟩
    · exact .inl hdie
    · exact .inr ⟨l, t', hu, hd.trans ⟨fun hx => ⟨fun _ => hcons, hx⟩, fun hx => hx.2⟩⟩

/-- A load of concrete and tainted bytes denotes the bytes in memory exactly under the condition
of the slow path; the fast path for input bytes must not take a leading concrete byte. -/
theorem partly_concrete_load {s : TableHistory} (app : Nat → UInt8) (hz : z.Lawful)
    (hr : Steps (TableStep z) .initial as s) (hn : 2 ≤ n)
    (hconst : ∃ i < n, ls i = constLabel) (htaint : ∃ i < n, ls i ≠ constLabel)
    (hl : ∀ i < n, ls i ≤ s.table.lastLabel)
    (hd : ∀ i < n, ls i ≠ constLabel →
      (s.table.key (ls i)).size = 8 ∧ Denotes z mem s.table (ls i) 8 (f i)) :
    taintUnionLoad s.table app ls n = .error .die ∧ maxLabel < s.table.lastLabel + n ∨
      ∃ l t, taintUnionLoad s.table app ls n = .ok (l, t) ∧
        (Denotes z mem t l (8 * n) (loadedValue app ls f n) ↔
          (ls 0 = constLabel → ¬Consecutive s.table ls n) ∧
          (∀ j < n, (∀ m ≤ j, ls m = constLabel) → app j = 0) ∧
          (n ≤ 31 ∨ n ≤ 63 ∧ ls 31 ≠ constLabel ∧ ∀ j < 31, ls j = constLabel)) := by
  have hinv : TableInv s.table s.Stored := (hr.table_inv TableHistory.initial_inv).1
  have hb : ByteLabels z mem s.table ls n f := by
    refine ⟨hl, ?_, fun i hi hc => (hd i hi hc).2⟩
    intro i hi
    by_cases hc : ls i = constLabel
    · rw [hc, hinv.zero]
    · exact (hd i hi hc).1
  exact hb.partial_load app hz hinv hn hconst htaint

end

/-- The byte 65 in front of the first input byte: it is read as a zero. -/
theorem partly_concrete_load_leading :
    ∃ s, Steps (TableStep .idle) .initial [.create 0] s ∧ s.table.key 1 = { size := 8 } ∧
      Denotes .idle (fun _ => 0) s.table 1 8 (inputByte 0) ∧
      ∃ l t, taintUnionLoad s.table (fun _ => 65) id 2 = .ok (l, t) ∧
        ¬Denotes .idle (fun _ => 0) t l (8 * 2)
          (loadedValue (fun _ => 65) id (fun _ => inputByte 0) 2) := by
  refine ⟨_, .single (.create rfl), rfl, ⟨_, _, _, rfl, rfl, fun _ => rfl⟩, _, _, rfl, ?_⟩
  rintro ⟨e, deps, t', hs, hbv⟩
  cases hs
  exact absurd (hbv.eval fun _ _ => 0) (by decide)

/-- The byte 65 behind the first input byte. -/
theorem partly_concrete_load_trailing :
    ∃ s l t, Steps (TableStep .idle) .initial [.create 0] s ∧
      taintUnionLoad s.table (fun _ => 65) (fun i => 1 - i) 2 = .ok (l, t) ∧
      Denotes .idle (fun _ => 0) t l (8 * 2)
        (loadedValue (fun _ => 65) (fun i => 1 - i) (fun _ => inputByte 0) 2) := by
  obtain ⟨s, h, hlast, hkey, hd⟩ : ∃ s, Steps (TableStep .idle) .initial [.create 0] s ∧
      s.table.lastLabel = 1 ∧ (s.table.key 1).size = 8 ∧
      Denotes .idle (fun _ => 0) s.table 1 8 (inputByte 0) :=
    ⟨_, .single (.create rfl), rfl, rfl, _, _, _, rfl, rfl, fun _ => rfl⟩
  have hl : ∀ i < 2, 1 - i ≤ s.table.lastLabel := by
    intro i hi
    omega
  have hbytes : ∀ i < 2, 1 - i ≠ constLabel → (s.table.key (1 - i)).size = 8 ∧
      Denotes .idle (fun _ => 0) s.table (1 - i) 8 (inputByte 0) := by
    intro i hi hne
    have hi1 : 1 - i = 1 := by
      unfold constLabel at hne
      omega
    rw [hi1]
    exact ⟨hkey, hd⟩
  rcases partly_concrete_load (fun _ => 65) Z3.idle_lawful h (by decide)
    ⟨1, by decide, rfl⟩ ⟨0, by decide, by decide⟩ hl hbytes with ⟨_, hfull⟩ | ⟨l, t, hu, hiff⟩
  · unfold maxLabel at hfull
    omega
  · refine ⟨s, l, t, h, hu, hiff.2 ⟨fun h0 => absurd h0 (by decide), ?_, .inl (by decide)⟩⟩
    intro j _ hall
    exact absurd (hall 0 (Nat.zero_le j)) (by decide)

end Kirenenko
