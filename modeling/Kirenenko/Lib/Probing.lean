import Mathlib.Data.Nat.ModEq
import Mathlib.Data.ZMod.Basic
import Mathlib.GroupTheory.OrderOfElement
import Mathlib.Tactic.Ring

namespace Kirenenko
set_option autoImplicit true

section
variable {α : Type} [DecidableEq α]

/-- Moves on from a used value until one is free; `fuel` bounds the moves. -/
def probe (next : α → α) (used : Finset α) : Nat → α → Option α
  | 0, _ => none
  | fuel + 1, a => if a ∈ used then probe next used fuel (next a) else some a

theorem probe_eq_some (next : α → α) (used : Finset α) {n : Nat} {a : α}
    (hused : ∀ i < n, next^[i] a ∈ used) (hfree : next^[n] a ∉ used) (hfuel : n < fuel) :
    probe next used fuel a = some (next^[n] a) := by
  induction n generalizing a fuel with
  | zero =>
    obtain ⟨fuel, rfl⟩ : ∃ k, fuel = k + 1 := ⟨fuel - 1, by omega⟩
    exact if_neg hfree
  | succ n ih =>
    obtain ⟨fuel, rfl⟩ : ∃ k, fuel = k + 1 := ⟨fuel - 1, by omega⟩
    have hfirst : a ∈ used := hused 0 (Nat.succ_pos n)
    rw [probe, if_pos hfirst, Function.iterate_succ_apply]
    apply ih
    · intro i hi
      exact hused (i + 1) (by omega)
    · exact hfree
    · omega

/-- A sequence without repetition leaves the used values, by the time it is longer than them. -/
theorem exists_free {next : α → α} {a : α} (used : Finset α)
    (hinj : ∀ i j, i < j → j ≤ used.card → next^[i] a ≠ next^[j] a) :
    ∃ n ≤ used.card, next^[n] a ∉ used ∧ ∀ i < n, next^[i] a ∈ used := by
  have hex : ∃ n, n ≤ used.card ∧ next^[n] a ∉ used := by
    by_contra hall
    have hmem : ∀ i ∈ Finset.range (used.card + 1), next^[i] a ∈ used := by
      intro i hi
      by_contra hfree
      exact hall ⟨i, Nat.lt_succ_iff.1 (Finset.mem_range.1 hi), hfree⟩
    have hinjOn : Set.InjOn (fun i => next^[i] a) (Finset.range (used.card + 1)) := by
      intro i hi j hj heq
      have hi := Nat.lt_succ_iff.1 (Finset.mem_range.1 hi)
      have hj := Nat.lt_succ_iff.1 (Finset.mem_range.1 hj)
      rcases Nat.lt_trichotomy i j with hlt | rfl | hlt
      · exact (hinj i j hlt hj heq).elim
      · rfl
      · exact (hinj j i hlt hi heq.symm).elim
    have hcard := Finset.card_le_card_of_injOn _ hmem hinjOn
    rw [Finset.card_range] at hcard
    omega
  refine ⟨Nat.find hex, (Nat.find_spec hex).1, (Nat.find_spec hex).2, ?_⟩
  intro i hi
  by_contra hfree
  exact Nat.find_min hex hi ⟨Nat.le_trans hi.le (Nat.find_spec hex).1, hfree⟩

end

/-- The values `3x + 1` in `w` bits. -/
def tripled (w x : Nat) : Nat := (3 * x + 1) % 2 ^ w

theorem tripled_iterate (w n x : Nat) :
    2 * (tripled w)^[n] x + 1 ≡ 3 ^ n * (2 * x + 1) [MOD 2 ^ (w + 1)] := by
  induction n with
  | zero =>
    rw [Nat.pow_zero, Nat.one_mul]
    rfl
  | succ n ih =>
    rw [Function.iterate_succ_apply']
    have hstep : 2 * tripled w ((tripled w)^[n] x) + 1 ≡ 3 * (2 * (tripled w)^[n] x + 1)
        [MOD 2 ^ (w + 1)] := by
      have hmod : 2 * tripled w ((tripled w)^[n] x) =
          2 * (3 * (tripled w)^[n] x + 1) % 2 ^ (w + 1) := by
        rw [tripled, Nat.pow_succ, Nat.mul_comm (2 ^ w), Nat.mul_mod_mul_left]
      rw [hmod]
      have hsum : 3 * (2 * (tripled w)^[n] x + 1) = 2 * (3 * (tripled w)^[n] x + 1) + 1 := by ring
      rw [hsum]
      exact (Nat.mod_modEq _ _).add_right 1
    calc 2 * tripled w ((tripled w)^[n] x) + 1
        ≡ 3 * (2 * (tripled w)^[n] x + 1) [MOD 2 ^ (w + 1)] := hstep
      _ ≡ 3 * (3 ^ n * (2 * x + 1)) [MOD 2 ^ (w + 1)] := ih.mul_left 3
      _ = 3 ^ (n + 1) * (2 * x + 1) := by ring

theorem three_pow_two_pow (k : Nat) : ∃ m, 3 ^ 2 ^ (k + 1) = 1 + 2 ^ (k + 3) * (2 * m + 1) := by
  induction k with
  | zero => exact ⟨0, rfl⟩
  | succ k ih =>
    obtain ⟨m, hm⟩ := ih
    refine ⟨m + 2 ^ (k + 1) * (2 * m + 1) ^ 2, ?_⟩
    rw [Nat.pow_succ 2 (k + 1), Nat.pow_mul, hm]
    ring

theorem orderOf_three (k : Nat) : orderOf (3 : ZMod (2 ^ (k + 4))) = 2 ^ (k + 2) := by
  have hpow : ∀ j, (3 : ZMod (2 ^ (k + 4))) ^ 2 ^ j = 1 ↔ 3 ^ 2 ^ j ≡ 1 [MOD 2 ^ (k + 4)] := by
    intro j
    rw [← ZMod.natCast_eq_natCast_iff, Nat.cast_pow, Nat.cast_ofNat, Nat.cast_one]
  apply orderOf_eq_prime_pow
  · rw [hpow]
    obtain ⟨m, hm⟩ := three_pow_two_pow k
    intro hone
    rw [hm, Nat.add_modEq_left_iff, Nat.pow_succ 2 (k + 3)] at hone
    have hodd := Nat.dvd_of_mul_dvd_mul_left (Nat.two_pow_pos _) hone
    omega
  · rw [hpow]
    obtain ⟨m, hm⟩ := three_pow_two_pow (k + 1)
    rw [hm, Nat.add_modEq_left_iff]
    exact Nat.dvd_mul_right _ _

/-- The sequence runs through `2 ^ (w - 1)` values before it repeats one. -/
theorem tripled_injective {w i j x : Nat} (hw : 3 ≤ w) (hij : i < j) (hj : j < 2 ^ (w - 1)) :
    (tripled w)^[i] x ≠ (tripled w)^[j] x := by
  obtain ⟨k, rfl⟩ : ∃ k, w = k + 3 := ⟨w - 3, by omega⟩
  obtain ⟨d, rfl⟩ : ∃ d, j = i + d := ⟨j - i, by omega⟩
  intro heq
  have hi := tripled_iterate (k + 3) i x
  have hj' := tripled_iterate (k + 3) (i + d) x
  rw [← heq] at hj'
  have hsame : 3 ^ i * (2 * x + 1) * 1 ≡ 3 ^ i * (2 * x + 1) * 3 ^ d [MOD 2 ^ (k + 4)] := by
    calc 3 ^ i * (2 * x + 1) * 1 = 3 ^ i * (2 * x + 1) := Nat.mul_one _
      _ ≡ 3 ^ (i + d) * (2 * x + 1) [MOD 2 ^ (k + 4)] := hi.symm.trans hj'
      _ = 3 ^ i * (2 * x + 1) * 3 ^ d := by ring
  have hcop : (2 ^ (k + 4)).gcd (3 ^ i * (2 * x + 1)) = 1 := by
    apply Nat.Coprime.pow_left
    apply Nat.Coprime.mul_right
    · exact Nat.Coprime.pow_right i (by decide)
    · rw [Nat.coprime_two_left]
      exact ⟨x, rfl⟩
  have hone := Nat.ModEq.cancel_left_of_coprime hcop hsame
  have hpow : (3 : ZMod (2 ^ (k + 4))) ^ d = 1 := by
    have hcast := (ZMod.natCast_eq_natCast_iff _ _ _).2 hone.symm
    rwa [Nat.cast_pow, Nat.cast_ofNat, Nat.cast_one] at hcast
  have hdvd := orderOf_dvd_of_pow_eq_one hpow
  rw [orderOf_three] at hdvd
  have hle := Nat.le_of_dvd (by omega) hdvd
  have hexp : k + 3 - 1 = k + 2 := rfl
  rw [hexp] at hj
  omega

end Kirenenko
