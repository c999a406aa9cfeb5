import Mathlib.Data.Nat.Digits.Defs
import Mathlib.Tactic.Ring

namespace Kirenenko
set_option autoImplicit true

/-- The number whose `n` digits of `w` bits are given, the lowest one first. -/
def littleEndian (w : Nat) (b : Nat → Nat) (n : Nat) : Nat :=
  Nat.ofDigits (2 ^ w) ((List.range n).map b)

section
variable {w n i x : Nat} {b c : Nat → Nat}

@[simp] theorem littleEndian_zero : littleEndian w b 0 = 0 := rfl

theorem littleEndian_succ :
    littleEndian w b (n + 1) = b n * 2 ^ (w * n) + littleEndian w b n := by
  rw [littleEndian, List.range_succ, List.map_append, Nat.ofDigits_append, List.map_singleton,
    Nat.ofDigits_singleton, List.length_map, List.length_range, ← Nat.pow_mul]
  rw [Nat.add_comm, Nat.mul_comm (b n)]
  rfl

theorem littleEndian_one : littleEndian w b 1 = b 0 := by
  rw [littleEndian_succ, littleEndian_zero, Nat.mul_zero, Nat.pow_zero, Nat.mul_one, Nat.add_zero]

theorem littleEndian_congr (h : ∀ i < n, b i = c i) : littleEndian w b n = littleEndian w c n := by
  unfold littleEndian
  congr 1
  exact List.map_congr_left fun i hi => h i (List.mem_range.1 hi)

theorem littleEndian_eq_zero : littleEndian w b n = 0 ↔ ∀ i < n, b i = 0 := by
  induction n with
  | zero => exact ⟨fun _ i hi => by omega, fun _ => rfl⟩
  | succ n ih =>
    have hp := (Nat.two_pow_pos (w * n)).ne'
    simp only [littleEndian_succ, Nat.add_eq_zero_iff, Nat.mul_eq_zero, hp, or_false, ih,
      Nat.forall_lt_succ_right, and_comm]

theorem littleEndian_lt (h : ∀ i < n, b i < 2 ^ w) : littleEndian w b n < 2 ^ (w * n) := by
  induction n with
  | zero => exact Nat.two_pow_pos _
  | succ n ih =>
    have hlow := ih fun i hi => h i (Nat.lt_succ_of_lt hi)
    have hle := Nat.mul_le_mul_right (2 ^ (w * n)) (h n (Nat.lt_succ_self n))
    rw [littleEndian_succ, Nat.mul_succ, Nat.add_comm (w * n) w, Nat.pow_add]
    rw [Nat.succ_mul] at hle
    omega

theorem littleEndian_digit (h : ∀ i < n, b i < 2 ^ w) (hi : i < n) :
    littleEndian w b n / 2 ^ (w * i) % 2 ^ w = b i := by
  induction n with
  | zero => omega
  | succ n ih =>
    have hb : ∀ i < n, b i < 2 ^ w := fun i hi => h i (Nat.lt_succ_of_lt hi)
    rw [littleEndian_succ]
    rcases Nat.lt_succ_iff_lt_or_eq.1 hi with hlt | rfl
    · obtain ⟨d, rfl⟩ := Nat.exists_eq_add_of_lt hlt
      have hp : b (i + d + 1) * 2 ^ (w * (i + d + 1)) =
          2 ^ (w * i) * (2 ^ w * (b (i + d + 1) * 2 ^ (w * d))) := by
        rw [Nat.mul_succ, Nat.mul_add, Nat.pow_add, Nat.pow_add]
        ac_rfl
      rw [hp, Nat.add_comm, Nat.add_mul_div_left _ _ (Nat.two_pow_pos _), Nat.add_mul_mod_self_left]
      exact ih hb hlt
    · rw [Nat.add_comm, Nat.add_mul_div_right _ _ (Nat.two_pow_pos _),
        Nat.div_eq_of_lt (littleEndian_lt hb), Nat.zero_add]
      exact Nat.mod_eq_of_lt (h i hi)

theorem littleEndian_inj (hb : ∀ i < n, b i < 2 ^ w) (hc : ∀ i < n, c i < 2 ^ w) :
    littleEndian w b n = littleEndian w c n ↔ ∀ i < n, b i = c i := by
  refine ⟨?_, littleEndian_congr⟩
  intro h i hi
  rw [← littleEndian_digit hb hi, h, littleEndian_digit hc hi]

theorem littleEndian_add : littleEndian w b (n + i) =
    littleEndian w (fun j => b (n + j)) i * 2 ^ (w * n) + littleEndian w b n := by
  induction i with
  | zero => rw [littleEndian_zero, Nat.zero_mul, Nat.zero_add, Nat.add_zero]
  | succ i ih =>
    rw [← Nat.add_assoc, littleEndian_succ, ih, littleEndian_succ, Nat.mul_add, Nat.pow_add]
    ring

theorem littleEndian_digits :
    littleEndian w (fun i => x / 2 ^ (w * i) % 2 ^ w) n = x % 2 ^ (w * n) := by
  induction n with
  | zero => rw [littleEndian_zero, Nat.mul_zero, Nat.pow_zero, Nat.mod_one]
  | succ n ih =>
    rw [littleEndian_succ, ih, Nat.mul_succ, Nat.pow_add, Nat.mod_mul, Nat.add_comm]
    rw [Nat.mul_comm (2 ^ (w * n))]

end

end Kirenenko
