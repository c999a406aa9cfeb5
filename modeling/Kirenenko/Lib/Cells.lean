import Mathlib.Logic.Function.Basic

namespace Kirenenko
set_option autoImplicit true

section
variable {α : Type}

/-- The cells after `n` of them from an address on have been set, all at once. -/
def written (dest : Nat) (v : Nat → α) (n : Nat) (c : Nat → α) (a : Nat) : α :=
  if dest ≤ a ∧ a < dest + n then v (a - dest) else c a

/-- A loop that sets the cells one after another, from index `i` on with `k` to go. -/
def writeLoop (dest : Nat) (v : Nat → α) : Nat → Nat → (Nat → α) → Nat → α
  | _, 0, c => c
  | i, k + 1, c => writeLoop dest v (i + 1) k (Function.update c (dest + i) (v i))

/-- A loop that copies cells in ascending order. -/
def copyUp (dest src : Nat) : Nat → Nat → (Nat → α) → Nat → α
  | _, 0, c => c
  | i, k + 1, c => copyUp dest src (i + 1) k (Function.update c (dest + i) (c (src + i)))

/-- A loop that copies cells in descending order, down to the first one. -/
def copyDown (dest src : Nat) : Nat → (Nat → α) → Nat → α
  | 0, c => c
  | k + 1, c => copyDown dest src k (Function.update c (dest + k) (c (src + k)))

/-- Two ranges of cells without a common one. -/
def Apart (a m b n : Nat) : Prop := ∀ i < m, ∀ j < n, a + i ≠ b + j

theorem update_forall₂ {ι β : Type} [DecidableEq ι] {P : ι → α → β → Prop} {f : ι → α} {g : ι → β}
    {i : ι} {a : α} {b : β} (h : ∀ j, P j (f j) (g j)) (hi : P i a b) (j : ι) :
    P j (Function.update f i a j) (Function.update g i b j) := by
  by_cases hj : j = i
  · subst hj
    rw [Function.update_self, Function.update_self]
    exact hi
  · rw [Function.update_of_ne hj, Function.update_of_ne hj]
    exact h j

theorem update_forall₃ {ι β γ : Type} [DecidableEq ι] {P : ι → α → β → γ → Prop} {f : ι → α}
    {g : ι → β} {k : ι → γ} {i : ι} {a : α} {b : β} {c : γ} (h : ∀ j, P j (f j) (g j) (k j))
    (hi : P i a b c) (j : ι) :
    P j (Function.update f i a j) (Function.update g i b j) (Function.update k i c j) := by
  by_cases hj : j = i
  · subst hj
    rw [Function.update_self, Function.update_self, Function.update_self]
    exact hi
  · rw [Function.update_of_ne hj, Function.update_of_ne hj, Function.update_of_ne hj]
    exact h j

variable {dest src n : Nat} {c : Nat → α}

theorem written_inside (v : Nat → α) (c : Nat → α) (h : i < n) :
    written dest v n c (dest + i) = v i := by
  have hin : dest ≤ dest + i ∧ dest + i < dest + n := by omega
  rw [written, if_pos hin, Nat.add_sub_cancel_left]

theorem written_outside (v : Nat → α) (c : Nat → α) (h : ∀ i < n, a ≠ dest + i) :
    written dest v n c a = c a := by
  apply if_neg
  rintro ⟨hle, hlt⟩
  exact h (a - dest) (by omega) (by omega)

theorem written_zero (v : Nat → α) : written dest v 0 c = c := by
  funext a
  apply if_neg
  omega

theorem written_snoc (v : Nat → α) : written dest v (n + 1) c =
    Function.update (written dest v n c) (dest + n) (v n) := by
  funext a
  by_cases ha : a = dest + n
  · subst ha
    rw [Function.update_self, written_inside v c (Nat.lt_succ_self n)]
  · rw [Function.update_of_ne ha]
    unfold written
    have : (dest ≤ a ∧ a < dest + (n + 1)) ↔ (dest ≤ a ∧ a < dest + n) := by omega
    simp only [this]

theorem written_congr {v w : Nat → α} (h : ∀ i < n, v i = w i) :
    written dest v n c = written dest w n c := by
  funext a
  unfold written
  by_cases ha : dest ≤ a ∧ a < dest + n
  · rw [if_pos ha, if_pos ha]
    exact h _ (by omega)
  · rw [if_neg ha, if_neg ha]

theorem writeLoop_from (v : Nat → α) (h : i + k = n) :
    writeLoop dest v i k (written dest v i c) = written dest v n c := by
  induction k generalizing i with
  | zero =>
    subst h
    rfl
  | succ k ih => rw [writeLoop, ← written_snoc, ih (by omega)]

theorem writeLoop_eq (v : Nat → α) : writeLoop dest v 0 n c = written dest v n c := by
  have hall : writeLoop dest v 0 n (written dest v 0 c) = _ := writeLoop_from v (Nat.zero_add n)
  rw [written_zero] at hall
  exact hall

/-- The cells that an ascending loop has yet to copy must not have been set by it. -/
theorem copyUp_from (h : ∀ j k, j < k → k < n → dest + j ≠ src + k) (hi : i + m = n) :
    copyUp dest src i m (written dest (fun i => c (src + i)) i c) =
      written dest (fun i => c (src + i)) n c := by
  induction m generalizing i with
  | zero =>
    subst hi
    rfl
  | succ m ih =>
    have hread : written dest (fun i => c (src + i)) i c (src + i) = c (src + i) :=
      written_outside _ _ fun j hj => (h j i hj (by omega)).symm
    rw [copyUp, hread, ← written_snoc, ih (by omega)]

theorem copyUp_eq (h : ∀ j k, j < k → k < n → dest + j ≠ src + k) :
    copyUp dest src 0 n c = written dest (fun i => c (src + i)) n c := by
  have hall := copyUp_from (c := c) h (Nat.zero_add n)
  rw [written_zero] at hall
  exact hall

theorem Apart.copyUp_eq (h : Apart dest n src n) :
    copyUp dest src 0 n c = written dest (fun i => c (src + i)) n c :=
  Kirenenko.copyUp_eq fun j k hj hk => h j (Nat.lt_trans hj hk) k hk

end

end Kirenenko
