import Kirenenko.Smt.Term

namespace Kirenenko
set_option autoImplicit true

/-- What the sort of a term says about its arguments. -/
def Term.SortOf : Term → SmtSort → Prop
  | .const _ w, σ => σ = .bv w ∧ w ≠ 0
  | .bvVal _ w, σ => σ = .bv w ∧ w ≠ 0
  | .boolVal _, σ => σ = .bool
  | .not a, σ => σ = .bool ∧ a.sort = some .bool
  | .neg a, σ => ∃ w, σ = .bv w ∧ a.sort = some (.bv w)
  | .bin _ a b, σ => ∃ w, σ = .bv w ∧ a.sort = some (.bv w) ∧ b.sort = some (.bv w)
  | .logic _ a b, σ => σ = .bool ∧ a.sort = some .bool ∧ b.sort = some .bool
  | .eq a b, σ => σ = .bool ∧ ∃ s, a.sort = some s ∧ b.sort = some s
  | .distinct a b, σ => σ = .bool ∧ ∃ s, a.sort = some s ∧ b.sort = some s
  | .rel _ a b, σ => σ = .bool ∧ ∃ w, a.sort = some (.bv w) ∧ b.sort = some (.bv w)
  | .concat a b, σ => ∃ v w, σ = .bv (v + w) ∧ a.sort = some (.bv v) ∧ b.sort = some (.bv w)
  | .extract hi lo a, σ =>
    σ = .bv (hi - lo + 1) ∧ ∃ w, a.sort = some (.bv w) ∧ lo ≤ hi ∧ hi < w
  | .zext k a, σ => ∃ w, σ = .bv (w + k) ∧ a.sort = some (.bv w)
  | .sext k a, σ => ∃ w, σ = .bv (w + k) ∧ a.sort = some (.bv w)
  | .ite c a b, σ => c.sort = some .bool ∧ a.sort = some σ ∧ b.sort = some σ

theorem Term.sort_inversion {t : Term} (h : t.sort = some σ) : t.SortOf σ := by
  cases t with
  | const s w | bvVal v w =>
    simp only [Term.sort] at h
    split at h
    · cases h
    · cases h
      exact ⟨rfl, ‹_›⟩
  | boolVal b =>
    cases h
    rfl
  | not a =>
    simp only [Term.sort] at h
    split at h
    · cases h
      exact ⟨rfl, ‹_›⟩
    · cases h
  | neg a | zext k a | sext k a =>
    simp only [Term.sort] at h
    split at h
    · cases h
      exact ⟨_, rfl, ‹_›⟩
    · cases h
  | bin op a b =>
    simp only [Term.sort] at h
    split at h
    · split at h
      · cases h
        subst_vars
        exact ⟨_, rfl, ‹_›, ‹_›⟩
      · cases h
    · cases h
  | logic op a b =>
    simp only [Term.sort] at h
    split at h
    · cases h
      exact ⟨rfl, ‹_›, ‹_›⟩
    · cases h
  | eq a b | distinct a b | rel r a b =>
    simp only [Term.sort] at h
    split at h
    · split at h
      · cases h
        subst_vars
        exact ⟨rfl, _, ‹_›, ‹_›⟩
      · cases h
    · cases h
  | concat a b =>
    simp only [Term.sort] at h
    split at h
    · cases h
      exact ⟨_, _, rfl, ‹_›, ‹_›⟩
    · cases h
  | extract hi lo a =>
    simp only [Term.sort] at h
    split at h
    · split at h
      · cases h
        exact ⟨rfl, _, ‹_›, ‹_›⟩
      · cases h
    · cases h
  | ite c a b =>
    simp only [Term.sort] at h
    split at h
    · split at h
      · cases h
        subst_vars
        exact ⟨‹_›, ‹_›, ‹_›⟩
      · cases h
    · cases h

theorem Term.sort_bvVal_of_ne (v : Nat) (h : w ≠ 0) : (Term.bvVal v w).sort = some (.bv w) := by
  simp only [Term.sort, if_neg h]

/-- The number of values of a sort. -/
def SmtSort.size : SmtSort → Nat
  | .bool => 2
  | .bv w => 2 ^ w

theorem concat_lt {x y v w : Nat} (hx : x < 2 ^ v) (hy : y < 2 ^ w) :
    x * 2 ^ w + y < 2 ^ (v + w) := by
  have hle : (x + 1) * 2 ^ w ≤ 2 ^ v * 2 ^ w := Nat.mul_le_mul_right _ hx
  rw [Nat.pow_add]
  have hd : (x + 1) * 2 ^ w = x * 2 ^ w + 2 ^ w := by rw [Nat.add_mul, Nat.one_mul]
  omega

theorem Term.eval_lt {t : Term} (h : t.sort = some σ) (env : Env) : t.eval env < σ.size := by
  induction t generalizing σ with
  | const s w =>
    obtain ⟨rfl, _⟩ := Term.sort_inversion h
    exact Nat.mod_lt _ (Nat.two_pow_pos w)
  | bvVal v w =>
    obtain ⟨rfl, _⟩ := Term.sort_inversion h
    exact Nat.mod_lt _ (Nat.two_pow_pos w)
  | boolVal b =>
    cases h
    exact bool_toNat_lt b
  | not a ih =>
    obtain ⟨rfl, ha⟩ := Term.sort_inversion h
    have hlt : a.eval env < 2 := ih ha
    change 1 - a.eval env < 2
    omega
  | neg a ih =>
    obtain ⟨w, rfl, ha⟩ := Term.sort_inversion h
    simp only [Term.eval, Term.width_eq ha]
    exact BitVec.isLt _
  | bin op a b iha ihb =>
    obtain ⟨w, rfl, ha, hb⟩ := Term.sort_inversion h
    simp only [Term.eval, Term.width_eq ha]
    exact BvOp.eval_lt _ _ _ _
  | logic op a b iha ihb =>
    obtain ⟨rfl, _, _⟩ := Term.sort_inversion h
    exact bool_toNat_lt _
  | eq a b iha ihb =>
    obtain ⟨rfl, _⟩ := Term.sort_inversion h
    exact bool_toNat_lt _
  | distinct a b iha ihb =>
    obtain ⟨rfl, _⟩ := Term.sort_inversion h
    exact bool_toNat_lt _
  | rel r a b iha ihb =>
    obtain ⟨rfl, _⟩ := Term.sort_inversion h
    exact bool_toNat_lt _
  | concat a b iha ihb =>
    obtain ⟨v, w, rfl, ha, hb⟩ := Term.sort_inversion h
    simp only [Term.eval, Term.width_eq hb]
    exact concat_lt (iha ha) (ihb hb)
  | extract hi lo a ih =>
    obtain ⟨rfl, _⟩ := Term.sort_inversion h
    exact Nat.mod_lt _ (Nat.two_pow_pos _)
  | zext k a ih =>
    obtain ⟨w, rfl, ha⟩ := Term.sort_inversion h
    exact Nat.lt_of_lt_of_le (ih ha) (Nat.pow_le_pow_right (by decide) (Nat.le_add_right w k))
  | sext k a ih =>
    obtain ⟨w, rfl, ha⟩ := Term.sort_inversion h
    simp only [Term.eval, Term.width_eq ha]
    exact BitVec.isLt _
  | ite c a b ihc iha ihb =>
    obtain ⟨_, ha, hb⟩ := Term.sort_inversion h
    simp only [Term.eval]
    split
    · exact iha ha
    · exact ihb hb

theorem Term.eval_lt_pow {t : Term} (h : t.sort = some (.bv w)) (env : Env) :
    t.eval env < 2 ^ w :=
  Term.eval_lt h env

/-- Exceptions of the solver's interface: raised inside it, or by its client with a text. -/
inductive Z3Exception where
  | api
  | msg (text : String)
deriving DecidableEq

/-- The constructors of the interface throw on ill-sorted terms. -/
def checked (t : Term) : Except Z3Exception Term :=
  if t.sort.isSome then .ok t else .error .api

theorem checked_eq_ok : checked t = .ok e ↔ e = t ∧ ∃ σ, t.sort = some σ := by
  unfold checked
  cases h : t.sort with
  | none => simp
  | some σ => simp [eq_comm]

/-- Integer symbols exist for the numbers below 2^30 only. -/
def intSymbol (n : Nat) : Except Z3Exception Symbol :=
  if n < 2 ^ 30 then .ok (.int n) else .error .api

/-- What a satisfiability check answers; a model lists its constants with their values. -/
inductive CheckResult where
  | sat (m : List ((Symbol × Nat) × Nat))
  | unsat
  | unknown
deriving DecidableEq

/-- The parts of the solver whose answers are not determined by the terms alone. -/
structure Z3 where
  simplify : Term → Term
  check : Nat → Finset Term → CheckResult

/-- An interpretation that gives every constant of the model the value it has there. -/
def Completes (env : Env) (m : List ((Symbol × Nat) × Nat)) : Prop :=
  ∀ c v, m.lookup c = some v → env c.1 c.2 % 2 ^ c.2 = v % 2 ^ c.2

structure Z3.Lawful (z : Z3) : Prop where
  simplify_sort : ∀ t σ, t.sort = some σ → (z.simplify t).sort = some σ
  simplify_eval : ∀ t σ env, t.sort = some σ → (z.simplify t).eval env = t.eval env
  check_sound : ∀ k fs m env, z.check k fs = .sat m → Completes env m →
    ∀ f ∈ fs, f.eval env = 1
  check_consts : ∀ k fs m c v, z.check k fs = .sat m → m.lookup c = some v →
    ∃ f ∈ fs, c ∈ f.consts

/-- A solver that simplifies nothing and gives up on every query. -/
def Z3.idle : Z3 := ⟨id, fun _ _ => .unknown⟩

theorem Z3.idle_lawful : Z3.idle.Lawful where
  simplify_sort _ _ h := h
  simplify_eval _ _ _ _ := rfl
  check_sound _ _ _ _ h := by cases h
  check_consts _ _ _ _ _ h := by cases h

/-- A solver that answers with one given model whenever that satisfies the query. -/
def Z3.guess (m : List ((Symbol × Nat) × Nat)) : Z3 where
  simplify := id
  check _ fs :=
    if (∀ f ∈ fs, f.eval (fun s w => (m.lookup (s, w)).getD 0) = 1 ∧
        ∀ c ∈ f.consts, (m.lookup c).isSome) ∧
      ∀ c ∈ m, ∃ f ∈ fs, c.1 ∈ f.consts
    then .sat m else .unknown

theorem Z3.guess_sat (h : (Z3.guess m).check k fs = .sat m') : m' = m ∧
    (∀ f ∈ fs, f.eval (fun s w => (m.lookup (s, w)).getD 0) = 1 ∧
      ∀ c ∈ f.consts, (m.lookup c).isSome) ∧ ∀ c ∈ m, ∃ f ∈ fs, c.1 ∈ f.consts := by
  simp only [Z3.guess] at h
  split at h
  · cases h
    exact ⟨rfl, ‹_›⟩
  · cases h

theorem Z3.guess_lawful (m : List ((Symbol × Nat) × Nat)) : (Z3.guess m).Lawful where
  simplify_sort _ _ h := h
  simplify_eval _ _ _ _ := rfl
  check_sound k fs m' env h henv f hf := by
    obtain ⟨rfl, hfs, _⟩ := Z3.guess_sat h
    obtain ⟨hv, hc⟩ := hfs f hf
    rw [← hv]
    apply Term.eval_congr
    intro c hmem
    obtain ⟨v, hl⟩ := Option.isSome_iff_exists.1 (hc c hmem)
    rw [henv c v hl, hl]
    rfl
  check_consts k fs m' c v h hl := by
    obtain ⟨rfl, _, hm⟩ := Z3.guess_sat h
    obtain ⟨l₁, l₂, hm', _⟩ := List.lookup_eq_some_iff.1 hl
    refine hm (c, v) ?_
    rw [hm']
    exact List.mem_append_right _ List.mem_cons_self

end Kirenenko
