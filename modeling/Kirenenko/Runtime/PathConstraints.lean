import Kirenenko.Lib.Run
import Kirenenko.Runtime.SerializeCache
import Kirenenko.Runtime.SolveOutcome
import Kirenenko.Runtime.UnionSpec

namespace Kirenenko
set_option autoImplicit true

/-- A Boolean term with the same value under every interpretation. -/
structure Term.IsBool (e : Term) (b : Bool) : Prop where
  sort : e.sort = some .bool
  eval : ∀ env, e.eval env = b.toNat

/-- The constraint that a label has a given outcome is recorded under all its dependencies. -/
def RecordedAs (s : SolverState) (l : Nat) (b : Bool) : Prop :=
  ∃ e r, (s.table.info l).expr = some e ∧ r.IsBool b ∧
    ∀ off ∈ (s.table.info l).deps.getD ∅, ∃ d, s.dep off = some d ∧ Term.eq e r ∈ d.exprDeps

/-- Caches that are filled stay, and recorded constraints stay. -/
structure SolverGrows (s s' : SolverState) : Prop where
  lastLabel : s.table.lastLabel ≤ s'.table.lastLabel
  cached : ∀ l e, l ≤ s.table.lastLabel → (s.table.info l).expr = some e →
    (s'.table.info l).expr = some e ∧ (s'.table.info l).deps = (s.table.info l).deps
  dep : ∀ off d, s.dep off = some d → ∃ d', s'.dep off = some d' ∧ d.exprDeps ⊆ d'.exprDeps

theorem SolverGrows.refl (s : SolverState) : SolverGrows s s :=
  ⟨Nat.le_refl _, fun _ _ _ he => ⟨he, rfl⟩, fun _ d hd => ⟨d, hd, Finset.Subset.refl _⟩⟩

theorem SolverGrows.trans (h : SolverGrows s u) (h' : SolverGrows u v) : SolverGrows s v where
  lastLabel := Nat.le_trans h.lastLabel h'.lastLabel
  cached l e hl he := by
    obtain ⟨he₁, hd₁⟩ := h.cached l e hl he
    obtain ⟨he₂, hd₂⟩ := h'.cached l e (Nat.le_trans hl h.lastLabel) he₁
    exact ⟨he₂, hd₂.trans hd₁⟩
  dep off d hd := by
    obtain ⟨d₁, hd₁, hsub₁⟩ := h.dep off d hd
    obtain ⟨d₂, hd₂, hsub₂⟩ := h'.dep off d₁ hd₁
    exact ⟨d₂, hd₂, hsub₁.trans hsub₂⟩

theorem RecordedAs.grows (h : RecordedAs s l b) (hl : l ≤ s.table.lastLabel)
    (hg : SolverGrows s s') : RecordedAs s' l b := by
  obtain ⟨e, r, he, hr, hall⟩ := h
  obtain ⟨he', hd'⟩ := hg.cached l e hl he
  refine ⟨e, r, he', hr, ?_⟩
  intro off hoff
  rw [hd'] at hoff
  obtain ⟨d, hd, hmem⟩ := hall off hoff
  obtain ⟨d', hd', hsub⟩ := hg.dep off d hd
  exact ⟨d', hd', hsub hmem⟩

/-- A branch that `__solve_cond` handled without an exception. -/
structure CondHandled (label : Nat) (s s' : SolverState) : Prop where
  inv : ∃ S, TableInv s'.table S
  lastLabel : s'.table.lastLabel = s.table.lastLabel
  grows : SolverGrows s s'
  flipped : ∀ l, (s'.table.info l).flipped = true → (s.table.info l).flipped = true ∨ l = label

/-- What a handled branch does: nothing to a flagged label; otherwise it flags the label, and
records the constraint if it is told to. -/
theorem solveCond_handled {s : SolverState} (hinv : TableInv s.table S)
    (hres : result.IsBool b)
    (h : solveCond z mem host input label result addNested s = .ok none s') :
    CondHandled label s s' ∧
      ((s.table.info label).flipped = true ∧ s' = s ∨
        (s.table.info label).flipped = false ∧ (addNested = true → RecordedAs s' label b)) := by
  obtain ⟨hl, hout⟩ := solveCond_outcome h
  cases hout with
  | skipped hf => exact ⟨⟨⟨S, hinv⟩, rfl, .refl _, fun _ h => .inl h⟩, .inl ⟨hf, rfl⟩⟩
  | @solved _ q deps t hf hs =>
    have hframe : SerializeFrame s.table t :=
      (keeps_serialize hinv.ordered hl (Nat.lt_succ_self label) s.table (.refl _)).1 _ t
        hs.serialized
    have hlast : s'.table.lastLabel = s.table.lastLabel := by
      rw [hs.table]
      exact hframe.same.lastLabel
    have hinfo := fun l => flip_info t label l
    rw [← hs.table] at hinfo
    have hgrows : SolverGrows s s' := by
      refine ⟨Nat.le_of_eq hlast.symm, ?_, ?_⟩
      · intro l e _ he
        rw [(hinfo l).1, (hinfo l).2.1]
        exact hframe.cached l e he
      · intro off d hd
        rw [hs.dep]
        cases addNested with
        | true =>
          obtain ⟨d', hd', hsub, _⟩ := recorded_mono hd
          exact ⟨d', hd', hsub⟩
        | false => exact ⟨d, hd, Finset.Subset.refl _⟩
    refine ⟨⟨⟨S, ?_⟩, hlast, hgrows, ?_⟩, .inr ⟨hf, ?_⟩⟩
    · rw [hs.table]
      exact hinv.sameKeys (hframe.same.trans (.modifyInfo t label fun _ => rfl))
    · intro l hl'
      rw [← hframe.flipped l]
      exact (hinfo l).2.2 hl'
    · intro hadd
      obtain ⟨σ, hσ⟩ := hs.queried.sorted
      obtain ⟨_, σ', hc, hr⟩ := Term.sort_inversion hσ
      have hbool : q.cond.sort = some .bool := by
        rw [hres.sort] at hr
        cases hr
        exact hc
      obtain ⟨he, hd⟩ := serialize_caches hs.serialized hbool
      refine ⟨q.cond, result, ?_, hres, ?_⟩
      · rw [(hinfo label).1]
        exact he
      · intro off hoff
        rw [(hinfo label).2.1, hd] at hoff
        have hmem : off ∈ elements q.inputs := mem_elements.2 (hs.queried.inputs hoff)
        refine ⟨addDep (.eq q.cond result) q.inputs (s.dep off), ?_, Finset.mem_insert_self _ _⟩
        rw [hs.dep, hadd]
        exact if_pos hmem

end Kirenenko
