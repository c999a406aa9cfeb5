import Kirenenko.Lib.LittleEndian
import Kirenenko.Runtime.NodeTerm
import Kirenenko.Runtime.UnionSpec

namespace Kirenenko
set_option autoImplicit true

/-- A term is a bit-vector of width `w` whose value on every input is `f`. -/
structure Term.IsBv (e : Term) (w : Nat) (f : Env → Nat) : Prop where
  sort : e.sort = some (.bv w)
  eval : ∀ env, e.eval env = f env

/-- The same records with empty caches. -/
def LabelTable.uncached (t : LabelTable) : LabelTable :=
  { t with info := fun l => { t.info l with expr := none, deps := none } }

/-- The meaning of a label is the term `serialize` gives it, here a bit-vector. -/
def Denotes (z : Z3) (mem : Memory) (t : LabelTable) (l w : Nat) (f : Env → Nat) : Prop :=
  ∃ e deps t', serialize z mem (l + 1) l ∅ t.uncached = .ok (e, deps) t' ∧ e.IsBv w f

section
variable {z : Z3} {mem : Memory} {t t' : LabelTable} {l w v : Nat} {f g : Env → Nat} {e : Term}

theorem Term.IsBv.unique (h : e.IsBv w f) (h' : e.IsBv v g) : w = v ∧ f = g := by
  have hs := h.sort.symm.trans h'.sort
  cases hs
  refine ⟨rfl, ?_⟩
  funext env
  exact (h.eval env).symm.trans (h'.eval env)

theorem Term.IsBv.lt (h : e.IsBv w f) (env : Env) : f env < 2 ^ w := by
  rw [← h.eval]
  exact Term.eval_lt_pow h.sort env

theorem Term.IsBv.of_sort (h : e.sort = some (.bv w)) : e.IsBv w fun env => e.eval env :=
  ⟨h, fun _ => rfl⟩

theorem uncached_sameKeys (t : LabelTable) : SameKeys t t.uncached := ⟨rfl, rfl, rfl⟩

theorem uncached_coherent (z : Z3) (mem : Memory) (t : LabelTable) :
    Coherent z mem t t.uncached where
  same := uncached_sameKeys t
  cached l e he := by cases he

/-- From coherent caches `serialize` gives the term of the label. -/
theorem Coherent.serialize (h : Coherent z mem t t') (ho : Ordered t) (hl : l ≤ t.lastLabel) :
    (∃ deps t'', Kirenenko.serialize z mem (l + 1) l deps₀ t' = .ok (e, deps) t'') ↔
      termOf z mem t l = .ok e :=
  (simulates_serialize ho hl (Nat.lt_succ_self l)).returns_iff h

theorem Denotes.label (h : Denotes z mem t l w f) : constOffset ≤ l ∧ l ≤ t.lastLabel := by
  obtain ⟨e, deps, t', hs, _⟩ := h
  obtain ⟨hlo, hl, _⟩ := serialize_ok_cases hs
  exact ⟨hlo, hl⟩

theorem denotes_iff (ho : Ordered t) (hl : l ≤ t.lastLabel) :
    Denotes z mem t l w f ↔ ∃ e, termOf z mem t l = .ok e ∧ e.IsBv w f := by
  have hcoherent := uncached_coherent z mem t
  constructor
  · rintro ⟨e, deps, t', hs, he⟩
    exact ⟨e, (hcoherent.serialize ho hl).1 ⟨deps, t', hs⟩, he⟩
  · rintro ⟨e, ht, he⟩
    obtain ⟨deps, t', hs⟩ := (hcoherent.serialize ho hl).2 ht
    exact ⟨e, deps, t', hs, he⟩

theorem Denotes.serialize (h : Denotes z mem t l w f) (ho : Ordered t) (hc : WellCached z mem t) :
    ∃ e deps t', Kirenenko.serialize z mem (l + 1) l ∅ t = .ok (e, deps) t' ∧ e.IsBv w f := by
  obtain ⟨e, ht, he⟩ := (denotes_iff ho h.label.2).1 h
  obtain ⟨deps, t', hs⟩ := (Coherent.serialize hc ho h.label.2).2 ht
  exact ⟨e, deps, t', hs, he⟩

theorem Denotes.unique (h : Denotes z mem t l w f) (h' : Denotes z mem t l v g) :
    w = v ∧ f = g := by
  obtain ⟨e, deps, t', hs, he⟩ := h
  obtain ⟨e', deps', t'', hs', he'⟩ := h'
  rw [hs] at hs'
  cases hs'
  exact he.unique he'

theorem Denotes.lt (h : Denotes z mem t l w f) (env : Env) : f env < 2 ^ w := by
  obtain ⟨e, deps, t', _, he⟩ := h
  exact he.lt env

theorem Extends.denotes (h : Extends t t') (ho : Ordered t) (ho' : Ordered t')
    (hl : l ≤ t.lastLabel) : Denotes z mem t' l w f ↔ Denotes z mem t l w f := by
  rw [denotes_iff ho hl, denotes_iff ho' (Nat.le_trans hl h.lastLabel), h.termOf ho hl]

end

end Kirenenko
