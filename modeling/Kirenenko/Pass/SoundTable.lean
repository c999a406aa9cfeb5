import Kirenenko.Pass.NodeValue
import Kirenenko.Runtime.BranchDeps
import Kirenenko.Runtime.DepsExact
import Kirenenko.Runtime.StoreLoad

namespace Kirenenko
set_option autoImplicit true

/-- A label stands for a value of some width: the value is what its term comes to on the input,
whatever memory it is serialized with, and the recorded size is the width. -/
structure Stands (env : Env) (z : Z3) (t : LabelTable) (l w v : Nat) : Prop where
  bound : v < 2 ^ w
  size : l ≠ 0 → w ≠ 1 → (t.key l).size = w
  agrees : ∀ mem, Agrees env z mem t l w v

/-- What the records of a sound table satisfy. A load is one of labels for input bytes, and a label
that was taken apart stands for something of its recorded size. -/
structure SoundRecord (env : Env) (z : Z3) (size : Nat) (t : LabelTable) (k : LabelKey) : Prop where
  plain : k.op ≠ Operators.Neg.code ∧ k.op ≠ Operators.fmemcmp.code ∧ k.op ≠ Operators.fsize.code
  load : k.op = Operators.Load.code →
    constOffset ≤ k.l1 ∧ constOffset ≤ k.l2 ∧ k.l1 + k.l2 ≤ size + 1 ∧ k.size = 8 * k.l2
  parent : k.op = Operators.Extract.code →
    k.l1 ≠ 0 ∧ ∃ v, Stands env z t k.l1 (t.key k.l1).size v

/-- A table in file mode as the instrumentation of a program leaves it, with its caches in order. -/
structure SoundTable (env : Env) (z : Z3) (size : Nat) (t : LabelTable) : Prop where
  inv : ∃ S, TableInv t S
  file : FileMode t size
  records : ∀ l, constOffset ≤ l → l ≤ t.lastLabel → SoundRecord env z size t (t.key l)
  cached : ∀ mem, WellCached z mem t
  sets : DepsFrame t t
  offsets : OffsetsBelow size t

section
variable {env : Env} {z : Z3} {t t' : LabelTable}

theorem Stands.zero (h : v < 2 ^ w) : Stands env z t 0 w v :=
  ⟨h, fun h0 => (h0 rfl).elim, fun _ => .zero w v⟩

theorem Stands.label (h : Stands env z t l w v) : l ≤ t.lastLabel := (h.agrees fun _ => 0).label

theorem Stands.extends (h : Stands env z t l w v) (ho : Ordered t) (hg : Extends t t') :
    Stands env z t' l w v where
  bound := h.bound
  size h0 h1 := by
    rw [hg.key l h.label]
    exact h.size h0 h1
  agrees mem := (h.agrees mem).extends ho hg

theorem SoundTable.ordered (h : SoundTable env z size t) : Ordered t := by
  obtain ⟨S, hS⟩ := h.inv
  exact hS.ordered

theorem SoundTable.small (h : SoundTable env z size t) : size ≤ 2 ^ 30 := by
  obtain ⟨S, hS⟩ := h.inv
  have hsize := h.file.bound
  have hbound := hS.bound
  unfold maxLabel at hbound
  omega

theorem SoundTable.zero_key (h : SoundTable env z size t) : t.key constLabel = { size := 8 } := by
  obtain ⟨S, hS⟩ := h.inv
  exact hS.zero

theorem SoundRecord.extends (h : SoundRecord env z size t k) (h1 : k.l1 ≤ t.lastLabel)
    (ho : Ordered t) (hg : Extends t t') : SoundRecord env z size t' k where
  plain := h.plain
  load := h.load
  parent hop := by
    obtain ⟨h0, v, hv⟩ := h.parent hop
    rw [hg.key _ h1]
    exact ⟨h0, v, hv.extends ho hg⟩

theorem preallocate_uncached {s : TableHistory}
    (h : Steps (TableStep z) .initial (preallocate size) s) (l : Nat) :
    (s.table.info l).expr = none := by
  induction size generalizing s with
  | zero =>
    cases h
    exact initial_expr l
  | succ size ih =>
    rw [preallocate_succ] at h
    obtain ⟨s', hrun, hlast⟩ := h.of_append
    have hinv : s'.Inv := (hrun.table_inv TableHistory.initial_inv).1
    cases hlast with
    | cons hstep hnil =>
      cases hnil
      obtain ⟨info, hinfo, htab⟩ := hstep.create_inv hinv
      rw [htab, Option.eq_none_iff_forall_ne_some]
      intro e he
      have hold := extended_expr hinfo.expr he
      rw [ih hrun] at hold
      cases hold

theorem SoundTable.preallocated {s : TableHistory}
    (h : Steps (TableStep z') .initial (preallocate size) s) : SoundTable env z size s.table := by
  obtain ⟨hfile, hlast⟩ := preallocate_fileMode h
  have hinv : s.Inv := (h.table_inv TableHistory.initial_inv).1
  have hnone := preallocate_uncached h
  refine ⟨⟨_, hinv⟩, hfile, ?_, ?_, ⟨.refl _, ?_⟩, preallocate_offsets (Nat.le_refl _) h⟩
  · intro l hl hle
    have hop : (s.table.key l).op = 0 := (hfile.raw l hl hle).2 (hlast ▸ hle)
    refine ⟨?_, ?_, ?_⟩
    · rw [hop]
      decide
    · rw [hop]
      intro h0
      cases h0
    · rw [hop]
      intro h0
      cases h0
  · intro mem
    refine ⟨.refl _, ?_⟩
    intro l e he
    rw [hnone] at he
    cases he
  · intro l e he
    rw [hnone] at he
    cases he

theorem SoundTable.grow (h : SoundTable env z size t) (ha : Allocated t k) (hop : k.op ≠ 0)
    (hk : SoundRecord env z size t (canonical k)) (hn : ∀ l, ¬S (canonical k) l)
    (hS : TableInv t S) (hroom : t.lastLabel < maxLabel) (hinfo : FreshInfo (canonical k) info)
    (hoff : OffsetsBelow size ((t.extended info).insert (t.lastLabel + 1) (t.lastLabel + 1))) :
    SoundTable env z size
      ((t.extended info).insert (t.lastLabel + 1) (t.lastLabel + 1)) := by
  have hinv := hS.union_store ha hn hroom hinfo
  have hg : Extends t ((t.extended info).insert (t.lastLabel + 1) (t.lastLabel + 1)) :=
    (extended_extends t info).insert _ _
  have hnew : ((t.extended info).insert (t.lastLabel + 1) (t.lastLabel + 1)).key
      (t.lastLabel + 1) = canonical k := (extended_key_new t info).trans hinfo.key
  have hsize := h.file.bound
  refine ⟨⟨_, hinv⟩, ⟨Nat.le_trans hsize hg.lastLabel, ?_, ?_⟩, ?_, ?_, ⟨.refl _, ?_⟩, hoff⟩
  · intro l hl hlast
    rcases Nat.lt_or_ge t.lastLabel l with hlt | hle
    · obtain rfl : l = t.lastLabel + 1 := Nat.le_antisymm hlast hlt
      rw [hnew, canonical_op]
      exact iff_of_false hop (by omega)
    · rw [hg.key l hle]
      exact h.file.raw l hl hle
  · intro l hl hlast
    rw [hg.key l (Nat.le_trans hlast hsize)]
    exact h.file.key l hl hlast
  · intro l hl hlast
    rcases Nat.lt_or_ge t.lastLabel l with hlt | hle
    · obtain rfl : l = t.lastLabel + 1 := Nat.le_antisymm hlast hlt
      rw [hnew]
      exact hk.extends ha.canonical.l1 h.ordered hg
    · rw [hg.key l hle]
      have hl1 := h.ordered.l1 l hl hle
      exact (h.records l hl hle).extends (by omega) h.ordered hg
  · intro mem
    exact (h.cached mem).grow h.ordered hg fun _ _ he => extended_expr hinfo.expr he
  · intro l e he
    have hold := extended_cached hinfo.expr he
    have hexpr : (t.info l).expr = some e := by
      rw [← hold]
      exact he
    have hl := ((h.cached fun _ => 0).cached l e hexpr).1
    rw [hg.labelOffsets h.ordered hinv.ordered hl]
    exact (congrArg LabelInfo.deps hold).trans (h.sets.deps l e hexpr)

theorem SoundRecord.fits (hk : SoundRecord env z size t k) (hf : FileMode t size) (h0 : k.op ≠ 0) :
    Fits size t k where
  raw hop := (h0 hop).elim
  load hop := by
    obtain ⟨hlo, hlo2, hsum, -⟩ := hk.load hop
    have hone : constOffset = 1 := rfl
    have hl1 : k.l1 ≤ size := by omega
    refine ⟨Nat.le_trans hl1 hf.bound, ?_⟩
    rw [hf.key k.l1 hlo hl1]
    intro o ho
    obtain ⟨i, hi, rfl⟩ := Finset.mem_image.1 ho
    have hi' := Finset.mem_range.1 hi
    exact Finset.mem_range.2 (Nat.lt_of_le_of_lt (Nat.mod_le (k.l1 - 1 + i) _) (by omega))

theorem SoundTable.union (h : SoundTable env z size t) (ha : Allocated t k) (hop : k.op ≠ 0)
    (hi : ¬InitUnion (swapOperands k)) (hk : SoundRecord env z size t (canonical k))
    (hu : taintUnion t k = .ok (l, t')) : SoundTable env z size t' ∧ UnionReturns t k l t' := by
  obtain ⟨S, hS⟩ := h.inv
  have hoff := h.offsets.taintUnion (k := k) (hk.fits h.file (by rw [canonical_op]; exact hop))
  rw [hu] at hoff
  refine ⟨?_, hS.union_returns ha hi hu⟩
  cases hS.taintUnion_ok hu with
  | const => exact h
  | init => exact h
  | found => exact h
  | fresh _ _ hn hroom hinfo => exact h.grow ha hop hk hn hS hroom hinfo hoff

theorem SoundTable.byte (h : SoundTable env z size t) (hi : i < size) :
    Stands env z t (i + 1) 8 (inputByte i env) := by
  have hlo : constOffset ≤ i + 1 := Nat.le_add_left _ _
  have hlast := Nat.le_trans (Nat.succ_le_of_lt hi) h.file.bound
  have hkey := h.file.key (i + 1) hlo hi
  refine ⟨inputByte_lt i env, fun _ _ => by rw [hkey], fun mem => ⟨hlast, ?_⟩⟩
  intro e he
  rw [termOf_eq h.ordered hlo hlast, hkey, nodeTerm_raw rfl, ofZ3_eq_ok] at he
  obtain ⟨_, hbv⟩ := byteTerm_isBv he
  exact ⟨.inl hbv.sort, hbv.eval env⟩

theorem SoundTable.nameable (h : SoundTable env z size t) (hi : i < size) : Nameable i := by
  have := h.small
  unfold Nameable
  omega

/-- A label that stands for something denotes it in terms of its recorded operands. -/
theorem UnionReturns.stands (hu : UnionReturns t k l t') (hv : v < 2 ^ w)
    (hsize : w ≠ 1 → k.size = w)
    (hnode : ∀ mem e, nodeTerm z mem t'.key (canonical k) (termOf z mem t') = .ok e →
      HasValue env e w v) : Stands env z t' l w v where
  bound := hv
  size h0 h1 := by
    rcases hu.key with ⟨rfl, _⟩ | ⟨_, hk⟩
    · exact (h0 rfl).elim
    · rw [hk, canonical_size]
      exact hsize h1
  agrees mem := hu.agrees (hnode mem)

end

end Kirenenko
