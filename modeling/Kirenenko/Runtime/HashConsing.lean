import Kirenenko.Lib.Run
import Kirenenko.Runtime.SerializeFrame
import Kirenenko.Runtime.UnionSpec

namespace Kirenenko
set_option autoImplicit true

/-- The operations on the label table; `flip` sets the flag `B_FLIPPED`. -/
inductive TableOp where
  | create (offset : Int)
  | union (k : LabelKey)
  | serialize (mem : Memory) (label : Nat) (deps : Finset Nat)
  | flip (label : Nat)

/-- The label table, and the records stored by unions so far under their labels. -/
structure TableHistory where
  table : LabelTable
  stored : List (Nat × LabelKey)

def TableHistory.initial : TableHistory := ⟨.initial, []⟩

/-- The history after a union: a call that made a label stored its record. -/
def TableHistory.afterUnion (s : TableHistory) (l : Nat) (t : LabelTable) : TableHistory :=
  if t.lastLabel = s.table.lastLabel then { s with table := t }
  else ⟨t, (l, t.key l) :: s.stored⟩

/-- The operations that return; an exception of `serialize` is caught by its callers. -/
inductive TableStep (z : Z3) : TableHistory → TableOp → TableHistory → Prop where
  | create : dfsanCreateLabel s.table offset = .ok (l, t) →
      TableStep z s (.create offset) { s with table := t }
  | union : Allocated s.table k → taintUnion s.table k = .ok (l, t) →
      TableStep z s (.union k) (s.afterUnion l t)
  | serialize : label ≤ s.table.lastLabel →
      TableStep z s (.serialize mem label deps)
        { s with table := finalState (serialize z mem (label + 1) label deps s.table) }
  | flip : label ≤ s.table.lastLabel →
      TableStep z s (.flip label) { s with table := s.table.flip label }

def TableHistory.Stored (s : TableHistory) (k : LabelKey) (l : Nat) : Prop := (l, k) ∈ s.stored

def TableHistory.Inv (s : TableHistory) : Prop := TableInv s.table s.Stored

theorem TableInv.congr (h : TableInv t S) (hS : ∀ k l, S' k l ↔ S k l) : TableInv t S' := by
  have : S' = S := by
    funext k l
    exact propext (hS k l)
  rw [this]
  exact h

theorem TableHistory.afterUnion_same (s : TableHistory) (l : Nat) : s.afterUnion l s.table = s :=
  if_pos rfl

theorem TableHistory.afterUnion_fresh (s : TableHistory) (hinfo : FreshInfo k info) :
    s.afterUnion (s.table.lastLabel + 1)
      ((s.table.extended info).insert (s.table.lastLabel + 1) (s.table.lastLabel + 1)) =
    ⟨(s.table.extended info).insert (s.table.lastLabel + 1) (s.table.lastLabel + 1),
      (s.table.lastLabel + 1, k) :: s.stored⟩ := by
  have hk : ((s.table.extended info).insert (s.table.lastLabel + 1) (s.table.lastLabel + 1)).key
      (s.table.lastLabel + 1) = k := (extended_key_new s.table info).trans hinfo.key
  rw [← hk]
  exact if_neg (Nat.succ_ne_self _)

theorem WellCached.flip (h : WellCached z mem t) (ho : Ordered t) (label : Nat) :
    WellCached z mem (t.flip label) := by
  have hc : Coherent z mem t (t.flip label) :=
    Coherent.modifyInfo h label (fun _ => rfl) fun _ _ he => he
  exact hc.wellCached ho

theorem serialize_sameKeys (h : TableInv t S) (hl : label ≤ t.lastLabel) :
    SameKeys t (finalState (serialize z mem (label + 1) label deps t)) :=
  ((keeps_serialize h.ordered hl (Nat.lt_succ_self _)).finalState (.refl t)).same

theorem TableStep.inv (hs : s.Inv) (h : TableStep z s a s') :
    s'.Inv ∧ ∀ k l, s.Stored k l → s'.Stored k l := by
  cases h with
  | create hc =>
    refine ⟨?_, fun _ _ h => h⟩
    rcases TableInv.dfsanCreateLabel hs _ with ⟨_, hr⟩ | ⟨hroom, info, hinfo, hr⟩
    · rw [hr] at hc
      cases hc
    · rw [hr] at hc
      cases hc
      exact TableInv.create hs hroom hinfo.key
  | union ha hu =>
    cases TableInv.taintUnion_ok hs hu with
    | const | init | found =>
      rw [TableHistory.afterUnion_same]
      exact ⟨hs, fun _ _ h => h⟩
    | fresh _ _ hn hroom hinfo =>
      rw [TableHistory.afterUnion_fresh s hinfo]
      refine ⟨TableInv.congr (TableInv.union_store hs ha hn hroom hinfo) ?_, ?_⟩
      · intro k' l'
        simp only [TableHistory.Stored, List.mem_cons, Prod.mk.injEq]
        rw [and_comm, or_comm]
      · intro k' l' h
        exact List.mem_cons_of_mem _ h
  | serialize hl => exact ⟨TableInv.sameKeys hs (serialize_sameKeys hs hl), fun _ _ h => h⟩
  | flip hl => exact ⟨TableInv.sameKeys hs (flip_sameKeys _ _), fun _ _ h => h⟩

theorem Steps.table_inv (h : Steps (TableStep z) s as s') (hs : s.Inv) :
    s'.Inv ∧ ∀ k l, s.Stored k l → s'.Stored k l := by
  refine h.invariant (I := fun s' => s'.Inv ∧ ∀ k l, s.Stored k l → s'.Stored k l) ?_
    ⟨hs, fun _ _ h => h⟩
  rintro s₁ a s₂ ⟨hi, hle⟩ hr
  obtain ⟨hi', hle'⟩ := hr.inv hi
  exact ⟨hi', fun k l h => hle' k l (hle k l h)⟩

theorem TableHistory.afterUnion_table (s : TableHistory) (l : Nat) (t : LabelTable) :
    (s.afterUnion l t).table = t := by
  unfold TableHistory.afterUnion
  split <;> rfl

theorem TableStep.extends (hs : s.Inv) (h : TableStep z s a s') : Extends s.table s'.table := by
  cases h with
  | create hc =>
    rcases TableInv.dfsanCreateLabel hs _ with ⟨_, hr⟩ | ⟨_, info, _, hr⟩
    · rw [hr] at hc
      cases hc
    · rw [hr] at hc
      cases hc
      exact extended_extends _ _
  | union ha hu =>
    rw [TableHistory.afterUnion_table]
    cases TableInv.taintUnion_ok hs hu with
    | const | init | found => exact .refl _
    | fresh => exact (extended_extends _ _).insert _ _
  | serialize hl => exact (serialize_sameKeys hs hl).extends
  | flip hl => exact (flip_sameKeys _ _).extends

theorem Steps.table_extends (h : Steps (TableStep z) s as s') (hs : s.Inv) :
    Extends s.table s'.table := by
  refine (h.invariant (I := fun s' => s'.Inv ∧ Extends s.table s'.table) ?_ ⟨hs, .refl _⟩).2
  rintro s₁ a s₂ ⟨hi, hle⟩ hr
  exact ⟨(hr.inv hi).1, hle.trans (hr.extends hi)⟩

theorem TableHistory.initial_inv : TableHistory.initial.Inv := by
  refine TableInv.initial.congr ?_
  intro k l
  simp only [TableHistory.Stored, TableHistory.initial, List.not_mem_nil]

theorem intern_stored (hs : TableInv t S) (hS : S k l) : t.intern k = .ok (l, t) := by
  unfold LabelTable.intern
  rw [hs.lookup.2 hS]

/-- What a union answers from then on, whatever was stored since. -/
theorem taintUnion_again {s s' : TableHistory} (hs : s.Inv)
    (hu : taintUnion s.table k = .ok (l, t)) (hs' : s'.Inv)
    (hle : ∀ k' l', (s.afterUnion l t).Stored k' l' → s'.Stored k' l') :
    taintUnion s'.table k = .ok (l, s'.table) := by
  rw [taintUnion_eq]
  cases TableInv.taintUnion_ok hs hu with
  | const hc => rw [if_pos hc]
  | init hc hi => rw [if_neg hc, if_pos hi]
  | found hc hi hS =>
    rw [TableHistory.afterUnion_same] at hle
    rw [if_neg hc, if_neg hi]
    exact intern_stored hs' (hle _ _ hS)
  | fresh hc hi hn hroom hinfo =>
    rw [TableHistory.afterUnion_fresh s hinfo] at hle
    rw [if_neg hc, if_neg hi]
    exact intern_stored hs' (hle _ _ List.mem_cons_self)

/-- Hash-consing: in every run the records of unions are ordered and distinct, the hash table
knows exactly them, and a union that returned a label returns it ever after. -/
theorem label_table_hash_consing (h : Steps (TableStep z) .initial as s) :
    (∀ l k, (l, k) ∈ s.stored →
      s.table.key l = k ∧ k.l1 < l ∧ (k.op ≠ Operators.Load.code → k.l2 < l)) ∧
    (∀ l l' k, (l, k) ∈ s.stored → (l', k) ∈ s.stored → l = l') ∧
    (∀ k l, s.table.lookup k = some l ↔ (l, k) ∈ s.stored) ∧
    (∀ k l t bs s', Allocated s.table k → taintUnion s.table k = .ok (l, t) →
      Steps (TableStep z) (s.afterUnion l t) bs s' →
      taintUnion s'.table k = .ok (l, s'.table) ∧
      (isCommutative k.op → taintUnion s'.table k.swapped = .ok (l, s'.table))) := by
  have hs : s.Inv := (h.table_inv TableHistory.initial_inv).1
  refine ⟨?_, ?_, ?_, ?_⟩
  · intro l k hk
    exact ⟨(TableInv.stored hs k l hk).1, TableInv.order hs k l hk⟩
  · intro l l' k hk hk'
    exact (TableInv.chain hs).functional k l l' hk hk'
  · intro k l
    exact TableInv.lookup hs
  · intro k l t bs s' ha hu hr
    obtain ⟨hs', hle⟩ := hr.table_inv (TableStep.inv hs (.union ha hu) (z := z)).1
    have hagain := taintUnion_again hs hu hs' hle
    refine ⟨hagain, ?_⟩
    intro hc
    rw [taintUnion_swapped _ hc]
    exact hagain

/-- Two input bytes, their sum with the operands swapped, and two calls that mutate its record. -/
def sumOps : List TableOp :=
  [.create 0, .create 1, .union { l1 := 2, l2 := 1, op := Operators.Add.code, size := 8, op1 := 3 },
    .serialize (fun _ => 0) 3 ∅, .flip 3]

theorem label_table_hash_consing_sum :
    ∃ s, Steps (TableStep .idle) .initial sumOps s ∧
      s.stored = [(3, { l1 := 1, l2 := 2, op := Operators.Add.code, size := 8 })] ∧
      ∀ k l, s.table.lookup k = some l ↔ (l, k) ∈ s.stored := by
  have h : Steps (TableStep .idle) .initial sumOps _ :=
    .cons (.create rfl) (.cons (.create rfl) (.cons (.union ⟨by decide, fun _ => by decide⟩ rfl)
      (.cons (.serialize (by decide)) (.cons (.flip (by decide)) .nil))))
  exact ⟨_, h, rfl, (label_table_hash_consing h).2.2.1⟩

end Kirenenko
