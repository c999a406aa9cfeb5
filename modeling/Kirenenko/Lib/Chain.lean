import Mathlib.Logic.Function.Basic

namespace Kirenenko
set_option autoImplicit true

/-- An entry of a chained hash table: a pointer to its key, and the stored value. -/
structure ChainEntry where
  key : Nat
  entry : Nat
deriving DecidableEq

section
variable {K : Type}

def chainLookup [DecidableEq K] (hash : K → Nat) (deref : Nat → K)
    (bucket : Nat → List ChainEntry) (k : K) :
    Option Nat :=
  ((bucket (hash k)).find? fun e => deref e.key = k).map ChainEntry.entry

def chainInsert (hash : K → Nat) (deref : Nat → K) (bucket : Nat → List ChainEntry)
    (key entry : Nat) : Nat → List ChainEntry :=
  Function.update bucket (hash (deref key))
    (⟨key, entry⟩ :: bucket (hash (deref key)))

/-- The chains hold exactly the pairs of a functional relation. -/
structure ChainInv (hash : K → Nat) (deref : Nat → K) (bucket : Nat → List ChainEntry)
    (S : K → Nat → Prop) : Prop where
  complete : ∀ k v, S k v → ∃ e ∈ bucket (hash k), deref e.key = k ∧ e.entry = v
  sound : ∀ i, ∀ e ∈ bucket i, S (deref e.key) e.entry
  functional : ∀ k v v', S k v → S k v' → v = v'

variable {hash : K → Nat} {deref deref' : Nat → K} {bucket : Nat → List ChainEntry}
  {S : K → Nat → Prop}

theorem ChainInv.empty : ChainInv hash deref (fun _ => []) (fun _ _ => False) where
  complete _ _ h := h.elim
  sound _ e he := by cases he
  functional _ _ _ h := h.elim

theorem ChainInv.congr (h : ChainInv hash deref bucket S)
    (hd : ∀ i, ∀ e ∈ bucket i, deref' e.key = deref e.key) : ChainInv hash deref' bucket S where
  complete k v hs := by
    obtain ⟨e, he, hk, hv⟩ := h.complete k v hs
    exact ⟨e, he, (hd _ e he).trans hk, hv⟩
  sound i e he := by
    rw [hd i e he]
    exact h.sound i e he
  functional := h.functional

theorem ChainInv.lookup [DecidableEq K] (h : ChainInv hash deref bucket S) (k : K) (v : Nat) :
    chainLookup hash deref bucket k = some v ↔ S k v := by
  unfold chainLookup
  constructor
  · intro hf
    obtain ⟨e, he, rfl⟩ := Option.map_eq_some_iff.1 hf
    have hk : deref e.key = k := by simpa using List.find?_some he
    rw [← hk]
    exact h.sound _ e (List.mem_of_find?_eq_some he)
  · intro hs
    obtain ⟨e, he, hk, rfl⟩ := h.complete k v hs
    cases hf : (bucket (hash k)).find? fun e => deref e.key = k with
    | none =>
      have hn := List.find?_eq_none.1 hf e he
      simp only [hk, decide_true, not_true_eq_false] at hn
    | some e' =>
      have hk' : deref e'.key = k := by simpa using List.find?_some hf
      have hs' := h.sound _ e' (List.mem_of_find?_eq_some hf)
      rw [hk'] at hs'
      simp only [Option.map_some, Option.some.injEq]
      exact h.functional k _ _ hs' hs

theorem ChainInv.lookup_none [DecidableEq K] (h : ChainInv hash deref bucket S) (k : K) :
    chainLookup hash deref bucket k = none ↔ ∀ v, ¬S k v := by
  constructor
  · intro hn v hs
    rw [(h.lookup k v).2 hs] at hn
    cases hn
  · intro hs
    cases hl : chainLookup hash deref bucket k with
    | none => rfl
    | some v => exact (hs v ((h.lookup k v).1 hl)).elim

theorem ChainInv.insert (h : ChainInv hash deref bucket S) (key entry : Nat)
    (hfresh : ∀ v, ¬S (deref key) v) :
    ChainInv hash deref (chainInsert hash deref bucket key entry)
      (fun k v => S k v ∨ (k = deref key ∧ v = entry)) where
  complete k v hs := by
    rcases hs with hs | ⟨rfl, rfl⟩
    · obtain ⟨e, he, hk, hv⟩ := h.complete k v hs
      refine ⟨e, ?_, hk, hv⟩
      unfold chainInsert
      by_cases hh : hash k = hash (deref key)
      · rw [hh, Function.update_self]
        rw [hh] at he
        exact List.mem_cons_of_mem _ he
      · rw [Function.update_of_ne hh]
        exact he
    · refine ⟨⟨key, v⟩, ?_, rfl, rfl⟩
      rw [chainInsert, Function.update_self]
      exact List.mem_cons_self
  sound i e he := by
    unfold chainInsert at he
    by_cases hh : i = hash (deref key)
    · subst hh
      rw [Function.update_self] at he
      rcases List.mem_cons.1 he with rfl | he
      · exact .inr ⟨rfl, rfl⟩
      · exact .inl (h.sound _ e he)
    · rw [Function.update_of_ne hh] at he
      exact .inl (h.sound _ e he)
  functional k v v' hs hs' := by
    rcases hs with hs | ⟨rfl, rfl⟩ <;> rcases hs' with hs' | ⟨hk, rfl⟩
    · exact h.functional k v v' hs hs'
    · subst hk
      exact (hfresh v hs).elim
    · exact (hfresh v' hs').elim
    · rfl

end

end Kirenenko
