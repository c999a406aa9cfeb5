import Mathlib.Data.List.Basic

namespace Kirenenko
set_option autoImplicit true

/-- A walk along the edges of a graph, with the nodes it passes before its end. -/
inductive Walk {β : Type} (succ : β → List β) : β → List β → β → Prop where
  | nil : Walk succ a [] a
  | cons : b ∈ succ a → Walk succ b ns c → Walk succ a (a :: ns) c

section
variable {β : Type} {succ : β → List β} {entry : β}

theorem Walk.snoc (h : Walk succ a ns b) (hc : c ∈ succ b) : Walk succ a (ns ++ [b]) c := by
  induction h with
  | nil => exact .cons hc .nil
  | cons hb _ ih => exact .cons hb (ih hc)

/-- Every walk from the entry passes `d` before it ends in `b`. -/
def StrictlyDominates (succ : β → List β) (entry d b : β) : Prop :=
  ∀ ns, Walk succ entry ns b → d ∈ ns

theorem StrictlyDominates.not_entry (h : StrictlyDominates succ entry d entry) : False := by
  cases h [] .nil

theorem StrictlyDominates.of_ne_entry (h : b ≠ entry) :
    StrictlyDominates succ entry entry b := by
  intro ns hw
  cases hw with
  | nil => exact absurd rfl h
  | cons => exact List.mem_cons_self

/-- What dominates a node dominates the predecessors it is not one of. -/
theorem StrictlyDominates.step (h : StrictlyDominates succ entry d c) (hc : c ∈ succ b) :
    d = b ∨ StrictlyDominates succ entry d b := by
  by_cases hd : d = b
  · exact .inl hd
  · refine .inr ?_
    intro ns hw
    rcases List.mem_append.1 (h _ (hw.snoc hc)) with hmem | hmem
    · exact hmem
    · exact (hd (List.mem_singleton.1 hmem)).elim

/-- An order of the nodes in which every node but the entry comes after a predecessor. -/
def Rooted (succ : β → List β) (entry : β) (order : List β) : Prop :=
  ∀ pre b post, order = pre ++ b :: post → b = entry ∨ ∃ p ∈ pre, b ∈ succ p

theorem Rooted.nil : Rooted succ entry [] := by
  intro pre b post h
  cases pre <;> cases h

theorem Rooted.snoc (h : Rooted succ entry order) (hb : b = entry ∨ ∃ p ∈ order, b ∈ succ p) :
    Rooted succ entry (order ++ [b]) := by
  intro pre c post he
  rcases List.eq_nil_or_concat post with rfl | ⟨post, x, rfl⟩
  · obtain ⟨rfl, hc⟩ := List.append_inj' he rfl
    cases List.singleton_inj.1 hc
    exact hb
  · rw [List.concat_eq_append, ← List.cons_append, ← List.append_assoc] at he
    obtain ⟨rfl, -⟩ := List.append_inj' he rfl
    exact h pre c post rfl

theorem Rooted.walk (h : Rooted succ entry order) (he : order = pre ++ b :: post) :
    ∃ ns, Walk succ entry ns b ∧ ∀ n ∈ ns, n ∈ pre := by
  induction hk : pre.length using Nat.strongRecOn generalizing pre b post with
  | ind k ih =>
    rcases h pre b post he with rfl | ⟨p, hp, hb⟩
    · exact ⟨[], .nil, fun n hn => by cases hn⟩
    · obtain ⟨pre', mid, rfl⟩ := List.append_of_mem hp
      have hlt : pre'.length < k := by
        rw [← hk, List.length_append]
        exact Nat.lt_add_of_pos_right (Nat.succ_pos _)
      have hsplit : order = pre' ++ p :: (mid ++ b :: post) := by
        rw [he, List.append_assoc, List.cons_append]
      obtain ⟨ns, hw, hns⟩ := ih _ hlt hsplit rfl
      refine ⟨ns ++ [p], hw.snoc hb, ?_⟩
      intro n hn
      rcases List.mem_append.1 hn with hn | hn
      · exact List.mem_append_left _ (hns n hn)
      · exact List.mem_append_right _ (List.mem_singleton.1 hn ▸ List.mem_cons_self)

theorem Rooted.dominator_before (h : Rooted succ entry order) (he : order = pre ++ b :: post)
    (hd : StrictlyDominates succ entry d b) : d ∈ pre := by
  obtain ⟨ns, hw, hns⟩ := h.walk he
  exact hns d (hd ns hw)

variable [DecidableEq β]

/-- Depth-first search with a stack: the visited nodes in the order of their first visit. -/
def depthFirst (succ : β → List β) : Nat → List β → List β → List β
  | 0, _, visited => visited
  | _ + 1, [], visited => visited
  | fuel + 1, b :: stack, visited =>
    if b ∈ visited then depthFirst succ fuel stack visited
    else depthFirst succ fuel (succ b ++ stack) (visited ++ [b])

theorem depthFirst_rooted {visited : List β} (h : Rooted succ entry visited)
    (hs : ∀ b ∈ stack, b = entry ∨ ∃ p ∈ visited, b ∈ succ p) :
    Rooted succ entry (depthFirst succ fuel stack visited) := by
  induction fuel, stack, visited using depthFirst.induct succ with
  | case1 _ visited => exact h
  | case2 _ visited => exact h
  | case3 fuel b stack visited hb ih =>
    rw [depthFirst, if_pos hb]
    exact ih h fun c hc => hs c (List.mem_cons_of_mem _ hc)
  | case4 fuel b stack visited hb ih =>
    rw [depthFirst, if_neg hb]
    apply ih (h.snoc (hs b List.mem_cons_self))
    intro c hc
    rcases List.mem_append.1 hc with hc | hc
    · exact .inr ⟨b, List.mem_append_right _ List.mem_cons_self, hc⟩
    · rcases hs c (List.mem_cons_of_mem _ hc) with hc | ⟨p, hp, hc⟩
      · exact .inl hc
      · exact .inr ⟨p, List.mem_append_left _ hp, hc⟩

theorem depthFirst_nodup {visited : List β} (h : visited.Nodup) :
    (depthFirst succ fuel stack visited).Nodup := by
  induction fuel, stack, visited using depthFirst.induct succ with
  | case1 _ visited => exact h
  | case2 _ visited => exact h
  | case3 fuel b stack visited hb ih =>
    rw [depthFirst, if_pos hb]
    exact ih h
  | case4 fuel b stack visited hb ih =>
    rw [depthFirst, if_neg hb]
    apply ih
    rw [List.nodup_append]
    refine ⟨h, List.pairwise_singleton _ b, ?_⟩
    rintro a ha c hc rfl
    exact hb (List.mem_singleton.1 hc ▸ ha)

/-- The edges that leave nodes which have not been visited. -/
def pendingEdges (succ : β → List β) (visited : List β) : List β → Nat
  | [] => 0
  | b :: nodes => (if b ∈ visited then 0 else (succ b).length) + pendingEdges succ visited nodes

theorem pendingEdges_visit (visited : List β) (hb : b ∉ nodes) :
    pendingEdges succ (visited ++ [b]) nodes = pendingEdges succ visited nodes := by
  induction nodes with
  | nil => rfl
  | cons a nodes ih =>
    have hne : a ≠ b := fun he => hb (he ▸ List.mem_cons_self)
    have hmem : a ∈ visited ++ [b] ↔ a ∈ visited := by
      rw [List.mem_append, List.mem_singleton]
      exact ⟨fun h => h.resolve_right hne, .inl⟩
    simp only [pendingEdges, hmem, ih fun h => hb (List.mem_cons_of_mem _ h)]

theorem pendingEdges_node {visited : List β} (hn : nodes.Nodup) (hb : b ∈ nodes)
    (hv : b ∉ visited) :
    pendingEdges succ (visited ++ [b]) nodes + (succ b).length =
      pendingEdges succ visited nodes := by
  induction nodes with
  | nil => cases hb
  | cons a nodes ih =>
    obtain ⟨ha, hn⟩ := List.nodup_cons.1 hn
    by_cases he : b = a
    · subst he
      have hmem : b ∈ visited ++ [b] := List.mem_append_right _ List.mem_cons_self
      rw [pendingEdges, pendingEdges, if_pos hmem, if_neg hv, pendingEdges_visit visited ha]
      omega
    · have hb' : b ∈ nodes := (List.mem_cons.1 hb).resolve_left he
      have hmem : a ∈ visited ++ [b] ↔ a ∈ visited := by
        rw [List.mem_append, List.mem_singleton]
        exact ⟨fun h => h.resolve_right (Ne.symm he), .inl⟩
      have ih := ih hn hb'
      simp only [pendingEdges, hmem]
      omega

/-- With a step for each edge the search ends with a set of nodes that no edge leaves. -/
theorem depthFirst_closed {visited : List β} (hn : nodes.Nodup)
    (hout : ∀ b, b ∉ nodes → succ b = [])
    (hfuel : stack.length + pendingEdges succ visited nodes ≤ fuel)
    (hv : ∀ b ∈ visited, ∀ c ∈ succ b, c ∈ visited ∨ c ∈ stack) :
    (∀ b ∈ stack, b ∈ depthFirst succ fuel stack visited) ∧
      (∀ b ∈ visited, b ∈ depthFirst succ fuel stack visited) ∧
      ∀ b ∈ depthFirst succ fuel stack visited, ∀ c ∈ succ b,
        c ∈ depthFirst succ fuel stack visited := by
  induction fuel, stack, visited using depthFirst.induct succ with
  | case1 stack visited =>
    have hnil : stack = [] := List.eq_nil_of_length_eq_zero (by omega)
    subst hnil
    refine ⟨fun b hb => (by cases hb), fun b hb => hb, ?_⟩
    intro b hb c hc
    exact (hv b hb c hc).resolve_right (fun h => by cases h)
  | case2 fuel visited =>
    refine ⟨fun b hb => (by cases hb), fun b hb => hb, ?_⟩
    intro b hb c hc
    exact (hv b hb c hc).resolve_right (fun h => by cases h)
  | case3 fuel b stack visited hb ih =>
    rw [depthFirst, if_pos hb]
    have hrest : ∀ a ∈ visited, ∀ c ∈ succ a, c ∈ visited ∨ c ∈ stack := by
      intro a ha c hc
      rcases hv a ha c hc with h | h
      · exact .inl h
      · rcases List.mem_cons.1 h with rfl | h
        · exact .inl hb
        · exact .inr h
    obtain ⟨hstack, hvis, hclosed⟩ := ih (by rw [List.length_cons] at hfuel; omega) hrest
    refine ⟨?_, hvis, hclosed⟩
    intro a ha
    rcases List.mem_cons.1 ha with rfl | ha
    · exact hvis a hb
    · exact hstack a ha
  | case4 fuel b stack visited hb ih =>
    rw [depthFirst, if_neg hb]
    have hle : (succ b ++ stack).length + pendingEdges succ (visited ++ [b]) nodes ≤ fuel := by
      rw [List.length_append]
      rw [List.length_cons] at hfuel
      by_cases hmem : b ∈ nodes
      · have hnode : pendingEdges succ (visited ++ [b]) nodes + (succ b).length =
            pendingEdges succ visited nodes := pendingEdges_node hn hmem hb
        omega
      · rw [hout b hmem, pendingEdges_visit visited hmem, List.length_nil]
        omega
    have hrest : ∀ a ∈ visited ++ [b], ∀ c ∈ succ a,
        c ∈ visited ++ [b] ∨ c ∈ succ b ++ stack := by
      intro a ha c hc
      rcases List.mem_append.1 ha with ha | ha
      · rcases hv a ha c hc with h | h
        · exact .inl (List.mem_append_left _ h)
        · rcases List.mem_cons.1 h with rfl | h
          · exact .inl (List.mem_append_right _ List.mem_cons_self)
          · exact .inr (List.mem_append_right _ h)
      · rw [List.mem_singleton.1 ha] at hc
        exact .inr (List.mem_append_left _ hc)
    obtain ⟨hstack, hvis, hclosed⟩ := ih hle hrest
    refine ⟨?_, fun a ha => hvis a (List.mem_append_left _ ha), hclosed⟩
    intro a ha
    rcases List.mem_cons.1 ha with rfl | ha
    · exact hvis a (List.mem_append_right _ List.mem_cons_self)
    · exact hstack a (List.mem_append_right _ ha)

end

end Kirenenko
