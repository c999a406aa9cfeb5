import Kirenenko.Runtime.IndexSafety
import Kirenenko.Runtime.Memcmp

namespace Kirenenko
set_option autoImplicit true

/-- What a record reads from memory when it is serialized lies at given addresses. -/
def ReadsWithin (C : Nat → Prop) (k : LabelKey) : Prop :=
  k.op = Operators.fmemcmp.code → k.l1 < constOffset → ∀ i < concreteSize k.size, C (k.op1 + i)

section
variable {z : Z3} {mem mem' : Memory} {t t' : LabelTable} {C : Nat → Prop}

theorem concreteTerm_congr (h : ∀ i < k + 1, mem' (addr + i) = mem (addr + i)) :
    concreteTerm mem' addr k = concreteTerm mem addr k := by
  induction k with
  | zero =>
    have h0 := h 0 Nat.zero_lt_one
    rw [Nat.add_zero] at h0
    rw [concreteTerm, concreteTerm, h0]
  | succ k ih =>
    rw [concreteTerm, concreteTerm, ih fun i hi => h i (Nat.lt_succ_of_lt hi),
      h (k + 1) (Nat.lt_succ_self _)]

theorem readConcrete_congr (h : ∀ i < concreteSize size, mem' (addr + i) = mem (addr + i)) :
    readConcrete mem' addr size = readConcrete mem addr size := by
  rw [readConcrete, readConcrete, concreteTerm_congr h]

theorem ReadsWithin.nodeTerm (h : ReadsWithin C k) (hmem : ∀ a, C a → mem' a = mem a) :
    nodeTerm z mem' key k sub = nodeTerm z mem key k sub := by
  by_cases hop : k.op = Operators.fmemcmp.code
  · have hside : memcmpTermOf mem' k sub = memcmpTermOf mem k sub := by
      unfold memcmpTermOf
      by_cases h1 : k.l1 ≥ constOffset
      · rw [if_pos h1, if_pos h1]
      · rw [if_neg h1, if_neg h1,
          readConcrete_congr fun i hi => hmem _ (h hop (Nat.lt_of_not_le h1) i hi)]
    unfold Kirenenko.nodeTerm
    rw [hside]
  · unfold Kirenenko.nodeTerm
    simp only [if_neg hop]

/-- The terms of a table depend on memory only at the addresses its records read. -/
theorem termOf_mem_congr (ho : Ordered t)
    (hr : ∀ l, constOffset ≤ l → l ≤ t.lastLabel → ReadsWithin C (t.key l))
    (hmem : ∀ a, C a → mem' a = mem a) (hl : l ≤ t.lastLabel) :
    termOf z mem' t l = termOf z mem t l := by
  induction l using Nat.strong_induction_on with
  | _ l ih =>
    by_cases hpos : constOffset ≤ l
    · rw [termOf_eq ho hpos hl, termOf_eq ho hpos hl, (hr l hpos hl).nodeTerm hmem]
      refine nodeTerm_congr ?_ ?_ rfl fun _ => rfl
      · intro _ _
        have h1 := ho.l1 l hpos hl
        exact ih _ h1 (Nat.le_trans (Nat.le_of_lt h1) hl)
      · intro _ hL
        have h2 := ho.l2 l hpos hl hL
        exact ih _ h2 (Nat.le_trans (Nat.le_of_lt h2) hl)
    · have hc : l < constOffset ∨ l = kInitializingLabel := .inl (Nat.lt_of_not_le hpos)
      rw [termOf, termOf, if_pos hc, if_pos hc]

/-- A table whose caches are right for the memory, of which only some addresses are read. -/
structure Consistent (z : Z3) (mem : Memory) (C : Nat → Prop) (t : LabelTable) : Prop where
  inv : ∃ S, TableInv t S
  cached : WellCached z mem t
  reads : ∀ l, constOffset ≤ l → l ≤ t.lastLabel → ReadsWithin C (t.key l)

theorem Consistent.ordered (h : Consistent z mem C t) : Ordered t := by
  obtain ⟨S, hS⟩ := h.inv
  exact hS.ordered

theorem Consistent.sameKeys (h : Consistent z mem C t) (hs : SameKeys t t')
    (hc : WellCached z mem t') : Consistent z mem C t' where
  inv := by
    obtain ⟨S, hS⟩ := h.inv
    exact ⟨S, hS.sameKeys hs⟩
  cached := hc
  reads l hl hlast := by
    rw [hs.key]
    exact h.reads l hl (hs.lastLabel ▸ hlast)

theorem Consistent.mono {D : Nat → Prop} (h : Consistent z mem C t) (hsub : ∀ a, C a → D a) :
    Consistent z mem D t where
  inv := h.inv
  cached := h.cached
  reads l hl hlast hop h1 i hi := hsub _ (h.reads l hl hlast hop h1 i hi)

theorem Consistent.denotes_mem (h : Consistent z mem C t) (hmem : ∀ a, C a → mem' a = mem a)
    (hl : l ≤ t.lastLabel) : Denotes z mem' t l w f ↔ Denotes z mem t l w f := by
  rw [denotes_iff h.ordered hl, denotes_iff h.ordered hl,
    termOf_mem_congr h.ordered h.reads hmem hl]

theorem Consistent.write (h : Consistent z mem C t) (hmem : ∀ a, C a → mem' a = mem a) :
    Consistent z mem' C t where
  inv := h.inv
  cached := by
    refine ⟨.refl t, ?_⟩
    intro l e he
    obtain ⟨hl, ht⟩ := h.cached.cached l e he
    exact ⟨hl, (termOf_mem_congr h.ordered h.reads hmem hl).trans ht⟩
  reads := h.reads

theorem Consistent.extended (h : Consistent z mem C t) (hg : Extends t t')
    (hinv : ∃ S, TableInv t' S) (hc : WellCached z mem t') (hlast : t'.lastLabel = t.lastLabel + 1)
    (hnew : ReadsWithin C (t'.key (t.lastLabel + 1))) : Consistent z mem C t' where
  inv := hinv
  cached := hc
  reads l hl hle := by
    rcases Nat.lt_or_ge t.lastLabel l with hlt | hle'
    · obtain rfl : l = t.lastLabel + 1 := by omega
      exact hnew
    · rw [hg.key l hle']
      exact h.reads l hl hle'

theorem Consistent.create (h : Consistent z mem C t)
    (hc : dfsanCreateLabel t offset = .ok (l, t')) : Consistent z mem C t' ∧ Extends t t' := by
  obtain ⟨S, hS⟩ := h.inv
  rcases hS.dfsanCreateLabel offset with ⟨_, hr⟩ | ⟨hroom, info, hinfo, hr⟩
  · rw [hr] at hc
    cases hc
  · rw [hr] at hc
    cases hc
    have hg := extended_extends t info
    refine ⟨h.extended hg ⟨S, hS.create hroom hinfo.key⟩ ?_ rfl ?_, hg⟩
    · exact h.cached.grow h.ordered hg fun l e he => extended_expr hinfo.expr he
    · rw [extended_key_new, hinfo.key]
      intro hop
      cases hop

theorem Consistent.union (h : Consistent z mem C t) (h1 : Held t k.l1)
    (h2 : k.op ≠ Operators.Load.code → Held t k.l2) (hu : taintUnion t k = .ok (l, t'))
    (hr : ReadsWithin C (canonical k)) : Consistent z mem C t' ∧ Extends t t' := by
  obtain ⟨S, hS⟩ := h.inv
  cases hS.taintUnion_ok hu with
  | const | init | found => exact ⟨h, .refl t⟩
  | fresh hc hi hn hroom hinfo =>
    rename_i info
    obtain ⟨hne1, hne2⟩ := not_or.1 fun h => hi (initUnion_swapOperands.2 h)
    have ha : Allocated t k := ⟨h1.resolve_right hne1, fun hL => (h2 hL).resolve_right hne2⟩
    have hg := (extended_extends t info).insert (t.lastLabel + 1) (t.lastLabel + 1)
    refine ⟨h.extended hg ⟨_, hS.union_store ha hn hroom hinfo⟩ ?_ rfl ?_, hg⟩
    · exact h.cached.grow h.ordered hg fun l e he => extended_expr hinfo.expr he
    · change ReadsWithin C ((t.extended info).key (t.lastLabel + 1))
      rw [extended_key_new, hinfo.key]
      exact hr

theorem ReadsWithin.of_labels
    (h : k.op = Operators.fmemcmp.code → constOffset ≤ k.l1 ∧ constOffset ≤ k.l2) :
    ReadsWithin C (canonical k) := by
  intro hop hlt
  rw [canonical_op] at hop
  obtain ⟨h1, h2⟩ := h hop
  change (swapOperands k).l1 < constOffset at hlt
  rcases swapOperands_cases k with ⟨e1, _⟩ | ⟨_, e1, _⟩
  · omega
  · omega

theorem Consistent.serialize (h : Consistent z mem C t) (hl : label ≤ t.lastLabel) :
    Consistent z mem C (finalState (serialize z mem (label + 1) label deps t)) := by
  obtain ⟨S, hS⟩ := h.inv
  exact h.sameKeys (serialize_sameKeys hS hl) (h.cached.serialize h.ordered hl)

theorem Consistent.flip (h : Consistent z mem C t) (label : Nat) :
    Consistent z mem C (t.flip label) :=
  h.sameKeys (flip_sameKeys t label) (h.cached.flip h.ordered label)

theorem Consistent.keptByLoads (z : Z3) (mem : Memory) (C : Nat → Prop) :
    KeptByLoads (Consistent z mem C) := by
  intro t k l t' h h1 h2 hop hu
  exact (h.union h1 h2 hu (.of_labels fun hf => (hop hf).elim)).1

theorem Consistent.dfsanReadLabel {s : InputState} {addr : Nat} (h : Consistent z mem C s.table)
    (hn : n ≠ 0) (hl : ∀ i < n, s.cells addr i ≤ s.table.lastLabel)
    (hread : dfsanReadLabel mem' addr n s = .ok (l, t)) :
    Consistent z mem C t ∧ Extends s.table t := by
  obtain ⟨S, hS⟩ := h.inv
  have hheld : LoadHeld s.table (s.cells addr) n :=
    ⟨.inl (hl 0 (Nat.pos_of_ne_zero hn)), fun i hi => .inl (hl i hi)⟩
  rw [Kirenenko.dfsanReadLabel, if_neg hn] at hread
  have hends : Ends (fun _ => True) _
      (taintUnionLoad s.table (fun i => mem' (addr + i)) (s.cells addr) n) :=
    taintUnionLoad_ends (.keptByLoads z mem C) (fun _ _ => trivial) hS h hheld
      fun _ _ => .inr trivial
  rw [hread] at hends
  exact ⟨hends.2, hends.1.1.grows⟩

end

/-- A buffer with a tainted byte and a concrete buffer. -/
structure TaintedAndConcrete (s : InputState) (tainted concrete n : Nat) : Prop where
  taint : ∃ i < n, s.cells tainted i ≠ constLabel
  const : ∀ i < n, s.cells concrete i = constLabel
  addr : concrete ≠ 0

/-- What the bytes of a buffer stand for on an input: a byte without a label for itself, one with
a label of eight bits for what that denotes. -/
def StandFor (z : Z3) (mem : Memory) (s : InputState) (addr n : Nat) (value : Nat → Env → UInt8) :
    Prop :=
  ∀ i < n, (s.cells addr i = constLabel → ∀ env, value i env = mem (addr + i)) ∧
    ∀ f, Denotes z mem s.table (s.cells addr i) 8 f → ∀ env, (value i env).toNat = f env

/-- The label that is read for a buffer denotes what its bytes stand for. -/
def ReadsValue (z : Z3) (mem : Memory) (s : InputState) (addr n : Nat)
    (value : Nat → Env → UInt8) : Prop :=
  ∀ l t, dfsanReadLabel mem addr n s = .ok (l, t) →
    Denotes z mem t l (8 * n) fun env => littleEndian 8 (fun i => (value i env).toNat) n

section
variable {z : Z3} {mem : Memory} {s : InputState} {C : Nat → Prop} {value : Nat → Env → UInt8}

theorem TaintedAndConcrete.count (h : TaintedAndConcrete s tainted concrete n) : 1 ≤ n := by
  obtain ⟨i, hi, _⟩ := h.taint
  omega

theorem memcmpKey_readsWithin (hlt : constOffset ≤ lt) (hcount : 1 ≤ n) (hle : n ≤ 255)
    (hread : ∀ i < n, C (concrete + i)) :
    ReadsWithin C (canonical (memcmpKey lt constLabel (n % 2 ^ 8) tainted concrete)) := by
  have hpos : constLabel < lt := hlt
  rw [memcmpKey_swapped hpos, memcmpKey_canonical (Nat.le_of_lt hpos) hlt]
  intro _ _ i hi
  have hmod : n % 2 ^ 8 = n := Nat.mod_eq_of_lt (by omega)
  change i < concreteSize (n % 2 ^ 8) at hi
  rw [hmod, concreteSize_eq.2 ⟨hcount, hle⟩] at hi
  exact hread i hi

/-- A comparison reads the concrete buffer only, and denotes that the buffers have the same
bytes. -/
theorem TaintedAndConcrete.compare (h : TaintedAndConcrete s tainted concrete n)
    (hc : Consistent z mem C s.table)
    (hs : s1 = tainted ∧ s2 = concrete ∨ s1 = concrete ∧ s2 = tainted)
    (hread : ∀ i < n, C (concrete + i)) (hle : n ≤ 255)
    (hl : ∀ i < n, s.cells tainted i ≤ s.table.lastLabel)
    (hv : ReadsValue z mem s tainted n value)
    (hu : compareLabel mem s1 s2 n s = .ok (l, t)) :
    (Consistent z mem C t ∧ Extends s.table t) ∧
      Denotes z mem t l 32 fun env =>
        if ∀ i < n, value i env = mem (concrete + i) then 0 else 1 := by
  have hcount := h.count
  have hsize : concreteSize n = n := concreteSize_eq.2 ⟨hcount, hle⟩
  rw [compareLabel_concrete mem (Nat.ne_of_gt hcount) h.const hs] at hu
  obtain ⟨⟨lt, t₁⟩, hload, hu⟩ := except_bind_ok.1 hu
  change dfsanUnion t₁ (memcmpKey lt constLabel n tainted concrete) = .ok (l, t) at hu
  have hd := hv lt t₁ hload
  obtain ⟨hc₁, hg₁⟩ := hc.dfsanReadLabel (Nat.ne_of_gt hcount) hl hload
  obtain ⟨S₁, hS₁⟩ := hc₁.inv
  obtain ⟨hlt, hltl⟩ := hd.label
  obtain ⟨hc₂, hg₂⟩ := hc₁.union (.inl hltl) (fun _ => .inl (Nat.zero_le _)) hu
    (memcmpKey_readsWithin hlt hcount hle hread)
  refine ⟨⟨hc₂, hg₁.trans hg₂⟩, ?_⟩
  have hne : ¬(lt = constLabel ∧ constLabel = constLabel) := fun he => Nat.ne_of_gt hlt he.1
  have h0 : constLabel ≤ t₁.lastLabel := Nat.zero_le _
  rcases hS₁.memcmp_union hltl h0 hne with
    ⟨hdie, _⟩ | ⟨l', t', hok, _, hl', hlast, hk⟩
  · rw [hdie] at hu
    cases hu
  · rw [hok] at hu
    cases hu
    have hside : SideDenotes z mem t lt tainted n (8 * n) _ :=
      (sideDenotes_label hc₂.ordered hlt (Nat.le_trans hltl hg₂.lastLabel)).2
        ((hg₂.denotes hc₁.ordered hc₂.ordered hltl).2 hd)
    have hconst : SideDenotes z mem t constLabel concrete n _ _ := sideDenotes_const h.addr
    rw [hsize] at hconst
    apply (memcmpKey_denotes hc₂.ordered hl' hlast hk hne (.inl ⟨_, _, hside⟩)).2
    refine ⟨rfl, _, _, _, hside, hconst, funext fun env => ?_⟩
    simp only [memoryBytes, littleEndian_inj (fun _ _ => UInt8.toNat_lt _)
      fun _ _ => UInt8.toNat_lt _, UInt8.toNat_inj]

end

/-- A comparison that was made: its label, what the bytes of the tainted buffer stood for, the
address of the concrete buffer, the length, and what the concrete buffer held. -/
structure Comparison where
  label : Nat
  value : Nat → Env → UInt8
  addr : Nat
  size : Nat
  bytes : Nat → UInt8

structure CompareState where
  input : InputState
  mem : Memory
  compared : List Comparison

def CompareState.initial (mem : Memory) : CompareState := ⟨⟨.initial, fun _ => 0⟩, mem, []⟩

/-- The addresses of the concrete buffers that were compared. -/
def CompareState.Compared (s : CompareState) (a : Nat) : Prop :=
  ∃ c ∈ s.compared, ∃ i < c.size, a = c.addr + i

/-- The operations on labels, and what the program does to its memory and its shadow; the two
buffers of a comparison and what the tainted one stands for are given with it. -/
inductive CompareOp where
  | create (offset : Int)
  | union (k : LabelKey)
  | serialize (label : Nat) (deps : Finset Nat)
  | flip (label : Nat)
  | shade (shadow : Int → Nat)
  | write (addr : Nat) (byte : UInt8)
  | memcmp (s1 s2 n tainted concrete : Nat) (value : Nat → Env → UInt8)

def CompareState.withTable (s : CompareState) (t : LabelTable) : CompareState :=
  { s with input := { s.input with table := t } }

/-- A comparison with a concrete buffer is made by the wrapper only. -/
inductive CompareStep (z : Z3) : CompareState → CompareOp → CompareState → Prop where
  | create : dfsanCreateLabel s.input.table offset = .ok (l, t) →
      CompareStep z s (.create offset) (s.withTable t)
  | union : Allocated s.input.table k →
      (k.op = Operators.fmemcmp.code → constOffset ≤ k.l1 ∧ constOffset ≤ k.l2) →
      taintUnion s.input.table k = .ok (l, t) → CompareStep z s (.union k) (s.withTable t)
  | serialize : label ≤ s.input.table.lastLabel →
      CompareStep z s (.serialize label deps)
        (s.withTable (finalState (serialize z s.mem (label + 1) label deps s.input.table)))
  | flip : label ≤ s.input.table.lastLabel →
      CompareStep z s (.flip label) (s.withTable (s.input.table.flip label))
  | shade : CompareStep z s (.shade shadow) { s with input := { s.input with shadow := shadow } }
  | write : CompareStep z s (.write addr byte)
      { s with mem := Function.update s.mem addr byte }
  | memcmp : TaintedAndConcrete s.input tainted concrete n →
      StandFor z s.mem s.input tainted n value →
      (s1 = tainted ∧ s2 = concrete ∨ s1 = concrete ∧ s2 = tainted) →
      dfswMemcmp s.mem s1 s2 n s.input = .ok (ret, l, t) →
      CompareStep z s (.memcmp s1 s2 n tainted concrete value)
        { s.withTable t with
          compared := ⟨l, value, concrete, n, fun i => s.mem (concrete + i)⟩ :: s.compared }

/-- The labels of comparisons are serialized as comparisons with the bytes of the time they were
made, and so are all the labels built on them: as in a memory that still holds these bytes. -/
structure CompareState.Faithful (z : Z3) (s : CompareState) : Prop where
  comparison : ∀ c ∈ s.compared, ∃ e deps t,
    serialize z s.mem (c.label + 1) c.label ∅ s.input.table = .ok (e, deps) t ∧
      e.IsBv 32 fun env => if ∀ i < c.size, c.value i env = c.bytes i then 0 else 1
  label : ∀ l ≤ s.input.table.lastLabel, ∀ mem,
    (∀ c ∈ s.compared, ∀ i < c.size, mem (c.addr + i) = c.bytes i) →
      ∀ e, (∃ deps t, serialize z s.mem (l + 1) l ∅ s.input.table = .ok (e, deps) t) ↔
        termOf z mem s.input.table l = .ok e

/-- Bytes that were compared are not changed, and comparisons have a length that can be recorded
and a buffer whose labels have records and are read for what they stand for. -/
def CompareOp.Keeps (z : Z3) (s : CompareState) : CompareOp → Prop
  | .write addr byte => s.Compared addr → byte = s.mem addr
  | .memcmp _ _ n tainted _ value => n ≤ 255 ∧
      (∀ i < n, s.input.cells tainted i ≤ s.input.table.lastLabel) ∧
      ReadsValue z s.mem s.input tainted n value
  | _ => True

structure CompareInv (z : Z3) (s : CompareState) : Prop where
  consistent : Consistent z s.mem s.Compared s.input.table
  holds : ∀ c ∈ s.compared, ∀ i < c.size, s.mem (c.addr + i) = c.bytes i
  label : ∀ c ∈ s.compared, Denotes z s.mem s.input.table c.label 32 fun env =>
    if ∀ i < c.size, c.value i env = c.bytes i then 0 else 1

theorem CompareInv.initial (z : Z3) (mem : Memory) : CompareInv z (.initial mem) where
  consistent := by
    refine ⟨⟨_, .initial⟩, .initial z mem, ?_⟩
    intro l hl hlast
    change l ≤ 0 at hlast
    unfold constOffset at hl
    omega
  holds c hc := by cases hc
  label c hc := by cases hc

theorem CompareInv.grow {s : CompareState} (h : CompareInv z s)
    (hc : Consistent z s.mem s.Compared t ∧ Extends s.input.table t) :
    CompareInv z (s.withTable t) where
  consistent := hc.1
  holds := h.holds
  label c hmem := by
    have hd := h.label c hmem
    exact (hc.2.denotes h.consistent.ordered hc.1.ordered hd.label.2).2 hd

theorem CompareInv.write {s : CompareState} (h : CompareInv z s)
    (hk : s.Compared addr → byte = s.mem addr) :
    CompareInv z { s with mem := Function.update s.mem addr byte } := by
  have hsame : ∀ a, s.Compared a → Function.update s.mem addr byte a = s.mem a := by
    intro a ha
    by_cases he : a = addr
    · subst he
      rw [Function.update_self]
      exact hk ha
    · rw [Function.update_of_ne he]
  refine ⟨h.consistent.write hsame, ?_, ?_⟩
  · intro c hc i hi
    exact (hsame _ ⟨c, hc, i, hi, rfl⟩).trans (h.holds c hc i hi)
  · intro c hc
    have hd := h.label c hc
    exact (h.consistent.denotes_mem hsame hd.label.2).2 hd

theorem CompareInv.memcmp {s : CompareState} (h : CompareInv z s)
    (hone : TaintedAndConcrete s.input tainted concrete n)
    (hs : s1 = tainted ∧ s2 = concrete ∨ s1 = concrete ∧ s2 = tainted)
    (hu : dfswMemcmp s.mem s1 s2 n s.input = .ok (ret, l, t)) (hle : n ≤ 255)
    (hl : ∀ i < n, s.input.cells tainted i ≤ s.input.table.lastLabel)
    (hv : ReadsValue z s.mem s.input tainted n value) :
    CompareInv z { s.withTable t with
      compared := ⟨l, value, concrete, n, fun i => s.mem (concrete + i)⟩ :: s.compared } := by
  obtain ⟨⟨l', t'⟩, hcmp, hret⟩ := except_bind_ok.1 hu
  cases hret
  have hsub : ∀ a, s.Compared a → CompareState.Compared { s.withTable t with
      compared := ⟨l, value, concrete, n, fun i => s.mem (concrete + i)⟩ :: s.compared } a := by
    rintro a ⟨c, hc, hi⟩
    exact ⟨c, List.mem_cons_of_mem _ hc, hi⟩
  obtain ⟨⟨hcons, hg⟩, hd⟩ := hone.compare (h.consistent.mono hsub) hs
    (fun i hi => ⟨_, List.mem_cons_self, i, hi, rfl⟩) hle hl hv hcmp
  refine ⟨hcons, ?_, ?_⟩
  · intro c hc
    rcases List.mem_cons.1 hc with rfl | hc
    · exact fun _ _ => rfl
    · exact h.holds c hc
  · intro c hc
    rcases List.mem_cons.1 hc with rfl | hc
    · exact hd
    · have hd' := h.label c hc
      exact (hg.denotes h.consistent.ordered hcons.ordered hd'.label.2).2 hd'

theorem CompareStep.inv {s : CompareState} (h : CompareInv z s) (hstep : CompareStep z s a s')
    (hk : a.Keeps z s) : CompareInv z s' := by
  have hc := h.consistent
  cases hstep with
  | create hu => exact h.grow (hc.create hu)
  | union ha hlabels hu =>
    exact h.grow (hc.union (.inl ha.l1) (fun hL => .inl (ha.l2 hL)) hu (.of_labels hlabels))
  | serialize hl =>
    obtain ⟨S, hS⟩ := hc.inv
    exact h.grow ⟨hc.serialize hl, (serialize_sameKeys hS hl).extends⟩
  | flip hl => exact h.grow ⟨hc.flip _, (flip_sameKeys _ _).extends⟩
  | shade => exact ⟨hc, h.holds, h.label⟩
  | write => exact h.write hk
  | memcmp hone _ hs hu => exact h.memcmp hone hs hu hk.1 hk.2.1 hk.2.2

theorem CompareInv.faithful {s : CompareState} (h : CompareInv z s) : s.Faithful z where
  comparison c hc := (h.label c hc).serialize h.consistent.ordered h.consistent.cached
  label l hl mem hmem e := by
    have hsame : ∀ a, s.Compared a → mem a = s.mem a := by
      rintro a ⟨c, hc, i, hi, rfl⟩
      exact (hmem c hc i hi).trans (h.holds c hc i hi).symm
    rw [termOf_mem_congr h.consistent.ordered h.consistent.reads hsame hl]
    exact Coherent.serialize h.consistent.cached h.consistent.ordered hl

/-- In every run that does not overwrite what it has compared, labels keep standing for the
comparisons that were made. -/
theorem comparisons_kept {s : CompareState}
    (h : Steps (fun s a s' => CompareStep z s a s' ∧ a.Keeps z s) (.initial mem) as s) :
    s.Faithful z := by
  have hinv : CompareInv z s := by
    refine h.invariant ?_ (.initial z mem)
    rintro s a s' hs ⟨hstep, hk⟩
    exact hstep.inv hs hk
  exact hinv.faithful

theorem UInt8.toNat_ofNat_inputByte (o : Nat) (env : Env) :
    (UInt8.ofNat (inputByte o env)).toNat = inputByte o env :=
  Nat.mod_eq_of_lt (inputByte_lt o env)

/-- The bytes of the input from an offset on. -/
def inputValue (o i : Nat) (env : Env) : UInt8 := UInt8.ofNat (inputByte (o + i) env)

section
variable {z : Z3} {mem : Memory} {s : InputState}

theorem OneTainted.standFor (h : OneTainted s tainted concrete o n) (hinv : TableInv s.table S) :
    StandFor z mem s tainted n (inputValue o) := by
  intro i hi
  have hraw := h.raw i hi
  refine ⟨fun hc => (Nat.ne_of_gt hraw.1 hc).elim, ?_⟩
  intro f hd env
  have hone : ∀ j < 1, RawInput s.table (s.cells tainted (i + j)) (o + i + j) := by
    intro j hj
    obtain rfl : j = 0 := by omega
    exact hraw
  rcases rawInput_label hinv hone Nat.one_ne_zero with ⟨hdie, _⟩ | ⟨l, t, hok, _, _, _, hiff⟩
  · cases hdie
  · cases hok
    obtain ⟨_, _, rfl⟩ := (hiff z mem 8 f).1 hd
    rw [inputValue, UInt8.toNat_ofNat_inputByte, inputBytes, littleEndian_one]
    rfl

theorem OneTainted.readsValue (h : OneTainted s tainted concrete o n) (hinv : TableInv s.table S)
    (hname : ∀ i < n, Nameable (o + i)) : ReadsValue z mem s tainted n (inputValue o) := by
  intro l t hread
  rw [h.dfsanReadLabel_eq mem hinv] at hread
  rcases rawInput_label hinv h.raw (Nat.ne_of_gt h.count) with
    ⟨hdie, _⟩ | ⟨l', t', hok, _, _, _, hiff⟩
  · rw [hdie] at hread
    cases hread
  · rw [hok] at hread
    cases hread
    refine (hiff z mem _ _).2 ⟨hname, rfl, funext fun env => ?_⟩
    exact littleEndian_congr fun i _ => UInt8.toNat_ofNat_inputByte (o + i) env

theorem OneTainted.taintedAndConcrete (h : OneTainted s tainted concrete o n) :
    TaintedAndConcrete s tainted concrete n where
  taint := ⟨0, h.count, Nat.ne_of_gt (h.raw 0 h.count).1⟩
  const := h.const
  addr := h.addr

end

/-- Two input bytes are compared with the bytes at addresses 64 and 65, of which the second is
written afterwards. -/
def comparedOps (byte : UInt8) : List CompareOp :=
  [.create 0, .create 1, .shade (inputShadow 2), .memcmp 64 4096 2 4096 64 (inputValue 0),
    .write 65 byte]

/-- After the write the label stands for a comparison with the new byte. -/
theorem comparison_overwritten :
    ∃ s c e deps t, Steps (CompareStep .idle) (.initial fun _ => 0) (comparedOps 5) s ∧
      c ∈ s.compared ∧
      serialize .idle s.mem (c.label + 1) c.label ∅ s.input.table = .ok (e, deps) t ∧
      ∃ env, e.eval env ≠ if ∀ i < c.size, c.value i env = c.bytes i then 0 else 1 := by
  have hr : Steps (TableStep .idle) .initial (preallocate 2) _ :=
    .cons (.create rfl) (.cons (.create rfl) .nil)
  have hinv := (hr.table_inv TableHistory.initial_inv).1
  have hone : OneTainted ⟨_, inputShadow 2⟩ 4096 64 0 2 := inputShadow_oneTainted
    (preallocate_fileMode hr).1 (by decide) (by decide) (by decide) (by decide)
  have h : Steps (CompareStep .idle) (.initial fun _ => 0) (comparedOps 5) _ :=
    .cons (.create rfl) (.cons (.create rfl) (.cons .shade (.cons
      (.memcmp hone.taintedAndConcrete (hone.standFor hinv) (.inr ⟨rfl, rfl⟩) rfl)
      (.cons .write .nil))))
  exact ⟨_, _, _, _, _, h, List.mem_cons_self, rfl, fun _ _ => 0, by decide⟩

/-- A write that does not change the byte keeps the comparison. -/
theorem comparisons_kept_rewritten :
    ∃ s, Steps (fun s a s' => CompareStep .idle s a s' ∧ a.Keeps .idle s) (.initial fun _ => 0)
        (comparedOps 0) s ∧
      s.compared ≠ [] ∧ s.Faithful .idle := by
  have hr : Steps (TableStep .idle) .initial (preallocate 2) _ :=
    .cons (.create rfl) (.cons (.create rfl) .nil)
  have hinv := (hr.table_inv TableHistory.initial_inv).1
  have hone : OneTainted ⟨_, inputShadow 2⟩ 4096 64 0 2 := inputShadow_oneTainted
    (preallocate_fileMode hr).1 (by decide) (by decide) (by decide) (by decide)
  have hname : ∀ i < 2, Nameable (0 + i) := by
    unfold Nameable
    decide
  have hread : ReadsValue .idle (fun _ => 0) ⟨_, inputShadow 2⟩ 4096 2 (inputValue 0) :=
    hone.readsValue hinv hname
  have h : Steps (fun s a s' => CompareStep .idle s a s' ∧ a.Keeps .idle s) (.initial fun _ => 0)
      (comparedOps 0) _ :=
    .cons ⟨.create rfl, trivial⟩ (.cons ⟨.create rfl, trivial⟩ (.cons ⟨.shade, trivial⟩ (.cons
      ⟨.memcmp hone.taintedAndConcrete (hone.standFor hinv) (.inr ⟨rfl, rfl⟩) rfl,
        by decide, fun i hi => (hone.raw i hi).2.1, hread⟩
      (.cons ⟨.write, fun _ => rfl⟩ .nil))))
  exact ⟨_, h, List.cons_ne_nil _ _, comparisons_kept h⟩

end Kirenenko
