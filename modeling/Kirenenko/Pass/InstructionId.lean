import Kirenenko.Lib.Probing

namespace Kirenenko
set_option autoImplicit true

/-- The fields of `AngoraLLVMPass` that the ids depend on. -/
structure IdState where
  modId : UInt32
  cidCounter : UInt32
  randSeed : UInt64
  isBc : Bool
  genIdRandom : Bool
  uniqCidSet : Finset UInt32

def mapSize : UInt32 := 0x100000

@[irreducible] def IdState.getRandomNum (s : IdState) : UInt32 × IdState :=
  let seed := s.randSeed * 1103515245 + 12345
  (seed.toUInt32, { s with randSeed := seed })

def IdState.getRandomContextId (s : IdState) : UInt32 × IdState :=
  let (x, s) := s.getRandomNum
  (x % mapSize, s)

/-- The next value of the loop that looks for a fresh id. -/
def nextId (h : UInt32) : UInt32 := h * 3 + 1

/-- The start value for an instruction with some debug location, a line and a column. -/
def IdState.startId (s : IdState) (loc : Option (UInt32 × UInt32)) : UInt32 × IdState :=
  if s.genIdRandom then s.getRandomNum
  else
    match loc with
    | some (line, col) => ((col * 33 + line) * 33 + s.modId, s)
    | none => s.getRandomNum

/-- `fuel` bounds the rounds of the loop; without a result it has not ended. -/
def IdState.getInstructionId (fuel : Nat) (s : IdState) (loc : Option (UInt32 × UInt32)) :
    Option (UInt32 × IdState) :=
  if s.isBc then
    let h := s.cidCounter + 1
    some (h, { s with cidCounter := h })
  else do
    let (h, s) := s.startId loc
    let h ← probe nextId s.uniqCidSet fuel h
    return (h, { s with uniqCidSet := insert h s.uniqCidSet })

/-- What the pass draws on the way through a module: an id for an instruction, or a random
context. -/
inductive IdEvent where
  | instruction (loc : Option (UInt32 × UInt32))
  | context
deriving DecidableEq

def IdEvent.isInstruction : IdEvent → Bool
  | .instruction _ => true
  | .context => false

/-- The ids of the instructions of a module, in order. -/
def instructionIds (fuel : Nat) : IdState → List IdEvent → Option (List UInt32)
  | _, [] => some []
  | s, .context :: events => instructionIds fuel s.getRandomContextId.2 events
  | s, .instruction loc :: events => do
    let (id, s) ← s.getInstructionId fuel loc
    let ids ← instructionIds fuel s events
    return id :: ids

theorem toNat_nextId (h : UInt32) : (nextId h).toNat = tripled 32 h.toNat := by
  have h3 : (3 : UInt32).toNat = 3 := rfl
  rw [nextId, UInt32.toNat_add, UInt32.toNat_mul, h3, UInt32.toNat_one, tripled]
  omega

theorem toNat_nextId_iterate (n : Nat) (h : UInt32) :
    (nextId^[n] h).toNat = (tripled 32)^[n] h.toNat :=
  (Function.Semiconj.iterate_right (f := UInt32.toNat) toNat_nextId n) h

/-- The loop finds an id that is not used, if fewer than `2 ^ 31` are. -/
theorem probe_nextId (used : Finset UInt32) (hused : used.card < 2 ^ 31) (h : UInt32) :
    ∃ n ≤ used.card, nextId^[n] h ∉ used ∧
      ∀ fuel, n < fuel → probe nextId used fuel h = some (nextId^[n] h) := by
  have hinj : ∀ i j, i < j → j ≤ used.card → nextId^[i] h ≠ nextId^[j] h := by
    intro i j hij hj heq
    apply tripled_injective (w := 32) (x := h.toNat) (by decide) hij (Nat.lt_of_le_of_lt hj hused)
    rw [← toNat_nextId_iterate, ← toNat_nextId_iterate, heq]
  obtain ⟨n, hn, hfree, hbefore⟩ := exists_free used hinj
  exact ⟨n, hn, hfree, fun fuel hfuel => probe_eq_some nextId used hbefore hfree hfuel⟩

theorem getRandomNum_keeps (s : IdState) :
    s.getRandomNum.2.isBc = s.isBc ∧ s.getRandomNum.2.uniqCidSet = s.uniqCidSet := by
  cases s
  unfold IdState.getRandomNum
  exact ⟨rfl, rfl⟩

theorem startId_keeps (s : IdState) (loc : Option (UInt32 × UInt32)) :
    (s.startId loc).2.isBc = s.isBc ∧ (s.startId loc).2.uniqCidSet = s.uniqCidSet := by
  unfold IdState.startId
  split
  · exact getRandomNum_keeps s
  · cases loc with
    | none => exact getRandomNum_keeps s
    | some loc => exact ⟨rfl, rfl⟩

theorem getInstructionId_fresh {s : IdState} (hbc : s.isBc = false)
    (hcard : s.uniqCidSet.card < 2 ^ 31) (hfuel : 2 ^ 31 ≤ fuel)
    (loc : Option (UInt32 × UInt32)) :
    ∃ id s', s.getInstructionId fuel loc = some (id, s') ∧ id ∉ s.uniqCidSet ∧
      s'.isBc = false ∧ s'.uniqCidSet = insert id s.uniqCidSet := by
  obtain ⟨hbc', hset⟩ := startId_keeps s loc
  obtain ⟨n, hn, hfree, hprobe⟩ := probe_nextId s.uniqCidSet hcard (s.startId loc).1
  refine ⟨_, { (s.startId loc).2 with
    uniqCidSet := insert (nextId^[n] (s.startId loc).1) s.uniqCidSet }, ?_, hfree, ?_, rfl⟩
  · rw [IdState.getInstructionId, hbc]
    simp only [hset, hprobe fuel (by omega)]
    rfl
  · exact hbc'.trans hbc

theorem instructionIds_fresh {s : IdState} (hbc : s.isBc = false) (hfuel : 2 ^ 31 ≤ fuel)
    (hcard : s.uniqCidSet.card + events.countP IdEvent.isInstruction ≤ 2 ^ 31) :
    ∃ ids, instructionIds fuel s events = some ids ∧
      ids.length = events.countP IdEvent.isInstruction ∧ ids.Nodup ∧
      ∀ id ∈ ids, id ∉ s.uniqCidSet := by
  induction events generalizing s with
  | nil => exact ⟨[], rfl, rfl, .nil, fun id hid => by cases hid⟩
  | cons event events ih =>
    cases event with
    | context =>
      have hctx : s.getRandomContextId.2 = s.getRandomNum.2 := by
        rw [IdState.getRandomContextId]
      obtain ⟨hbc', hset⟩ := getRandomNum_keeps s
      have hrest := ih (s := s.getRandomNum.2) (hbc'.trans hbc)
      rw [hset] at hrest
      rw [List.countP_cons_of_neg (by decide)] at hcard ⊢
      rw [instructionIds, hctx]
      exact hrest hcard
    | instruction loc =>
      rw [List.countP_cons_of_pos rfl] at hcard ⊢
      obtain ⟨id, s', hget, hfree, hbc', hset⟩ := getInstructionId_fresh hbc (by omega) hfuel loc
      have hcard' : s'.uniqCidSet.card + events.countP IdEvent.isInstruction ≤ 2 ^ 31 := by
        rw [hset, Finset.card_insert_of_notMem hfree]
        omega
      obtain ⟨ids, hids, hlen, hnodup, hdisj⟩ := ih hbc' hcard'
      rw [hset] at hdisj
      refine ⟨id :: ids, ?_, ?_, ?_, ?_⟩
      · rw [instructionIds, hget]
        simp only [Option.bind_eq_bind, Option.bind_some, hids]
        rfl
      · rw [List.length_cons, hlen]
      · apply List.nodup_cons.2 ⟨_, hnodup⟩
        intro hid
        exact hdisj id hid (Finset.mem_insert_self _ _)
      · intro x hx
        rcases List.mem_cons.1 hx with rfl | hx
        · exact hfree
        · exact fun hused => hdisj x hx (Finset.mem_insert_of_mem hused)

/-- The loop ends, and the ids of fewer than `2 ^ 31` instructions are pairwise distinct. -/
theorem instruction_ids_distinct :
    (∀ (h : UInt32) (used : Finset UInt32), used.card < 2 ^ 31 →
      ∃ n, nextId^[n] h ∉ used ∧
        ∀ fuel, n < fuel → probe nextId used fuel h = some (nextId^[n] h)) ∧
    ∀ (s : IdState) (events : List IdEvent), s.isBc = false → s.uniqCidSet = ∅ →
      events.countP IdEvent.isInstruction < 2 ^ 31 → ∀ fuel, 2 ^ 31 ≤ fuel →
        ∃ ids, instructionIds fuel s events = some ids ∧
          ids.length = events.countP IdEvent.isInstruction ∧ ids.Nodup := by
  constructor
  · intro h used hused
    obtain ⟨n, -, hfree, hprobe⟩ := probe_nextId used hused h
    exact ⟨n, hfree, hprobe⟩
  · intro s events hbc hset hcount fuel hfuel
    have hcard : s.uniqCidSet.card + events.countP IdEvent.isInstruction ≤ 2 ^ 31 := by
      rw [hset, Finset.card_empty]
      omega
    obtain ⟨ids, hids, hlen, hnodup, -⟩ := instructionIds_fresh hbc hfuel hcard
    exact ⟨ids, hids, hlen, hnodup⟩

/-- Two instructions at the same place get different ids. -/
theorem instruction_ids_same_place :
    ∃ ids, instructionIds (2 ^ 31) ⟨7, 0, 7, false, false, ∅⟩
        [.instruction (some (3, 5)), .instruction (some (3, 5))] = some ids ∧
      ids.length = 2 ∧ ids.Nodup :=
  instruction_ids_distinct.2 ⟨7, 0, 7, false, false, ∅⟩
    [.instruction (some (3, 5)), .instruction (some (3, 5))] rfl rfl (by decide) _ (Nat.le_refl _)

end Kirenenko
