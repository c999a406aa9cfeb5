import Kirenenko.Lib.Run
import Kirenenko.Runtime.LabelTable

namespace Kirenenko
set_option autoImplicit true

/-- The static variables of the bump allocator behind the hash table. -/
structure Allocator where
  beginAddr : Nat
  nextUsableByte : Nat
  endAddr : Nat

def allocatorInit (beginAddr endAddr : Nat) : Allocator := ⟨beginAddr, beginAddr, endAddr⟩

/-- The counter is advanced before the check, and the sums are taken in 64 bits. -/
def Allocator.alloc (a : Allocator) (size : Nat) : Except Fault (Nat × Allocator) :=
  if a.beginAddr = 0 then .error .die
  else
    let next := (a.nextUsableByte + size) % 2 ^ 64
    if next ≥ a.endAddr then .error .die
    else .ok (a.nextUsableByte, { a with nextUsableByte := next })

def hashtableSize : Nat := 2 ^ 32

/-- `sizeof(struct union_hashtable_entry)` -/
def hashtableEntrySize : Nat := 24

/-- What the hash table asks of the allocator: an array of `n` buckets, or an entry. -/
inductive HashtableRequest where
  | construct (n : Nat)
  | insert
deriving DecidableEq

def HashtableRequest.size : HashtableRequest → Nat
  | .construct n => n * 8 % 2 ^ 64
  | .insert => hashtableEntrySize

structure ArenaBlock where
  addr : Nat
  size : Nat
deriving DecidableEq

/-- The allocator with the blocks it has returned, the latest one first. -/
structure Arena where
  allocator : Allocator
  blocks : List ArenaBlock

def Arena.initial : Arena where
  allocator := allocatorInit hashTableAddr (hashTableAddr + hashtableSize)
  blocks := []

def Arena.request (s : Arena) (r : HashtableRequest) : Except Fault Arena := do
  let (addr, allocator) ← s.allocator.alloc r.size
  return { allocator, blocks := ⟨addr, r.size⟩ :: s.blocks }

def labelInfoAddr (label : Nat) : Nat := unionTableAddr + labelInfoSize * label

/-- The whole record of a label lies in the table. -/
def RecordInside (label : Nat) : Prop := labelInfoAddr label + labelInfoSize ≤ hashTableAddr

instance (label : Nat) : Decidable (RecordInside label) := inferInstanceAs (Decidable (_ ≤ _))

def ArenaBlock.Inside (b : ArenaBlock) : Prop :=
  hashTableAddr ≤ b.addr ∧ b.addr + b.size ≤ hashTableAddr + hashtableSize

def ArenaBlock.Disjoint (b c : ArenaBlock) : Prop :=
  b.addr + b.size ≤ c.addr ∨ c.addr + c.size ≤ b.addr

/-- Memory after a write to the record of a label. -/
def WritesRecord (label : Nat) (mem mem' : Nat → UInt8) : Prop :=
  ∀ a, a < labelInfoAddr label ∨ labelInfoAddr label + labelInfoSize ≤ a → mem' a = mem a

def ArenaBlock.Unchanged (b : ArenaBlock) (mem mem' : Nat → UInt8) : Prop :=
  ∀ i < b.size, mem' (b.addr + i) = mem (b.addr + i)

/-- The address after the requested block does not wrap around. -/
def NoWrap (s : Arena) (r : HashtableRequest) : Prop :=
  s.allocator.nextUsableByte + r.size < 2 ^ 64

/-- The one label whose record starts in the table and does not end there. -/
def straddlingLabel : Nat := 920350134

theorem checkLabel_ok (h : dfsanCheckLabel label = .ok ()) :
    RecordInside label ↔ label ≠ straddlingLabel := by
  unfold dfsanCheckLabel at h
  split at h
  · cases h
  · split at h
    · cases h
    · rename_i hlt
      simp only [unionTableAddr, labelInfoSize, hashTableAddr] at hlt
      simp only [RecordInside, labelInfoAddr, unionTableAddr, labelInfoSize, hashTableAddr,
        straddlingLabel]
      omega

theorem Arena.request_ok {s s' : Arena} (h : s.request r = .ok s') :
    (s.allocator.nextUsableByte + r.size) % 2 ^ 64 < s.allocator.endAddr ∧
      s' = ⟨{ s.allocator with
          nextUsableByte := (s.allocator.nextUsableByte + r.size) % 2 ^ 64 },
        ⟨s.allocator.nextUsableByte, r.size⟩ :: s.blocks⟩ := by
  obtain ⟨⟨addr, allocator⟩, halloc, h⟩ := except_bind_ok.1 h
  cases h
  simp only [Allocator.alloc] at halloc
  split at halloc
  · cases halloc
  · split at halloc
    · cases halloc
    · rename_i hlt
      cases halloc
      exact ⟨Nat.lt_of_not_le hlt, rfl⟩

/-- All blocks lie below the counter, one after another. -/
structure Arena.Stacked (s : Arena) : Prop where
  endAddr : s.allocator.endAddr = hashTableAddr + hashtableSize
  next : hashTableAddr ≤ s.allocator.nextUsableByte
  below : s.allocator.nextUsableByte ≤ s.allocator.endAddr
  blocks : ∀ b ∈ s.blocks, hashTableAddr ≤ b.addr ∧ b.addr + b.size ≤ s.allocator.nextUsableByte
  disjoint : s.blocks.Pairwise ArenaBlock.Disjoint

theorem Arena.Stacked.initial : Arena.initial.Stacked where
  endAddr := rfl
  next := Nat.le_refl _
  below := Nat.le_add_right _ _
  blocks b hb := by cases hb
  disjoint := .nil

theorem Arena.Stacked.request {s s' : Arena} (h : s.Stacked) (hw : NoWrap s r)
    (hr : s.request r = .ok s') : s'.Stacked := by
  obtain ⟨hlt, rfl⟩ := Arena.request_ok hr
  have hnext := h.next
  rw [NoWrap] at hw
  rw [Nat.mod_eq_of_lt hw] at hlt ⊢
  refine ⟨h.endAddr, ?_, Nat.le_of_lt hlt, ?_, ?_⟩
  · exact Nat.le_trans hnext (Nat.le_add_right _ _)
  · intro b hb
    rcases List.mem_cons.1 hb with rfl | hb
    · exact ⟨hnext, Nat.le_refl _⟩
    · exact ⟨(h.blocks b hb).1, Nat.le_trans (h.blocks b hb).2 (Nat.le_add_right _ _)⟩
  · apply List.Pairwise.cons _ h.disjoint
    intro b hb
    exact .inr (h.blocks b hb).2

/-- All blocks are inside the arena and apart. -/
def Arena.Sound (s : Arena) : Prop :=
  (∀ b ∈ s.blocks, b.Inside) ∧ s.blocks.Pairwise ArenaBlock.Disjoint

theorem Arena.Stacked.sound {s : Arena} (h : s.Stacked) : s.Sound := by
  refine ⟨?_, h.disjoint⟩
  intro b hb
  have hbelow := h.below
  rw [h.endAddr] at hbelow
  exact ⟨(h.blocks b hb).1, Nat.le_trans (h.blocks b hb).2 hbelow⟩

theorem Arena.request_wraps {s s' : Arena} (hw : ¬NoWrap s r) (hr : s.request r = .ok s') :
    ∃ b ∈ s'.blocks, ¬b.Inside := by
  obtain ⟨-, rfl⟩ := Arena.request_ok hr
  refine ⟨_, List.mem_cons_self, ?_⟩
  rintro ⟨-, hend⟩
  simp only [NoWrap] at hw
  simp only [hashTableAddr, hashtableSize] at hend
  omega

theorem Arena.request_keeps {s s' : Arena} (hb : ∃ b ∈ s.blocks, ¬b.Inside)
    (hr : s.request r = .ok s') : ∃ b ∈ s'.blocks, ¬b.Inside := by
  obtain ⟨-, rfl⟩ := Arena.request_ok hr
  obtain ⟨b, hb, hout⟩ := hb
  exact ⟨b, List.mem_cons_of_mem _ hb, hout⟩

theorem Arena.sound_iff {s : Arena} (h : reqs.foldlM Arena.request Arena.initial = .ok s) :
    s.Sound ↔ EachRun Arena.request NoWrap Arena.initial reqs := by
  apply foldlM_iff_each (I := Arena.Stacked) (B := fun s => ∃ b ∈ s.blocks, ¬b.Inside) _ _ _ _ _ _
    .initial h
  · exact fun s r s' hs hw hr => hs.request hw hr
  · exact fun s r s' _ hw hr => Arena.request_wraps hw hr
  · exact fun s r s' hb hr => Arena.request_keeps hb hr
  · exact fun s hs => hs.sound
  · rintro s ⟨b, hb, hout⟩ hs
    exact hout (hs.1 b hb)

/-- Only a request of exabytes can wrap around: those of the program, for an array of `2 ^ 18`
buckets and for entries, never do. -/
theorem noWrap_of_size (h : ∀ r ∈ reqs, r.size ≤ 2 ^ 63) :
    EachRun Arena.request NoWrap Arena.initial reqs := by
  have hwrap : ∀ (s : Arena) (r : HashtableRequest), s.Stacked → r.size ≤ 2 ^ 63 → NoWrap s r := by
    intro s r hs hsize
    have hbelow := hs.below
    rw [hs.endAddr, hashTableAddr, hashtableSize] at hbelow
    rw [NoWrap]
    omega
  apply EachRun.imp _ hwrap _ Arena.Stacked.initial (EachRun.of_forall _ h)
  exact fun s r s' hs hsize hr => hs.request (hwrap s r hs hsize) hr

theorem RecordInside.unchanged {b : ArenaBlock} (h : RecordInside label) (hb : b.Inside)
    (hw : WritesRecord label mem mem') : b.Unchanged mem mem' := by
  intro i _
  apply hw
  exact .inr (Nat.le_trans h (Nat.le_trans hb.1 (Nat.le_add_right _ _)))

/-- The label table and the hash table stay apart exactly as long as the record that straddles the
border is not used and no request wraps around. -/
theorem tables_apart {s : Arena} (label : Nat) (hl : dfsanCheckLabel label = .ok ())
    (reqs : List HashtableRequest) (h : reqs.foldlM Arena.request Arena.initial = .ok s) :
    (unionTableAddr ≤ labelInfoAddr label ∧ RecordInside label ∧ (∀ b ∈ s.blocks, b.Inside) ∧
      s.blocks.Pairwise ArenaBlock.Disjoint ∧
      ∀ mem mem', WritesRecord label mem mem' → ∀ b ∈ s.blocks, b.Unchanged mem mem') ↔
    label ≠ straddlingLabel ∧ EachRun Arena.request NoWrap Arena.initial reqs := by
  rw [← checkLabel_ok hl, ← Arena.sound_iff h]
  constructor
  · rintro ⟨-, hrec, hin, hdis, -⟩
    exact ⟨hrec, hin, hdis⟩
  · rintro ⟨hrec, hin, hdis⟩
    exact ⟨Nat.le_add_right _ _, hrec, hin, hdis, fun _ _ hw b hb => hrec.unchanged (hin b hb) hw⟩

theorem tables_apart_program :
    ∃ s, [HashtableRequest.construct unionTableSize, .insert].foldlM Arena.request Arena.initial =
        .ok s ∧ RecordInside 1 ∧ (∀ b ∈ s.blocks, b.Inside) ∧
      s.blocks.Pairwise ArenaBlock.Disjoint := by
  have hnowrap : EachRun Arena.request NoWrap Arena.initial
      [.construct unionTableSize, .insert] :=
    noWrap_of_size (by decide)
  have h := (tables_apart 1 rfl [.construct unionTableSize, .insert] rfl).2 ⟨by decide, hnowrap⟩
  exact ⟨_, rfl, h.2.1, h.2.2.1, h.2.2.2.1⟩

/-- The last eight bytes of the straddling record are the first bucket of the table. -/
theorem straddling_record :
    dfsanCheckLabel straddlingLabel = .ok () ∧ ¬RecordInside straddlingLabel ∧
      ∃ s, [HashtableRequest.construct unionTableSize].foldlM Arena.request Arena.initial = .ok s ∧
        ∃ mem mem', WritesRecord straddlingLabel mem mem' ∧
          ∃ b ∈ s.blocks, ¬b.Unchanged mem mem' := by
  refine ⟨rfl, by decide, _, rfl, fun _ => 1, Function.update (fun _ => 1) hashTableAddr 0, ?_⟩
  refine ⟨?_, ⟨hashTableAddr, 2 ^ 21⟩, List.mem_cons_self, ?_⟩
  · intro a ha
    apply Function.update_of_ne
    simp only [labelInfoAddr, unionTableAddr, labelInfoSize, straddlingLabel] at ha
    rw [hashTableAddr]
    omega
  · intro hsame
    have hfirst := hsame 0 (by decide)
    simp at hfirst

end Kirenenko
