import Kirenenko.Runtime.InputLabels

namespace Kirenenko
set_option autoImplicit true

def pageSize : Nat := 4096

/-- A mapping of the tainted file, which is a regular file, that succeeded. -/
structure TaintedMapping where
  site : InputSite
  position : Nat
  length : Nat
  offset : site.offset = position
  offsetBound : position < 2 ^ 63
  aligned : pageSize ∣ position
  positive : 0 < length
  lengthBound : length < 2 ^ 64
  regular : site.file.isStdin = false
  tracked : site.file.fd = site.fd
  nonempty : 0 < site.file.size

/-- The bytes of the pages that are mapped. -/
def TaintedMapping.mapped (x : TaintedMapping) : Nat :=
  (x.length + (pageSize - 1)) / pageSize * pageSize

/-- The bound of the first labelling loop; the second one goes on from there to the length. -/
def TaintedMapping.bound (x : TaintedMapping) : Nat :=
  taintedLength x.site.offset x.length (taintGetFile x.site.file x.site.fd)

def TaintedMapping.iterations (x : TaintedMapping) : Nat := x.bound + (x.length - x.bound)

/-- The mapping is labelled up to the end of the file. -/
structure MapsExactly (x : TaintedMapping) (s s' : InputState) : Prop where
  inFile : ∀ i < x.length, x.position + i < x.site.file.size →
    s'.shadow (x.site.buf + i) = x.position + i + 1
  pastEnd : ∀ i < x.length, x.site.file.size ≤ x.position + i →
    s'.shadow (x.site.buf + i) = kInitializingLabel
  other : ∀ a, ¬(x.site.buf ≤ a ∧ a < x.site.buf + x.mapped) → s'.shadow a = s.shadow a
  iterations : x.iterations = x.length

/-- The mapping starts in the file or at its end, and its end is an offset of 64 bits. -/
def TaintedMapping.StartsInFile (x : TaintedMapping) : Prop :=
  x.position ≤ x.site.file.size ∧ x.position + x.length < 2 ^ 64

section
variable {x : TaintedMapping}

theorem TaintedMapping.fsize_eq (x : TaintedMapping) :
    taintGetFile x.site.file x.site.fd = x.site.file.size :=
  if_pos x.tracked

/-- The state after both loops. -/
def TaintedMapping.labelled (x : TaintedMapping) (s : InputState) : InputState :=
  (InputState.mk s.table (fileLabels x.position x.site.buf 0 x.bound s.shadow)).setLabel
    kInitializingLabel (x.site.buf + x.bound) (x.length - x.bound)

theorem dfswMmap_eq (s : InputState) : dfswMmap x.site x.length s = .ok (0, x.labelled s) := by
  have hsize : taintGetFile x.site.file x.site.fd ≠ 0 := by
    rw [x.fsize_eq]
    exact Nat.ne_of_gt x.nonempty
  rw [dfswMmap, if_pos hsize]
  change (do let s ← labelBytes x.site.file x.site.offset x.site.buf 0 x.bound s; _) = _
  rw [labelBytes_file x.regular, except_ok_bind, TaintedMapping.labelled, ← x.offset]
  rfl

theorem labelled_first (s : InputState) (hi : i < x.bound) :
    (x.labelled s).shadow (x.site.buf + (i : Nat)) = (x.position + i + 1) % 2 ^ 32 := by
  unfold TaintedMapping.labelled InputState.setLabel fileLabels constOffset
  have h1 : ¬(x.site.buf + (x.bound : Int) ≤ x.site.buf + i ∧
      x.site.buf + (i : Int) < x.site.buf + x.bound + (x.length - x.bound : Nat)) := by omega
  have h2 : x.site.buf + ((0 : Nat) : Int) ≤ x.site.buf + i ∧
      x.site.buf + (i : Int) < x.site.buf + (0 : Nat) + x.bound := by omega
  simp only [if_neg h1, if_pos h2]
  omega

theorem labelled_second (s : InputState) (hi : x.bound ≤ i) (hlt : i < x.length) :
    (x.labelled s).shadow (x.site.buf + (i : Nat)) = kInitializingLabel := by
  apply if_pos
  omega

theorem labelled_other (s : InputState) (hle : x.bound ≤ x.length)
    (ha : ¬(x.site.buf ≤ a ∧ a < x.site.buf + x.length)) :
    (x.labelled s).shadow a = s.shadow a := by
  have h1 : ¬(x.site.buf + (x.bound : Int) ≤ a ∧
      a < x.site.buf + x.bound + (x.length - x.bound : Nat)) := by omega
  have h2 : ¬(x.site.buf + ((0 : Nat) : Int) ≤ a ∧ a < x.site.buf + (0 : Nat) + x.bound) := by omega
  exact (if_neg h1).trans (if_neg h2)

theorem TaintedMapping.length_le_mapped (x : TaintedMapping) : x.length ≤ x.mapped := by
  unfold mapped pageSize
  omega

theorem TaintedMapping.StartsInFile.bound_eq (h : x.StartsInFile) :
    x.bound = min x.length (x.site.file.size - x.position) := by
  obtain ⟨hle, hlt⟩ := h
  unfold TaintedMapping.bound taintedLength
  rw [x.fsize_eq, x.offset]
  by_cases hc : ((x.position : Int) + x.length) % 2 ^ 64 > x.site.file.size
  · rw [if_pos hc]
    have := x.lengthBound
    omega
  · rw [if_neg hc]
    omega

/-- A mapping that starts past the end, or whose end wraps around, is labelled from its start on. -/
theorem TaintedMapping.bound_of_not (hsize : x.site.file.size < 2 ^ 32) (h : ¬x.StartsInFile) :
    0 < x.bound ∧ (x.position ≤ x.site.file.size → x.bound = x.length) := by
  have hp := x.positive
  have ho := x.offsetBound
  have hl := x.lengthBound
  have hn : x.site.file.size < x.position ∨ 2 ^ 64 ≤ x.position + x.length := by
    by_contra hc
    exact h ⟨by omega, by omega⟩
  unfold TaintedMapping.bound taintedLength
  rw [x.fsize_eq, x.offset]
  by_cases hc : ((x.position : Int) + x.length) % 2 ^ 64 > x.site.file.size
  · rw [if_pos hc]
    omega
  · rw [if_neg hc]
    exact ⟨hp, fun _ => rfl⟩

theorem TaintedMapping.StartsInFile.exact (h : x.StartsInFile) (hsize : x.site.file.size < 2 ^ 32)
    (s : InputState) : MapsExactly x s (x.labelled s) := by
  have hb := h.bound_eq
  have hle : x.bound ≤ x.length := by omega
  refine ⟨?_, ?_, ?_, ?_⟩
  · intro i hi hin
    rw [labelled_first s (by omega), Nat.mod_eq_of_lt (by omega)]
  · intro i hi hpast
    exact labelled_second s (by omega) hi
  · intro a ha
    have := x.length_le_mapped
    exact labelled_other s hle (by omega)
  · unfold iterations
    omega

theorem MapsExactly.startsInFile {s : InputState}
    (hsize : x.site.file.size < kInitializingLabel - 1) (h : MapsExactly x s (x.labelled s)) :
    x.StartsInFile := by
  by_contra hn
  have hs : x.site.file.size < 2 ^ 32 := by
    unfold kInitializingLabel at hsize
    omega
  obtain ⟨hpos, hall⟩ := x.bound_of_not hs hn
  by_cases hle : x.position ≤ x.site.file.size
  · have hlen : 2 ^ 64 ≤ x.position + x.length := by
      by_contra hc
      exact hn ⟨hle, by omega⟩
    have hi : x.site.file.size - x.position < x.length := by omega
    have hlabel := h.pastEnd _ hi (by omega)
    rw [labelled_first s (by rw [hall hle]; exact hi)] at hlabel
    unfold kInitializingLabel at hlabel hsize
    omega
  · have hlabel := h.pastEnd 0 x.positive (by omega)
    rw [labelled_first s hpos] at hlabel
    obtain ⟨k, hk⟩ := x.aligned
    unfold kInitializingLabel at hlabel
    unfold pageSize at hk
    omega

/-- A mapping of the tainted file is labelled exactly up to the end of the file if and only if it
starts in the file or at its end. -/
theorem mapped_file_labelled_iff {s : TableHistory} (hr : Steps (TableStep z) .initial as s)
    (hmode : FileMode s.table x.site.file.size) (shadow : Int → Nat) :
    ∃ s', dfswMmap x.site x.length ⟨s.table, shadow⟩ = .ok (0, s') ∧
      (MapsExactly x ⟨s.table, shadow⟩ s' ↔ x.StartsInFile) := by
  have hs : TableInv s.table s.Stored := (hr.table_inv TableHistory.initial_inv).1
  have hlt : x.site.file.size < kInitializingLabel - 1 := by
    have h1 := hmode.bound
    have h2 := hs.bound
    unfold maxLabel at h2
    unfold kInitializingLabel
    omega
  refine ⟨_, dfswMmap_eq _, ?_, ?_⟩
  · exact fun h => h.startsInFile hlt
  · intro h
    exact h.exact (by unfold kInitializingLabel at hlt; omega) _

end

/-- One byte of a file with one byte, mapped at a page. -/
def oneByteMapping (page : Nat) (h : page < 2) : TaintedMapping where
  site := { file := { fd := 3, size := 1 }, fd := 3, offset := page * pageSize, buf := 65536 }
  position := page * pageSize
  length := 1
  offset := Int.natCast_mul page pageSize
  offsetBound := by unfold pageSize; omega
  aligned := Nat.dvd_mul_left pageSize page
  positive := Nat.one_pos
  lengthBound := by decide
  regular := rfl
  tracked := rfl
  nonempty := Nat.one_pos

theorem oneByteFile_run : ∃ s, Steps (TableStep .idle) .initial (preallocate 1) s ∧
    FileMode s.table 1 := by
  have h : Steps (TableStep .idle) .initial (preallocate 1) _ := .cons (.create rfl) .nil
  exact ⟨_, h, (preallocate_fileMode h).1⟩

/-- The second page of a file with one byte is mapped: the first of its bytes gets the label of
offset 4096, and the loops do not stop at the length. -/
theorem mapping_past_end :
    ∃ s s', Steps (TableStep .idle) .initial (preallocate 1) s ∧ FileMode s.table 1 ∧
      dfswMmap (oneByteMapping 1 (by decide)).site 1 ⟨s.table, fun _ => 0⟩ = .ok (0, s') ∧
      s'.shadow 65536 = 4097 ∧ (oneByteMapping 1 (by decide)).iterations = 2 ^ 64 - 4095 ∧
      ¬MapsExactly (oneByteMapping 1 (by decide)) ⟨s.table, fun _ => 0⟩ s' := by
  obtain ⟨s, hr, hmode⟩ := oneByteFile_run
  have hcount : (oneByteMapping 1 (by decide)).iterations = 2 ^ 64 - 4095 := by decide
  refine ⟨s, _, hr, hmode, dfswMmap_eq (x := oneByteMapping 1 (by decide)) _, ?_, hcount, ?_⟩
  · exact labelled_first (x := oneByteMapping 1 (by decide)) (i := 0) _ (by decide)
  · intro h
    exact absurd (hcount.symm.trans h.iterations) (by decide)

/-- Five bytes, mapped from the start of a file with three bytes. -/
def fiveByteMapping : TaintedMapping where
  site := { file := { fd := 3, size := 3 }, fd := 3, offset := 0, buf := 65536 }
  position := 0
  length := 5
  offset := rfl
  offsetBound := Nat.two_pow_pos 63
  aligned := Nat.dvd_zero pageSize
  positive := Nat.succ_pos 4
  lengthBound := by decide
  regular := rfl
  tracked := rfl
  nonempty := Nat.succ_pos 2

theorem mapped_file_labelled_five :
    ∃ s s', Steps (TableStep .idle) .initial (preallocate 3) s ∧
      dfswMmap fiveByteMapping.site 5 ⟨s.table, fun _ => 0⟩ = .ok (0, s') ∧
      MapsExactly fiveByteMapping ⟨s.table, fun _ => 0⟩ s' ∧
      s'.shadow 65538 = 3 ∧ s'.shadow 65539 = kInitializingLabel := by
  have hr : Steps (TableStep .idle) .initial (preallocate 3) _ :=
    .cons (.create rfl) (.cons (.create rfl) (.cons (.create rfl) .nil))
  obtain ⟨s', hs', hiff⟩ := mapped_file_labelled_iff (x := fiveByteMapping) hr
    (preallocate_fileMode hr).1 fun _ => 0
  have hmaps := hiff.2 ⟨by decide, by decide⟩
  exact ⟨_, s', hr, hs', hmaps, hmaps.inFile 2 (by decide) (by decide),
    hmaps.pastEnd 3 (by decide) (by decide)⟩

end Kirenenko
