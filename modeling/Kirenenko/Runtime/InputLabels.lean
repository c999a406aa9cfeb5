import Mathlib.Data.List.TakeWhile
import Kirenenko.Runtime.InputWrappers

namespace Kirenenko
set_option autoImplicit true

/-- A call on a descriptor of the tainted file, which is a regular file. Its content is that at the
time of the call: the file may have grown or shrunk since the start. -/
structure TaintedRead where
  site : InputSite
  content : List UInt8
  position : Nat
  offset : site.offset = position
  regular : site.file.isStdin = false

/-- The bytes of the file that a call places into the buffer. -/
def TaintedRead.bytes (x : TaintedRead) (n : Nat) : List UInt8 := (x.content.drop x.position).take n

/-- The calls with what the C library does: how many bytes it places into the buffer, and whether
it reports them. A call of `fread` reports the complete items; a call that places bytes may still
fail, on an error of the device. -/
inductive InputCall where
  | read (count : Nat) (ret : Option Nat)
  | pread (count : Nat) (ret : Option Nat)
  | fread (size nmemb placed : Nat)
  | freadUnlocked (size nmemb placed : Nat)
  | getline (placed : Nat) (ok : Bool)
  | getdelim (placed : Nat) (ok : Bool)
  | internalGetdelim (placed : Nat) (ok : Bool)
  | fgets (size sLabel placed : Nat) (ok : Bool)
  | fgetsUnlocked (size sLabel placed : Nat) (ok : Bool)

/-- The result of `read`, and of `getline` -/
def resultOf : Option Nat → Int
  | some n => n
  | none => -1

def lineResult (placed : Nat) (ok : Bool) : Int := if ok then placed else -1

def TaintedRead.string (x : TaintedRead) (placed : Nat) (ok : Bool) : Option (List UInt8) :=
  if ok then some (x.bytes placed) else none

def InputCall.run (x : TaintedRead) (s : InputState) : InputCall → Except Fault (Nat × InputState)
  | .read _ ret => dfswRead x.site (resultOf ret) s
  | .pread _ ret => dfswPread x.site (resultOf ret) s
  | .fread size _ placed => dfswFread x.site size (placed / size) s
  | .freadUnlocked size _ placed => dfswFreadUnlocked x.site size (placed / size) s
  | .getline placed ok => dfswGetline x.site (lineResult placed ok) s
  | .getdelim placed ok => dfswGetdelim x.site (lineResult placed ok) s
  | .internalGetdelim placed ok => dfswInternalGetdelim x.site (lineResult placed ok) s
  | .fgets _ sLabel placed ok => dfswFgets x.site sLabel (x.string placed ok) s
  | .fgetsUnlocked _ sLabel placed ok => dfswFgetsUnlocked x.site sLabel (x.string placed ok) s

def InputCall.placed : InputCall → Nat
  | .read _ ret | .pread _ ret => ret.getD 0
  | .fread _ _ placed | .freadUnlocked _ _ placed => placed
  | .getline placed _ | .getdelim placed _ | .internalGetdelim placed _ => placed
  | .fgets _ _ placed _ | .fgetsUnlocked _ _ placed _ => placed

/-- Whether the C library appends a terminating NUL. -/
def InputCall.terminated : InputCall → Bool
  | .getline _ ok | .getdelim _ ok | .internalGetdelim _ ok => ok
  | .fgets _ _ _ ok | .fgetsUnlocked _ _ _ ok => ok
  | _ => false

/-- No call places more than it was asked for, and a line is not empty. -/
def InputCall.Fits : InputCall → Prop
  | .read count ret | .pread count ret => ret.getD 0 ≤ count
  | .fread size nmemb placed | .freadUnlocked size nmemb placed => placed ≤ size * nmemb
  | .getline placed ok | .getdelim placed ok | .internalGetdelim placed ok =>
    ok = true → placed ≠ 0
  | .fgets size _ placed ok | .fgetsUnlocked size _ placed ok =>
    placed ≤ size ∧ (ok = true → placed < size)

/-- The outcomes of the C library: the bytes are in the file, so there are none if the position is
past its end. -/
structure InputCall.Possible (x : TaintedRead) (c : InputCall) : Prop where
  fits : c.Fits
  inFile : c.placed ≤ x.content.length - x.position

/-- A label of a raw input byte. -/
def RawInput (t : LabelTable) (l o : Nat) : Prop :=
  constOffset ≤ l ∧ l ≤ t.lastLabel ∧ t.key l = { size := 8, op1 := o }

/-- Exactly what was read is labelled: the bytes that were placed from offsets below the recorded
size have the labels of their offsets, an appended NUL has none, and all other labels are as
before. -/
structure LabelsExactly (t : LabelTable) (x : TaintedRead) (placed : Nat) (terminated : Bool)
    (shadow shadow' : Int → Nat) : Prop where
  raw : ∀ i < placed, x.position + i < x.site.file.size →
    RawInput t (shadow' (x.site.buf + i)) (x.position + i)
  nul : terminated = true → shadow' (x.site.buf + placed) = 0
  other : ∀ a, (∀ i < placed, x.position + i < x.site.file.size → a ≠ x.site.buf + i) →
    (terminated = true → a ≠ x.site.buf + placed) → shadow' a = shadow a

/-- The label that a wrapper gives to a byte: that of its offset, whether there is one or not, if
the descriptor is the one on record and the file was not empty at the start. -/
def TaintedRead.label (x : TaintedRead) (i : Nat) : Nat :=
  if taintGetFile x.site.file x.site.fd ≠ 0 then (x.position + i + constOffset) % 2 ^ 32 else 0

/-- When it is right to label the first bytes of those that were placed: the descriptor is on
record, the later bytes have their labels, and the bytes from offsets that have no label of their
own already carry the one that they are given. -/
def TaintedRead.Labels (t : LabelTable) (x : TaintedRead) (shadow : Int → Nat) (n placed : Nat) :
    Prop :=
  ∀ i < placed,
    if x.position + i < x.site.file.size then
      if i < n then taintGetFile x.site.file x.site.fd ≠ 0
      else RawInput t (shadow (x.site.buf + i)) (x.position + i)
    else i < n → shadow (x.site.buf + i) = x.label i

/-- When a call labels exactly what was read. A string is labelled up to its first NUL. -/
def InputCall.Exact (t : LabelTable) (x : TaintedRead) (shadow : Int → Nat) : InputCall → Prop
  | .read _ ret | .pread _ ret => x.Labels t shadow (ret.getD 0) (ret.getD 0)
  | .fread size _ placed | .freadUnlocked size _ placed =>
    x.Labels t shadow (placed / size * size) placed
  | .getline placed ok | .getdelim placed ok | .internalGetdelim placed ok =>
    if ok then x.Labels t shadow placed placed
    else (taintGetFile x.site.file x.site.fd ≠ 0 → shadow (x.site.buf - 1) = 0) ∧
      x.Labels t shadow 0 placed
  | .fgets _ _ placed ok | .fgetsUnlocked _ _ placed ok =>
    if ok then
      let k := strlen (x.bytes placed)
      x.Labels t shadow k placed ∧ (k ≠ placed → x.site.file.size ≤ x.position + k ∧
        shadow (x.site.buf + k) = 0 ∧ shadow (x.site.buf + placed) = 0)
    else x.Labels t shadow 0 placed

/-- The shadow after the bytes of a buffer from `i` on have got the labels that are computed from
their offsets, whether there are such labels or not. -/
def fileLabels (offset buf : Int) (i n : Nat) (shadow : Int → Nat) (a : Int) : Nat :=
  if buf + i ≤ a ∧ a < buf + i + n then ((offset + (a - buf) + constOffset) % 2 ^ 32).toNat
  else shadow a

theorem fileLabels_succ (offset buf : Int) (i n : Nat) (s : InputState) :
    fileLabels offset buf (i + 1) n
        (s.setLabel ((offset + i + constOffset) % 2 ^ 32).toNat (buf + i) 1).shadow =
      fileLabels offset buf i (n + 1) s.shadow := by
  funext a
  unfold fileLabels InputState.setLabel
  by_cases ha : a = buf + i
  · subst ha
    have h1 : ¬(buf + (i + 1 : Nat) ≤ buf + (i : Int) ∧
        buf + (i : Int) < buf + (i + 1 : Nat) + n) := by omega
    have h2 : buf + (i : Int) ≤ buf + i ∧ buf + (i : Int) < buf + i + (1 : Nat) := by omega
    have h3 : buf + (i : Int) ≤ buf + i ∧ buf + (i : Int) < buf + i + (n + 1 : Nat) := by omega
    have h4 : buf + (i : Int) - buf = i := by omega
    simp only [if_neg h1, if_pos h2, if_pos h3, h4]
  · have h1 : ¬(buf + (i : Int) ≤ a ∧ a < buf + i + (1 : Nat)) := by omega
    have h2 : (buf + (i + 1 : Nat) ≤ a ∧ a < buf + (i + 1 : Nat) + (n : Int)) ↔
        (buf + (i : Int) ≤ a ∧ a < buf + i + (n + 1 : Nat)) := by omega
    simp only [if_neg h1, h2]

/-- In file mode the loop sets labels without asking whether they were created. -/
theorem labelBytes_file {f : TaintFile} (hf : f.isStdin = false) (offset buf : Int) (i n : Nat)
    (s : InputState) :
    labelBytes f offset buf i n s = .ok ⟨s.table, fileLabels offset buf i n s.shadow⟩ := by
  induction n generalizing i s with
  | zero =>
    have hnil : fileLabels offset buf i 0 s.shadow = s.shadow := by
      funext a
      apply if_neg
      omega
    rw [hnil]
    rfl
  | succ n ih =>
    rw [labelBytes, getLabelFor, hf, if_neg Bool.false_ne_true, except_ok_bind]
    simp only
    rw [ih (i + 1), fileLabels_succ]
    rfl

theorem setLabel_self (s : InputState) (label : Nat) (a : Int) :
    (s.setLabel label a 1).shadow a = label := by
  apply if_pos
  omega

theorem setLabel_of_ne (s : InputState) (label : Nat) (h : b ≠ a) :
    (s.setLabel label a 1).shadow b = s.shadow b := by
  apply if_neg
  omega

theorem FileMode.rawInput (h : FileMode t size) (hi : o < size) : RawInput t (o + 1) o := by
  have hb := h.bound
  refine ⟨Nat.le_add_left 1 o, by omega, ?_⟩
  exact h.key (o + 1) (Nat.le_add_left 1 o) (by omega)

theorem rawInput_zero : ¬RawInput t 0 o := fun h => absurd h.1 (by decide)

section
variable {t : LabelTable} {x : TaintedRead} {placed : Nat} {shadow : Int → Nat}

/-- The state after the first bytes of the buffer have been labelled. -/
def TaintedRead.labelled (x : TaintedRead) (n : Nat) (s : InputState) : InputState :=
  ⟨s.table, fun a => if x.site.buf ≤ a ∧ a < x.site.buf + n then x.label (a - x.site.buf).toNat
    else s.shadow a⟩

theorem labelled_in (s : InputState) (h : j < n) :
    (x.labelled n s).shadow (x.site.buf + j) = x.label j := by
  have hin : x.site.buf ≤ x.site.buf + j ∧ x.site.buf + (j : Int) < x.site.buf + n := by omega
  have hj : (x.site.buf + (j : Int) - x.site.buf).toNat = j := by omega
  apply (if_pos hin).trans
  rw [hj]

theorem labelled_out (s : InputState) (h : ¬(x.site.buf ≤ a ∧ a < x.site.buf + (n : Nat))) :
    (x.labelled n s).shadow a = s.shadow a := if_neg h

theorem labelled_zero (s : InputState) : x.labelled 0 s = s := by
  have hnil : (x.labelled 0 s).shadow = s.shadow := funext fun a => labelled_out s (by omega)
  cases s
  exact congrArg (InputState.mk _) hnil

theorem rawInput_given (hmode : FileMode t x.site.file.size) (hlast : t.lastLabel < 2 ^ 32)
    (ho : x.position + i < x.site.file.size) :
    RawInput t (x.label i) (x.position + i) ↔ taintGetFile x.site.file x.site.fd ≠ 0 := by
  unfold TaintedRead.label
  by_cases hfd : taintGetFile x.site.file x.site.fd ≠ 0
  · have hbound := hmode.bound
    rw [if_pos hfd, Nat.mod_eq_of_lt (by unfold constOffset; omega)]
    exact iff_of_true (hmode.rawInput ho) hfd
  · rw [if_neg hfd]
    exact iff_of_false rawInput_zero hfd

theorem TaintedRead.labels_inFile (hfd : taintGetFile x.site.file x.site.fd ≠ 0)
    (hsize : x.position + placed ≤ x.site.file.size) : x.Labels t shadow placed placed := by
  intro i hi
  rw [if_pos (by omega), if_pos hi]
  exact hfd

theorem labelled_placed (hmode : FileMode s.table x.site.file.size)
    (hlast : s.table.lastLabel < 2 ^ 32) (i n : Nat) :
    (if x.position + i < x.site.file.size then
        RawInput s.table ((x.labelled n s).shadow (x.site.buf + i)) (x.position + i)
      else (x.labelled n s).shadow (x.site.buf + i) = s.shadow (x.site.buf + i)) ↔
    if x.position + i < x.site.file.size then
      if i < n then taintGetFile x.site.file x.site.fd ≠ 0
      else RawInput s.table (s.shadow (x.site.buf + i)) (x.position + i)
    else i < n → s.shadow (x.site.buf + i) = x.label i := by
  by_cases ho : x.position + i < x.site.file.size
  · rw [if_pos ho, if_pos ho]
    by_cases hn : i < n
    · rw [if_pos hn, labelled_in s hn]
      exact rawInput_given hmode hlast ho
    · rw [if_neg hn, labelled_out s (by omega)]
  · rw [if_neg ho, if_neg ho]
    by_cases hn : i < n
    · rw [labelled_in s hn]
      exact ⟨fun h _ => h.symm, fun h => (h hn).symm⟩
    · rw [labelled_out s (by omega)]
      exact iff_of_true rfl fun h => (hn h).elim

/-- What is asked of the labels splits into the bytes that were placed, the NUL and the rest. -/
theorem labelsExactly_iff (shadow shadow' : Int → Nat) :
    LabelsExactly t x placed terminated shadow shadow' ↔
      (∀ i < placed, if x.position + i < x.site.file.size then
        RawInput t (shadow' (x.site.buf + i)) (x.position + i)
      else shadow' (x.site.buf + i) = shadow (x.site.buf + i)) ∧
      (terminated = true → shadow' (x.site.buf + placed) = 0) ∧
      ∀ a, ¬(x.site.buf ≤ a ∧ a < x.site.buf + placed) →
        (terminated = true → a ≠ x.site.buf + placed) → shadow' a = shadow a := by
  constructor
  · intro h
    refine ⟨?_, h.nul, ?_⟩
    · intro i hi
      by_cases ho : x.position + i < x.site.file.size
      · rw [if_pos ho]
        exact h.raw i hi ho
      · rw [if_neg ho]
        apply h.other
        · intro j hj hoj he
          have : i = j := by omega
          exact ho (this ▸ hoj)
        · intro _
          omega
    · intro a ha hne
      apply h.other a _ hne
      intro i hi _
      omega
  · rintro ⟨hplaced, hnul, hrest⟩
    refine ⟨?_, hnul, ?_⟩
    · intro i hi ho
      have h := hplaced i hi
      rw [if_pos ho] at h
      exact h
    · intro a ha hne
      by_cases hin : x.site.buf ≤ a ∧ a < x.site.buf + placed
      · -- a byte that was placed, from past the recorded size
        have hi : x.site.buf + ((a - x.site.buf).toNat : Nat) = a := by omega
        have h := hplaced (a - x.site.buf).toNat (by omega)
        rw [hi, if_neg fun ho => ha _ (by omega) ho hi.symm] at h
        exact h
      · exact hrest a hin hne

theorem labelsExactly_labelled (hmode : FileMode s.table x.site.file.size)
    (hlast : s.table.lastLabel < 2 ^ 32) (hn : n ≤ placed) :
    LabelsExactly s.table x placed false s.shadow (x.labelled n s).shadow ↔
      x.Labels s.table s.shadow n placed := by
  rw [labelsExactly_iff]
  apply (and_iff_left ?_).trans
  · exact forall₂_congr fun i _ => labelled_placed hmode hlast i n
  · refine ⟨nofun, fun a ha _ => labelled_out s (by omega)⟩

theorem placed_setLabel (s : InputState) (label : Nat) (hi : i < placed) :
    (s.setLabel label (x.site.buf + (placed : Nat)) 1).shadow (x.site.buf + i) =
      s.shadow (x.site.buf + i) := setLabel_of_ne _ _ (by omega)

theorem labelsExactly_terminated (hmode : FileMode s.table x.site.file.size)
    (hlast : s.table.lastLabel < 2 ^ 32) :
    LabelsExactly s.table x placed true s.shadow
        ((x.labelled placed s).setLabel 0 (x.site.buf + placed) 1).shadow ↔
      x.Labels s.table s.shadow placed placed := by
  rw [labelsExactly_iff]
  apply (and_iff_left ?_).trans
  · apply forall₂_congr
    intro i hi
    rw [placed_setLabel _ _ hi]
    exact labelled_placed hmode hlast i placed
  · refine ⟨fun _ => setLabel_self _ _ _, fun a ha hne => ?_⟩
    rw [setLabel_of_ne _ _ (hne rfl)]
    exact labelled_out s ha

/-- A string that is labelled up to a NUL among its bytes: that byte loses its label, and the
appended NUL keeps its own. -/
theorem labelsExactly_cut (hmode : FileMode s.table x.site.file.size)
    (hlast : s.table.lastLabel < 2 ^ 32) (hk : k < placed) :
    LabelsExactly s.table x placed true s.shadow
        ((x.labelled k s).setLabel 0 (x.site.buf + k) 1).shadow ↔
      x.Labels s.table s.shadow k placed ∧ x.site.file.size ≤ x.position + k ∧
        s.shadow (x.site.buf + k) = 0 ∧ s.shadow (x.site.buf + placed) = 0 := by
  have hcell : ∀ i : Nat, i ≠ k → ((x.labelled k s).setLabel 0 (x.site.buf + k) 1).shadow
      (x.site.buf + i) = (x.labelled k s).shadow (x.site.buf + i) := by
    intro i hi
    exact setLabel_of_ne _ _ (by omega)
  have hnul : (x.labelled k s).shadow (x.site.buf + placed) = s.shadow (x.site.buf + placed) :=
    labelled_out s (by omega)
  rw [labelsExactly_iff]
  constructor
  · rintro ⟨hplaced, hterm, _⟩
    have hat := hplaced k hk
    rw [setLabel_self] at hat
    have ho : ¬x.position + k < x.site.file.size := by
      intro ho
      rw [if_pos ho] at hat
      exact rawInput_zero hat
    rw [if_neg ho] at hat
    have hterm := hterm rfl
    rw [hcell placed (by omega), hnul] at hterm
    refine ⟨?_, by omega, hat.symm, hterm⟩
    intro i hi
    apply (labelled_placed hmode hlast i k).1
    by_cases hik : i = k
    · subst hik
      rw [if_neg ho]
      exact labelled_out s (by omega)
    · rw [← hcell i hik]
      exact hplaced i hi
  · rintro ⟨hlabels, ho, h0, hterm⟩
    refine ⟨?_, ?_, ?_⟩
    · intro i hi
      by_cases hik : i = k
      · subst hik
        rw [if_neg (by omega), setLabel_self]
        exact h0.symm
      · rw [hcell i hik]
        exact (labelled_placed hmode hlast i k).2 (hlabels i hi)
    · intro _
      rw [hcell placed (by omega), hnul]
      exact hterm
    · intro a ha _
      rw [setLabel_of_ne _ _ (by omega)]
      exact labelled_out s (by omega)

/-- A failure at which the byte before the buffer loses its label. -/
theorem labelsExactly_before {s : InputState} (hmode : FileMode s.table x.site.file.size)
    (hlast : s.table.lastLabel < 2 ^ 32) :
    LabelsExactly s.table x placed false s.shadow (s.setLabel 0 (x.site.buf + -1) 1).shadow ↔
      s.shadow (x.site.buf - 1) = 0 ∧ x.Labels s.table s.shadow 0 placed := by
  have hcell : (s.setLabel 0 (x.site.buf + -1) 1).shadow (x.site.buf - 1) = 0 := setLabel_self _ _ _
  have hbyte : ∀ i : Nat, (s.setLabel 0 (x.site.buf + -1) 1).shadow (x.site.buf + i) =
      s.shadow (x.site.buf + i) := fun i => setLabel_of_ne _ _ (by omega)
  have hnone := labelsExactly_labelled hmode hlast (Nat.zero_le placed)
  rw [labelled_zero, labelsExactly_iff] at hnone
  rw [← hnone, labelsExactly_iff]
  simp only [hbyte]
  constructor
  · rintro ⟨hplaced, _, hrest⟩
    have h0 := hrest (x.site.buf - 1) (by omega) nofun
    rw [hcell] at h0
    exact ⟨h0.symm, hplaced, nofun, fun _ _ _ => trivial⟩
  · rintro ⟨h0, hplaced, _, _⟩
    refine ⟨hplaced, nofun, fun a _ _ => ?_⟩
    by_cases ha : a = x.site.buf - 1
    · rw [ha, hcell, h0]
    · exact setLabel_of_ne _ _ (by omega)

theorem labelBytes_site (s : InputState) (n : Nat)
    (hfd : taintGetFile x.site.file x.site.fd ≠ 0) :
    labelBytes x.site.file x.site.offset x.site.buf 0 n s = .ok (x.labelled n s) := by
  rw [labelBytes_file x.regular, x.offset, TaintedRead.labelled]
  congr 2
  funext a
  unfold fileLabels TaintedRead.label
  by_cases ha : x.site.buf ≤ a ∧ a < x.site.buf + n
  · rw [if_pos ha, if_pos (by omega), if_pos hfd]
    omega
  · rw [if_neg ha, if_neg (by omega)]

theorem setLabel_site (s : InputState) (n : Nat)
    (hfd : ¬taintGetFile x.site.file x.site.fd ≠ 0) :
    s.setLabel 0 x.site.buf n = x.labelled n s := by
  rw [InputState.setLabel, TaintedRead.labelled]
  congr 1
  funext a
  rw [TaintedRead.label, if_neg hfd]

theorem setLabel_site_succ (s : InputState) (n : Nat)
    (hfd : ¬taintGetFile x.site.file x.site.fd ≠ 0) :
    s.setLabel 0 x.site.buf (n + 1) = (x.labelled n s).setLabel 0 (x.site.buf + n) 1 := by
  rw [← setLabel_site s n hfd]
  unfold InputState.setLabel
  congr 1
  funext a
  by_cases ha : x.site.buf + n ≤ a ∧ a < x.site.buf + n + (1 : Nat)
  · rw [if_pos ha, if_pos (by omega)]
  · rw [if_neg ha]
    apply if_congr _ rfl rfl
    omega

theorem labelRead_eq (s : InputState) :
    labelRead x.site (resultOf ret) s = .ok (0, x.labelled (ret.getD 0) s) := by
  cases ret with
  | none =>
    rw [show none.getD 0 = 0 from rfl, labelled_zero]
    rfl
  | some n =>
    have hret : 0 ≤ resultOf (some n) := Int.natCast_nonneg n
    rw [labelRead, if_pos hret, show (resultOf (some n)).toNat = n from rfl, Option.getD_some]
    by_cases hfd : taintGetFile x.site.file x.site.fd ≠ 0
    · rw [if_pos hfd, labelBytes_site s n hfd]
      rfl
    · rw [if_neg hfd, setLabel_site s n hfd]
      rfl

theorem labelItems_eq (s : InputState) :
    labelItems x.site size ret s = .ok (0, x.labelled (ret * size) s) := by
  rw [labelItems]
  by_cases h0 : ret = 0
  · subst h0
    rw [if_neg (fun h => h rfl), Nat.zero_mul, labelled_zero]
    rfl
  · rw [if_pos h0]
    by_cases hfd : taintGetFile x.site.file x.site.fd ≠ 0
    · rw [if_pos hfd, labelBytes_site s _ hfd]
      rfl
    · rw [if_neg hfd, setLabel_site s _ hfd]
      rfl

theorem labelLine_ok (s : InputState) (h0 : placed ≠ 0) :
    labelLine x.site (lineResult placed true) s =
      .ok (0, (x.labelled placed s).setLabel 0 (x.site.buf + placed) 1) := by
  have hret : lineResult placed true ≠ 0 := fun h => h0 (Int.ofNat_eq_zero.1 h)
  rw [labelLine, if_pos hret]
  by_cases hfd : taintGetFile x.site.file x.site.fd ≠ 0
  · rw [if_pos hfd, show (lineResult placed true).toNat = placed from rfl,
      labelBytes_site s _ hfd]
    rfl
  · rw [if_neg hfd, show (lineResult placed true + 1).toNat = placed + 1 from rfl,
      setLabel_site_succ s _ hfd]
    rfl

theorem labelLine_fails (s : InputState) :
    labelLine x.site (lineResult placed false) s =
      .ok (0, if taintGetFile x.site.file x.site.fd ≠ 0 then s.setLabel 0 (x.site.buf + -1) 1
        else s) := by
  have hret : lineResult placed false ≠ 0 := show (-1 : Int) ≠ 0 by decide
  rw [labelLine, if_pos hret]
  by_cases hfd : taintGetFile x.site.file x.site.fd ≠ 0
  · rw [if_pos hfd, if_pos hfd]
    rfl
  · rw [if_neg hfd, if_neg hfd, show (lineResult placed false + 1).toNat = 0 from rfl,
      setLabel_site s 0 hfd, labelled_zero]
    rfl

theorem labelString_ok (s : InputState) :
    labelString x.site sLabel (some bytes) s =
      .ok (sLabel, (x.labelled (strlen bytes) s).setLabel 0 (x.site.buf + strlen bytes) 1) := by
  rw [labelString]
  by_cases hfd : taintGetFile x.site.file x.site.fd ≠ 0
  · rw [if_pos hfd, labelBytes_site s _ hfd]
    rfl
  · rw [if_neg hfd, setLabel_site_succ s _ hfd]
    rfl

theorem bytes_length (h : n ≤ x.content.length - x.position) : (x.bytes n).length = n := by
  rw [TaintedRead.bytes, List.length_take, List.length_drop]
  omega

theorem strlen_le (bytes : List UInt8) : strlen bytes ≤ bytes.length :=
  (List.takeWhile_prefix _).length_le

/-- A wrapper that ends, in file mode, with a shadow that is exact under some condition. -/
def LabelsWhen (t : LabelTable) (x : TaintedRead) (placed : Nat) (terminated : Bool)
    (shadow : Int → Nat) (result : Except Fault (Nat × InputState)) (C : Prop) : Prop :=
  ∃ l shadow', result = .ok (l, ⟨t, shadow'⟩) ∧
    (LabelsExactly t x placed terminated shadow shadow' ↔ C)

section
variable {s : InputState} (hmode : FileMode s.table x.site.file.size)
  (hlast : s.table.lastLabel < 2 ^ 32)
include hmode hlast

theorem labelRead_exact (ret : Option Nat) :
    LabelsWhen s.table x (ret.getD 0) false s.shadow (labelRead x.site (resultOf ret) s)
      (x.Labels s.table s.shadow (ret.getD 0) (ret.getD 0)) :=
  ⟨_, _, labelRead_eq s, labelsExactly_labelled hmode hlast (Nat.le_refl _)⟩

theorem labelItems_exact (size placed : Nat) :
    LabelsWhen s.table x placed false s.shadow (labelItems x.site size (placed / size) s)
      (x.Labels s.table s.shadow (placed / size * size) placed) :=
  ⟨_, _, labelItems_eq s, labelsExactly_labelled hmode hlast (Nat.div_mul_le_self placed size)⟩

theorem labelLine_exact (hline : ok = true → placed ≠ 0) :
    LabelsWhen s.table x placed ok s.shadow (labelLine x.site (lineResult placed ok) s)
      (if ok then x.Labels s.table s.shadow placed placed
        else (taintGetFile x.site.file x.site.fd ≠ 0 → s.shadow (x.site.buf - 1) = 0) ∧
          x.Labels s.table s.shadow 0 placed) := by
  cases ok with
  | true => exact ⟨_, _, labelLine_ok s (hline rfl), labelsExactly_terminated hmode hlast⟩
  | false =>
    by_cases hfd : taintGetFile x.site.file x.site.fd ≠ 0
    · refine ⟨_, _, (labelLine_fails s).trans (by rw [if_pos hfd]; rfl), ?_⟩
      apply (labelsExactly_before hmode hlast).trans
      exact and_congr_left fun _ => ⟨fun h _ => h, fun h => h hfd⟩
    · refine ⟨_, _, (labelLine_fails s).trans (by rw [if_neg hfd]), ?_⟩
      have h := labelsExactly_labelled hmode hlast (Nat.zero_le placed)
      rw [labelled_zero] at h
      exact h.trans (and_iff_right fun h => (hfd h).elim).symm

theorem labelString_exact (hfile : placed ≤ x.content.length - x.position) :
    LabelsWhen s.table x placed ok s.shadow (labelString x.site sLabel (x.string placed ok) s)
      (if ok then
        x.Labels s.table s.shadow (strlen (x.bytes placed)) placed ∧
          (strlen (x.bytes placed) ≠ placed →
            x.site.file.size ≤ x.position + strlen (x.bytes placed) ∧
            s.shadow (x.site.buf + strlen (x.bytes placed)) = 0 ∧
            s.shadow (x.site.buf + placed) = 0)
        else x.Labels s.table s.shadow 0 placed) := by
  cases ok with
  | false =>
    refine ⟨0, s.shadow, rfl, ?_⟩
    have h := labelsExactly_labelled hmode hlast (Nat.zero_le placed)
    rw [labelled_zero] at h
    exact h
  | true =>
    have hle := strlen_le (x.bytes placed)
    rw [bytes_length hfile] at hle
    refine ⟨_, _, labelString_ok s, ?_⟩
    rw [if_pos rfl]
    by_cases hk : strlen (x.bytes placed) = placed
    · rw [hk]
      apply (labelsExactly_terminated hmode hlast).trans
      exact (and_iff_left fun h => (h rfl).elim).symm
    · apply (labelsExactly_cut hmode hlast (by omega)).trans
      exact and_congr_right fun _ => ⟨fun h _ => h, fun h => h hk⟩

end

end

/-- In file mode every wrapper ends, and it labels exactly what was read if and only if its
condition holds. -/
theorem input_labelled_exactly {s : TableHistory} (hr : Steps (TableStep z) .initial as s)
    (hmode : FileMode s.table x.site.file.size) (hposs : InputCall.Possible x c)
    (shadow : Int → Nat) :
    LabelsWhen s.table x c.placed c.terminated shadow (c.run x ⟨s.table, shadow⟩)
      (c.Exact s.table x shadow) := by
  have hs : TableInv s.table s.Stored := (hr.table_inv TableHistory.initial_inv).1
  have hlast : s.table.lastLabel < 2 ^ 32 := by
    have hbound := hs.bound
    unfold maxLabel at hbound
    omega
  cases c with
  | read _ ret | pread _ ret => exact labelRead_exact hmode hlast ret
  | fread size _ placed | freadUnlocked size _ placed =>
    exact labelItems_exact hmode hlast size placed
  | getline placed ok | getdelim placed ok | internalGetdelim placed ok =>
    exact labelLine_exact hmode hlast hposs.fits
  | fgets _ sLabel placed ok | fgetsUnlocked _ sLabel placed ok =>
    exact labelString_exact hmode hlast hposs.inFile

/-- A file that had two bytes at the start, read into a buffer at address 16. -/
def twoByteRead (content : List UInt8) (position : Nat) : TaintedRead where
  site := { file := { fd := 3, size := 2 }, fd := 3, offset := position, buf := 16 }
  content := content
  position := position
  offset := rfl
  regular := rfl

theorem twoBytes_steps : ∃ s, Steps (TableStep .idle) .initial (preallocate 2) s ∧
    FileMode s.table 2 := by
  have hrun : Steps (TableStep .idle) .initial (preallocate 2) _ :=
    .cons (.create rfl) (.cons (.create rfl) .nil)
  exact ⟨_, hrun, (preallocate_fileMode hrun).1⟩

/-- A line without a NUL that is read by `fgets`. -/
theorem input_labelled_exactly_fgets :
    ∃ s l shadow', Steps (TableStep .idle) .initial (preallocate 2) s ∧
      (InputCall.fgets 10 0 2 true).run (twoByteRead [65, 10] 0) ⟨s.table, fun _ => 0⟩ =
        .ok (l, ⟨s.table, shadow'⟩) ∧
      LabelsExactly s.table (twoByteRead [65, 10] 0) 2 true (fun _ => 0) shadow' := by
  obtain ⟨s, hrun, hmode⟩ := twoBytes_steps
  have hposs : InputCall.Possible (twoByteRead [65, 10] 0) (.fgets 10 0 2 true) :=
    ⟨⟨by decide, fun _ => by decide⟩, by decide⟩
  obtain ⟨l, shadow', hres, hiff⟩ := input_labelled_exactly hrun hmode hposs (fun _ => 0)
  refine ⟨s, l, shadow', hrun, hres, hiff.2 ⟨?_, fun h => (h rfl).elim⟩⟩
  exact TaintedRead.labels_inFile (by decide) (by decide)

/-- A line with a NUL that is read by `fgets`, a call of `getline` at the end of the file, which
clears the label of the byte before the line, and a `read` of a byte that the file has got after
the start. -/
theorem input_labelled_wrongly :
    ∃ s, Steps (TableStep .idle) .initial (preallocate 2) s ∧ FileMode s.table 2 ∧
      (∃ l shadow', (InputCall.fgets 10 0 2 true).run (twoByteRead [0, 10] 0)
          ⟨s.table, fun _ => 0⟩ = .ok (l, ⟨s.table, shadow'⟩) ∧
        ¬LabelsExactly s.table (twoByteRead [0, 10] 0) 2 true (fun _ => 0) shadow') ∧
      (∃ l shadow', (InputCall.getline 0 false).run (twoByteRead [0, 10] 2)
          ⟨s.table, fun _ => 1⟩ = .ok (l, ⟨s.table, shadow'⟩) ∧
        ¬LabelsExactly s.table (twoByteRead [0, 10] 2) 0 false (fun _ => 1) shadow') ∧
      ∃ l shadow', (InputCall.read 1 (some 1)).run (twoByteRead [0, 10, 65] 2)
          ⟨s.table, fun _ => 0⟩ = .ok (l, ⟨s.table, shadow'⟩) ∧
        ¬LabelsExactly s.table (twoByteRead [0, 10, 65] 2) 1 false (fun _ => 0) shadow' := by
  obtain ⟨s, hrun, hmode⟩ := twoBytes_steps
  refine ⟨s, hrun, hmode, ⟨_, _, rfl, ?_⟩, ⟨_, _, rfl, ?_⟩, _, _, rfl, ?_⟩
  · intro h
    exact rawInput_zero (h.raw 0 (by decide) (by decide))
  · intro h
    have hother := h.other 15 (fun i hi => absurd hi (Nat.not_lt_zero i)) nofun
    cases hother
  · intro h
    have hother := h.other 16 (fun i _ ho => absurd ho (by change ¬2 + i < 2; omega)) nofun
    cases hother

end Kirenenko
