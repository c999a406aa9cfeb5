import Kirenenko.Pin.LogEntries

namespace Kirenenko
set_option autoImplicit true

def readU32 : Reader UInt32 := do
  let x ← readNat 4
  return .ofNat x

def readU64 : Reader UInt64 := do
  let x ← readNat 8
  return .ofNat x

def readCond : Reader CondStmt := do
  let cid ← readU32
  let context ← readU32
  let order ← readU32
  let belong ← readU32
  let condition ← readU32
  let level ← readU32
  let op ← readU32
  let size ← readU32
  let lb1 ← readU32
  let lb2 ← readU32
  let arg1 ← readU64
  let arg2 ← readU64
  return { cid, context, order, belong, condition, level, op, size, lb1, lb2, arg1, arg2 }

/-- The record of a label: its segments, as bytes. -/
structure TagRecord where
  label : UInt32
  segments : List UInt8
deriving DecidableEq

def readTag (api : TagApi) : Reader TagRecord := do
  let label ← readU32
  let n ← readU32
  let segments ← readBytes (api.tagSegSize * n.toNat)
  return { label, segments }

/-- The record of a string comparison: the index of its statement and the two strings. -/
structure MbRecord where
  index : UInt32
  arg1 : List UInt8
  arg2 : List UInt8
deriving DecidableEq

def readMb : Reader MbRecord := do
  let index ← readU32
  let arg1Len ← readU32
  let arg2Len ← readU32
  let arg1 ← readBytes arg1Len.toNat
  let arg2 ← readBytes arg2Len.toNat
  return { index, arg1, arg2 }

/-- A reader of the file that trusts the counts in its header. -/
def readLog (api : TagApi) : Reader (List CondStmt × List TagRecord × List MbRecord) := do
  let numCond ← readU32
  let numTag ← readU32
  let numMb ← readU32
  let conds ← readMany readCond numCond.toNat
  let tags ← readMany (readTag api) numTag.toNat
  let mbs ← readMany readMb numMb.toNat
  return (conds, tags, mbs)

theorem Reads.u32 (x : UInt32) : Reads readU32 (u32Bytes x) x := by
  have h := (Reads.nat (n := 4) x.toNat_lt).map (f := UInt32.ofNat)
  rwa [UInt32.ofNat_toNat] at h

theorem Reads.u64 (x : UInt64) : Reads readU64 (u64Bytes x) x := by
  have h := (Reads.nat (n := 8) x.toNat_lt).map (f := UInt64.ofNat)
  rwa [UInt64.ofNat_toNat] at h

theorem reads_cond (s : CondStmt) : Reads readCond s.bytes s := by
  simp only [CondStmt.bytes, List.append_assoc]
  refine (Reads.u32 s.cid).bind ((Reads.u32 s.context).bind ((Reads.u32 s.order).bind ?_))
  refine (Reads.u32 s.belong).bind ((Reads.u32 s.condition).bind ((Reads.u32 s.level).bind ?_))
  refine (Reads.u32 s.op).bind ((Reads.u32 s.size).bind ((Reads.u32 s.lb1).bind ?_))
  exact (Reads.u32 s.lb2).bind ((Reads.u64 s.arg1).bind (Reads.u64 s.arg2).map)

theorem CondStmt.length_bytes (s : CondStmt) : s.bytes.length = 56 := by
  simp [CondStmt.bytes, u32Bytes, u64Bytes]

section
variable (api : TagApi)

/-- The strings that `save_tag` pushes for a new label. -/
def tagPushes (lb : UInt32) : List (List UInt8) :=
  [u32Bytes lb, u32Bytes (.ofNat (api.tagGet lb).length), api.segments lb]

def tagRecord (lb : UInt32) : TagRecord := ⟨lb, api.segments lb⟩

theorem reads_tag (lb : UInt32) :
    Reads (readTag api) (tagPushes api lb).flatten (tagRecord api lb) := by
  have hlen : (api.segments lb).length =
      api.tagSegSize * (UInt32.ofNat (api.tagGet lb).length).toNat := by
    rw [TagApi.segments, List.length_map, List.length_range]
  have hflat : (tagPushes api lb).flatten =
      u32Bytes lb ++ (u32Bytes (.ofNat (api.tagGet lb).length) ++ api.segments lb) := by
    simp [tagPushes]
  rw [hflat]
  exact (Reads.u32 lb).bind ((Reads.u32 _).bind (Reads.bytes hlen).map)

/-- The string that an argument stands for: `size` bytes, or for zero up to the first NUL. -/
def comparedString (size : UInt32) (arg : List UInt8) : List UInt8 :=
  if size = 0 then arg.takeWhile (· ≠ 0) else (List.range size.toNat).map (bytesAt arg)

/-- The strings that `save_mb` pushes for a record. -/
def MbRecord.pushes (r : MbRecord) : List (List UInt8) :=
  [u32Bytes r.index, u32Bytes (.ofNat r.arg1.length), u32Bytes (.ofNat r.arg2.length), r.arg1,
    r.arg2]

theorem reads_mb (r : MbRecord) (h1 : r.arg1.length < 2 ^ 32) (h2 : r.arg2.length < 2 ^ 32) :
    Reads readMb r.pushes.flatten r := by
  have hlen1 : r.arg1.length = (UInt32.ofNat r.arg1.length).toNat := by
    rw [UInt32.toNat_ofNat_of_lt' h1]
  have hlen2 : r.arg2.length = (UInt32.ofNat r.arg2.length).toNat := by
    rw [UInt32.toNat_ofNat_of_lt' h2]
  have hflat : r.pushes.flatten = u32Bytes r.index ++ (u32Bytes (.ofNat r.arg1.length) ++
      (u32Bytes (.ofNat r.arg2.length) ++ (r.arg1 ++ r.arg2))) := by
    simp [MbRecord.pushes]
  rw [hflat]
  refine (Reads.u32 r.index).bind ((Reads.u32 _).bind ((Reads.u32 _).bind ?_))
  exact (Reads.bytes hlen1).bind (Reads.bytes hlen2).map

end

end Kirenenko
