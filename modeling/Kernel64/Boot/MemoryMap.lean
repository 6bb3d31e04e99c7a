import Kernel64.Boot.Model
import Kernel64.Lib.Packed

/-!
# The memory map of the boot loader

A memory map is a sequence of records of any sizes, of which `setup_memory_map` takes the fields. Its loop ends where
the bytes of the records do (`mapLoop_eq`), so that it pushes one entry for each record, and nothing else bounds the
number of entries: `memory_map` has room for `mmapMaxCount` of them.
-/

namespace Kernel64

namespace Boot

/-- A record of a memory map: its fields, and the bytes that follow them. -/
structure Record where
  addr : UInt64
  length : UInt64
  type : UInt32
  extra : List UInt8
  fits : 20 + extra.length < 2 ^ 32

namespace Record

/-- The size of a record does not count its size field. -/
def size (r : Record) : ℕ := 20 + r.extra.length

/-- **The encoding of a record.** -/
def bytes (r : Record) : List UInt8 :=
  Buf.leBytes 4 r.size ++ (Buf.leBytes 8 r.addr.toNat ++ (Buf.leBytes 8 r.length.toNat ++
    (Buf.leBytes 4 r.type.toNat ++ r.extra)))

/-- The entry of a record. -/
def entry (r : Record) : MmapEntry := ⟨r.addr.toNat, r.length.toNat, r.type.toNat⟩

theorem length_bytes (r : Record) : r.bytes.length = r.size + 4 := by
  simp only [bytes, List.length_append, Buf.length_leBytes, size]
  omega

end Record

/-- The encoding of a memory map. -/
def mapBytes (records : List Record) : List UInt8 := records.flatMap Record.bytes

theorem length_mapBytes (records : List Record) :
    (mapBytes records).length = (records.map fun r => r.size + 4).sum := by
  simp only [mapBytes, List.length_flatMap, Record.length_bytes]

/-- `memory_map[0..memory_map_size)` -/
def Misc.entries (s : Misc) : List MmapEntry := (List.range s.memoryMapSize).map s.memoryMap

/-- One entry after another is pushed. -/
def pushEntries : List MmapEntry → MiscM Unit
  | [] => pure ()
  | e :: es => do
    pushEntry e
    pushEntries es

/-- The boot loader left a memory map that consists of the records. -/
structure MapAt (ram : Buf) (info : MultibootInfo) (records : List Record) : Prop where
  flag : info.has 6
  length : (mapBytes records).length = info.mmapLength.toNat
  holds : ram.Holds info.mmapAddr.toNat (mapBytes records)

section

variable {ram : Buf} {info : MultibootInfo} {r : Record} {records : List Record} {es : List MmapEntry} {s : Misc}
  {fuel pos stop : ℕ}

/-! ### The records -/

/-- A record is read back from its bytes. -/
theorem mmapEntryAt_of_holds (h : ram.Holds pos r.bytes) :
    mmapEntryAt ram pos = ⟨r.size, r.addr.toNat, r.length.toNat, r.type.toNat⟩ := by
  obtain ⟨hsize, h⟩ := Buf.holds_append.1 h
  obtain ⟨haddr, h⟩ := Buf.holds_append.1 h
  obtain ⟨hlength, h⟩ := Buf.holds_append.1 h
  obtain ⟨htype, -⟩ := Buf.holds_append.1 h
  simp only [Buf.length_leBytes, Nat.add_assoc, Nat.reduceAdd] at haddr hlength htype
  rw [mmapEntryAt, hsize.field r.fits, haddr.field r.addr.toNat_lt, hlength.field r.length.toNat_lt,
    htype.field r.type.toNat_lt]

/-- **The loop of `setup_memory_map`** pushes the entries of the records in their order. -/
theorem mapLoop_eq (h : ram.Holds pos (mapBytes records)) (hstop : pos + (mapBytes records).length = stop)
    (hlt : stop < 2 ^ 64) (hfuel : records.length < fuel) :
    mapLoop ram stop fuel pos = pushEntries (records.map Record.entry) := by
  induction records generalizing fuel pos with
  | nil =>
    obtain ⟨fuel, rfl⟩ := Nat.exists_eq_succ_of_ne_zero (Nat.ne_of_gt hfuel)
    rw [mapLoop, if_neg (by simp [← hstop, mapBytes])]
    rfl
  | cons r records ih =>
    obtain ⟨fuel, rfl⟩ := Nat.exists_eq_succ_of_ne_zero (Nat.ne_zero_of_lt hfuel)
    have hcons : mapBytes (r :: records) = r.bytes ++ mapBytes records := List.flatMap_cons
    rw [hcons, Buf.holds_append, r.length_bytes] at h
    rw [hcons, List.length_append, r.length_bytes] at hstop
    -- the size of a record does not count the field that holds it
    have hnext : Strings.addPtr pos (r.size + 4) = pos + (r.size + 4) := Nat.mod_eq_of_lt (by omega)
    rw [mapLoop, if_pos (by omega), mmapEntryAt_of_holds h.1]
    simp only [hnext, ih h.2 (by omega) (Nat.lt_of_succ_lt_succ hfuel)]
    rfl

theorem setupMemoryMap_eq (h : MapAt ram info records) (hfuel : records.length < fuel) :
    setupMemoryMap fuel ram info = pushEntries (records.map Record.entry) := by
  have haddr := info.mmapAddr.toNat_lt
  have hlength := info.mmapLength.toNat_lt
  rw [setupMemoryMap, h.flag, if_neg (by simp), ← h.length]
  exact mapLoop_eq h.holds rfl (by rw [h.length]; omega) hfuel

/-! ### The entries -/

/-- The state after an entry has been pushed. -/
def Misc.push (s : Misc) (e : MmapEntry) : Misc :=
  { s with memoryMap := Function.update s.memoryMap s.memoryMapSize e, memoryMapSize := s.memoryMapSize + 1 }

@[simp]
theorem Misc.memoryMapSize_push (s : Misc) (e : MmapEntry) : (s.push e).memoryMapSize = s.memoryMapSize + 1 := rfl

theorem Misc.entries_push (s : Misc) (e : MmapEntry) : (s.push e).entries = s.entries ++ [e] := by
  have hold : ∀ i ∈ List.range s.memoryMapSize, (s.push e).memoryMap i = s.memoryMap i := fun i hi =>
    Function.update_of_ne (List.mem_range.1 hi).ne ..
  have hnew : (s.push e).memoryMap s.memoryMapSize = e := Function.update_self ..
  rw [entries, entries, memoryMapSize_push, List.range_succ, List.map_append, List.map_singleton, hnew,
    List.map_congr_left hold]

theorem pushEntry_run {e : MmapEntry} (h : s.memoryMapSize < mmapMaxCount) :
    pushEntry e s = Except.ok ((), s.push e) := by
  have hset : setEntry s.memoryMapSize e s =
      Except.ok ((), { s with memoryMap := Function.update s.memoryMap s.memoryMapSize e }) := by
    rw [setEntry, if_pos h]
    rfl
  rw [pushEntry]
  exact (bind_of_run rfl).trans (bind_of_run hset)

theorem faults_pushEntry {e : MmapEntry} (h : mmapMaxCount ≤ s.memoryMapSize) : Faults (pushEntry e) s .bounds := by
  have hset : Faults (setEntry s.memoryMapSize e) s .bounds := by
    rw [setEntry, if_neg (Nat.not_lt.2 h)]
    rfl
  rw [pushEntry]
  exact faults_bind_run rfl hset.bind

/-- The entries are pushed as long as there is room for them. -/
theorem pushEntries_run (h : s.memoryMapSize + es.length ≤ mmapMaxCount) :
    pushEntries es s = Except.ok ((), es.foldl Misc.push s) := by
  induction es generalizing s with
  | nil => rfl
  | cons e es ih =>
    rw [List.length_cons] at h
    rw [pushEntries, bind_of_run (pushEntry_run (by omega)), ih (by rw [Misc.memoryMapSize_push]; omega),
      List.foldl_cons]

/-- The first entry that there is no room for is stored past the end of `memory_map`. -/
theorem faults_pushEntries (hs : s.memoryMapSize ≤ mmapMaxCount) (h : mmapMaxCount < s.memoryMapSize + es.length) :
    Faults (pushEntries es) s .bounds := by
  induction es generalizing s with
  | nil => exact absurd h (Nat.not_lt.2 hs)
  | cons e es ih =>
    rw [List.length_cons] at h
    rw [pushEntries]
    rcases Nat.lt_or_ge s.memoryMapSize mmapMaxCount with hroom | hfull
    · exact faults_bind_run (pushEntry_run hroom) (ih (s := s.push e) hroom (by rw [Misc.memoryMapSize_push]; omega))
    · exact (faults_pushEntry hfull).bind

theorem entries_foldl_push : (es.foldl Misc.push s).entries = s.entries ++ es := by
  induction es generalizing s with
  | nil => rw [List.foldl_nil, List.append_nil]
  | cons e es ih => rw [List.foldl_cons, ih, Misc.entries_push, List.append_assoc, List.singleton_append]

/-! ### `setup_memory_map` -/

/-- The variables hold the decoded records, up to the limit of `memory_map`. -/
def Decoded (records : List Record) (s : Misc) : Prop :=
  s.entries = (records.map Record.entry).take mmapMaxCount

theorem Misc.entries_of_size (hs : s.memoryMapSize = 0) : s.entries = [] := by
  rw [entries, hs, List.range_zero, List.map_nil]

/-- A map that fits is decoded. -/
theorem MapAt.setup_run (h : MapAt ram info records) (hs : s.memoryMapSize = 0) (hfuel : records.length < fuel)
    (hcount : records.length ≤ mmapMaxCount) :
    setupMemoryMap fuel ram info s = Except.ok ((), (records.map Record.entry).foldl Misc.push s) := by
  rw [setupMemoryMap_eq h hfuel]
  exact pushEntries_run (by rw [hs, List.length_map, Nat.zero_add]; exact hcount)

/-- A map that does not fit is decoded past the end of `memory_map`. -/
theorem MapAt.faults_setup (h : MapAt ram info records) (hs : s.memoryMapSize = 0) (hfuel : records.length < fuel)
    (hcount : mmapMaxCount < records.length) : Faults (setupMemoryMap fuel ram info) s .bounds := by
  rw [setupMemoryMap_eq h hfuel]
  exact faults_pushEntries (by omega) (by rw [hs, List.length_map, Nat.zero_add]; exact hcount)

/-- **The memory map.** `setup_memory_map` ends, with no store outside `memory_map` and with the records decoded in
their order, exactly when the boot loader left at most `MMAP_MAX_COUNT` of them. -/
theorem ensures_setupMemoryMap_iff (h : MapAt ram info records) (hs : s.memoryMapSize = 0)
    (hfuel : records.length < fuel) :
    Ensures (setupMemoryMap fuel ram info) s (fun _ s' => Decoded records s') ↔ records.length ≤ mmapMaxCount := by
  constructor
  · intro hens
    by_contra hcount
    exact (h.faults_setup hs hfuel (Nat.lt_of_not_le hcount)).not_ensures hens
  · intro hcount
    refine ⟨(), _, h.setup_run hs hfuel hcount, show Decoded records _ from ?_⟩
    rw [Decoded, entries_foldl_push, Misc.entries_of_size hs, List.nil_append, List.take_of_length_le]
    rw [List.length_map]
    exact hcount

end

/-- A record with no bytes after its fields. -/
def plainRecord (addr length : UInt64) (type : UInt32) : Record := ⟨addr, length, type, [], by decide⟩

/-- The memory and the information that a boot loader leaves for some records. -/
def ramOf (records : List Record) : Buf := Buf.store (fun _ => 0) 0x500 (mapBytes records)

/-- The information that goes with `ramOf`. -/
def infoOf (records : List Record) : MultibootInfo := ⟨0x40, 0, 0, 0, UInt32.ofNat (mapBytes records).length, 0x500⟩

theorem mapAt_ramOf {records : List Record} (h : (mapBytes records).length < 2 ^ 32) :
    MapAt (ramOf records) (infoOf records) records :=
  ⟨show ((0x40 : UInt32) &&& ((1 : UInt32) <<< 6) != 0) = true by decide,
   (UInt32.toNat_ofNat_of_lt h).symm, Buf.holds_store⟩

/-- The memory of a small machine, with a record that is longer than the others. -/
def smallMap : List Record :=
  [plainRecord 0 0x9f000 1, ⟨0x9f000, 0x1000, 2, [1, 0, 0, 0], by decide⟩, plainRecord 0x100000 0x700000 1]

theorem ensures_setupMemoryMap_smallMap :
    Ensures (setupMemoryMap 4 (ramOf smallMap) (infoOf smallMap)) Misc.init fun _ s => Decoded smallMap s :=
  (ensures_setupMemoryMap_iff (mapAt_ramOf (by decide)) rfl (by decide)).2 (by decide)

/-- A map of ranges that are available and reserved in turn. -/
def longMap : List Record :=
  (List.range 21).map fun i => plainRecord (UInt64.ofNat (i * 0x10000)) 0x10000 (if i % 2 = 0 then 1 else 2)

/-- The last record of the map is stored past the end of `memory_map`. -/
theorem longMap_not_decoded : MapAt (ramOf longMap) (infoOf longMap) longMap ∧
    Faults (setupMemoryMap 22 (ramOf longMap) (infoOf longMap)) Misc.init .bounds ∧
    ¬Ensures (setupMemoryMap 22 (ramOf longMap) (infoOf longMap)) Misc.init fun _ s => Decoded longMap s := by
  have hmap : MapAt (ramOf longMap) (infoOf longMap) longMap :=
    mapAt_ramOf (by rw [length_mapBytes]; decide)
  have hfault : Faults (setupMemoryMap 22 (ramOf longMap) (infoOf longMap)) Misc.init .bounds :=
    hmap.faults_setup rfl (by decide) (by decide)
  exact ⟨hmap, hfault, hfault.not_ensures⟩

end Boot

end Kernel64
