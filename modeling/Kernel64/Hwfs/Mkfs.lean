import Kernel64.Hwfs.BTreeRuns
import Kernel64.Hwfs.Format

/-!
# Making a file system (`hwfs/mkfs.c`)

`bootstrap` writes the super block and the roots of the two trees, and inserts into each tree its
sentinels, the root directory into the one of the files, and the extents in use into the other. All of
it fits in the two leaves that the trees begin with.
-/

namespace Kernel64

namespace Hwfs

/-! ### The code -/

/-- `block_size` -/
def blockSize : ℕ := 4096

/-- `root_inode` -/
def rootInode : UInt64 := 1

/-- `free_block` -/
def freeBlock : ℕ := 3

/-- `extent_root` -/
def extentRoot : ℕ := 2

/-- `fs_root` -/
def fsRoot : ℕ := 1

/-- `HWFS_MAGIC` -/
def hwfsMagic : UInt64 := 0x12345678

/-- `HWFS_DIR` -/
def hwfsDir : UInt8 := 2

/-- `HWFS_INODE` -/
def hwfsInode : UInt8 := 3

/-- `HWFS_EXTENT` -/
def hwfsExtent : UInt8 := 6

/-- `setup_btree` -/
def setupBtree (blocknr : ℕ) : BtM ℤ := do
  match ← getBlock blocknr with
  | none => return 1
  | some n => do
    modify fun s => { s with root := n }
    return 0

/-- `release_btree`; the pointer it clears is not read again before the next `setup_btree`. -/
def releaseBtree : BtM Unit := do
  putBlock (some (← get).root)

/-- The super block that `bootstrap` writes. -/
def superBlock : SuperBlock where
  magic := hwfsMagic
  fsTreeRoot := UInt64.ofNat fsRoot
  extentTreeRoot := UInt64.ofNat extentRoot
  rootNodeId := rootInode
  nextNodeId := rootInode + 1
  blockSize := UInt16.ofNat blockSize

/-- The root of a tree, as `bootstrap` makes it. -/
def emptyRoot (bs : ℕ) (b : Buf) : Buf := setBlocks (b.store 0 (List.replicate bs 0)) 1

/-- Get a block, rewrite its bytes and put it. -/
def rewriteBlock (blocknr : ℕ) (f : ℕ → Buf → Buf) : BtM ℤ := do
  match ← getBlock blocknr with
  | none => return -1
  | some n => do
    let s ← get
    modifyData n (f s.blockSize)
    putBlock (some n)
    return 0

/-- The part of `bootstrap` that writes the root of a tree. -/
def writeRoot (blocknr : ℕ) : BtM ℤ := rewriteBlock blocknr emptyRoot

/-- Go on with `next` when `m` returns 0. -/
def andThen (m next : BtM ℤ) : BtM ℤ := do
  if (← m) ≠ 0 then return -1 else next

/-- An insertion of `bootstrap`: when it fails, the tree is released. -/
def insertOrRelease (fuel : ℕ) (key : Key) (data : List UInt8) (next : BtM ℤ) : BtM ℤ := do
  if (← btreeInsert fuel key data) ≠ 0 then
    releaseBtree
    return -1
  else next

/-- The inode of the root directory. -/
def rootNode : Inode where
  size := 0
  links := 1
  type := hwfsDir

/-- The bytes of the inode of the root directory. -/
def rootBytes : List UInt8 := (hwfsInodeToDisk (fun _ => 0) 0 rootNode).slice 0 13

/-- The bytes of an extent. -/
def extentBytes : List UInt8 := (hwfsExtentToDisk (fun _ => 0) 0 ⟨0⟩).slice 0 8

/-- The key of an extent of `size` blocks. -/
def extentKey (begin size : ℕ) : Key := ⟨UInt64.ofNat begin, hwfsExtent, UInt64.ofNat size⟩

/-- The part of `bootstrap` that fills the tree of the files. -/
def fillFsTree (fuel : ℕ) : BtM ℤ :=
  andThen (setupBtree fsRoot) <|
    insertOrRelease fuel lowSentinel [] <|
    insertOrRelease fuel highSentinel [] <|
    insertOrRelease fuel ⟨rootInode, hwfsInode, 0⟩ rootBytes do
      releaseBtree
      return 0

/-- The part of `bootstrap` that fills the tree of the extents. -/
def fillExtentTree (fuel diskSize : ℕ) : BtM ℤ :=
  andThen (setupBtree extentRoot) <|
    insertOrRelease fuel lowSentinel [] <|
    insertOrRelease fuel highSentinel [] <|
    insertOrRelease fuel (extentKey 0 1) extentBytes do
      let s ← get
      insertOrRelease fuel (extentKey 1 (s.fs.next - 1)) extentBytes <|
        insertOrRelease fuel (extentKey diskSize 1) extentBytes do
          releaseBtree
          return 0

/-- The part of `bootstrap` that writes the super block. -/
def writeSuper : BtM ℤ := rewriteBlock 0 fun _ b => hwfsSuperToDisk b 0 superBlock

/-- `bootstrap` -/
def bootstrap (fuel diskSize : ℕ) : BtM ℤ := do
  modify fun s => { s with fs := ⟨diskSize, freeBlock⟩ }
  andThen writeSuper <| andThen (writeRoot fsRoot) <| andThen (writeRoot extentRoot) <|
    andThen (fillFsTree fuel) (fillExtentTree fuel diskSize)

/-! ### The parts -/

variable {s : BtState} {n fuel : ℕ} {Q : ℤ → BtState → Prop}

/-- A reference taken and dropped. -/
theorem links_restored (links : ℕ → ℤ) (n : ℕ) :
    Function.update (Function.update links n (links n + 1)) n (links n + 1 + -1) = links := by
  rw [Function.update_idem, Int.add_neg_cancel_right, Function.update_eq_self]

/-- Rewriting a block leaves the references as they were. -/
theorem ensures_rewriteBlock {f : ℕ → Buf → Buf}
    (h : s.readable n = true →
      Q 0 { s with data := Function.update s.data n (f s.blockSize (s.data n)) })
    (hfail : s.readable n = false → Q (-1) s) : Ensures (rewriteBlock n f) s Q := by
  rw [rewriteBlock, getBlock]
  by_cases hread : s.readable n = true
  · simp only [ensures_bind, ensures_get, hread, if_true, addLinks, ensures_modify, ensures_pure,
      modifyData, putBlock, Function.update_self, links_restored]
    exact h hread
  · rw [Bool.not_eq_true] at hread
    simp only [ensures_bind, ensures_get, hread, Bool.false_eq_true, if_false, ensures_pure]
    exact hfail hread

/-- Going on after a part that may fail. -/
theorem ensures_andThen {m next : BtM ℤ}
    (h : Ensures m s fun rc t => if rc ≠ 0 then Q (-1) t else Ensures next t Q) :
    Ensures (andThen m next) s Q := by
  rw [andThen, ensures_bind]
  refine h.mono fun rc t ht => ?_
  split at ht
  · rw [if_pos ‹_›, ensures_pure]
    exact ht
  · rw [if_neg ‹_›]
    exact ht

/-- The state in which the tree with the root `n`, whose bytes are `b`, is being filled. -/
def filling (s : BtState) (n : ℕ) (b : Buf) : BtState :=
  { s with
    links := Function.update s.links n (s.links n + 1)
    data := Function.update s.data n b
    root := n }

/-- Setting up a tree. -/
theorem ensures_setupBtree (h : s.readable n = true → Q 0 (filling s n (s.data n)))
    (hfail : s.readable n = false → Q 1 s) : Ensures (setupBtree n) s Q := by
  rw [setupBtree, getBlock]
  by_cases hread : s.readable n = true
  · simp only [ensures_bind, ensures_get, hread, if_true, addLinks, ensures_modify, ensures_pure]
    rw [filling, Function.update_eq_self] at h
    exact h hread
  · rw [Bool.not_eq_true] at hread
    simp only [ensures_bind, ensures_get, hread, Bool.false_eq_true, if_false, ensures_pure]
    exact hfail hread

/-- An insertion that fits in the only leaf. -/
theorem ensures_insertOrRelease {b : Buf} {ps : Pairs} {key : Key} {data : List UInt8} {next : BtM ℤ}
    (hbs : s.blockSize < 2 ^ 16) (hleaf : IsLeaf s.blockSize b ps)
    (hfits : FitsLeaf s.blockSize ((key, data) :: ps))
    (h : ∀ c, IsLeaf s.blockSize c (ps.orderedInsert ByKey (key, data)) →
      Ensures next (filling s n c) Q) :
    Ensures (insertOrRelease (fuel + 1) key data next) (filling s n b) Q := by
  have hroot : IsLeaf (filling s n b).blockSize ((filling s n b).data (filling s n b).root) ps := by
    simp only [filling, Function.update_self]
    exact hleaf
  have hroom := (fitsLeaf_cons_iff (List.Perm.refl ps) key data).1 hfits
  rw [insertOrRelease, ensures_bind]
  refine (ensures_btreeInsert_leaf (s := filling s n b) hbs hroot key data hroom fuel).mono fun rc t ht => ?_
  obtain ⟨rfl, c, hc, rfl⟩ := ht
  have hstate : { filling s n b with
      data := Function.update (filling s n b).data (filling s n b).root c } = filling s n c := by
    simp only [filling, Function.update_idem]
  rw [hstate]
  exact h c hc

/-- The tree is released at the end. -/
theorem ensures_release {b : Buf} (h : Q 0 { s with data := Function.update s.data n b, root := n }) :
    Ensures (do
      releaseBtree
      return 0) (filling s n b) Q := by
  simp only [releaseBtree, putBlock, addLinks, filling, ensures_bind, ensures_get, ensures_modify,
    ensures_pure, Function.update_self, links_restored]
  exact h

/-- The root that `bootstrap` makes is an empty leaf. -/
theorem isLeaf_emptyRoot {bs : ℕ} (b : Buf) (hbs : headerSize ≤ bs) : IsLeaf bs (emptyRoot bs b) [] := by
  have hzero : ∀ w o, o + w ≤ 4 → (emptyRoot bs b).field w o = Buf.field w (fun _ => 0) o := by
    intro w o ho
    refine Buf.field_congr fun j hj => ?_
    rw [emptyRoot, setBlocks, Buf.setField_outside (by omega)]
    have hstore := Buf.store_inside (b := b) (o := 0) (l := List.replicate bs (0 : UInt8)) (j := o + j)
      (by rw [List.length_replicate]; rw [headerSize] at hbs; omega)
    rw [Nat.zero_add] at hstore
    rw [hstore, List.getElem_replicate]
  refine ⟨(hzero 2 0 (by omega)).trans rfl, (hzero 2 2 (by omega)).trans rfl, List.Pairwise.nil, ?_,
    fun i hi => absurd hi (Nat.not_lt_zero i), fun i hi => absurd hi (Nat.not_lt_zero i)⟩
  rw [List.length_nil, dataLen_zero, valueAt]
  exact hbs

/-! ### The trees -/

theorem length_extentBytes : extentBytes.length = 8 := Buf.length_slice ..

/-- The pairs in the tree of the files. -/
def fsPairs : Pairs :=
  [(lowSentinel, []), (⟨rootInode, hwfsInode, 0⟩, rootBytes), (highSentinel, [])]

/-- The pairs in the tree of the extents. -/
def extentPairs (diskSize : ℕ) : Pairs :=
  [(lowSentinel, []), (extentKey 0 1, extentBytes), (extentKey 1 2, extentBytes),
    (extentKey diskSize 1, extentBytes), (highSentinel, [])]

theorem ensures_fillFsTree (hbs : s.blockSize = blockSize) (hread : s.readable fsRoot = true)
    (hleaf : IsLeaf s.blockSize (s.data fsRoot) [])
    (h : ∀ b, IsLeaf s.blockSize b fsPairs →
      Q 0 { s with data := Function.update s.data fsRoot b, root := fsRoot }) :
    Ensures (fillFsTree (fuel + 1)) s Q := by
  have hlt : s.blockSize < 2 ^ 16 := hbs ▸ by decide
  rw [fillFsTree]
  refine ensures_andThen (ensures_setupBtree (fun _ => ?_) fun hc => by rw [hread] at hc; cases hc)
  rw [if_neg (not_not.2 rfl)]
  refine ensures_insertOrRelease hlt hleaf (by rw [hbs]; decide) fun b hb => ?_
  refine ensures_insertOrRelease hlt hb (by rw [hbs]; decide) fun b hb => ?_
  refine ensures_insertOrRelease hlt hb (by rw [hbs]; decide) fun b hb => ?_
  have hpairs : ((([] : Pairs).orderedInsert ByKey (lowSentinel, [])).orderedInsert ByKey
      (highSentinel, [])).orderedInsert ByKey (⟨rootInode, hwfsInode, 0⟩, rootBytes) = fsPairs := by
    decide
  rw [hpairs] at hb
  exact ensures_release (h b hb)

/-- The extent behind the end of the disk is the last one. -/
theorem orderedInsert_diskSize {diskSize : ℕ} (hsize : 3 ≤ diskSize) (hmax : diskSize < 2 ^ 63) :
    List.orderedInsert ByKey (extentKey diskSize 1, extentBytes)
      [(lowSentinel, []), (extentKey 0 1, extentBytes), (extentKey 1 2, extentBytes),
        (highSentinel, [])] = extentPairs diskSize := by
  have hid : (UInt64.ofNat diskSize).toNat = diskSize :=
    UInt64.toNat_ofNat_of_lt' (hmax.trans (by decide))
  have hlt : ∀ k : Key, k.id.toNat < 2 → ∀ v, ¬ByKey (extentKey diskSize 1, extentBytes) (k, v) := by
    intro k hk v hc
    refine absurd (Key.lt_def.2 (Or.inl ?_)) (not_lt.2 hc)
    simp only [extentKey, hid]
    omega
  have hhigh : ByKey (extentKey diskSize 1, extentBytes) (highSentinel, []) := by
    refine le_of_lt (Key.lt_def.2 (Or.inl ?_))
    have hmaxid : highSentinel.id.toNat = 2 ^ 64 - 1 := by decide
    rw [hmaxid, extentKey, hid]
    omega
  simp only [List.orderedInsert_cons, if_neg (hlt lowSentinel (by decide) _),
    if_neg (hlt (extentKey 0 1) (by decide) _), if_neg (hlt (extentKey 1 2) (by decide) _), if_pos hhigh,
    extentPairs]

theorem ensures_fillExtentTree {diskSize : ℕ} (hbs : s.blockSize = blockSize)
    (hread : s.readable extentRoot = true) (hleaf : IsLeaf s.blockSize (s.data extentRoot) [])
    (hnext : s.fs.next = freeBlock) (hsize : 3 ≤ diskSize) (hmax : diskSize < 2 ^ 63)
    (h : ∀ b, IsLeaf s.blockSize b (extentPairs diskSize) →
      Q 0 { s with data := Function.update s.data extentRoot b, root := extentRoot }) :
    Ensures (fillExtentTree (fuel + 1) diskSize) s Q := by
  have hlt : s.blockSize < 2 ^ 16 := hbs ▸ by decide
  rw [fillExtentTree]
  refine ensures_andThen (ensures_setupBtree (fun _ => ?_) fun hc => by rw [hread] at hc; cases hc)
  rw [if_neg (not_not.2 rfl)]
  refine ensures_insertOrRelease hlt hleaf (by rw [hbs]; decide) fun b hb => ?_
  refine ensures_insertOrRelease hlt hb (by rw [hbs]; decide) fun b hb => ?_
  refine ensures_insertOrRelease hlt hb (by rw [hbs]; decide) fun b hb => ?_
  rw [ensures_bind, ensures_get]
  have hnext' : (filling s extentRoot b).fs.next - 1 = 2 := by
    show s.fs.next - 1 = 2
    rw [hnext]
    rfl
  rw [hnext']
  refine ensures_insertOrRelease hlt hb (by rw [hbs]; decide) fun b hb => ?_
  have hpairs : (((([] : Pairs).orderedInsert ByKey (lowSentinel, [])).orderedInsert ByKey
      (highSentinel, [])).orderedInsert ByKey (extentKey 0 1, extentBytes)).orderedInsert ByKey
      (extentKey 1 2, extentBytes) =
      [(lowSentinel, []), (extentKey 0 1, extentBytes), (extentKey 1 2, extentBytes),
        (highSentinel, [])] := by decide
  rw [hpairs] at hb
  have hfits : FitsLeaf s.blockSize ((extentKey diskSize 1, extentBytes) ::
      [(lowSentinel, []), (extentKey 0 1, extentBytes), (extentKey 1 2, extentBytes),
        (highSentinel, [])]) := by
    rw [hbs]
    simp [FitsLeaf, length_extentBytes, headerSize, valueSize, blockSize]
  refine ensures_insertOrRelease hlt hb hfits fun b hb => ?_
  rw [orderedInsert_diskSize hsize hmax] at hb
  exact ensures_release (h b hb)

/-! ### The file system -/

/-- The blocks whose place is fixed: the super block and the two roots. -/
def fixedBlocks : List ℕ := [0, fsRoot, extentRoot]

/-- The state `t` is the state `s` with a new file system on a disk of `diskSize` blocks. -/
structure Formatted (diskSize : ℕ) (s t : BtState) : Prop where
  super : hwfsSuperToHost (t.data 0) 0 = superBlock
  fsTree : IsLeaf blockSize (t.data fsRoot) fsPairs
  extentTree : IsLeaf blockSize (t.data extentRoot) (extentPairs diskSize)
  /-- the references are balanced -/
  links : t.links = s.links
  /-- what lies behind the super block, and the other blocks, are left alone -/
  behind : ∀ i, 42 ≤ i → t.data 0 i = s.data 0 i
  others : ∀ n, n ∉ fixedBlocks → t.data n = s.data n

/-- What a reader of the file system finds that begins with the super block, looks for the inode of the
root directory in the tree of the files, and reads it. -/
def RootFound (t : BtState) (node : Inode) : Prop :=
  let sb := hwfsSuperToHost (t.data 0) 0
  let b := t.data sb.fsTreeRoot.toNat
  let slot := btreeLowerBound b ⟨sb.rootNodeId, hwfsInode, 0⟩
  slot < count b ∧ (hwfsValueToHost b slot).key = ⟨sb.rootNodeId, hwfsInode, 0⟩ ∧
    hwfsInodeToHost b (hwfsValueToHost b slot).offset = node

theorem Formatted.rootFound {diskSize : ℕ} {t : BtState} (h : Formatted diskSize s t) :
    RootFound t rootNode := by
  have hroot : superBlock.fsTreeRoot.toNat = fsRoot := by decide
  have hleaf := h.fsTree
  have hlen : fsPairs.length = 3 := rfl
  simp only [RootFound, h.super, hroot]
  generalize t.data fsRoot = b at *
  have hkey : ∀ m (hm : m < fsPairs.length), hwfsKeyToHost b (valueAt m) = fsPairs[m].1 := fun m hm =>
    congrArg Value.key (hleaf.value_eq m hm)
  have hslot : btreeLowerBound b ⟨superBlock.rootNodeId, hwfsInode, 0⟩ = 1 := by
    have hzero : 0 < hwfsKeyCmp ⟨superBlock.rootNodeId, hwfsInode, 0⟩ b headerSize := by
      rw [hwfsKeyCmp, show headerSize = valueAt 0 from rfl, hkey 0 (by decide)]
      decide
    have hone : ¬0 < hwfsKeyCmp ⟨superBlock.rootNodeId, hwfsInode, 0⟩ b (headerSize + valueSize) := by
      rw [hwfsKeyCmp, show headerSize + valueSize = valueAt 1 from rfl, hkey 1 (by decide)]
      decide
    rw [btreeLowerBound, if_pos hleaf.level_eq, lowerBoundLoop, hleaf.count_eq, hlen]
    simp [boundLoop, hzero, hone]
  rw [hslot, hleaf.count_eq, hleaf.value_eq 1 (by decide)]
  refine ⟨by decide, rfl, roundTrips_inode.read_bytes (b := fun _ => 0) ?_⟩
  exact hleaf.data_eq 1 (by decide)

/-- The state `t` is the state `s` with the super block and two empty roots written. -/
structure Cleared (s t : BtState) : Prop where
  blockSize_eq : t.blockSize = blockSize
  next_eq : t.fs.next = freeBlock
  readable_eq : t.readable = s.readable
  links_eq : t.links = s.links
  super : t.data 0 = hwfsSuperToDisk (s.data 0) 0 superBlock
  fsTree : IsLeaf blockSize (t.data fsRoot) []
  extentTree : IsLeaf blockSize (t.data extentRoot) []
  others : ∀ n, n ∉ fixedBlocks → t.data n = s.data n

/-- What the first part of `bootstrap` leaves when a block cannot be read. -/
structure Refused (s : BtState) (rc : ℤ) (t : BtState) : Prop where
  rc_eq : rc = -1
  unreadable : ∃ n ∈ fixedBlocks, s.readable n = false
  links_eq : t.links = s.links
  others : ∀ n, n ∉ fixedBlocks → t.data n = s.data n

/-- The part of `bootstrap` that writes whole blocks. -/
theorem ensures_writeBlocks {next : BtM ℤ} {diskSize : ℕ} (hbs : s.blockSize = blockSize)
    (hnext : ∀ t, Cleared s t → (∀ n ∈ fixedBlocks, s.readable n = true) → Ensures next t Q)
    (hfail : ∀ t, Refused s (-1) t → Q (-1) t) :
    Ensures (andThen writeSuper <| andThen (writeRoot fsRoot) <| andThen (writeRoot extentRoot) next)
      { s with fs := ⟨diskSize, freeBlock⟩ } Q := by
  have hle : headerSize ≤ blockSize := by decide
  have hnot : ∀ n, n ∉ fixedBlocks → n ≠ 0 ∧ n ≠ fsRoot ∧ n ≠ extentRoot := by
    intro n hn
    simpa only [fixedBlocks, List.mem_cons, List.not_mem_nil, or_false, not_or] using hn
  refine ensures_andThen (ensures_rewriteBlock (fun hzero => ?_) fun hzero => ?_)
  rotate_left
  · rw [if_pos (by decide)]
    exact hfail _ ⟨rfl, ⟨0, by decide, hzero⟩, rfl, fun _ _ => rfl⟩
  rw [if_neg (not_not.2 rfl)]
  refine ensures_andThen (ensures_rewriteBlock (fun hfs => ?_) fun hfs => ?_)
  rotate_left
  · rw [if_pos (by decide)]
    exact hfail _ ⟨rfl, ⟨fsRoot, by decide, hfs⟩, rfl,
      fun n hn => Function.update_of_ne (hnot n hn).1 ..⟩
  rw [if_neg (not_not.2 rfl)]
  refine ensures_andThen (ensures_rewriteBlock (fun hext => ?_) fun hext => ?_)
  rotate_left
  · rw [if_pos (by decide)]
    exact hfail _ ⟨rfl, ⟨extentRoot, by decide, hext⟩, rfl, fun n hn =>
      (Function.update_of_ne (hnot n hn).2.1 ..).trans (Function.update_of_ne (hnot n hn).1 ..)⟩
  rw [if_neg (not_not.2 rfl)]
  refine hnext _ ⟨hbs, rfl, rfl, rfl, ?_, ?_, ?_, fun n hn => ?_⟩ ?_
  · dsimp only
    rw [Function.update_of_ne (by decide), Function.update_of_ne (by decide), Function.update_self]
  · dsimp only
    rw [Function.update_of_ne (by decide), Function.update_self, hbs]
    exact isLeaf_emptyRoot _ hle
  · dsimp only
    rw [Function.update_self, hbs]
    exact isLeaf_emptyRoot _ hle
  · dsimp only
    rw [Function.update_of_ne (hnot n hn).2.2, Function.update_of_ne (hnot n hn).2.1,
      Function.update_of_ne (hnot n hn).1]
  · simp only [fixedBlocks, List.forall_mem_cons, List.not_mem_nil, false_imp_iff, implies_true, and_true]
    exact ⟨hzero, hfs, hext⟩

/-- The part of `bootstrap` that fills the trees. -/
theorem Cleared.ensures_fill {t : BtState} {diskSize : ℕ} (h : Cleared s t)
    (hreadable : ∀ n ∈ fixedBlocks, s.readable n = true) (hsize : 3 ≤ diskSize)
    (hmax : diskSize < 2 ^ 63) :
    Ensures (andThen (fillFsTree (fuel + 1)) (fillExtentTree (fuel + 1) diskSize)) t fun rc u =>
      rc = 0 ∧ Formatted diskSize s u := by
  have hread : ∀ n ∈ fixedBlocks, t.readable n = true := by
    rw [h.readable_eq]
    exact hreadable
  have hne : extentRoot ≠ fsRoot := by decide
  refine ensures_andThen (ensures_fillFsTree h.blockSize_eq (hread _ (by decide)) ?_ fun b hb => ?_)
  · rw [h.blockSize_eq]
    exact h.fsTree
  rw [if_neg (not_not.2 rfl)]
  refine ensures_fillExtentTree h.blockSize_eq (hread extentRoot (by decide)) ?_ h.next_eq hsize hmax
    fun c hc => ⟨rfl, ?_⟩
  · dsimp only
    rw [Function.update_of_ne hne, h.blockSize_eq]
    exact h.extentTree
  have hzero : Function.update (Function.update t.data fsRoot b) extentRoot c 0 =
      hwfsSuperToDisk (s.data 0) 0 superBlock := by
    rw [Function.update_of_ne (by decide), Function.update_of_ne (by decide), h.super]
  refine ⟨?_, ?_, ?_, h.links_eq, fun i hi => ?_, fun n hn => ?_⟩
  · dsimp only
    rw [hzero]
    exact roundTrips_super.read_write ..
  · dsimp only
    rw [Function.update_of_ne hne.symm, Function.update_self, ← h.blockSize_eq]
    exact hb
  · dsimp only
    rw [Function.update_self, ← h.blockSize_eq]
    exact hc
  · dsimp only
    rw [hzero]
    exact roundTrips_super.outside _ _ _ _ (Or.inr (by omega))
  · dsimp only
    rw [← h.others n hn, Function.update_of_ne, Function.update_of_ne]
    · rintro rfl
      exact hn (by decide)
    · rintro rfl
      exact hn (by decide)

/-- **`mkfs`** on a disk of any contents. When the blocks of the super block and of the two roots can
be read, it makes the file system, whose root directory can be found from the super block; otherwise
it fails, with the references balanced and the other blocks left alone. -/
theorem bootstrap_formats {diskSize : ℕ} (hbs : s.blockSize = blockSize) (hsize : 3 ≤ diskSize)
    (hmax : diskSize < 2 ^ 63) (fuel : ℕ) :
    Ensures (bootstrap (fuel + 1) diskSize) s fun rc t =>
      if fixedBlocks.all s.readable then
        rc = 0 ∧ Formatted diskSize s t ∧ RootFound t rootNode
      else
        rc = -1 ∧ t.links = s.links ∧ ∀ n, n ∉ fixedBlocks → t.data n = s.data n := by
  rw [bootstrap, ensures_bind, ensures_modify]
  refine ensures_writeBlocks hbs (fun t ht hreadable => ?_) fun t ht => ?_
  · refine (ht.ensures_fill hreadable hsize hmax).mono fun rc u hu => ?_
    rw [if_pos (List.all_eq_true.2 hreadable)]
    exact ⟨hu.1, hu.2, hu.2.rootFound⟩
  · obtain ⟨n, hn, hread⟩ := ht.unreadable
    rw [if_neg]
    · exact ⟨rfl, ht.links_eq, ht.others⟩
    · intro hall
      rw [List.all_eq_true.1 hall n hn] at hread
      cases hread

/-- A disk of eight blocks that has never been written. -/
def blankDisk : BtState where
  blockSize := 4096
  data _ _ := 0
  readable _ := true
  links _ := 0
  root := 0
  fs := ⟨0, 0⟩

theorem bootstrap_formats_blank :
    Ensures (bootstrap 1 8) blankDisk fun rc t =>
      if fixedBlocks.all blankDisk.readable then
        rc = 0 ∧ Formatted 8 blankDisk t ∧ RootFound t rootNode
      else
        rc = -1 ∧ t.links = blankDisk.links ∧
          ∀ n, n ∉ fixedBlocks → t.data n = blankDisk.data n :=
  bootstrap_formats rfl (by decide) (by decide) 0

end Hwfs

end Kernel64
