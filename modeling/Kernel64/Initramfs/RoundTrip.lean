import Kernel64.Initramfs.Contents
import Kernel64.Initramfs.Cpio

/-!
# The archive is unpacked

`parse_cpio` on an archive makes the directories and the files that were packed into it, and no others;
and each file reads back as its contents, as long as no allocation fails.
-/

namespace Kernel64

namespace Initramfs

open Vfs Ramfs

/-! ### What is packed -/

/-- The name of the mount. -/
def initramfs : Name := ['i', 'n', 'i', 't', 'r', 'a', 'm', 'f', 's']

/-- A component of a path. -/
structure Component (x : Name) : Prop where
  named : Named x
  undotted : x ≠ ['.'] ∧ x ≠ ['.', '.']
  bytes : Bytes x

/-- **Entries that can be packed**: the directory `initramfs` comes first, and each directory before what is in it. -/
structure WellFormed (entries : List CpioEntry) : Prop where
  first : entries.head? = some ⟨[initramfs], .dir⟩
  below : ∀ e ∈ entries, e.path.head? = some initramfs
  distinct : (entries.map CpioEntry.path).Nodup
  parents : ∀ before e after, entries = before ++ e :: after → before ≠ [] →
    ⟨e.path.dropLast, .dir⟩ ∈ before
  component : ∀ e ∈ entries, ∀ x ∈ e.path, Component x
  size : ∀ e ∈ entries, ∀ bytes, e.content = .file bytes → bytes.length < 2 ^ 31

/-- The kind of node for a content. -/
def Content.kind : Content → Kind
  | .dir => .dir
  | .file _ => .file

/-- What the entries say about a path. -/
def kindIn (entries : List CpioEntry) (p : List Name) : Option Kind :=
  (entries.find? fun e => e.path = p).map fun e => e.content.kind

/-- What the directory trees say about a path. -/
def kindAt (fs : Fs) (p : List Name) : Option Kind := (fs.tree.nodeAt p).map fs.kind

/-! ### Runs -/

/-- The states at the head of the loop of `parse_cpio`. -/
inductive Reaches (fuel : ℕ) (data : List UInt8) (s₀ : State) : Cursor → State → Prop
  | start : Reaches fuel data s₀ ⟨0, true⟩ s₀
  | next {c c' : Cursor} {s s' : State} : Reaches fuel data s₀ c s →
      c.pos < data.length ∧ headerSize ≤ data.length - c.pos →
      parseRecord fuel data c s = Except.ok (some c', s') → Reaches fuel data s₀ c' s'

/-- Read a file from a handle to its end, `size` bytes at a time. -/
def readAll (fuel h size : ℕ) : ℕ → InitM (ℤ × List UInt8)
  | 0 => throw .fuel
  | n + 1 => do
    let (rc, bytes) ← vfsRead fuel h size
    if rc ≤ 0 then return (rc, [])
    else do
      let (rc, rest) ← readAll fuel h size n
      return (rc, bytes ++ rest)

/-- Open a file, read it to its end and release it. -/
def readBack (fuel size n : ℕ) (name : List Char) : InitM (ℤ × List UInt8) := do
  match ← vfsFileOpen name false localFile with
  | (rc, none) => return (rc, [])
  | (_, some e) => do
    let r ← readAll fuel localFile size n
    onFs (vfsRelease e)
    return r

/-- **The state after some entries were unpacked.** -/
structure Unpacked (s₀ : State) (done : List CpioEntry) (s : State) (W : ℕ → Writes) : Prop where
  sound : Sound s W
  reports : s.reports = s₀.reports
  below : ∀ p, kindAt s.fs (initramfs :: p) = kindIn done (initramfs :: p)
  elsewhere : ∀ p, p.head? ≠ some initramfs → kindAt s.fs p = kindAt s₀.fs p
  holds : ∀ e ∈ done, ∀ bytes, e.content = .file bytes →
    ∃ n, s.fs.tree.nodeAt e.path = some n ∧ s.fs.kind n = .file ∧ Holds (W n) bytes

section

variable {s s' s₀ : State} {W W' : ℕ → Writes} {entries done rest : List CpioEntry} {e : CpioEntry}
  {p c : List Name} {x : Name} {n fuel : ℕ}

/-! ### Entries -/

theorem kindIn_append (hnew : ∀ e' ∈ done, e'.path ≠ e.path) :
    kindIn (done ++ [e]) p = if p = e.path then some e.content.kind else kindIn done p := by
  unfold kindIn
  rw [List.find?_append]
  by_cases hp : p = e.path
  · have hnone : done.find? (fun e' => e'.path = p) = none := by
      rw [List.find?_eq_none]
      intro e' he'
      rw [hp]
      simpa using hnew e' he'
    rw [if_pos hp, hnone, Option.none_or, List.find?_cons_of_pos (by simp [hp]), Option.map_some]
  · rw [if_neg hp, List.find?_cons_of_neg (by simpa using fun hc => hp hc.symm), List.find?_nil,
      Option.or_none]

theorem kindIn_of_mem (hd : (done.map CpioEntry.path).Nodup) (he : e ∈ done) :
    kindIn done e.path = some e.content.kind := by
  unfold kindIn
  have hsome : (done.find? fun e' => e'.path = e.path).isSome := by
    rw [List.find?_isSome]
    exact ⟨e, he, by simp⟩
  obtain ⟨e', he'⟩ := Option.isSome_iff_exists.1 hsome
  have hpath : e'.path = e.path := by simpa using List.find?_some he'
  rw [he', List.inj_on_of_nodup_map hd (List.mem_of_find?_eq_some he') he hpath, Option.map_some]

theorem bytes_pathOf : ∀ {p : List Name}, (∀ x ∈ p, Bytes x) → Bytes (pathOf p)
  | [], _ => fun _ ha => absurd ha List.not_mem_nil
  | [x], hp => by
    rw [show pathOf [x] = x by simp [pathOf, List.intercalate]]
    exact hp x (List.mem_singleton_self x)
  | x :: y :: p, hp => by
    rw [show pathOf (x :: y :: p) = x ++ '/' :: pathOf (y :: p) by simp [pathOf, List.intercalate]]
    intro a ha
    rw [List.mem_append, List.mem_cons] at ha
    rcases ha with ha | rfl | ha
    · exact hp x List.mem_cons_self a ha
    · decide
    · exact bytes_pathOf (fun z hz => hp z (List.mem_cons_of_mem _ hz)) a ha

theorem head_pathOf : (pathOf (initramfs :: p)).head? = some 'i' := by
  unfold pathOf List.intercalate
  cases p with
  | nil => rfl
  | cons y p => rfl

theorem pathOf_ne_trailer (hp : p.head? = some initramfs) : pathOf p ≠ trailerName := by
  cases p with
  | nil => exact nomatch hp
  | cons y p =>
    rw [List.head?_cons, Option.some.injEq] at hp
    intro hc
    have hhead := head_pathOf (p := p)
    rw [← hp, hc] at hhead
    exact nomatch hhead

/-! ### One entry -/

/-- An entry comes after the directory it is in, with a path of its own. -/
structure Next (done : List CpioEntry) (e : CpioEntry) (c : List Name) (x : Name) : Prop where
  path : e.path = c ++ [x]
  below : BelowMount c x
  parent : kindIn done c = some .dir
  head : c.head? = some initramfs
  new : ∀ e' ∈ done, e'.path ≠ e.path

theorem WellFormed.next (h : WellFormed entries) (hsplit : entries = done ++ e :: rest) (hdone : done ≠ []) :
    ∃ c x, Next done e c x := by
  have he : e ∈ entries := by
    rw [hsplit]
    exact List.mem_append_right _ List.mem_cons_self
  have hparent := h.parents done e rest hsplit hdone
  have hmem : (⟨e.path.dropLast, .dir⟩ : CpioEntry) ∈ entries := by
    rw [hsplit]
    exact List.mem_append_left _ hparent
  have hnodup : (done.map CpioEntry.path).Nodup := by
    have := h.distinct
    rw [hsplit, List.map_append] at this
    exact this.of_append_left
  have hnew : ∀ e' ∈ done, e'.path ≠ e.path := by
    intro e' he' hc
    have := h.distinct
    rw [hsplit, List.map_append, List.map_cons, List.nodup_append] at this
    exact this.2.2 e'.path (List.mem_map_of_mem he') e.path List.mem_cons_self hc
  have hhead := h.below _ hmem
  have hne : e.path ≠ [] := by
    intro hc
    have := h.below e he
    rw [hc] at this
    exact nomatch this
  refine ⟨e.path.dropLast, e.path.getLast hne, ?_, ⟨?_, ?_, ?_⟩, kindIn_of_mem hnodup hparent, hhead, hnew⟩
  · exact (List.dropLast_append_getLast hne).symm
  · intro hc
    dsimp only at hhead
    rw [hc] at hhead
    exact nomatch hhead
  · rw [List.dropLast_append_getLast hne]
    exact fun y hy => (h.component e he y hy).named
  · rw [List.dropLast_append_getLast hne]
    exact fun y hy => (h.component e he y hy).undotted

/-- **An entry is unpacked** when its node is made at its path. -/
theorem Unpacked.step (h : Unpacked s₀ done s W) (hnext : Next done e c x) (hsound : Sound s' W')
    (hrep : s'.reports = s.reports) (hgrow : Grows s.fs s'.fs (c ++ [x]) e.content.kind n)
    (hold : ∀ k, Real s.fs k → W' k = W k) (hnew : ∀ bytes, e.content = .file bytes → Holds (W' n) bytes) :
    Unpacked s₀ (done ++ [e]) s' W' := by
  have hat : ∀ p, kindAt s'.fs p = if p = e.path then some e.content.kind else kindAt s.fs p := by
    intro p
    unfold kindAt
    rw [hgrow.nodeAt, hnext.path]
    by_cases hp : p = c ++ [x]
    · rw [if_pos hp, if_pos hp, Option.map_some, hgrow.new]
    · rw [if_neg hp, if_neg hp]
      cases hk : s.fs.tree.nodeAt p with
      | none => rfl
      | some k => rw [Option.map_some, Option.map_some, hgrow.kind k (h.sound.fs.real_of_nodeAt hk)]
  refine ⟨hsound, hrep.trans h.reports, fun p => ?_, fun p hp => ?_, fun e' he' bytes hbytes => ?_⟩
  · rw [hat, kindIn_append hnext.new, h.below p]
  · have hne : p ≠ e.path := by
      rintro rfl
      rw [hnext.path, List.head?_append, hnext.head] at hp
      exact hp rfl
    rw [hat, if_neg hne, h.elsewhere p hp]
  · rcases List.mem_append.1 he' with he' | he'
    · obtain ⟨k, hk, hfile, hholds⟩ := h.holds e' he' bytes hbytes
      have hreal := h.sound.fs.real_of_nodeAt hk
      refine ⟨k, ?_, ?_, ?_⟩
      · rw [hgrow.nodeAt, ← hnext.path, if_neg (hnext.new e' he'), hk]
      · rw [hgrow.kind k hreal, hfile]
      · rw [hold k hreal]
        exact hholds
    · obtain rfl := List.mem_singleton.1 he'
      refine ⟨n, ?_, ?_, hnew bytes hbytes⟩
      · rw [hgrow.nodeAt, if_pos hnext.path]
      · rw [hgrow.new, hbytes]
        rfl

/-- **The code makes the node of an entry**, unless an allocation fails. -/
theorem Unpacked.ensures_handle (hfuel : maxPages < fuel) (h : Unpacked s₀ done s W)
    (hnext : Next done e c x) (pos : ℕ) {mode : ℕ} {contents : List UInt8}
    (hcontent : (e.content = .dir ∧ isDir mode) ∨
      (e.content = .file contents ∧ isReg mode ∧ contents.length < 2 ^ 31)) :
    Ensures (handle fuel mode false pos (pathOf e.path) contents) s fun r s' =>
      r = some ⟨pos, false⟩ ∧ (s.failures < s'.failures ∨ ∃ W', Unpacked s₀ (done ++ [e]) s' W') := by
  have hhead : e.path.head? = some initramfs := by
    rw [hnext.path, List.head?_append, hnext.head, Option.some_or]
  -- the directory of the entry is there, and the entry is not
  obtain ⟨c', hc'⟩ : ∃ c', c = initramfs :: c' := by
    have hc := hnext.head
    cases hcc : c with
    | nil =>
      rw [hcc] at hc
      exact nomatch hc
    | cons y c' =>
      rw [hcc, List.head?_cons, Option.some.injEq] at hc
      exact ⟨c', by rw [hc]⟩
  have hparent : kindAt s.fs c = some .dir := by
    rw [hc', h.below, ← hc']
    exact hnext.parent
  obtain ⟨d, hd, hdir⟩ := Option.map_eq_some_iff.1 hparent
  have hfresh : s.fs.tree.nodeAt (c ++ [x]) = none := by
    have hkind := h.below (c' ++ [x])
    rw [← List.cons_append, ← hc'] at hkind
    have hnone : kindIn done (c ++ [x]) = none := by
      unfold kindIn
      rw [Option.map_eq_none_iff, List.find?_eq_none]
      intro e' he'
      simpa [← hnext.path] using hnext.new e' he'
    rw [hnone] at hkind
    exact Option.map_eq_none_iff.1 hkind
  unfold handle
  rw [if_neg (pathOf_ne_trailer hhead), hnext.path]
  rcases hcontent with ⟨hcon, hmode⟩ | ⟨hcon, hmode, hlen⟩
  · rw [if_pos hmode, if_neg Bool.false_ne_true, ensures_bind]
    refine (h.sound.ensures_createDir hnext.below hd hdir hfresh).mono fun _ s' hs' =>
      ensures_pure.2 ⟨rfl, hs'.imp id ?_⟩
    rintro ⟨hrep, W', n, hsound, hgrow, hold⟩
    rw [← show e.content.kind = .dir by rw [hcon]; rfl] at hgrow
    refine ⟨W', h.step hnext hsound hrep hgrow hold fun bytes hbytes => ?_⟩
    rw [hcon] at hbytes
    exact nomatch hbytes
  · have hnot : ¬isDir mode := by
      unfold isDir isReg at *
      omega
    have hmax : contents.length ≤ maxOffset := by
      unfold maxOffset
      omega
    rw [if_neg hnot, if_pos hmode, ensures_bind]
    refine (h.sound.ensures_createFile hfuel hnext.below hd hdir hfresh hmax).mono fun _ s' hs' =>
      ensures_pure.2 ⟨rfl, hs'.imp id ?_⟩
    rintro ⟨hrep, W', n, hsound, hgrow, hholds, hold⟩
    rw [← show e.content.kind = .file by rw [hcon]; rfl] at hgrow
    refine ⟨W', h.step hnext hsound hrep hgrow hold fun bytes hbytes => ?_⟩
    rw [hcon] at hbytes
    rwa [← Content.file.inj hbytes]

/-! ### The loop -/

theorem Record.length {Mode : ℕ → Prop} {name : List Char} {contents record : List UInt8}
    (hr : Record Mode name contents record) : record.length % 4 = 0 ∧ headerSize ≤ record.length := by
  obtain ⟨h, pad, pad', mode, rfl, hf, -, -, -, -, hpad, hpad'⟩ := hr
  simp only [List.length_append, List.length_cons, List.length_map, CpioHeader.length_bytes hf]
  unfold padding headerSize at *
  omega

/-- The record of an entry, whatever it is. -/
theorem CpioEntry.Encoded.record {record : List UInt8} (hr : e.Encoded record) :
    ∃ Mode contents, Record Mode (pathOf e.path) contents record ∧ ∀ mode, Mode mode →
      (e.content = .dir ∧ isDir mode) ∨ (e.content = .file contents ∧ isReg mode) := by
  unfold CpioEntry.Encoded at hr
  split at hr
  · next hcon => exact ⟨_, _, hr, fun _ hmode => Or.inl ⟨hcon, hmode⟩⟩
  · next bytes hcon => exact ⟨_, bytes, hr, fun _ hmode => Or.inr ⟨hcon, hmode⟩⟩

/-- **The rest of the records is unpacked**, unless an allocation fails. -/
theorem WellFormed.ensures_parseCpioFrom (h : WellFormed entries) (hfuel : maxPages < fuel)
    {data trailer tail : List UInt8} (hsize : data.length < 2 ^ 64)
    (htrailer : Record (fun _ => True) trailerName [] trailer)
    (hmem : ∀ c s, Reaches fuel data s₀ c s → s.failures = s₀.failures) :
    ∀ (rest done : List CpioEntry) {records : List (List UInt8)} {pre : List UInt8} {s : State}
      {W : ℕ → Writes} {N : ℕ}, entries = done ++ rest → done ≠ [] →
      List.Forall₂ CpioEntry.Encoded rest records → data = pre ++ (records.flatten ++ (trailer ++ tail)) →
      pre.length % 4 = 0 → Unpacked s₀ done s W → Reaches fuel data s₀ ⟨pre.length, false⟩ s →
      rest.length < N →
      Ensures (parseCpioFrom fuel data N ⟨pre.length, false⟩) s fun _ s' => ∃ W', Unpacked s₀ entries s' W'
  | [], done, _, pre, s, W, N + 1, hsplit, _, .nil, hdata, hpre, hun, _, _ => by
    -- only the trailer is left
    rw [List.flatten_nil, List.nil_append] at hdata
    subst hdata
    rw [List.append_nil] at hsplit
    rw [parseCpioFrom]
    have htr := htrailer.length
    rw [if_pos (by
      unfold headerSize at *
      simp only [List.length_append]
      omega), ensures_bind]
    obtain ⟨mode, -, hparse⟩ := parseRecord_append fuel false tail htrailer
      (by decide) hpre hsize
    rw [hparse, handle, if_pos rfl, ensures_pure, ensures_pure, hsplit]
    exact ⟨W, hun⟩
  | e :: rest, done, record :: records, pre, s, W, N + 1, hsplit, hdone, .cons hrec hrecs, hdata, hpre, hun,
      hreach, hN => by
    obtain ⟨Mode, contents, hr, hmode⟩ := hrec.record
    obtain ⟨c, x, hnext⟩ := h.next hsplit hdone
    have he : e ∈ entries := by
      rw [hsplit]
      exact List.mem_append_right _ List.mem_cons_self
    have hbytes : Bytes (pathOf e.path) := bytes_pathOf fun y hy => (h.component e he y hy).bytes
    have hlen := hr.length
    rw [List.flatten_cons, List.append_assoc] at hdata
    rw [parseCpioFrom]
    -- the record is read whole, and the entry it describes is made
    have hroom : pre.length < data.length ∧ headerSize ≤ data.length - pre.length := by
      rw [hdata]
      unfold headerSize at *
      simp only [List.length_append]
      omega
    rw [if_pos hroom, ensures_bind]
    obtain ⟨mode, hm, hparse⟩ := parseRecord_append fuel false
      (records.flatten ++ (trailer ++ tail)) hr hbytes hpre (by rw [← hdata]; exact hsize)
    have hcase : (e.content = .dir ∧ isDir mode) ∨
        (e.content = .file contents ∧ isReg mode ∧ contents.length < 2 ^ 31) :=
      (hmode mode hm).imp_right fun ⟨hcon, hreg⟩ => ⟨hcon, hreg, h.size e he contents hcon⟩
    rw [← hdata] at hparse
    obtain ⟨r, s', hrun, rfl, hs'⟩ := hun.ensures_handle hfuel hnext
      (pre.length + record.length) hcase
    rw [← hparse] at hrun
    have hreach' := hreach.next hroom hrun
    have hsame : ¬s.failures < s'.failures := by
      rw [hmem _ _ hreach, hmem _ _ hreach']
      exact lt_irrefl _
    obtain ⟨W', hun'⟩ := hs'.resolve_left hsame
    have hlength : (pre ++ record).length = pre.length + record.length := List.length_append
    have hdata' : data = pre ++ record ++ (records.flatten ++ (trailer ++ tail)) := by
      rw [hdata, List.append_assoc]
    refine ⟨_, s', hrun, ?_⟩
    dsimp only
    -- the records after it, by induction
    rw [← hlength] at hreach' ⊢
    refine WellFormed.ensures_parseCpioFrom h hfuel hsize htrailer hmem rest (done ++ [e]) ?_ ?_ hrecs
      hdata' ?_ hun' hreach' ?_
    · rw [hsplit, List.append_assoc, List.singleton_append]
    · exact List.append_ne_nil_of_right_ne_nil _ (List.cons_ne_nil _ _)
    · omega
    · rw [List.length_cons] at hN
      omega

/-! ### Reading back -/

/-- **A file is read to its end.** -/
theorem ensures_readAll (hfuel : maxPages < fuel) {h size : ℕ} (hpos : 0 < size) (bytes : List UInt8) :
    ∀ (N o : ℕ) {s : State} {T : ℕ → ColorTree Ptr} {W : ℕ → Writes}, FilesOk s.files T W →
      s.fs.kind n = .file → s.files.file h = ⟨n, o⟩ → Holds (W n) bytes → o ≤ bytes.length →
      bytes.length - o < N →
      Ensures (readAll fuel h size N) s fun r s' => r = (0, bytes.drop o) ∧ s'.fs = s.fs := by
  intro N
  induction N with
  | zero => exact fun o _ _ _ _ _ _ _ _ hN => absurd hN (Nat.not_lt_zero _)
  | succ N ih =>
    intro o s T W hok hkind hfile hholds ho hN
    have hsize := hok.size n
    rw [hholds.size] at hsize
    unfold readAll vfsRead
    rw [ensures_bind, ensures_bind, ensures_get, hfile, if_pos hkind, ensures_onFiles]
    refine (hok.ensures_vfsRead hfuel size).mono fun ⟨rc, l⟩ files' ⟨k, hk, hrc, hl, hzero, hle, hf'⟩ => ?_
    dsimp only at hrc hl
    rw [hfile] at hl hzero hle hf'
    dsimp only at hl hzero hle hf'
    rw [hsize] at hzero hle
    rw [Int.toNat_natCast] at hl
    dsimp only
    by_cases hk0 : k = 0
    · -- the end
      have hend : bytes.length ≤ o := by
        rcases hzero.1 hk0 with hend | hsz
        · exact_mod_cast hend
        · omega
      rw [if_pos (by omega), ensures_pure, hrc, hk0, List.drop_eq_nil_of_le hend]
      exact ⟨rfl, rfl⟩
    · have hle' : o + k ≤ bytes.length := by exact_mod_cast hle hk0
      rw [if_neg (by omega), ensures_bind]
      have hrest := ih (o + k) (s := { s with files := files' }) (T := T) (W := W)
        (by
          rw [hf']
          exact hok.setFile (by dsimp only; omega) (by
            have := hok.size_le n
            rw [hholds.size] at this
            dsimp only
            omega))
        hkind
        (by
          rw [hf']
          dsimp only
          rw [Function.update_self]
          push_cast
          rfl)
        hholds hle' (by omega)
      refine hrest.mono fun ⟨rc', l'⟩ s' ⟨hr, hfs⟩ => ensures_pure.2 ⟨?_, hfs⟩
      obtain ⟨rfl, rfl⟩ := Prod.mk.inj hr
      rw [hl, hholds.slice hle', ← List.drop_drop, List.take_append_drop]

/-- **A file that was unpacked reads back as its contents**, unless an allocation fails. -/
theorem Unpacked.ensures_readBack (hfuel : maxPages < fuel) (h : WellFormed entries)
    (hun : Unpacked s₀ entries s W) (he : e ∈ entries) {bytes : List UInt8} (hcon : e.content = .file bytes)
    {size N : ℕ} (hpos : 0 < size) (hN : bytes.length < N) :
    Ensures (readBack fuel size N (pathOf e.path)) s fun r s' => s'.failures = s.failures → r = (0, bytes) := by
  obtain ⟨n, hn, hkind, hholds⟩ := hun.holds e he bytes hcon
  obtain ⟨T, hT⟩ := hun.sound.files
  -- a file is not the first entry, so its path is below the mount
  obtain ⟨c, x, hnext⟩ : ∃ c x, e.path = c ++ [x] ∧ BelowMount c x := by
    obtain ⟨done, rest, hsplit⟩ := List.append_of_mem he
    have hdone : done ≠ [] := by
      rintro rfl
      have hfirst := h.first
      rw [hsplit, List.nil_append, List.head?_cons, Option.some.injEq] at hfirst
      rw [hfirst] at hcon
      exact nomatch hcon
    obtain ⟨c, x, hnext⟩ := h.next hsplit hdone
    exact ⟨c, x, hnext.path, hnext.below⟩
  rw [hnext.1] at hn ⊢
  unfold readBack
  rw [ensures_bind]
  have hopen := (hun.sound.fs.ensures_vfsOpen hnext.2 hn).and_yields (tallies_vfsFileOpen s.fs)
  refine ensures_vfsFileOpen hopen ?_ ?_
  · intro rc fs hR
    obtain ⟨hR, -, hfail⟩ := hR
    refine ensures_pure.2 fun hsame => absurd hsame ?_
    refine (Nat.add_lt_add_right (hfail ?_) s.files.failures).ne'
    rcases hR with hR | ⟨e', hR, -⟩
    · exact (Prod.mk.inj hR).1
    · exact nomatch (Prod.mk.inj hR).2
  · intro rc e' fs hR
    replace hR := hR.1
    rcases hR with hR | ⟨e'', hR, h', hnode, htree⟩
    · exact nomatch (Prod.mk.inj hR).2
    obtain ⟨rfl, he'⟩ := Prod.mk.inj hR
    obtain rfl := Option.some.inj he'
    refine ⟨n, hnode, ?_⟩
    have hreal := hun.sound.fs.real_of_nodeAt hn
    obtain ⟨T₁, hT₁⟩ := filesOk_clearNew s.fs fs hT
    have hT₂ := hT₁.setFile (h := localFile) (v := ⟨n, 0⟩) le_rfl (Int.natCast_nonneg _)
    dsimp only
    rw [ensures_bind]
    have hread := ensures_readAll (n := n) hfuel (h := localFile) hpos bytes N 0
      (s := { s with fs := fs, files := { clearNew s.fs fs s.files with
        file := Function.update s.files.file localFile ⟨n, 0⟩ } }) hT₂
      (by
        have : fs.tree.kind n = .file := by rw [htree]; exact hkind
        exact this)
      (by
        dsimp only
        rw [Function.update_self, Nat.cast_zero])
      (by
        rw [if_neg (not_new h' hreal)]
        exact hholds)
      (Nat.zero_le _) (by omega)
    refine hread.mono fun r s₁ ⟨hr, hfs⟩ => ?_
    rw [ensures_bind, ensures_onFs, hfs]
    refine h'.put.mono fun _ _ _ => ensures_pure.2 fun _ => ?_
    rw [hr, List.drop_zero]

/-! ### A fresh mount -/

/-- The mount is an empty directory. -/
theorem MountsOnly.fresh {fs₁ fs : Fs} (h : MountsOnly fs₁)
    (hmount : vfsMount initramfs fs₁ = Except.ok (0, fs)) :
    MountsOnly fs ∧ ∃ r, fs.tree.nodeAt [initramfs] = some r ∧ fs.kind r = .dir ∧ fs.names r = [] := by
  have honly := h.mount.of_run hmount
  refine ⟨honly, ?_⟩
  have hroot : ∀ n x, fs.kind rootNode = .root ∧ fs.mounts.lookup x = some n →
      fs.tree.nodeAt [x] = some n := by
    intro n x ⟨hk, hlook⟩
    rw [← List.nil_append [x], Tree.nodeAt_snoc, Tree.nodeAt_nil, Option.bind_some]
    have hk' : fs.tree.kind rootNode = .root := hk
    unfold Tree.find
    rw [hk']
    exact hlook
  have hspec : Ensures (vfsMount initramfs) fs₁ fun rc s' => rc = 0 → ∃ r,
      s'.mounts.lookup initramfs = some r ∧ s'.kind r = .dir := by
    unfold vfsMount
    rw [ensures_bind, ensures_get]
    cases hold : fs₁.mounts.lookup initramfs with
    | some n => exact ensures_pure.2 nofun
    | none =>
      rw [Option.isSome_none, if_neg Bool.false_ne_true, ensures_bind, ensures_set]
      split
      · rw [ensures_bind]
        refine ensures_ramfsNodeCreate (fun _ => ensures_pure.2 nofun) fun n _ _ _ => ?_
        rw [ensures_bind, ensures_modify, ensures_pure]
        refine fun _ => ⟨n, ?_, Function.update_self _ _ _⟩
        have hnone : (fs₁.spawn n .dir).mounts.lookup initramfs = none := hold
        dsimp only
        rw [List.lookup_append]
        exact (congrArg (Option.or · _) hnone).trans rfl
      · exact ensures_pure.2 nofun
  obtain ⟨r, hlook, hdir⟩ := hspec.of_run hmount rfl
  exact ⟨r, hroot r initramfs ⟨honly.ok.nodes.root_kind, hlook⟩, hdir, honly.names r⟩

theorem nodeAt_below_empty {fs : Fs} {r : Nid} (hr : fs.tree.nodeAt [initramfs] = some r)
    (hdir : fs.kind r = .dir) (hnil : fs.names r = []) (hp : p ≠ []) :
    fs.tree.nodeAt (initramfs :: p) = none := by
  induction p using List.reverseRecOn with
  | nil => exact absurd rfl hp
  | append_singleton q y ih =>
    rw [← List.cons_append, Tree.nodeAt_snoc]
    by_cases hq : q = []
    · subst hq
      rw [hr, Option.bind_some]
      exact find_of_empty hdir hnil y
    · rw [ih hq, Option.bind_none]

/-- Nothing but the mount is unpacked yet. -/
theorem unpacked_mount (hs : MountsOnly s₀.fs) (hfiles : s₀.files.Empty) {r : Nid}
    (hr : s₀.fs.tree.nodeAt [initramfs] = some r) (hdir : s₀.fs.kind r = .dir)
    (hnil : s₀.fs.names r = []) : Unpacked s₀ [⟨[initramfs], .dir⟩] s₀ fun _ => [] where
  sound := ⟨hs.fsOk, _, hfiles.filesOk⟩
  reports := rfl
  below p := by
    unfold kindAt kindIn
    by_cases hp : p = []
    · subst hp
      rw [hr, Option.map_some, hdir, List.find?_cons_of_pos (by simp)]
      rfl
    · rw [nodeAt_below_empty hr hdir hnil hp, List.find?_cons_of_neg (by simpa using hp)]
      rfl
  elsewhere _ _ := rfl
  holds e he bytes hbytes := by
    rw [List.mem_singleton.1 he] at hbytes
    exact nomatch hbytes

/-! ### The whole archive -/

/-- **The archive is unpacked.** Let `initramfs` be mounted after any other mounts. On an archive of
entries, and as long as no allocation has failed at the head of the loop, `parse_cpio` returns without a report; below
the mount there are the directories and the files of the archive and nothing else, elsewhere nothing
changed, and each file reads back as its contents, unless an allocation fails in that. -/
theorem parseCpio_unpacks {mounts : List Event} {fs₁ : Fs} {entrySupply : ℕ → Option Eid}
    {nodeSupply : ℕ → Option Nid} {nameSupply mountSupply : ℕ → Bool} {data : List UInt8}
    (hmounts : VfsRun (setupVfs entrySupply nodeSupply nameSupply mountSupply) mounts fs₁ [])
    (honly : ∀ ev ∈ mounts, ∃ x, ev.call = .mount x)
    (hmount : vfsMount initramfs fs₁ = Except.ok (0, s₀.fs)) (hfiles : s₀.files.Empty)
    (hreports : s₀.reports = []) (h : WellFormed entries) (harchive : Archive entries data)
    (hsize : data.length < 2 ^ 64) (hfuel : maxPages < fuel)
    (hmem : ∀ c s, Reaches fuel data s₀ c s → s.failures = s₀.failures) :
    Ensures (parseCpio fuel data) s₀ fun _ s => s.reports = [] ∧
      (∀ p, kindAt s.fs (initramfs :: p) = kindIn entries (initramfs :: p)) ∧
      (∀ p, p.head? ≠ some initramfs → kindAt s.fs p = kindAt s₀.fs p) ∧
      ∀ e ∈ entries, ∀ bytes, e.content = .file bytes → ∀ size N, 0 < size → bytes.length < N →
        Ensures (readBack fuel size N (pathOf e.path)) s fun r s' => s'.failures = s.failures → r = (0, bytes) := by
  obtain ⟨hs, r, hr, hdir, hnil⟩ := MountsOnly.fresh (hmounts.mountsOnly honly) hmount
  have hbase := unpacked_mount hs hfiles hr hdir hnil
  obtain ⟨records, trailer, tail, hrecs, htrailer, hdata⟩ := harchive
  -- the first record is that of the mount, and makes nothing
  cases hrecs with
  | nil => exact nomatch h.first
  | @cons e record rest records hrec hrecs =>
    have he : e = ⟨[initramfs], .dir⟩ := Option.some.inj h.first
    subst he
    have hr : Record isDir (pathOf [initramfs]) [] record := hrec
    have hlen := hr.length
    rw [List.flatten_cons, List.append_assoc] at hdata
    have hroom : 0 < data.length ∧ headerSize ≤ data.length - 0 := by
      rw [hdata]
      unfold headerSize at *
      simp only [List.length_append]
      omega
    have hpre : ([] : List UInt8).length % 4 = 0 := rfl
    obtain ⟨mode, hm, hparse⟩ := parseRecord_append fuel true
      (records.flatten ++ (trailer ++ tail)) hr (by decide) hpre
      (by rw [List.nil_append, ← hdata]; exact hsize)
    rw [List.nil_append, ← hdata, List.length_nil, zero_add, handle,
      if_neg (pathOf_ne_trailer rfl), if_pos hm, if_pos rfl] at hparse
    have hrun : parseRecord fuel data ⟨0, true⟩ s₀ = Except.ok (some ⟨record.length, false⟩, s₀) := by
      rw [hparse]
      rfl
    have hreach := Reaches.start.next hroom hrun
    have hcount : (⟨[initramfs], .dir⟩ :: rest : List CpioEntry).length ≤ data.length := by
      have hle : ∀ (l : List CpioEntry) (rs : List (List UInt8)),
          List.Forall₂ CpioEntry.Encoded l rs → l.length ≤ rs.flatten.length := by
        intro l rs hl
        induction hl with
        | nil => exact le_rfl
        | cons hd _ ih =>
          obtain ⟨_, _, hr', -⟩ := hd.record
          have := hr'.length
          unfold headerSize at this
          rw [List.length_cons, List.flatten_cons, List.length_append]
          omega
      have := hle rest records hrecs
      rw [hdata]
      unfold headerSize at hlen
      simp only [List.length_append, List.length_cons]
      omega
    unfold parseCpio
    rw [parseCpioFrom, if_pos hroom, ensures_bind]
    refine ⟨_, s₀, hrun, ?_⟩
    dsimp only
    have hloop := h.ensures_parseCpioFrom hfuel hsize htrailer hmem rest [⟨[initramfs], .dir⟩] rfl
      (List.cons_ne_nil _ _) hrecs hdata hlen.1 hbase hreach (N := data.length)
      (by rw [List.length_cons] at hcount; omega)
    refine hloop.mono fun _ s ⟨W, hun⟩ => ⟨hun.reports.trans hreports, hun.below, hun.elsewhere, ?_⟩
    exact fun e he bytes hcon size N hpos hN => hun.ensures_readBack hfuel h he hcon hpos hN

end

/-! ### An archive -/

/-- Whether `k` allocations have failed at each head of the loop. -/
def quiet (fuel : ℕ) (data : List UInt8) (k : ℕ) : ℕ → Cursor → State → Bool
  | 0, _, _ => false
  | n + 1, c, s => s.failures = k &&
    if c.pos < data.length ∧ headerSize ≤ data.length - c.pos then
      match parseRecord fuel data c s with
      | .ok (some c', s') => quiet fuel data k n c' s'
      | _ => true
    else true

theorem Reaches.failures_eq {fuel N k : ℕ} {data : List UInt8} {s₀ : State}
    (hquiet : quiet fuel data k N ⟨0, true⟩ s₀ = true) {c : Cursor} {s : State}
    (hreach : Reaches fuel data s₀ c s) : s.failures = k := by
  have hrun : ∃ n, quiet fuel data k n c s = true := by
    induction hreach with
    | start => exact ⟨N, hquiet⟩
    | next _ hroom hparse ih =>
      obtain ⟨n, hn⟩ := ih
      cases n with
      | zero => exact nomatch hn
      | succ n =>
        rw [quiet, if_pos hroom, hparse, Bool.and_eq_true] at hn
        exact ⟨n, hn.2⟩
  obtain ⟨n, hn⟩ := hrun
  cases n with
  | zero => exact nomatch hn
  | succ n =>
    rw [quiet, Bool.and_eq_true, decide_eq_true_eq] at hn
    exact hn.1

/-- A directory with a file. -/
def smallEntries : List CpioEntry :=
  [⟨[initramfs], .dir⟩, ⟨[initramfs, ['d']], .dir⟩, ⟨[initramfs, ['d'], ['f']], .file [104, 105, 33]⟩]

/-- A header with the last two digits of the mode, and the last digits of the sizes. -/
def smallHeader (mode namesize filesize : UInt8 × UInt8) : CpioHeader where
  inode := [48, 48, 48, 48, 48, 48, 48, 49]
  mode := [48, 48, 48, 48, mode.1, mode.2, 101, 68]
  uid := [48, 48, 48, 48, 48, 48, 48, 48]
  gid := [48, 48, 48, 48, 48, 48, 48, 48]
  nlink := [48, 48, 48, 48, 48, 48, 48, 49]
  mtime := [48, 48, 48, 48, 48, 48, 48, 48]
  filesize := [48, 48, 48, 48, 48, 48, filesize.1, filesize.2]
  major := [48, 48, 48, 48, 48, 48, 48, 48]
  minor := [48, 48, 48, 48, 48, 48, 48, 48]
  rmajor := [48, 48, 48, 48, 48, 48, 48, 48]
  rminor := [48, 48, 48, 48, 48, 48, 48, 48]
  namesize := [48, 48, 48, 48, 48, 48, namesize.1, namesize.2]
  chksum := [48, 48, 48, 48, 48, 48, 48, 48]

/-- A record with the given header. -/
def smallRecord (h : CpioHeader) (name : List Char) (contents : List UInt8) : List UInt8 :=
  h.bytes ++ (name.map ch ++ 0 :: (List.replicate (padding (headerSize + (name.length + 1))) 0 ++
    (contents ++ List.replicate (padding contents.length) 0)))

theorem record_smallRecord {Mode : ℕ → Prop} {h : CpioHeader} {name : List Char} {contents : List UInt8}
    (mode : ℕ) (hf : ∀ f ∈ h.fields, f.length = 8) (hmode : IsHex h.mode mode) (hm : Mode mode)
    (hns : IsHex h.namesize (name.length + 1)) (hfs : IsHex h.filesize contents.length) :
    Record Mode name contents (smallRecord h name contents) :=
  ⟨h, _, _, mode, rfl, hf, hmode, hm, hns, hfs, List.length_replicate, List.length_replicate⟩

/-- The archive of `smallEntries`, with some padding. -/
def smallArchive : List UInt8 :=
  [smallRecord (smallHeader (52, 49) (48, 97) (48, 48)) (pathOf [initramfs]) [],
    smallRecord (smallHeader (52, 49) (48, 67) (48, 48)) (pathOf [initramfs, ['d']]) [],
    smallRecord (smallHeader (56, 49) (48, 101) (48, 51)) (pathOf [initramfs, ['d'], ['f']])
      [104, 105, 33]].flatten ++
  (smallRecord (smallHeader (48, 48) (48, 66) (48, 48)) trailerName [] ++ List.replicate 8 0)

theorem archive_smallArchive : Archive smallEntries smallArchive := by
  refine ⟨_, _, _, .cons ?_ (.cons ?_ (.cons ?_ .nil)), ?_, rfl⟩
  · exact record_smallRecord 0x41ed (by decide) ⟨rfl, [0, 0, 0, 0, 4, 1, 14, 13], by decide, rfl⟩
      (by decide) ⟨rfl, [0, 0, 0, 0, 0, 0, 0, 10], by decide, rfl⟩ ⟨rfl, [0, 0, 0, 0, 0, 0, 0, 0], by decide, rfl⟩
  · exact record_smallRecord 0x41ed (by decide) ⟨rfl, [0, 0, 0, 0, 4, 1, 14, 13], by decide, rfl⟩
      (by decide) ⟨rfl, [0, 0, 0, 0, 0, 0, 0, 12], by decide, rfl⟩ ⟨rfl, [0, 0, 0, 0, 0, 0, 0, 0], by decide, rfl⟩
  · exact record_smallRecord 0x81ed (by decide) ⟨rfl, [0, 0, 0, 0, 8, 1, 14, 13], by decide, rfl⟩
      (by decide) ⟨rfl, [0, 0, 0, 0, 0, 0, 0, 14], by decide, rfl⟩ ⟨rfl, [0, 0, 0, 0, 0, 0, 0, 3], by decide, rfl⟩
  · exact record_smallRecord 0x00ed (by decide) ⟨rfl, [0, 0, 0, 0, 0, 0, 14, 13], by decide, rfl⟩
      trivial ⟨rfl, [0, 0, 0, 0, 0, 0, 0, 11], by decide, rfl⟩ ⟨rfl, [0, 0, 0, 0, 0, 0, 0, 0], by decide, rfl⟩

theorem wellFormed_smallEntries : WellFormed smallEntries where
  first := rfl
  below := by decide
  distinct := by decide
  parents before e after hsplit hne := by
    match before, hne, hsplit with
    | [_], _, rfl => exact List.mem_cons_self
    | [_, _], _, rfl => exact List.mem_cons_of_mem _ List.mem_cons_self
    | _ :: _ :: _ :: before, _, hsplit =>
      have := congrArg List.length hsplit
      simp [smallEntries] at this
  component := by
    have hall : ∀ x ∈ [initramfs, ['d'], ['f']], Component x := by
      intro x hx
      simp only [List.mem_cons, List.not_mem_nil, or_false] at hx
      rcases hx with rfl | rfl | rfl <;>
        exact ⟨⟨by decide, by decide, by decide⟩, by decide, by decide⟩
    intro e he x hx
    refine hall x ?_
    simp only [smallEntries, List.mem_cons, List.not_mem_nil, or_false] at he
    rcases he with rfl | rfl | rfl <;> simp only [List.mem_cons, List.not_mem_nil, or_false] at hx ⊢ <;>
      tauto
  size e he bytes hcon := by
    simp only [smallEntries, List.mem_cons, List.not_mem_nil, or_false] at he
    rcases he with rfl | rfl | rfl
    · exact nomatch hcon
    · exact nomatch hcon
    · rw [← Content.file.inj hcon]
      decide

/-- A small archive is unpacked, and its file is read two bytes at a time. -/
theorem parseCpio_unpacks_small : ∃ fs, vfsMount initramfs roomy = Except.ok (0, fs) ∧
    Ensures (parseCpio 524289 smallArchive) ⟨fs, twoHandles, []⟩ fun _ s => s.reports = [] ∧
      kindAt s.fs [initramfs, ['d']] = some .dir ∧ kindAt s.fs [initramfs, ['e']] = none ∧
      Ensures (readBack 524289 2 4 (pathOf [initramfs, ['d'], ['f']])) s fun r s' =>
        s'.failures = s.failures → r = (0, [104, 105, 33]) := by
  have hrun : returns (vfsMount initramfs) roomy (fun rc fs => rc = 0 &&
      quiet 524289 smallArchive (fs.failures + 0) 5 ⟨0, true⟩ ⟨fs, twoHandles, []⟩) = true := by
    decide +kernel
  obtain ⟨rc, fs, hmount, hquiet⟩ := returns_iff.1 hrun
  rw [Bool.and_eq_true, decide_eq_true_eq] at hquiet
  obtain ⟨rfl, hquiet⟩ := hquiet
  refine ⟨fs, hmount, ?_⟩
  have hstart : VfsRun roomy [] roomy [] := .start
  have hmem : ∀ c s, Reaches 524289 smallArchive ⟨fs, twoHandles, []⟩ c s → s.failures = fs.failures + 0 :=
    fun c s hreach => hreach.failures_eq hquiet
  have hmain := parseCpio_unpacks hstart (fun _ hev => absurd hev List.not_mem_nil) hmount
    twoHandles_empty rfl wellFormed_smallEntries archive_smallArchive (by decide +kernel) (by decide) hmem
  refine hmain.mono fun _ s ⟨hrep, hbelow, _, hread⟩ => ⟨hrep, hbelow [['d']], hbelow [['e']], ?_⟩
  exact hread ⟨[initramfs, ['d'], ['f']], .file [104, 105, 33]⟩ (by simp [smallEntries]) _ rfl 2 4
    (by decide) (by decide)

end Initramfs

end Kernel64
