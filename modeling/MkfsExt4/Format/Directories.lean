/-
  The directories of a new filesystem (`write_root_and_lost_found` of `src/format.rs`), as `read_dir`
  and `resolve_path` of `src/fs.rs` read them.

  A directory block is parsed to the names it was built from (`parse_dirBlock`), is found through
  the inode of its directory (`Image.resolves`), and is written once, no other step of the formatter
  reaching it. `paths_resolve` puts this together: every path is followed through these names.
-/
import MkfsExt4.Format.FileMaps
import MkfsExt4.Fs.Lookup
import MkfsExt4.Structs.DirentStamp

namespace MkfsExt4

open Lib.Hoare (bind_of_ok)

/-- What a directory shows of an entry. -/
def DirEntry.shown (e : DirEntry) : Nat × List UInt8 := (e.inode, e.name)

/-! ## Reading a directory -/

namespace Filesystem

variable {fs : Filesystem} {dir : Inode}

theorem map_flatten_of_forall₂ {α β γ : Type} {f : β → γ} {g : α → List γ} {xs : List α}
    {ys : List (List β)} (h : List.Forall₂ (fun x y => y.map f = g x) xs ys) :
    ys.flatten.map f = xs.flatMap g := by
  induction h with
  | nil => rfl
  | cons hxy _ ih => rw [List.flatten_cons, List.map_append, hxy, ih, List.flatMap_cons]

/-- A directory shows what its blocks show, in turn. -/
theorem readDir_ok {count : Nat} {names : Nat → List (Nat × List UInt8)} (hpos : 0 < fs.blockSize)
    (hdir : dir.isDir = true) (hsize : dir.size = count * fs.blockSize)
    (hblocks : ∀ k < count, ∃ b buf entries, fs.resolveBlock dir k = .ok (some b) ∧
      fs.readBlock b = .ok buf ∧ Dirent.parseBlock buf = .ok entries ∧
      (entries.filter DirEntry.isName).map DirEntry.shown = names k) :
    ∃ entries, fs.readDir dir = .ok entries ∧
      entries.map DirEntry.shown = (List.range count).flatMap names := by
  have hcount : (dir.size + fs.blockSize - 1) / fs.blockSize = count := by
    rw [hsize, Nat.add_sub_assoc hpos, Nat.mul_comm, Nat.mul_add_div hpos,
      Nat.div_eq_of_lt (Nat.sub_lt hpos Nat.one_pos), Nat.add_zero]
  unfold readDir
  rw [hdir, hcount]
  change ∃ entries, (panicIf (fs.blockSize = 0) >>= _) = _ ∧ _
  rw [panicIf, if_neg hpos.ne']
  refine Lib.Hoare.mapM_bind_ok (fun k hk => ?_) fun parts hparts =>
    ⟨_, rfl, map_flatten_of_forall₂ hparts⟩
  obtain ⟨b, buf, entries, hresolve, hread, hparse, hnames⟩ := hblocks k (List.mem_range.mp hk)
  refine ⟨_, ?_, hnames⟩
  rw [bind_of_ok hresolve]
  dsimp only
  rw [bind_of_ok hread, bind_of_ok (returned_ok_iff.mpr hparse)]
  rfl

/-- A directory without an index is searched in what it shows. -/
theorem lookup_shown {entries : List DirEntry} (hflat : dir.flags &&& IFlags.index = 0)
    (hread : fs.readDir dir = .ok entries) (name : List UInt8) : fs.lookup dir name =
      .ok (((entries.map DirEntry.shown).find? fun n => n.2 == name).map Prod.fst) := by
  rw [lookup, if_neg (not_not_intro hflat), lookupLinear, bind_of_ok hread, List.find?_map,
    Option.map_map]
  rfl

end Filesystem

namespace Format

open Filesystem Device Layout Lib.Trace

/-! ## The names of a new filesystem -/

/-- The names in the root directory and in `lost+found`. -/
def newNames (inum : Nat) : List (Nat × String) :=
  if inum = Ino.root then [(Ino.root, "."), (Ino.root, ".."), (goodOldFirstIno, "lost+found")]
  else if inum = goodOldFirstIno then [(goodOldFirstIno, "."), (Ino.root, "..")]
  else []

/-- Names as the entries of a directory hold them. -/
def inBytes (names : List (Nat × String)) : List (Nat × List UInt8) :=
  names.map fun n => (n.1, n.2.toUTF8.toList)

/-- Where a path leads, from a directory on. -/
def leads : (inum : Nat) → List (List UInt8) → Option Nat
  | inum, [] => some inum
  | inum, c :: rest =>
    ((inBytes (newNames inum)).find? fun n => n.2 == c).bind fun n => leads n.1 rest

/-- What a name of the formatter is, for an entry to hold it. -/
structure Holds (n : Nat × String) : Prop where
  used : n.1 ≠ 0
  inode : n.1 < 2 ^ 32
  name : n.2.toUTF8.toList ≠ []
  short : n.2.toUTF8.toList.length ≤ Dirent.nameLenMax

theorem newNames_holds {inum : Nat} {n : Nat × String} (hn : n ∈ newNames inum) : Holds n := by
  have hall : ∀ m ∈ newNames Ino.root ++ newNames goodOldFirstIno, m.1 ≠ 0 ∧ m.1 < 2 ^ 32 ∧
      m.2.toUTF8.toList ≠ [] ∧ m.2.toUTF8.toList.length ≤ Dirent.nameLenMax := by
    decide +kernel
  have hmem : n ∈ newNames Ino.root ++ newNames goodOldFirstIno := by
    unfold newNames at hn
    split at hn
    · exact List.mem_append_left _ hn
    · split at hn
      · exact List.mem_append_right _ hn
      · exact absurd hn List.not_mem_nil
  obtain ⟨hused, hinode, hname, hshort⟩ := hall n hmem
  exact ⟨hused, hinode, hname, hshort⟩

/-- The names lead from a directory to a directory. -/
theorem newNames_dirs {inum : Nat} {n : Nat × List UInt8} (hn : n ∈ inBytes (newNames inum)) :
    n.1 = Ino.root ∨ n.1 = goodOldFirstIno := by
  obtain ⟨m, hm, rfl⟩ := List.mem_map.mp hn
  unfold newNames at hm
  split at hm
  · simp only [List.mem_cons, List.not_mem_nil, or_false] at hm
    rcases hm with rfl | rfl | rfl
    · exact Or.inl rfl
    · exact Or.inl rfl
    · exact Or.inr rfl
  · split at hm
    · simp only [List.mem_cons, List.not_mem_nil, or_false] at hm
      rcases hm with rfl | rfl
      · exact Or.inr rfl
      · exact Or.inl rfl
    · exact absurd hm List.not_mem_nil

/-! ## The blocks -/

section Blocks

variable (plan : Plan)

/-- The entry of a name. -/
def entryOf (n : Nat × String) : DirEntry :=
  { inode := n.1
    recLen := Dirent.recLen n.2.toUTF8.toList.length
    fileType := fileTypeOf plan FileType.dir
    name := n.2.toUTF8.toList }

theorem entryOf_names {n : Nat × String} (h : Holds n) : Dirent.Names (entryOf plan n) := by
  refine ⟨h.used, h.inode, ?_, h.name, h.short⟩
  unfold entryOf fileTypeOf
  dsimp only
  split <;> decide

/-- What a stamped block of names is made from. -/
theorem dirBlock_ok {inum : Nat} {names : List (Nat × String)} {block : List UInt8}
    (hnames : ∀ n ∈ names, Holds n) (h : dirBlock plan inum names = .ok block) :
    ∃ built, Dirent.buildBlock (names.map (entryOf plan)) plan.geom.blockSize (withTail plan) =
      .ok built ∧ block = stampDir plan inum built := by
  have hone : ∀ n ∈ names, DirEntry.new n.1 n.2.toUTF8.toList (fileTypeOf plan FileType.dir) =
      .ok (entryOf plan n) := fun n hn => if_neg (Nat.not_lt.mpr (hnames n hn).short)
  unfold dirBlock at h
  obtain ⟨entries, hentries, h⟩ := Lib.Hoare.bind_ok h
  obtain rfl : entries = names.map (entryOf plan) :=
    Except.ok.inj (hentries.symm.trans (Lib.Hoare.mapM_ok hone))
  obtain ⟨built, hbuilt, h⟩ := Lib.Hoare.bind_ok h
  exact ⟨built, hbuilt, (Except.ok.inj h).symm⟩

variable (hsize : ∃ k, plan.geom.blockSize = 2 ^ k ∧ 10 ≤ k ∧ k ≤ 16)

include hsize

theorem blockSize_bounds : 1024 ≤ plan.geom.blockSize ∧ plan.geom.blockSize ≤ 65536 ∧
    plan.geom.blockSize % 4 = 0 := by
  obtain ⟨k, hk, hlow, hhigh⟩ := hsize
  rw [hk]
  refine ⟨Nat.pow_le_pow_right Nat.two_pos hlow, Nat.pow_le_pow_right Nat.two_pos hhigh, ?_⟩
  exact Nat.mod_eq_zero_of_dvd (Nat.pow_dvd_pow 2 (Nat.le_trans (by decide : 2 ≤ 10) hlow))

/-- A block of names is parsed to them, its checksum stamped. -/
theorem parse_dirBlock {inum : Nat} {names : List (Nat × String)} {block : List UInt8}
    (hnames : ∀ n ∈ names, Holds n) (hmany : 2 ≤ names.length)
    (h : dirBlock plan inum names = .ok block) : ∃ entries, Dirent.parseBlock block = .ok entries ∧
      (entries.filter DirEntry.isName).map DirEntry.shown = inBytes names := by
  obtain ⟨built, hbuilt, rfl⟩ := dirBlock_ok plan hnames h
  obtain ⟨hlow, hhigh, halign⟩ := blockSize_bounds plan hsize
  have hlen : (names.map (entryOf plan)).length = names.length := List.length_map _
  have hne : names.map (entryOf plan) ≠ [] := List.ne_nil_of_length_pos (by omega)
  have hall : ∀ e ∈ names.map (entryOf plan), Dirent.Names e := by
    intro e he
    obtain ⟨n, hn, rfl⟩ := List.mem_map.mp he
    exact entryOf_names plan (hnames n hn)
  have hbuilt := Dirent.tryBuildBlock_of_ok hlow hhigh (by omega) hbuilt
  refine ⟨Dirent.records (names.map (entryOf plan)) plan.geom.blockSize (withTail plan), ?_, ?_⟩
  · unfold stampDir
    cases htail : withTail plan with
    | true =>
      rw [htail] at hbuilt
      exact Dirent.parseBlock_built_stamped _ hhigh halign hne hall hbuilt
    | false =>
      rw [htail] at hbuilt
      exact Dirent.parseBlock_built hhigh halign hne hall hbuilt
  · have hstored := congrArg (List.map fun s : Nat × Nat × List UInt8 => (s.1, s.2.2))
      (@Dirent.stored_records _ plan.geom.blockSize (withTail plan) hall)
    rw [List.map_map, List.map_map, List.map_map] at hstored
    exact hstored

/-- A further block of `lost+found` is parsed to no names. -/
theorem parse_emptyDirBlock (hsmall : plan.geom.blockSize < 2 ^ 16) : ∃ entries,
    Dirent.parseBlock (emptyDirBlock plan) = .ok entries ∧
      entries.filter DirEntry.isName = [] := by
  obtain ⟨hlow, -⟩ := blockSize_bounds plan hsize
  unfold emptyDirBlock stampDir
  dsimp only
  cases htail : withTail plan with
  | true =>
    have hroom : plan.geom.blockSize - Dirent.tailLen + Dirent.tailLen = plan.geom.blockSize :=
      Nat.sub_add_cancel (Nat.le_trans (by decide) hlow)
    exact ⟨_, Dirent.parseBlock_hole_stamped
      (Nat.le_sub_of_add_le (Nat.le_trans (by decide) hlow))
      (Nat.lt_of_le_of_lt (Nat.sub_le _ _) hsmall) _ hroom, rfl⟩
  | false => exact ⟨_, Dirent.parseBlock_hole (Nat.le_trans (by decide) hlow) hsmall, rfl⟩

end Blocks

/-! ## What is left of them -/

section Left

variable {plan : Plan} (h : plan.Sound) {journal orphan : List Nat} (ho : plan.Ordered journal orphan)

include h ho

omit h in
/-- The root's block is not one of `lost+found`, whose blocks are in a row. -/
theorem Plan.Ordered.root_apart {i : Nat} (hi : i < plan.lostFoundBlocks) :
    plan.rootBlock ≠ plan.lostFoundStart + i := by
  have hnodup := ho.nodup
  rw [ho.runs, List.nodup_flatMap] at hnodup
  have hdirs := hnodup.1 .dirs (by decide)
  intro heq
  refine (List.nodup_cons.mp hdirs).1 (List.mem_range'_1.mpr ?_)
  omega

/-- After the directories nothing reaches their blocks. -/
theorem Plan.Sound.leaves_dirs {b : Nat} {Q : List UInt8 → Prop}
    (hdirs : b ∈ plan.blocksFor journal orphan .dirs) (hb : b ∈ blocksOf plan.runs)
    (hinodes : ¬HoldsInodes plan b)
    (hleaves : Leaves plan.geom.blockSize b Q (writeRootAndLostFound plan)) :
    Leaves plan.geom.blockSize b Q (writeFiles plan) := by
  have hother : ∀ u, u ≠ .dirs → b ∉ plan.blocksFor journal orphan u := fun u hne hu =>
    hne (ho.one_use hu hdirs)
  have hfree : plan.geom.Free b := h.free hb
  refine leaves_first h.blockSize_pos hleaves fun _ _ => ?_
  exact issues_then (ho.skips_journal h.laid (hother _ (by decide)) (hother _ (by decide)))
    (issues_then (skips_resize (hother _ (by decide)) fun off hoff => h.free_ne_reserved hfree hoff)
      (issues_then (ho.skips_orphan (hother _ (by decide)) (hother _ (by decide)))
        (issues_then (skips_mmp (hother _ (by decide))) (skips_writeReservedInodes hinodes))))

theorem Plan.Sound.leaves_root (hinodes : ¬HoldsInodes plan plan.rootBlock) :
    Leaves plan.geom.blockSize plan.rootBlock (fun buf => rootDirBlock plan = .ok buf)
      (writeFiles plan) := by
  refine h.leaves_dirs ho List.mem_cons_self h.laid.root_mem hinodes ?_
  refine leaves_last fun root hroot => leaves_first h.blockSize_pos
    (leaves_writeBlock (length_dirBlock plan (returned_ok hroot)) (returned_ok hroot)) fun _ _ => ?_
  refine issues_bind (issues_ofExcept _) fun first hfirst => issues_then
    (skips_writeBlock (length_dirBlock plan (returned_ok hfirst))
      (ho.root_apart h.lostFound_pos)) (issues_forM fun i hi => ?_)
  have hi := List.mem_range'_1.mp hi
  exact skips_writeBlock (length_emptyDirBlock plan) (ho.root_apart (by omega))

theorem Plan.Sound.leaves_lostFound {i : Nat} (hi : i < plan.lostFoundBlocks)
    (hinodes : ¬HoldsInodes plan (plan.lostFoundStart + i)) :
    Leaves plan.geom.blockSize (plan.lostFoundStart + i)
      (fun buf => if i = 0 then lostFoundBlock plan = .ok buf else buf = emptyDirBlock plan)
      (writeFiles plan) := by
  have hmem : plan.lostFoundStart + i ∈ plan.blocksFor journal orphan .dirs :=
    List.mem_cons_of_mem _ (List.mem_range'_1.mpr (by omega))
  refine h.leaves_dirs ho hmem (h.laid.lostFound_mem hi) hinodes ?_
  refine leaves_last fun _ _ => leaves_last fun _ _ => leaves_last fun first hfirst => ?_
  rcases Nat.eq_zero_or_pos i with rfl | hpos
  · refine leaves_first h.blockSize_pos
      (leaves_writeBlock (length_dirBlock plan (returned_ok hfirst)) (returned_ok hfirst))
      fun _ _ => issues_forM fun j hj => ?_
    have hj := List.mem_range'_1.mp hj
    exact skips_writeBlock (length_emptyDirBlock plan) (by omega)
  · refine leaves_last fun _ _ => leaves_forM h.blockSize_pos
      ⟨i, List.mem_range'_1.mpr (by omega), ?_⟩ fun j _ => ?_
    · exact leaves_writeBlock (length_emptyDirBlock plan) (by rw [if_neg (by omega)])
    · by_cases hij : i = j
      · exact Or.inl (hij ▸ leaves_writeBlock (length_emptyDirBlock plan) (by rw [if_neg (by omega)]))
      · exact Or.inr (skips_writeBlock (length_emptyDirBlock plan) (by omega))

end Left

/-! ## The directories of an image -/

/-- What `fs` says of a directory: its inode is read, has no index, and shows the names. -/
def Shows (fs : Filesystem) (inum : Nat) : Prop :=
  ∃ dir entries, fs.readInode inum = .ok dir ∧ dir.flags &&& IFlags.index = 0 ∧
    fs.readDir dir = .ok entries ∧ entries.map DirEntry.shown = inBytes (newNames inum)

section Image

variable {plan : Plan} {chunkBlocks : Nat} {schedule : Nat → List Nat} {dev dev' : Device}
  {report : Report} {fs : Filesystem} (h : Image plan chunkBlocks schedule dev report dev' fs)
  (hapart : plan.RunsApart) (hfound : plan.TableFound) {inodes : List (Nat × Inode)}
  (hinodes : reservedInodes plan = .ok inodes)

include h hapart hfound hinodes

/-- A directory shows its names where its first block does and the others show none. -/
theorem Image.shows {inum start len : Nat} {blank made : Inode} {blocks : List Nat}
    (hblank : Blank blank) (hmode : blank.mode = Mode.ifdir ||| 0o755 ∨ blank.mode = Mode.ifdir ||| 0o700)
    (hset : setRun blank start len (usesExtents plan.geom) = .ok made) (he : (inum, made) ∈ inodes)
    (hresolves : Resolves fs plan.geom.blockSize (inum, blocks)) (hne : blocks ≠ [])
    (hblocks : ∀ k b, blocks[k]? = some b → ∃ buf entries, fs.readBlock b = .ok buf ∧
      Dirent.parseBlock buf = .ok entries ∧ (entries.filter DirEntry.isName).map DirEntry.shown =
        if k = 0 then inBytes (newNames inum) else []) : Shows fs inum := by
  obtain ⟨hlen, -, hmode', hflags⟩ := setRun_ok hblank hset
  obtain ⟨dir, hread, hsame⟩ := h.map_read hapart hfound hinodes he hlen
  obtain ⟨inode, hread', hsize, hresolve⟩ := hresolves
  obtain rfl : inode = dir := Except.ok.inj (hread'.symm.trans hread)
  have hdir : inode.isDir = true := by
    unfold Inode.isDir Inode.fileType
    rw [hsame.mode, hmode']
    rcases hmode with hmode | hmode <;> rw [hmode] <;> rfl
  have hflat : inode.flags &&& IFlags.index = 0 := by
    rw [hsame.flags, hflags]
    cases usesExtents plan.geom <;> rfl
  have hpos : 0 < fs.blockSize := h.mounts.blockSize ▸ h.sound.blockSize_pos
  rw [← h.mounts.blockSize] at hsize
  obtain ⟨entries, hentries, hshown⟩ := readDir_ok hpos hdir hsize fun k hk => by
    have hb : blocks[k]? = some blocks[k] := List.getElem?_eq_getElem hk
    obtain ⟨buf, parsed, hbuf, hparse, hnames⟩ := hblocks k _ hb
    exact ⟨_, buf, parsed, (hresolve k).trans (congrArg Except.ok hb), hbuf, hparse, hnames⟩
  refine ⟨inode, entries, hread, hflat, hentries, hshown.trans ?_⟩
  obtain ⟨n, hn⟩ := Nat.exists_eq_succ_of_ne_zero (List.length_pos_iff.mpr hne).ne'
  have hrest : (List.range n).flatMap (fun k =>
      if k + 1 = 0 then inBytes (newNames inum) else []) = [] :=
    List.flatMap_eq_nil_iff.mpr fun k _ => if_neg (Nat.succ_ne_zero k)
  rw [hn, List.range_succ_eq_map, List.flatMap_cons, List.flatMap_map, hrest]
  exact List.append_nil _

variable {params : Params} {journal orphan : FilePlan} {deviceSize : Nat}
  (hmade : plan.Made plan.geom params journal orphan)
  (hgeom : compute deviceSize params = .ok plan.geom)
  (hnear : usesExtents plan.geom = true → plan.geom.blocksCount ≤ 2 ^ 48)
  (hin : plan.geom.MetadataContained)

include hmade hgeom hnear hin

theorem Image.root_shows : Shows fs Ino.root := by
  obtain ⟨hmem, -⟩ := reservedInodes_mem hinodes
  have hfile : (Ino.root, [plan.rootBlock]) ∈ plan.files := by simp [Plan.files]
  have hroot := h.sound.laid.root_mem
  obtain ⟨_, _, hord⟩ := h.ordered
  refine h.shows hapart hfound hinodes ⟨by simp [stampTimes], rfl, rfl⟩ (Or.inl rfl)
    (setRun_one _ _ _) hmem (h.resolves hapart hfound hinodes hmade hgeom hnear hin hfile)
    (List.cons_ne_nil _ _) fun k b hb => ?_
  obtain ⟨rfl, rfl⟩ : k = 0 ∧ plan.rootBlock = b := by
    cases k with
    | zero => exact ⟨rfl, Option.some.inj hb⟩
    | succ k => cases hb
  obtain ⟨buf, hread, hbuf⟩ := h.read_run hroot (h.sound.leaves_root hord (h.not_under hin hroot))
  obtain ⟨entries, hparse, hshown⟩ := parse_dirBlock plan h.sound.blockSize
    (fun n hn => @newNames_holds Ino.root n hn) (by decide) hbuf
  exact ⟨buf, entries, hread, hparse, hshown⟩

theorem Image.lostFound_shows : Shows fs goodOldFirstIno := by
  obtain ⟨-, ⟨lostFound, hlost, hmem⟩, -⟩ := reservedInodes_mem hinodes
  have hfile : (goodOldFirstIno, plan.lostFound) ∈ plan.files := by simp [Plan.files]
  have hpos := h.sound.lostFound_pos
  obtain ⟨_, _, hord⟩ := h.ordered
  refine h.shows hapart hfound hinodes ⟨by simp [stampTimes], rfl, rfl⟩ (Or.inr rfl) hlost hmem
    (h.resolves hapart hfound hinodes hmade hgeom hnear hin hfile) ?_ fun k b hb => ?_
  · refine List.ne_nil_of_length_pos ?_
    rw [Plan.lostFound, List.length_range']
    exact hpos
  · have hk : k < plan.lostFoundBlocks := by
      have hlt := (List.getElem?_eq_some_iff.mp hb).1
      rwa [Plan.lostFound, List.length_range'] at hlt
    rw [Plan.lostFound, List.getElem?_range' hk] at hb
    obtain rfl := Option.some.inj hb
    have hk' := h.sound.laid.lostFound_mem hk
    obtain ⟨buf, hread, hbuf⟩ :=
      h.read_run hk' (h.sound.leaves_lostFound hord hk (h.not_under hin hk'))
    rw [Nat.one_mul]
    rcases Nat.eq_zero_or_pos k with rfl | hfar
    · rw [if_pos rfl] at hbuf ⊢
      obtain ⟨entries, hparse, hshown⟩ := parse_dirBlock plan h.sound.blockSize
        (fun n hn => @newNames_holds goodOldFirstIno n hn) (by decide) hbuf
      exact ⟨buf, entries, hread, hparse, hshown⟩
    · rw [if_neg hfar.ne'] at hbuf ⊢
      subst hbuf
      -- A second block is there only where sixteen KiB take more than one.
      have hsmall : plan.geom.blockSize < 2 ^ 16 := by
        by_contra hlarge
        have hone := h.lostFoundBlocks
        have : divCeil (16 * 1024) plan.geom.blockSize ≤ 1 := by
          exact Nat.lt_succ_iff.mp (Nat.div_lt_of_lt_mul (by omega))
        omega
      obtain ⟨entries, hparse, hnone⟩ := parse_emptyDirBlock plan h.sound.blockSize hsmall
      exact ⟨_, entries, hread, hparse, by rw [hnone]; rfl⟩

end Image

/-! ## Paths -/

/-- Where the directories show their names, a path is followed through these. -/
theorem resolveFrom_leads {fs : Filesystem}
    (hshows : ∀ d, d = Ino.root ∨ d = goodOldFirstIno → Shows fs d) {inum : Nat}
    (hd : inum = Ino.root ∨ inum = goodOldFirstIno) (path : List (List UInt8)) :
    fs.resolveFrom inum path = .ok (leads inum path) := by
  induction path generalizing inum with
  | nil => rfl
  | cons c rest ih =>
    obtain ⟨dir, entries, hread, hflat, hentries, hshown⟩ := hshows inum hd
    rw [resolveFrom, bind_of_ok hread, lookup_shown hflat hentries, hshown, leads]
    cases hfind : (inBytes (newNames inum)).find? fun n => n.2 == c with
    | none => rfl
    | some n => exact ih (newNames_dirs (List.mem_of_find?_eq_some hfind))

/-- On a formatted device the root directory and `lost+found` show the names they were made with,
and every path is followed through these names: it ends at the inode they lead to, or nowhere. -/
theorem paths_resolve {dev dev' : Device} {params : Params} {ambient : Ambient} {p : Plan}
    {chunkBlocks : Nat} {schedule : Nat → List Nat} {report : Report} (htyped : params.Typed)
    (huuid : ambient.uuid.length = 16) (hsector : dev.logicalSectorSize < 2 ^ 32)
    (hsize : dev.size < 2 ^ 64)
    (hplan : plan dev.size (onDevice params dev) ambient = .ok p)
    (hroomy : Spacious p.geom) (hfound : p.TableFound)
    (hnear : usesExtents p.geom = true → p.geom.blocksCount ≤ 2 ^ 48)
    (hrun : writePlan p chunkBlocks schedule dev = (.ok report, dev')) :
    ∃ fs, openOn dev' = .ok fs ∧ (∀ d, d = Ino.root ∨ d = goodOldFirstIno → Shows fs d) ∧
      ∀ path, fs.resolvePath path = .ok (leads Ino.root (components path)) := by
  obtain ⟨fs, h⟩ := image_of_plan htyped huuid hsector hsize hplan hrun
  obtain ⟨inodes, hinodes⟩ := h.reserved
  obtain ⟨hgeom, journal, orphan, hmade⟩ := plan_made hplan
  have hapart := h.sound.runsApart hroomy
  have hin := hroomy.contained h.sound.computed
  have hshows : ∀ d, d = Ino.root ∨ d = goodOldFirstIno → Shows fs d := by
    rintro d (rfl | rfl)
    · exact h.root_shows hapart hfound hinodes hmade hgeom hnear hin
    · exact h.lostFound_shows hapart hfound hinodes hmade hgeom hnear hin
  exact ⟨fs, h.opened, hshows, fun path => resolveFrom_leads hshows (Or.inl rfl) _⟩

/-- On the filesystem of several groups `lost+found` is found, and the root through it. -/
theorem several_paths : ∃ p report dev' fs, p.geom = several ∧
    writePlan p gdtChunkBlocks (fun _ => []) severalDevice = (.ok report, dev') ∧
    openOn dev' = .ok fs ∧ fs.resolvePath "/lost+found" = .ok (some goodOldFirstIno) ∧
      fs.resolvePath "/lost+found/.." = .ok (some Ino.root) ∧
      fs.resolvePath "/lost+found/a" = .ok none := by
  obtain ⟨p, report, dev', hplan, hgeom, hrun⟩ := several_written
  have hclassic : p.geom.metaBg = false := by rw [hgeom]; rfl
  have hcount : p.geom.blocksCount ≤ 2 ^ 48 := by rw [hgeom]; decide
  obtain ⟨fs, hopen, -, hpaths⟩ := paths_resolve severalParams_typed (by decide) (by decide)
    (by decide) hplan (by rw [hgeom]; exact several_spacious)
    (fun hm => absurd (hclassic.symm.trans hm) (by decide)) (fun _ => hcount) hrun
  have hleads : leads Ino.root (components "/lost+found") = some goodOldFirstIno ∧
      leads Ino.root (components "/lost+found/..") = some Ino.root ∧
      leads Ino.root (components "/lost+found/a") = none := by decide +kernel
  exact ⟨p, report, dev', fs, hgeom, hrun, hopen, (hpaths _).trans (congrArg Except.ok hleads.1),
    (hpaths _).trans (congrArg Except.ok hleads.2.1), (hpaths _).trans (congrArg Except.ok hleads.2.2)⟩

end Format

end MkfsExt4
