/-
  Recovery after a recovery that was cut short, from the device on (`open`, `open_journal` of
  `src/fsck.rs`, `recover` of `src/recovery.rs`).

  A second run finds the filesystem and the journal again on the device that the first one
  left. `ReadToRecover` are the blocks it reads for that: where the superblock lies, the
  descriptor table, the journal's inode, and the blocks that map the journal. If no block goes
  home to one of these, or into the journal, the second run opens the same journal, and ends as
  the first would have (`reopened_after_crash`). `overwritten_after_crash` is a journal whose
  one home block is the superblock's.
-/
import MkfsExt4.Fs.Descriptors
import MkfsExt4.Fs.References
import MkfsExt4.Fsck.ReadOnly
import MkfsExt4.Jbd2.Crash

namespace MkfsExt4

open Lib.Store Lib.Hoare Lib.Endian

/-! ## What a recovery reads before the journal -/

namespace Filesystem

/-- The filesystem as recovery sees it. -/
def view (fs : Filesystem) : Jbd2.Filesystem :=
  { dev := fs.device, blockSize := fs.blockSize, blocksCount := fs.superblock.blocksCount }

/-- Opening the filesystem and its journal reads block `b`. -/
inductive ReadToRecover (fs : Filesystem) (b : Nat) : Prop
  | superblock : b * fs.blockSize < superblockOffset + superblockLen →
      superblockOffset < b * fs.blockSize + fs.blockSize → ReadToRecover fs b
  | table (k : Nat) : k < fs.tableParts → fs.tableBlock k = b → ReadToRecover fs b
  | inode (group offset : Nat) : fs.inodeLocation Ino.journal = .ok (group, b, offset) →
      ReadToRecover fs b
  | map (inode : Inode) (ref : BlockRef) : fs.readInode Ino.journal = .ok inode →
      ref ∈ (fs.walkBlocks inode).1 → ref.kind = .metadata → ref.physical = b → ReadToRecover fs b

/-- The same filesystem over a device that reads alike where `S` holds. -/
structure Alike (S : Nat → Prop) (fs fs' : Filesystem) : Prop where
  fields : fs' = { fs with device := fs'.device }
  size : fs'.device.size = fs.device.size
  window : ∀ b, S b → window fs'.device.bytes (b * fs.blockSize) fs.blockSize =
    window fs.device.bytes (b * fs.blockSize) fs.blockSize

variable {fs fs' : Filesystem} {S : Nat → Prop}

theorem Alike.superblock (h : Alike S fs fs') : fs'.superblock = fs.superblock := by
  rw [h.fields]

theorem Alike.groupDescs (h : Alike S fs fs') : fs'.groupDescs = fs.groupDescs := by
  rw [h.fields]

theorem Alike.blockSize (h : Alike S fs fs') : fs'.blockSize = fs.blockSize := by
  rw [Filesystem.blockSize, Filesystem.blockSize, h.superblock]

theorem Alike.readBlock (h : Alike S fs fs') {b : Nat} (hb : S b) :
    fs'.readBlock b = fs.readBlock b := by
  unfold Filesystem.readBlock readAtBlock blockOffset Device.readAt
  rw [h.superblock, h.blockSize, h.size]
  by_cases hover : b * fs.blockSize < 2 ^ 64
  · simp only [if_pos hover, bind, Except.bind, h.window b hb]
  · simp only [if_neg hover, bind, Except.bind]

theorem Alike.inodeLocation (h : Alike S fs fs') (inum : Nat) :
    fs'.inodeLocation inum = fs.inodeLocation inum := by
  unfold Filesystem.inodeLocation
  rw [h.superblock, h.groupDescs]

theorem Alike.readInode (h : Alike S fs fs') {inum : Nat}
    (hS : ∀ group block offset, fs.inodeLocation inum = .ok (group, block, offset) → S block) :
    fs'.readInode inum = fs.readInode inum := by
  unfold Filesystem.readInode readInodeRaw
  rw [h.inodeLocation, h.superblock]
  cases hloc : fs.inodeLocation inum with
  | error e => rfl
  | ok place =>
    obtain ⟨group, block, offset⟩ := place
    have hread := h.readBlock (hS group block offset hloc)
    simp only [bind, Except.bind, hread]

/-! ## Opening again -/

/-- The filesystem opens as it did where its superblock and its descriptor table stand. -/
theorem openOn_alike {dev : Device} (hopen : openOn dev = .ok fs) (h : Alike S fs fs')
    (hsector : fs'.device.logicalSectorSize = dev.logicalSectorSize)
    (hsb : Lib.Store.window fs'.device.bytes superblockOffset superblockLen =
      Lib.Store.window dev.bytes superblockOffset superblockLen)
    (htable : ∀ k < fs.tableParts, S (fs.tableBlock k)) : openOn fs'.device = .ok fs' := by
  have hdev := (openOn_opened hopen).device
  have hsize : fs'.device.size = dev.size := by rw [h.size, hdev]
  have hself := openOn_of_same hopen rfl rfl rfl
  rw [hopen] at hself
  have hdescs : fs.groupDescs =
      fs.descsIn ({ fs with device := dev } : Filesystem).tableBytes :=
    congrArg Filesystem.groupDescs (Except.ok.inj hself)
  have htables : ({ fs with device := fs'.device } : Filesystem).tableBytes =
      ({ fs with device := dev } : Filesystem).tableBytes := by
    unfold tableBytes
    refine congrArg List.flatten (List.map_congr_left fun k hk => ?_)
    have hwindow := h.window _ (htable k (List.mem_range.mp hk))
    rw [hdev] at hwindow
    exact hwindow
  rw [openOn_of_same hopen hsize hsector hsb, htables, ← hdescs]
  exact congrArg Except.ok h.fields.symm

end Filesystem

namespace Fsck

open Filesystem

variable {S : Nat → Prop} {fs fs' : Filesystem} {j : Jbd2.Journal} {fuel : Nat}

/-- What a command of recovery does to the filesystem. -/
theorem exec_onJournal {α : Type} (m : Jbd2.FsM α) (fs : Filesystem) :
    exec (onJournal m) fs = ((exec m fs.view).1.mapError Failure.error,
      { fs with device := (exec m fs.view).2.dev }) := by
  unfold onJournal
  rw [exec_bind_of_ok (show exec get fs = (.ok fs, fs) from rfl)]
  have hview : exec m ⟨fs.device, fs.blockSize, fs.superblock.blocksCount⟩ = exec m fs.view := rfl
  dsimp only
  rw [hview]
  rcases exec m fs.view with ⟨_ | _, view⟩ <;> rfl

/-- Opening the journal reads. -/
theorem exec_onJournal_openAt {size : Nat} {data : List (Nat × Nat)}
    {opened : Except String Jbd2.Journal} :
    exec (onJournal (Jbd2.openAt size data)) fs = (.ok opened, fs) ↔
      exec (Jbd2.openAt size data) fs.view = (.ok opened, fs.view) := by
  have hkeeps : (exec (Jbd2.openAt size data) fs.view).2 = fs.view := openAt_keeps size data fs.view
  rw [exec_onJournal, hkeeps]
  constructor
  · intro h
    refine Prod.ext ?_ hkeeps
    have hresult := congrArg Prod.fst h
    cases hopen : (exec (Jbd2.openAt size data) fs.view).1 with
    | error e =>
      rw [hopen] at hresult
      cases hresult
    | ok opened' =>
      rw [hopen] at hresult
      exact congrArg Except.ok (Except.ok.inj hresult)
  · intro h
    rw [h]
    rfl

/-- The journal opens as it did where its inode and the blocks of its map stand, and the journal
    itself. -/
theorem openJournal_alike (h : Alike S fs fs')
    (hinode : ∀ group block offset, fs.inodeLocation Ino.journal = .ok (group, block, offset) →
      S block)
    (hmap : ∀ inode, fs.readInode Ino.journal = .ok inode →
      Walk.MapIn S (fs.walkBlocks inode).1)
    (hsame : Jbd2.LogSame j fs.view fs'.view)
    (hopen : exec openJournal fs = (.ok (.ok j), fs)) :
    exec openJournal fs' = (.ok (.ok j), fs') := by
  have hread := h.readInode hinode
  unfold openJournal at hopen ⊢
  rw [exec_bind_of_ok (show exec get fs = (.ok fs, fs) from rfl)] at hopen
  rw [exec_bind_of_ok (show exec get fs' = (.ok fs', fs') from rfl)]
  dsimp only at hopen ⊢
  rw [h.superblock]
  split at hopen
  · cases hopen
  next hjournal =>
  split at hopen
  · cases hopen
  next hexternal =>
  split at hopen
  · cases hopen
  next hinum =>
  split at hopen
  · cases hopen
  next hreserved =>
  rw [if_neg hjournal, if_neg hexternal, if_neg hinum, if_neg hreserved]
  rw [not_not] at hreserved
  obtain ⟨inode, fs1, hinode, hopen⟩ := exec_bind_ok hopen
  obtain ⟨hfound, rfl⟩ := reading_ok hinode
  rw [hreserved] at hfound
  rw [hreserved, exec_bind_of_ok (exec_reading (hread.trans hfound))]
  split at hopen
  · cases hopen
  next huse =>
  rw [if_neg huse]
  obtain ⟨_, fs1, hsize, hopen⟩ := exec_bind_ok hopen
  obtain ⟨hsize, rfl⟩ := reading_ok hsize
  rw [exec_bind_of_ok (exec_reading (show panicIf (fs'.blockSize = 0) = .ok () by
    rw [h.blockSize]; exact hsize)), h.blockSize]
  have hwalk : ∀ refs, fs1.walkBlocks inode = (refs, .ok ()) →
      fs'.walkBlocks inode = fs1.walkBlocks inode := by
    intro refs hrefs
    have hin := hmap inode hfound
    rw [hrefs] at hin
    exact walkBlocks_again h.blockSize (fun b hb => h.readBlock hb) inode refs () hrefs hin
  have hdata : ∀ refs : List BlockRef, (if inode.size / fs1.blockSize < 2 then .done () else
      fs1.walkBlocks inode) = (refs, .ok ()) → (if inode.size / fs1.blockSize < 2 then .done () else
        fs'.walkBlocks inode) = (refs, .ok ()) := by
    intro refs hrefs
    split at hrefs
    · next hsmall => rw [if_pos hsmall, hrefs]
    · next hlarge => rw [if_neg hlarge, hwalk refs hrefs, hrefs]
  split at hopen
  · cases hopen
  · cases hopen
  · next refs hrefs =>
    rw [hdata refs hrefs]
    refine exec_onJournal_openAt.mpr (Jbd2.openAt_same hsame ?_)
    exact exec_onJournal_openAt.mp hopen

/-- A journal that was opened was accepted. -/
theorem openJournal_openAt (hopen : exec openJournal fs = (.ok (.ok j), fs)) :
    ∃ size data, exec (Jbd2.openAt size data) fs.view = (.ok (.ok j), fs.view) := by
  unfold openJournal at hopen
  rw [exec_bind_of_ok (show exec get fs = (.ok fs, fs) from rfl)] at hopen
  dsimp only at hopen
  iterate 4
    split at hopen
    · cases hopen
  obtain ⟨inode, fs1, hinode, hopen⟩ := exec_bind_ok hopen
  obtain ⟨-, rfl⟩ := reading_ok hinode
  split at hopen
  · cases hopen
  obtain ⟨_, fs1, hsize, hopen⟩ := exec_bind_ok hopen
  obtain ⟨-, rfl⟩ := reading_ok hsize
  split at hopen
  · cases hopen
  · cases hopen
  · exact ⟨_, _, exec_onJournal_openAt.mp hopen⟩

/-! ## Recovery from the device on -/

/-- Open the journal, and replay it. -/
def recovering (fuel : Nat) : FsM (Except String (Option (Jbd2.Recovery × Jbd2.Journal))) := do
  match ← openJournal with
  | .error why => return .error why
  | .ok journal => return .ok (← onJournal (Jbd2.recover fuel journal))

/-- Recovery from the start: what it ends with, and the device it leaves. -/
def recoverOn (fuel : Nat) (dev : Device) :
    Except Failure (Except String (Option (Jbd2.Recovery × Jbd2.Journal))) × Device :=
  match openOn dev with
  | .error e => (.error e, dev)
  | .ok fs => ((exec (recovering fuel) fs).1, (exec (recovering fuel) fs).2.device)

/-- The device that a recovery of `j` leaves when it is cut short after `k` home writes. -/
def cutShort (fuel : Nat) (j : Jbd2.Journal) (fs : Filesystem) (k : Nat) : Device :=
  (fs.view.apply ((Jbd2.recoverWrites fuel j fs.view).take k)).dev

/-- The filesystem over that device. -/
def cutFilesystem (fuel : Nat) (j : Jbd2.Journal) (fs : Filesystem) (k : Nat) : Filesystem :=
  { fs with device := cutShort fuel j fs k }

theorem cutFilesystem_view (k : Nat) : (cutFilesystem fuel j fs k).view =
    fs.view.apply ((Jbd2.recoverWrites fuel j fs.view).take k) := by
  obtain ⟨-, hblock, hcount⟩ :=
    Jbd2.apply_fields fs.view ((Jbd2.recoverWrites fuel j fs.view).take k)
  show (⟨(fs.view.apply _).dev, fs.view.blockSize, fs.view.blocksCount⟩ : Jbd2.Filesystem) = _
  rw [← hblock, ← hcount]

theorem cutShort_fields (k : Nat) : (cutShort fuel j fs k).size = fs.device.size ∧
    (cutShort fuel j fs k).logicalSectorSize = fs.device.logicalSectorSize := by
  unfold cutShort
  rw [Jbd2.apply_eq]
  exact ⟨rfl, rfl⟩

/-- What lies in no home block is on the device as it was. -/
theorem cutShort_bytes {p : Nat} (k : Nat)
    (h : ∀ w ∈ Jbd2.recoverWrites fuel j fs.view,
      p < w.1 * fs.blockSize ∨ w.1 * fs.blockSize + fs.blockSize ≤ p) :
    (cutShort fuel j fs k).bytes p = fs.device.bytes p := by
  unfold cutShort
  rw [Jbd2.apply_eq]
  refine overlays_of_miss _ fun w hw => ?_
  obtain ⟨v, hv, rfl⟩ := List.mem_map.mp hw
  have hwhole := (Jbd2.logs_replayLog fuel j).whole fs.view v (List.mem_of_mem_take hv)
  dsimp only
  rw [hwhole]
  exact h v (List.mem_of_mem_take hv)

/-- Blocks apart from the home blocks are as they were. -/
theorem cutShort_window {b : Nat} (k : Nat)
    (h : ∀ w ∈ Jbd2.recoverWrites fuel j fs.view, w.1 ≠ b) :
    window (cutShort fuel j fs k).bytes (b * fs.blockSize) fs.blockSize =
      window fs.device.bytes (b * fs.blockSize) fs.blockSize := by
  refine window_congr fun p hlow hhigh => cutShort_bytes k fun w hw => ?_
  rcases Nat.lt_or_gt_of_ne (h w hw) with hlt | hgt
  · have := Nat.mul_le_mul_right fs.blockSize (Nat.succ_le_of_lt hlt)
    rw [Nat.succ_mul] at this
    exact Or.inr (this.trans hlow)
  · have := Nat.mul_le_mul_right fs.blockSize (Nat.succ_le_of_lt hgt)
    rw [Nat.succ_mul] at this
    exact Or.inl (hhigh.trans_le this)

section Cut

variable (hhomes : ∀ w ∈ Jbd2.recoverWrites fuel j fs.view, w.1 ∉ j.map ∧ ¬fs.ReadToRecover w.1)
  (k : Nat)

include hhomes

/-- What recovery reads first is left alone. -/
theorem cutFilesystem_alike : Alike fs.ReadToRecover fs (cutFilesystem fuel j fs k) where
  fields := rfl
  size := cutShort_fields k |>.1
  window := fun _ hb => cutShort_window k fun w hw heq => (hhomes w hw).2 (heq ▸ hb)

theorem openOn_cut {dev : Device} (hopen : openOn dev = .ok fs) :
    openOn (cutShort fuel j fs k) = .ok (cutFilesystem fuel j fs k) := by
  have hdev := (openOn_opened hopen).device
  have hsector := (@cutShort_fields fs j fuel k).2
  rw [hdev] at hsector
  refine @openOn_alike fs (cutFilesystem fuel j fs k) _ dev hopen (cutFilesystem_alike hhomes k)
    hsector ?_ fun k hk => .table k hk rfl
  rw [← hdev]
  refine window_congr fun p hlow hhigh => cutShort_bytes k fun w hw => ?_
  by_contra hin
  exact (hhomes w hw).2 (.superblock (by omega) (by omega))

theorem openJournal_cut (hjournal : exec openJournal fs = (.ok (.ok j), fs)) :
    exec openJournal (cutFilesystem fuel j fs k) =
      (.ok (.ok j), cutFilesystem fuel j fs k) := by
  refine openJournal_alike (cutFilesystem_alike hhomes k)
    (fun group block offset hloc => .inode group offset hloc)
    (fun inode hinode r hr hkind => .map inode r hinode hr hkind rfl) ?_ hjournal
  rw [cutFilesystem_view]
  exact Jbd2.logSame_cut (fun w hw => (hhomes w hw).1) k

end Cut

/-- Once the journal opened, recovery is its replay. -/
theorem recoverOn_opened {dev : Device} (hopen : openOn dev = .ok fs)
    (hjournal : exec openJournal fs = (.ok (.ok j), fs)) :
    recoverOn fuel dev =
      ((exec (Jbd2.recover fuel j) fs.view).1.mapError Failure.error |>.map Except.ok,
        (exec (Jbd2.recover fuel j) fs.view).2.dev) := by
  unfold recoverOn recovering
  rw [hopen]
  dsimp only
  rw [exec_bind_of_ok hjournal]
  dsimp only
  rw [exec_bind, exec_onJournal]
  rcases exec (Jbd2.recover fuel j) fs.view with ⟨_ | _, view⟩ <;> rfl

/-- Replay is idempotent across crashes where no block goes home into the journal, or to a block
    that a recovery reads before it: cut short after any number of home writes, and run again
    from the device on, it ends with the result and on the device that the uninterrupted
    recovery ended with. -/
theorem reopened_after_crash {dev : Device} (hopen : openOn dev = .ok fs)
    (hjournal : exec openJournal fs = (.ok (.ok j), fs)) (hfuel : j.last ≤ fuel)
    (hhomes : ∀ w ∈ Jbd2.recoverWrites fuel j fs.view, w.1 ∉ j.map ∧ ¬fs.ReadToRecover w.1)
    (k : Nat) :
    (recoverOn fuel dev).1 ≠ .ok (.ok none) ∧
      recoverOn fuel (cutShort fuel j fs k) = recoverOn fuel dev := by
  obtain ⟨size, data, hopenAt⟩ := openJournal_openAt hjournal
  obtain ⟨hends, hsame⟩ :=
    Jbd2.recover_after_crash hopenAt hfuel (fun w hw => (hhomes w hw).1) k
  rw [recoverOn_opened (openOn_cut hhomes k hopen) (openJournal_cut hhomes k hjournal),
    recoverOn_opened hopen hjournal, cutFilesystem_view, hsame]
  refine ⟨fun h => hends ?_, rfl⟩
  cases hend : (exec (Jbd2.recover fuel j) fs.view).1 with
  | error e =>
    rw [hend] at h
    cases h
  | ok result =>
    rw [hend] at h
    exact congrArg Except.ok (Except.ok.inj (Except.ok.inj h))

/-! ### An image with one block to send home -/

/-- 16 blocks of 1 KiB and 16 inodes. The journal, inode 8, is blocks 7 to 11: one transaction
    with an escaped block for block `home`. -/
def journalImage (home : UInt8) : Device := .ofChunks 16384
  [(1024, toLe 4 16 ++ toLe 4 16), (1024 + 0x14, [1]), (1024 + 0x21, [0x20]),
    (1024 + 0x28, [16]), (1024 + 0x38, [0x53, 0xef]), (1024 + 0x5c, [4]), (1024 + 0xe0, [8]),
    (2048, [3, 0, 0, 0, 4, 0, 0, 0, 5]),
    (5 * 1024 + 7 * 128, [0x80, 0x81, 0, 0, 0, 20]), (5 * 1024 + 7 * 128 + 0x1a, [1]),
    (5 * 1024 + 7 * 128 + 0x28, [7, 8, 9, 10, 11].flatMap (toLe 4)),
    (7 * 1024, [0xc0, 0x3b, 0x39, 0x98, 0, 0, 0, 4, 0, 0, 0, 0, 0, 0, 4, 0, 0, 0, 0, 5, 0, 0, 0, 1,
      0, 0, 0, 1, 0, 0, 0, 1]),
    (8 * 1024, [0xc0, 0x3b, 0x39, 0x98, 0, 0, 0, 1, 0, 0, 0, 1, 0, 0, 0, home, 0, 0, 0, 11]),
    (9 * 1024 + 4, [7]),
    (10 * 1024, [0xc0, 0x3b, 0x39, 0x98, 0, 0, 0, 2, 0, 0, 0, 1])]

/-- A filesystem and its journal, where both open. -/
def openedOn (dev : Device) : Option (Filesystem × Jbd2.Journal) :=
  match openOn dev with
  | .error _ => none
  | .ok fs =>
    match (exec openJournal fs).1 with
    | .ok (.ok j) => some (fs, j)
    | _ => none

theorem openedOn_some {dev : Device} {p : Filesystem × Jbd2.Journal} (h : openedOn dev = some p) :
    openOn dev = .ok p.1 ∧ exec openJournal p.1 = (.ok (.ok p.2), p.1) := by
  unfold openedOn at h
  split at h
  · cases h
  · next fs hopen =>
    split at h
    · next j hjournal =>
      cases h
      exact ⟨hopen, Prod.ext hjournal (openJournal_keeps fs)⟩
    · cases h

/-- What the recovery of an image goes by. -/
structure RecoverFacts where
  (blockSize last : Nat)
  tables : List Nat
  inodeBlock : Option Nat
  (map mapBlocks homes : List Nat)
deriving DecidableEq

def recoverFacts (fs : Filesystem) (j : Jbd2.Journal) : RecoverFacts where
  blockSize := fs.blockSize
  last := j.last
  tables := (List.range fs.tableParts).map fs.tableBlock
  inodeBlock := (fs.inodeLocation Ino.journal).toOption.map (·.2.1)
  map := j.map
  mapBlocks := (fs.readInode Ino.journal).toOption.elim [] fun inode =>
    ((fs.walkBlocks inode).1.filter (·.kind = .metadata)).map (·.physical)
  homes := (Jbd2.recoverWrites 5 j fs.view).map Prod.fst

theorem journalImage_facts : (openedOn (journalImage 14)).map (fun p => recoverFacts p.1 p.2) =
    some {
      blockSize := 1024, last := 5, tables := [2], inodeBlock := some 5, map := [7, 8, 9, 10, 11]
      mapBlocks := [], homes := [14] } := by decide +kernel

/-- The block for block 14 is sent home once, and again after a crash. -/
theorem reopened_home : ∃ fs j, openOn (journalImage 14) = .ok fs ∧
    (Jbd2.recoverWrites 5 j fs.view).map Prod.fst = [14] ∧
    recoverOn 5 (cutShort 5 j fs 1) = recoverOn 5 (journalImage 14) := by
  obtain ⟨⟨fs, j⟩, hopened, hfacts⟩ := Option.map_eq_some_iff.mp journalImage_facts
  obtain ⟨hopen, hjournal⟩ := openedOn_some hopened
  have hbs : fs.blockSize = 1024 := congrArg RecoverFacts.blockSize hfacts
  have hlast : j.last = 5 := congrArg RecoverFacts.last hfacts
  have hmap : j.map = [7, 8, 9, 10, 11] := congrArg RecoverFacts.map hfacts
  have hhome : (Jbd2.recoverWrites 5 j fs.view).map Prod.fst = [14] :=
    congrArg RecoverFacts.homes hfacts
  have hunread : ¬fs.ReadToRecover 14 := by
    intro hread
    cases hread with
    | superblock hlow _ =>
      rw [hbs] at hlow
      exact absurd hlow (by decide)
    | table k hk hblock =>
      have htables : (List.range fs.tableParts).map fs.tableBlock = [2] :=
        congrArg RecoverFacts.tables hfacts
      have hmem : (14 : Nat) ∈ [2] :=
        htables ▸ List.mem_map.mpr ⟨k, List.mem_range.mpr hk, hblock⟩
      exact absurd hmem (by decide)
    | inode group offset hloc =>
      have hblock : (fs.inodeLocation Ino.journal).toOption.map (·.2.1) = some 5 :=
        congrArg RecoverFacts.inodeBlock hfacts
      rw [hloc] at hblock
      cases hblock
    | map inode ref hinode href hkind hblock =>
      have hnone : (fs.readInode Ino.journal).toOption.elim [] (fun inode =>
          ((fs.walkBlocks inode).1.filter (·.kind = .metadata)).map (·.physical)) = [] :=
        congrArg RecoverFacts.mapBlocks hfacts
      rw [hinode] at hnone
      have hmem : ref ∈ (fs.walkBlocks inode).1.filter (·.kind = .metadata) :=
        List.mem_filter.mpr ⟨href, decide_eq_true hkind⟩
      rw [List.map_eq_nil_iff.mp hnone] at hmem
      cases hmem
  refine ⟨fs, j, hopen, hhome, ?_⟩
  refine (reopened_after_crash hopen hjournal (Nat.le_of_eq hlast) (fun w hw => ?_) 1).2
  have hw14 : w.1 ∈ [14] := hhome ▸ List.mem_map_of_mem hw
  rw [List.mem_singleton.mp hw14, hmap]
  exact ⟨by decide, hunread⟩

/-- How recovery of an image ends, and whether it opens after one home write. -/
def overwriting (dev : Device) : Option (Nat × List Nat × List Nat × Bool × Bool) :=
  (openedOn dev).map fun p =>
    (p.2.last, p.2.map, (Jbd2.recoverWrites 5 p.2 p.1.view).map Prod.fst,
      (recoverOn 5 dev).1.toBool, (recoverOn 5 (cutShort 5 p.2 p.1 1)).1.toBool)

theorem overwriting_one :
    overwriting (journalImage 1) = some (5, [7, 8, 9, 10, 11], [1], true, false) := by
  decide +kernel

/-- A home block outside the journal may be the superblock's: cut short after its write,
    the filesystem does not open again. -/
theorem overwritten_after_crash : ¬∀ (dev : Device) (fs : Filesystem) (j : Jbd2.Journal)
    (fuel k : Nat), openOn dev = .ok fs → exec openJournal fs = (.ok (.ok j), fs) →
    j.last ≤ fuel → (∀ w ∈ Jbd2.recoverWrites fuel j fs.view, w.1 ∉ j.map) →
    recoverOn fuel (cutShort fuel j fs k) = recoverOn fuel dev := by
  intro hclaim
  obtain ⟨⟨fs, j⟩, hopened, hfacts⟩ := Option.map_eq_some_iff.mp overwriting_one
  obtain ⟨hopen, hjournal⟩ := openedOn_some hopened
  obtain ⟨hlast, hfacts⟩ := Prod.mk.inj hfacts
  obtain ⟨hmap, hfacts⟩ := Prod.mk.inj hfacts
  obtain ⟨hhome, hfacts⟩ := Prod.mk.inj hfacts
  obtain ⟨hends, hfails⟩ := Prod.mk.inj hfacts
  have hsame := hclaim _ fs j 5 1 hopen hjournal (Nat.le_of_eq hlast) fun w hw => by
    have hw1 : w.1 ∈ [1] := hhome ▸ List.mem_map_of_mem hw
    dsimp only at hmap
    rw [List.mem_singleton.mp hw1, hmap]
    decide
  rw [hsame, hends] at hfails
  cases hfails

end Fsck

end MkfsExt4
