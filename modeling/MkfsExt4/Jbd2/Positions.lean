/-
  Where recovery reads the log.

  The two passes take the log one block at a time, and wrap each step: they stay between
  `s_first` and the end of the log whatever it holds (`passReads_inLog`). The scan takes
  the data blocks of a descriptor in one step, and wraps the sum once. It stays in the log
  exactly while no descriptor it goes on from has so many tags that one turn round the log
  does not bring the sum back (`positions_iff`). `crowded_leaves_log` is a log of three
  blocks with a descriptor of 42 tags: the scan's next read is past the block map.
-/
import MkfsExt4.Jbd2.Ends

namespace MkfsExt4.Jbd2

open Lib.Store Lib.Endian Lib.Hoare

namespace Journal

/-- A position of the log. -/
def InLog (j : Journal) (block : Nat) : Prop := j.header.first ≤ block ∧ block < j.last

instance (j : Journal) (block : Nat) : Decidable (j.InLog block) :=
  inferInstanceAs (Decidable (_ ∧ _))

/-- The outcome of a read past the block map, the source's panic. -/
def outOfMap : Error := .corrupt "journal block" "index out of bounds"

/-! ## The positions of the scan -/

/-- The scan's sum for its next position, before it is wrapped: past the header block `buf`
    at `block`, and past the data blocks of its tags if it is a descriptor. -/
def scanSum (j : Journal) (block : Nat) (buf : List UInt8) : Nat :=
  j.wrap (block + 1) + if getU32Be buf 4 = descriptorBlock then (tags j.header buf).length else 0

/-- Where the scan goes on after the header block `buf`, unless it ends there. -/
def scanTurn (j : Journal) (s : ScanState) (buf : List UInt8) : Option ScanState :=
  let nextCommit := s.nextCommit
  let nextBlock := j.wrap (s.nextBlock + 1)
  if getU32Be buf 0 ≠ jbd2Magic ∨ getU32Be buf 8 ≠ nextCommit then none
  else if getU32Be buf 4 = descriptorBlock then
    some
      { s with
        nextBlock := j.wrap (nextBlock + (tags j.header buf).length)
        needCheckCommitTime := s.needCheckCommitTime || !j.blockTailOk buf }
  else if getU32Be buf 4 = commitBlock then
    if !j.commitOk buf || s.needCheckCommitTime then none
    else
      some
        { nextCommit := wrappingAdd nextCommit 1
          nextBlock
          lastCommitTime := getU64Be buf commitSec
          needCheckCommitTime := false }
  else if getU32Be buf 4 = revokeBlock then
    some { s with nextBlock, needCheckCommitTime := s.needCheckCommitTime || !j.blockTailOk buf }
  else none

/-- The positions the scan reads, with `turns` blocks left to read. -/
def scanReads (j : Journal) : Nat → ScanState → Filesystem → List Nat
  | 0, _, _ => []
  | turns + 1, s, t =>
    s.nextBlock :: match exec (j.read s.nextBlock) t with
      | (.ok buf, t') =>
        match j.scanTurn s buf with
        | some s' => j.scanReads turns s' t'
        | none => []
      | (.error _, _) => []

/-- The sums of the first `turns` turns that the scan goes on from. -/
def scanSums (j : Journal) : Nat → ScanState → Filesystem → List Nat
  | 0, _, _ => []
  | turns + 1, s, t =>
    match exec (j.read s.nextBlock) t with
    | (.ok buf, t') =>
      match j.scanTurn s buf with
      | some s' => j.scanSum s.nextBlock buf :: j.scanSums turns s' t'
      | none => []
    | (.error _, _) => []

/-- The state a scan starts in. -/
def scanStart (j : Journal) : ScanState :=
  { nextCommit := j.header.sequence, nextBlock := j.header.start }

/-! ## The positions of the two passes -/

/-- The data block that a tag of a replay reads, unless it was revoked. -/
def tagReads (_ : Journal) (replay : Bool) (s : PassState) (tag : Tag) : List Nat :=
  if !replay || (s.revoked tag.block).any fun seq => !tidGt s.nextCommit seq then []
  else [s.nextBlock]

def tagsReads (j : Journal) (replay : Bool) : List Tag → PassState → Filesystem → List Nat
  | [], _, _ => []
  | tag :: tags, s, t =>
    j.tagReads replay s tag ++ match exec (j.replayTag replay s tag) t with
      | (.ok s', t') => j.tagsReads replay tags s' t'
      | (.error _, _) => []

/-- The data blocks that a turn reads after its header block `buf`. -/
def headerReads (j : Journal) (replay : Bool) (s : PassState) (buf : List UInt8)
    (t : Filesystem) : List Nat :=
  if (getU32Be buf 0 = jbd2Magic ∧ getU32Be buf 8 = s.nextCommit) ∧
      getU32Be buf 4 = descriptorBlock ∧ (replay && !j.blockTailOk buf) = false then
    j.tagsReads replay (tags j.header buf) s t
  else []

def turnReads (j : Journal) (replay : Bool) (s : PassState) (t : Filesystem) : List Nat :=
  s.nextBlock :: match exec (j.read s.nextBlock) t with
    | (.ok buf, t') => j.headerReads replay { s with nextBlock := j.wrap (s.nextBlock + 1) } buf t'
    | (.error _, _) => []

/-- The positions a pass from `s` on reads, header blocks and data blocks, in turn. -/
def passReads (j : Journal) (finish : Nat) (replay : Bool) :
    Nat → PassState → Filesystem → List Nat
  | 0, _, _ => []
  | fuel + 1, s, t =>
    if tidGeq s.nextCommit finish then []
    else j.turnReads replay s t ++ match exec (j.passTurn replay s) t with
      | (.ok (s', none), t') => j.passReads finish replay fuel s' t'
      | _ => []

/-- The state a pass starts in. -/
def passStart (j : Journal) (revoked : Nat → Option Nat) (recovery : Recovery) : PassState :=
  { nextCommit := j.header.sequence, nextBlock := j.header.start, revoked, recovery }

end Journal

section InLog

variable {j : Journal} {block : Nat}

/-- One block further is still in the log. -/
theorem Accepted.step_inLog (ha : Accepted j) (h : j.InLog block) : j.InLog (j.wrap (block + 1)) := by
  have hfirst := ha.first_lt
  obtain ⟨hlow, hhigh⟩ := h
  unfold Journal.InLog Journal.wrap
  split <;> omega

/-- Wrapped once, a sum is in the log unless it is more than one turn too far. -/
theorem Accepted.wrap_inLog_iff (ha : Accepted j) (h : j.header.first ≤ block) :
    j.InLog (j.wrap block) ↔ block < j.last + (j.last - j.header.first) := by
  have hfirst := ha.first_lt
  unfold Journal.InLog Journal.wrap
  split <;> omega

/-! ## The passes stay in the log -/

/-- No error is that of a read past the block map. -/
abbrev inMap (e : Error) (_ : Filesystem) : Prop := e ≠ Journal.outOfMap

theorem wp_readBlock_inMap {b : Nat} {t : Filesystem} {Q : List UInt8 → Filesystem → Prop}
    (hQ : ∀ buf, Q buf t) : wp (readBlock b) t Q inMap := by
  unfold readBlock Device.readAt checkBounds
  simp only [wp_bind, wp_get, wp_ite, wp_throw]
  refine ⟨fun _ => by simp [Journal.outOfMap], fun _ => ?_⟩
  split
  · rename_i e he
    split at he
    · cases he
    · cases he
      rw [wp_throw]
      intro h
      cases h
  · rw [wp_pure]
    exact hQ _

theorem wp_writeBlock_inMap {b : Nat} {data : List UInt8} {t : Filesystem}
    {Q : Unit → Filesystem → Prop} (hQ : ∀ u, Q () u) : wp (writeBlock b data) t Q inMap := by
  unfold writeBlock Device.writeAt checkBounds
  simp only [wp_bind, wp_get]
  split
  · rename_i e he
    split at he
    · cases he
    · cases he
      rw [wp_throw]
      intro h
      cases h
  · rw [wp_set]
    exact hQ _

theorem Accepted.wp_read (ha : Accepted j) (h : j.InLog block) {t : Filesystem}
    {Q : List UInt8 → Filesystem → Prop} (hQ : ∀ buf, Q buf t) :
    wp (j.read block) t Q inMap := by
  unfold Journal.read
  rw [List.getElem?_eq_getElem (ha.map_length ▸ h.2)]
  exact wp_readBlock_inMap hQ

variable {replay : Bool} {s : Journal.PassState}

theorem Accepted.wp_replayTag (ha : Accepted j) (h : j.InLog s.nextBlock) (tag : Tag)
    (t : Filesystem) :
    wp (j.replayTag replay s tag) t (fun s' _ => j.InLog s'.nextBlock) inMap := by
  have hnext := ha.step_inLog h
  unfold Journal.replayTag
  dsimp only
  simp only [wp_ite, wp_pure, wp_bind, wp_get]
  refine ⟨fun _ => hnext, fun _ => ⟨fun _ => hnext, fun _ => ?_⟩⟩
  refine ha.wp_read h fun data => ⟨fun _ => hnext, fun _ => ⟨fun _ => hnext, fun _ => ?_⟩⟩
  exact wp_writeBlock_inMap fun _ => hnext

theorem Accepted.wp_headerTurn (ha : Accepted j) (h : j.InLog s.nextBlock) (buf : List UInt8)
    (t : Filesystem) :
    wp (j.headerTurn replay s buf) t (fun x _ => j.InLog x.1.nextBlock) inMap := by
  unfold Journal.headerTurn
  dsimp only
  split
  · exact h
  split
  · split
    · exact h
    · rw [wp_bind]
      exact wp_foldlM (fun _ (s' : Journal.PassState) _ => j.InLog s'.nextBlock)
        (fun tag _ s' u hs' => ha.wp_replayTag hs' tag u) h
  split
  · exact h
  split
  · split
    · exact h
    · cases revokeRecords j.header buf with
      | error e => exact h
      | ok records =>
        have hblock := (foldl_revokeRecord records s).2.1
        show j.InLog _
        rw [hblock]
        exact h
  · exact h

theorem Accepted.wp_passTurn (ha : Accepted j) (h : j.InLog s.nextBlock) (t : Filesystem) :
    wp (j.passTurn replay s) t (fun x _ => j.InLog x.1.nextBlock) inMap := by
  unfold Journal.passTurn
  rw [wp_bind]
  exact ha.wp_read h fun buf => ha.wp_headerTurn (ha.step_inLog h) buf t

/-- A turn that goes on leaves a position of the log. -/
theorem Accepted.passTurn_inLog (ha : Accepted j) (h : j.InLog s.nextBlock) {t t' : Filesystem}
    {x : Journal.PassState × Option (Option String)}
    (hx : exec (j.passTurn replay s) t = (.ok x, t')) : j.InLog x.1.nextBlock := by
  have hwp : wp (j.passTurn replay s) t (fun x _ => j.InLog x.1.nextBlock) inMap :=
    ha.wp_passTurn h t
  unfold wp at hwp
  rw [hx] at hwp
  exact hwp

theorem Accepted.wp_pass (ha : Accepted j) (finish fuel : Nat) (h : j.InLog s.nextBlock)
    (t : Filesystem) : wp (j.passFrom finish replay fuel s) t (fun _ _ => True) inMap := by
  induction fuel generalizing s t with
  | zero => exact trivial
  | succ fuel ih =>
    rw [Journal.passFrom_succ]
    split
    · exact trivial
    rw [wp_bind]
    refine wp_mono (ha.wp_passTurn h t) (fun x u hx => ?_) fun _ _ he => he
    rcases x with ⟨s', _ | e⟩
    · exact ih hx u
    · exact trivial

/-- The data blocks of a run of tags follow one another in the log. -/
theorem Accepted.tagsReads_inLog (ha : Accepted j) (tags : List Tag) (h : j.InLog s.nextBlock)
    (t : Filesystem) : ∀ p ∈ j.tagsReads replay tags s t, j.InLog p := by
  induction tags generalizing s t with
  | nil => nofun
  | cons tag tags ih =>
    intro p hp
    have hstep : wp (j.replayTag replay s tag) t (fun s' _ => j.InLog s'.nextBlock) inMap :=
      ha.wp_replayTag h tag t
    unfold wp at hstep
    rcases List.mem_append.mp hp with hp | hp
    · unfold Journal.tagReads at hp
      split at hp
      · cases hp
      · rwa [List.mem_singleton.mp hp]
    · rcases hx : exec (j.replayTag replay s tag) t with ⟨e | s', t'⟩
      · rw [hx] at hp
        cases hp
      · rw [hx] at hp hstep
        exact ih hstep t' p hp

theorem Accepted.turnReads_inLog (ha : Accepted j) (h : j.InLog s.nextBlock) (t : Filesystem) :
    ∀ p ∈ j.turnReads replay s t, j.InLog p := by
  intro p hp
  rcases List.mem_cons.mp hp with rfl | hp
  · exact h
  rcases hx : exec (j.read s.nextBlock) t with ⟨e | buf, t'⟩
  · rw [hx] at hp
    cases hp
  · rw [hx] at hp
    dsimp only [Journal.headerReads] at hp
    split at hp
    · exact ha.tagsReads_inLog _ (ha.step_inLog h) t' p hp
    · cases hp

/-- A pass that starts in the log reads nothing outside it, whatever the log holds. -/
theorem Accepted.passReads_inLog (ha : Accepted j) (finish fuel : Nat) (h : j.InLog s.nextBlock)
    (t : Filesystem) : ∀ p ∈ j.passReads finish replay fuel s t, j.InLog p := by
  induction fuel generalizing s t with
  | zero => nofun
  | succ fuel ih =>
    intro p hp
    unfold Journal.passReads at hp
    split at hp
    · cases hp
    rcases List.mem_append.mp hp with hp | hp
    · exact ha.turnReads_inLog h t p hp
    rcases hx : exec (j.passTurn replay s) t with ⟨e | ⟨s', _ | e⟩, t'⟩
    · rw [hx] at hp
      cases hp
    · rw [hx] at hp
      exact ih (ha.passTurn_inLog h hx) t' p hp
    · rw [hx] at hp
      cases hp

end InLog

/-! ## The scan stays in the log -/

section Scan

variable {j : Journal} {turns : Nat} {s s' : Journal.ScanState} {r : Recovery}
  {t t' : Filesystem} {buf : List UInt8}

theorem exec_scanFrom_next (hread : exec (j.read s.nextBlock) t = (.ok buf, t'))
    (hturn : j.scanTurn s buf = some s') :
    exec (j.scanFrom (turns + 1) s r) t = exec (j.scanFrom turns s' r) t' := by
  rw [Journal.scanFrom, exec_bind_of_ok hread]
  unfold Journal.scanTurn at hturn
  dsimp only at hturn ⊢
  split at hturn
  · cases hturn
  rename_i hhead
  rw [if_neg hhead]
  split at hturn
  · rename_i hkind
    rw [if_pos hkind, ← Option.some.inj hturn]
  rename_i hdesc
  rw [if_neg hdesc]
  split at hturn
  · rename_i hkind
    rw [if_pos hkind]
    split at hturn
    · cases hturn
    rename_i hgood
    obtain ⟨hcommit, hneed⟩ := Bool.or_eq_false_iff.mp (Bool.not_eq_true _ ▸ hgood)
    rw [if_neg (by rw [hcommit]; exact Bool.false_ne_true),
      if_neg (by rw [hneed]; exact Bool.false_ne_true), ← Option.some.inj hturn]
  rename_i hcommit
  rw [if_neg hcommit]
  split at hturn
  · rename_i hkind
    rw [if_pos hkind, ← Option.some.inj hturn]
  · cases hturn

theorem exec_scanFrom_end (hread : exec (j.read s.nextBlock) t = (.ok buf, t'))
    (hturn : j.scanTurn s buf = none) : ∃ x, exec (j.scanFrom (turns + 1) s r) t = (.ok x, t') := by
  rw [Journal.scanFrom, exec_bind_of_ok hread]
  unfold Journal.scanTurn at hturn
  dsimp only at hturn ⊢
  split
  · exact ⟨_, rfl⟩
  rename_i hhead
  rw [if_neg hhead] at hturn
  split
  · rename_i hkind
    rw [if_pos hkind] at hturn
    cases hturn
  rename_i hdesc
  rw [if_neg hdesc] at hturn
  split
  · rename_i hkind
    rw [if_pos hkind] at hturn
    split
    · split
      · exact ⟨_, rfl⟩
      · exact ⟨_, rfl⟩
    rename_i hcommit
    split
    · split
      · exact ⟨_, rfl⟩
      · exact ⟨_, rfl⟩
    rename_i hneed
    rw [if_neg (by simp_all)] at hturn
    cases hturn
  rename_i hcommit
  rw [if_neg hcommit] at hturn
  split
  · rename_i hkind
    rw [if_pos hkind] at hturn
    cases hturn
  · exact ⟨_, rfl⟩

/-- Where the scan goes on is its sum, wrapped. -/
theorem Accepted.scanTurn_block (ha : Accepted j) (h : j.InLog s.nextBlock)
    (hturn : j.scanTurn s buf = some s') :
    s'.nextBlock = j.wrap (j.scanSum s.nextBlock buf) := by
  have hnext := (ha.step_inLog h).2
  have hwrap : j.wrap (j.wrap (s.nextBlock + 1)) = j.wrap (s.nextBlock + 1) := by
    rw [Journal.wrap, if_neg (Nat.not_le.mpr hnext)]
  unfold Journal.scanTurn at hturn
  unfold Journal.scanSum
  dsimp only at hturn
  split at hturn
  · cases hturn
  split at hturn
  · rename_i hkind
    rw [← Option.some.inj hturn, if_pos hkind]
  rename_i hdesc
  rw [if_neg hdesc, Nat.add_zero, hwrap]
  split at hturn
  · split at hturn
    · cases hturn
    · rw [← Option.some.inj hturn]
  split at hturn
  · rw [← Option.some.inj hturn]
  · cases hturn

/-- A sum is not before the log. -/
theorem Accepted.le_scanSum (ha : Accepted j) (h : j.InLog s.nextBlock) (buf : List UInt8) :
    j.header.first ≤ j.scanSum s.nextBlock buf :=
  Nat.le_add_right_of_le (ha.step_inLog h).1

/-- A scan reads nothing outside the log exactly if no sum before its last read is more than
    one turn too far. -/
theorem Accepted.scanReads_inLog_iff (ha : Accepted j) (h : j.InLog s.nextBlock) :
    (∀ p ∈ j.scanReads (turns + 1) s t, j.InLog p) ↔
      ∀ b ∈ j.scanSums turns s t, b < j.last + (j.last - j.header.first) := by
  induction turns generalizing s t with
  | zero =>
    refine iff_of_true (fun p hp => ?_) nofun
    rcases List.mem_cons.mp hp with rfl | hp
    · exact h
    · split at hp
      · split at hp
        · cases hp
        · cases hp
      · cases hp
  | succ turns ih =>
    unfold Journal.scanReads Journal.scanSums
    rw [List.forall_mem_cons, and_iff_right h]
    rcases hx : exec (j.read s.nextBlock) t with ⟨e | buf, t'⟩
    · exact iff_of_true nofun nofun
    dsimp only
    cases hturn : j.scanTurn s buf with
    | none => exact iff_of_true nofun nofun
    | some s' =>
      dsimp only
      have hblock := ha.scanTurn_block h hturn
      have hsum := ha.wrap_inLog_iff (ha.le_scanSum h buf)
      rw [List.forall_mem_cons, ← hsum, ← hblock]
      by_cases hin : j.InLog s'.nextBlock
      · rw [ih hin, and_iff_right hin]
      · exact iff_of_false (fun hall => hin (hall _ (List.mem_cons_self ..))) fun hall => hin hall.1

/-- A scan that reads nothing outside the log never reads past the block map. -/
theorem Accepted.wp_scan (ha : Accepted j) (h : ∀ p ∈ j.scanReads turns s t, j.InLog p) :
    wp (j.scanFrom turns s r) t (fun _ _ => True) inMap := by
  induction turns generalizing s t with
  | zero => exact trivial
  | succ turns ih =>
    unfold Journal.scanReads at h
    obtain ⟨hin, hrest⟩ := List.forall_mem_cons.mp h
    have hread : wp (j.read s.nextBlock) t (fun _ _ => True) inMap := ha.wp_read hin fun _ => trivial
    unfold wp at hread
    rcases hx : exec (j.read s.nextBlock) t with ⟨e | buf, t'⟩
    · rw [hx] at hread
      unfold wp Journal.scanFrom
      rw [exec_bind, hx]
      exact hread
    rw [hx] at hrest
    dsimp only at hrest
    unfold wp
    cases hturn : j.scanTurn s buf with
    | none =>
      obtain ⟨x, hend⟩ : ∃ x, exec (j.scanFrom (turns + 1) s r) t = (.ok x, t') :=
        exec_scanFrom_end hx hturn
      rw [hend]
      trivial
    | some s' =>
      rw [hturn] at hrest
      rw [exec_scanFrom_next hx hturn]
      exact ih hrest

end Scan

/-! ## Every position -/

/-- What recovery reads of the log of `j` lies in the log: the scan of `fs`, and a pass up to
    any transaction over any contents. The scan's sums are u32s in the source. -/
structure PositionsInLog (j : Journal) (fs : Filesystem) : Prop where
  scan : ∀ p ∈ j.scanReads j.last j.scanStart fs, j.InLog p
  sums : ∀ b ∈ j.scanSums (j.last - 1) j.scanStart fs, b < 2 ^ 32
  scan_map : ∀ r, (exec (j.scan r) fs).1 ≠ .error Journal.outOfMap
  pass : ∀ finish replay fuel revoked r t,
    ∀ p ∈ j.passReads finish replay fuel (j.passStart revoked r) t, j.InLog p
  pass_map : ∀ finish replay fuel revoked r t,
    (exec (j.revokeOrReplay fuel finish revoked replay r) t).1 ≠ .error Journal.outOfMap

theorem ne_outOfMap {α : Type} {m : FsM α} {t : Filesystem}
    (h : wp m t (fun _ _ => True) inMap) : (exec m t).1 ≠ .error Journal.outOfMap := by
  unfold wp at h
  rcases hx : exec m t with ⟨e | a, t'⟩
  · rw [hx] at h
    exact fun he => h (Except.error.inj he)
  · nofun

/-- The log of an accepted journal is read in its bounds exactly if every sum of the scan is
    a u32, and less than the log's end and one turn of the log. -/
theorem positions_iff {fs t : Filesystem} {size : Nat} {walk : List (Nat × Nat)} {j : Journal}
    (h : exec (openAt size walk) fs = (.ok (.ok j), t)) (hs : j.header.start ≠ 0) :
    PositionsInLog j fs ↔ ∀ b ∈ j.scanSums (j.last - 1) j.scanStart fs,
      b < 2 ^ 32 ∧ b < j.last + (j.last - j.header.first) := by
  have ha := (openAt_accepted h).2
  have hstart : j.InLog j.header.start := (openAt_extended h).2.start_in hs
  have hlast : j.last = j.last - 1 + 1 := by
    have := ha.first_lt
    omega
  have hscan : (∀ p ∈ j.scanReads (j.last - 1 + 1) j.scanStart fs, j.InLog p) ↔
      ∀ b ∈ j.scanSums (j.last - 1) j.scanStart fs, b < j.last + (j.last - j.header.first) :=
    ha.scanReads_inLog_iff hstart
  rw [← hlast] at hscan
  constructor
  · exact fun hp b hb => ⟨hp.sums b hb, hscan.mp hp.scan b hb⟩
  · intro hsums
    have hreads := hscan.mpr fun b hb => (hsums b hb).2
    exact {
      scan := hreads
      sums := fun b hb => (hsums b hb).1
      scan_map := fun r => ne_outOfMap (ha.wp_scan hreads)
      pass := fun finish replay fuel revoked r t => ha.passReads_inLog finish fuel hstart t
      pass_map := fun finish replay fuel revoked r t => by
        refine ne_outOfMap ?_
        rw [revokeOrReplay_eq, wp_bind]
        refine wp_mono (ha.wp_pass finish fuel hstart t) (fun x u _ => ?_) fun _ _ he => he
        exact trivial }

/-- The log of `wrappedJournal` is read in its bounds. -/
theorem wrapped_positions : PositionsInLog wrappedJournal wrappedFs :=
  (positions_iff wrapped_open (by decide)).mpr (by decide +kernel)

/-! ## A descriptor with more tags than the log has blocks -/

/-- Five blocks with a journal in blocks 1 to 4: journal block 1 is a descriptor of
    transaction 1 with 42 tags. -/
def crowdedFs : Filesystem where
  dev :=
    { size := 5 * 1024
      bytes := fun p =>
        let magic : List UInt8 := [0xc0, 0x3b, 0x39, 0x98]
        match p / 1024 with
        | 1 => (magic ++ [0, 0, 0, 4, 0, 0, 0, 0, 0, 0, 4, 0, 0, 0, 0, 4, 0, 0, 0, 1, 0, 0, 0, 1,
            0, 0, 0, 1]).getD (p % 1024) 0
        | 2 => (magic ++ [0, 0, 0, 1, 0, 0, 0, 1]).getD (p % 1024) 0
        | _ => 0 }
  blockSize := 1024
  blocksCount := 5

def crowdedJournal : Journal := { loopingJournal with raw := crowdedFs.block 1 }

theorem crowded_open :
    exec (openAt 4096 [(0, 1), (1, 2), (2, 3), (3, 4)]) crowdedFs =
      (.ok (.ok crowdedJournal), crowdedFs) := by
  have haccept : accept crowdedFs [1, 2, 3, 4] (crowdedFs.block 1) = .ok crowdedJournal := by
    decide +kernel
  rw [(exec_openAt (by decide) (by decide) (by decide)).2]
  exact congrArg (fun x => (Except.ok x, crowdedFs)) haccept

/-- Whether a command read past the block map. -/
def pastMap {α : Type} : Except Error α → Bool
  | .error e => e = Journal.outOfMap
  | .ok _ => false

/-- The journal is accepted, and the scan's second read is at 41, past its four blocks. -/
theorem crowded_leaves_log :
    exec (openAt 4096 [(0, 1), (1, 2), (2, 3), (3, 4)]) crowdedFs =
        (.ok (.ok crowdedJournal), crowdedFs) ∧
      crowdedJournal.scanReads crowdedJournal.last crowdedJournal.scanStart crowdedFs = [1, 41] ∧
      ¬crowdedJournal.InLog 41 ∧
      pastMap (exec (crowdedJournal.scan {}) crowdedFs).1 = true :=
  ⟨crowded_open, by decide +kernel, by decide, by decide +kernel⟩

end MkfsExt4.Jbd2
