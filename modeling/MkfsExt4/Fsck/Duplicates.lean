/-
  Whether pass 1 finds every block that is claimed twice.

  The duplicates are the blocks that a noted claim finds claimed (`mem_duplicatesIn`). All
  claims are noted but those of the resize inode, so a block this inode claims after another
  owner is missed, and it is found if the other owner is walked later. `duplicates_iff`: every
  block claimed twice is found, in whatever order the inodes are walked, exactly when no block
  of the resize inode depends on its claims being noted.
-/
import MkfsExt4.Fsck.Connectivity
import MkfsExt4.Lib.Collisions

namespace MkfsExt4.Fsck

open Lib.Hoare Lib.Endian Lib.Collisions BlockRuns Filesystem

variable {seen fs : Filesystem} {f f1 : Findings} {b : Nat}

/-! ## The claims of a check -/

/-- The claims of passes 0 and 1, for inodes walked in the given order. Pass 0 read the
    filesystem `seen`, before the orphans were released. -/
def claimsIn (seen fs : Filesystem) (order : List (Nat × Inode)) : List Claim :=
  structureClaims seen ++ inodeClaims fs order

/-- The duplicates that walking the inodes in the given order finds. -/
def duplicatesIn (seen fs : Filesystem) (order : List (Nat × Inode)) : List Nat :=
  ((claimsIn seen fs order).foldl Claim.enter (ScanState.new seen).claimed).2

/-- How often the structure claims a block. -/
def structureTimes (seen : Filesystem) (b : Nat) : Nat :=
  noteds Claim.covers Claim.noted (structureClaims seen) b

/-- How often the walked inodes claim a block, the resize inode apart. -/
def ownedTimes (fs : Filesystem) (b : Nat) : Nat :=
  noteds Claim.covers Claim.noted (inodeClaims fs (walkedInodes fs)) b

/-- How often the resize inode claims a block. -/
def resizeTimes (fs : Filesystem) (b : Nat) : Nat :=
  unnoteds Claim.covers Claim.noted (inodeClaims fs (walkedInodes fs)) b

/-- A block kept for a group's descriptors to grow into. -/
def ReservedGdt (fs : Filesystem) (b : Nat) : Prop :=
  ∃ g < fs.groupCount, fs.groupHasDesc g = true ∧
    (fs.metaBg = false ∨ g / fs.descPerBlock < fs.superblock.firstMetaBg) ∧
    fs.groupFirstBlock g + (fs.groupHasSuper g).toNat + fs.superblock.gdtBlocks ≤ b ∧
    b < fs.groupFirstBlock g + fs.superOverhead g

/-- A block claimed by two owners or twice by one, other than one kept for the descriptors
    that the resize inode shares with them. -/
def Shared (seen fs : Filesystem) (b : Nat) : Prop :=
  2 ≤ structureTimes seen b + ownedTimes fs b ∨
    (0 < resizeTimes fs b ∧ (0 < ownedTimes fs b ∨ 2 ≤ resizeTimes fs b ∨
      (0 < structureTimes seen b ∧ ¬ ReservedGdt seen b)))

/-- The duplicates hold every shared block, and another order of the inodes would give the
    same. -/
structure FindsShared (seen fs : Filesystem) (s : ScanState) : Prop where
  shared : ∀ b < seen.superblock.blocksCount, Shared seen fs b → b ∈ s.duplicates
  order : ∀ order, order.Perm (walkedInodes fs) → ∀ b,
    b ∈ duplicatesIn seen fs order ↔ b ∈ s.duplicates

/-! ## What is marked -/

/-- The runs and duplicates as a ledger has them. -/
structure Records (n : Nat) (p : BlockRuns × List Nat) (l : Ledger Nat) : Prop where
  ordered : Ordered p.1.runs
  len : p.1.len = n
  held : ∀ b, Held p.1.runs b ↔ l.taken b ∧ b < n
  marked : ∀ b, b ∈ p.2 ↔ l.marked b ∧ b < n

theorem mem_foldl_insertKey {bs dups : List Nat} :
    b ∈ bs.foldl (fun dups b => Lib.SortedMap.insertKey b dups) dups ↔ b ∈ bs ∨ b ∈ dups := by
  induction bs generalizing dups with
  | nil => simp
  | cons a bs ih =>
    rw [List.foldl_cons, ih, Lib.SortedMap.mem_insertKey, List.mem_cons, or_left_comm, or_assoc]

theorem mem_foldl_overlaps {overlaps : List (Nat × Nat)} {dups : List Nat} :
    b ∈ overlaps.foldl (fun dups p => (List.range' p.1 (p.2 - p.1)).foldl
      (fun dups b => Lib.SortedMap.insertKey b dups) dups) dups ↔ Held overlaps b ∨ b ∈ dups := by
  induction overlaps generalizing dups with
  | nil => simp [Held]
  | cons p overlaps ih =>
    have hrange : b ∈ List.range' p.1 (p.2 - p.1) ↔ p.1 ≤ b ∧ b < p.2 := by
      rw [List.mem_range'_1]
      omega
    rw [List.foldl_cons, ih, mem_foldl_insertKey, hrange]
    simp only [Held, List.mem_cons, exists_eq_or_imp]
    rw [or_left_comm, or_assoc]

/-- One claim is entered in the runs as in the ledger. -/
theorem Records.enter {n : Nat} {p : BlockRuns × List Nat} {l : Ledger Nat} (h : Records n p l)
    (c : Claim) : Records n (c.enter p) (l.enter Claim.covers Claim.noted c) := by
  refine ⟨ordered_insert h.ordered _ _, (insert_len _ _ _).trans h.len, fun b => ?_, fun b => ?_⟩
  · have hheld := held_insert h.ordered c.start c.stop b
    rw [h.held, h.len] at hheld
    simp only [Claim.enter, hheld, Ledger.enter, Claim.covers, decide_eq_true_eq]
    tauto
  · have hover := held_overlaps h.ordered c.start c.stop b
    rw [h.held, h.len] at hover
    simp only [Claim.enter, Ledger.enter, Claim.covers, decide_eq_true_eq]
    cases c.noted with
    | false => simpa using h.marked b
    | true =>
      rw [if_pos rfl, mem_foldl_overlaps, hover, h.marked]
      tauto

theorem records_foldl {n : Nat} {p : BlockRuns × List Nat} {l : Ledger Nat} (h : Records n p l)
    (cs : List Claim) :
    Records n (cs.foldl Claim.enter p) (cs.foldl (Ledger.enter Claim.covers Claim.noted) l) := by
  induction cs generalizing p l with
  | nil => exact h
  | cons c cs ih => exact ih (h.enter c)

theorem records_new (fs : Filesystem) :
    Records fs.superblock.blocksCount (ScanState.new fs).claimed .blank := by
  refine ⟨⟨List.Pairwise.nil, by simp [ScanState.claimed, ScanState.new]⟩, rfl, fun b => ?_,
    fun b => ?_⟩
  · simp [Held, ScanState.claimed, ScanState.new, Ledger.blank]
  · simp [ScanState.claimed, ScanState.new, Ledger.blank]

theorem mem_duplicatesIn {order : List (Nat × Inode)} : b ∈ duplicatesIn seen fs order ↔
    ¬ Quiet Claim.covers Claim.noted (claimsIn seen fs order) b ∧
      b < seen.superblock.blocksCount := by
  rw [duplicatesIn, (records_foldl (records_new seen) _).marked, marked_iff]

/-- After pass 1 the duplicates are those of its own order. -/
theorem check_duplicates {options : FsckOptions} {fuel now : Nat} {fs0 : Filesystem}
    {journal : Bool × FsckReport}
    (hjournal : exec (journalStage fuel options {}) fs0 = (.ok journal, seen))
    (hprepare : exec (prepare fuel options now) fs0 = (.ok (.ok f), fs))
    (hpass1 : pass1Inodes fs f = .ok f1) :
    f1.state.duplicates = duplicatesIn seen fs (walkedInodes fs) := by
  obtain ⟨_, seen', _, g, hjournal', hpass0, hstate⟩ := prepare_state hprepare
  rw [hjournal] at hjournal'
  obtain rfl := (Prod.mk.inj hjournal').2
  have hclaimed := pass1_claimed hpass1
  rw [hstate, pass0_claimed hpass0, ← List.foldl_append] at hclaimed
  exact congrArg Prod.snd hclaimed

/-! ## By counts -/

theorem structureClaims_noted : ∀ c ∈ structureClaims seen, c.noted = true := by
  intro c hc
  unfold structureClaims at hc
  split at hc
  · cases hc
  · rcases List.mem_append.mp hc with hc | hc
    · obtain ⟨g, -, hc⟩ := List.mem_flatMap.mp hc
      unfold groupClaims at hc
      rcases List.mem_cons.mp hc with rfl | hc
      · rfl
      · split at hc
        · cases hc
        · simp only [List.mem_cons, List.not_mem_nil, or_false] at hc
          rcases hc with rfl | rfl | rfl <;> rfl
    · unfold looseClaims at hc
      rcases List.mem_cons.mp hc with rfl | hc
      · rfl
      · split at hc
        · rw [List.mem_singleton.mp hc]
          rfl
        · cases hc

theorem inodeClaims_noted {order : List (Nat × Inode)} {c : Claim}
    (hc : c ∈ inodeClaims fs order) : ∃ p ∈ order, c.noted = !decide (p.1 = Ino.resize) := by
  obtain ⟨p, hp, hc⟩ := List.mem_flatMap.mp hc
  obtain ⟨r, -, rfl⟩ := List.mem_map.mp hc
  exact ⟨p, hp, rfl⟩

theorem inodeClaims_perm {order : List (Nat × Inode)} (h : order.Perm (walkedInodes fs)) :
    (inodeClaims fs order).Perm (inodeClaims fs (walkedInodes fs)) := h.flatMap_right _

/-- How often the claims that are noted cover a block, in any order. -/
theorem noteds_claimsIn {order : List (Nat × Inode)} (h : order.Perm (walkedInodes fs)) :
    noteds Claim.covers Claim.noted (claimsIn seen fs order) b =
      structureTimes seen b + ownedTimes fs b := by
  rw [claimsIn, noteds_append, noteds_perm (inodeClaims_perm h), structureTimes, ownedTimes]

theorem unnoteds_claimsIn {order : List (Nat × Inode)} (h : order.Perm (walkedInodes fs)) :
    unnoteds Claim.covers Claim.noted (claimsIn seen fs order) b = resizeTimes fs b := by
  rw [claimsIn, unnoteds_append, unnoteds_perm (inodeClaims_perm h),
    unnoteds_eq_zero_of_noted structureClaims_noted, Nat.zero_add, resizeTimes]

/-- The inodes in an order in which the resize inode comes last. -/
def resizeLast (fs : Filesystem) : List (Nat × Inode) :=
  (walkedInodes fs).filter (fun p => !decide (p.1 = Ino.resize)) ++
    (walkedInodes fs).filter fun p => !!decide (p.1 = Ino.resize)

theorem resizeLast_perm : (resizeLast fs).Perm (walkedInodes fs) :=
  List.filter_append_perm _ _

/-- Walked last, the resize inode collides with nothing. -/
theorem quiet_resizeLast : Quiet Claim.covers Claim.noted (claimsIn seen fs (resizeLast fs)) b ↔
    structureTimes seen b + ownedTimes fs b ≤ 1 := by
  have hcount : noteds Claim.covers Claim.noted (claimsIn seen fs (resizeLast fs)) b =
      structureTimes seen b + ownedTimes fs b := noteds_claimsIn resizeLast_perm
  rw [claimsIn, resizeLast, inodeClaims, List.flatMap_append, ← inodeClaims, ← inodeClaims,
    ← List.append_assoc] at hcount ⊢
  have hlast : ∀ d ∈ inodeClaims fs ((walkedInodes fs).filter fun p =>
      !!decide (p.1 = Ino.resize)), d.noted = false := by
    intro d hd
    obtain ⟨p, hp, hnoted⟩ := inodeClaims_noted hd
    have hresize := (List.mem_filter.mp hp).2
    rw [hnoted]
    simpa using hresize
  have hfirst : ∀ c ∈ structureClaims seen ++ inodeClaims fs ((walkedInodes fs).filter fun p =>
      !decide (p.1 = Ino.resize)), c.noted = true := by
    intro c hc
    rcases List.mem_append.mp hc with hc | hc
    · exact structureClaims_noted c hc
    · obtain ⟨p, hp, hnoted⟩ := inodeClaims_noted hc
      rw [hnoted]
      exact (List.mem_filter.mp hp).2
  have hzero : noteds Claim.covers Claim.noted (inodeClaims fs ((walkedInodes fs).filter fun p =>
      !!decide (p.1 = Ino.resize))) b = 0 := by
    rw [noteds_eq_zero]
    intro d hd hboth
    rw [hlast d hd] at hboth
    exact absurd hboth.1 (by decide)
  rw [noteds_append, hzero, Nat.add_zero] at hcount
  rw [quiet_append_unnoted hlast, ← hcount, ← not_iff_not, not_quiet_iff hfirst]
  omega

/-- Where no claim of the resize inode needs to be noted, the order is of no matter. -/
theorem quiet_claimsIn {order : List (Nat × Inode)} (h : order.Perm (walkedInodes fs))
    (hgood : 0 < resizeTimes fs b → 2 ≤ structureTimes seen b + ownedTimes fs b ∨
      ownedTimes fs b = 0) :
    Quiet Claim.covers Claim.noted (claimsIn seen fs order) b ↔
      structureTimes seen b + ownedTimes fs b ≤ 1 := by
  have hcount : noteds Claim.covers Claim.noted (claimsIn seen fs order) b =
      structureTimes seen b + ownedTimes fs b := noteds_claimsIn h
  refine ⟨fun hq => hcount ▸ hq.noteds_le, fun hle => ?_⟩
  by_cases hresize : resizeTimes fs b = 0
  · exact quiet_of_unnoteds_zero (by rw [unnoteds_claimsIn h, hresize]) (by rw [hcount]; exact hle)
  · -- Only the structure is noted, and its claims come first.
    have howned : ownedTimes fs b = 0 := by
      rcases hgood (by omega) with h2 | h0
      · omega
      · exact h0
    have hnone : noteds Claim.covers Claim.noted (inodeClaims fs order) b = 0 := by
      rw [noteds_perm (inodeClaims_perm h)]
      exact howned
    rw [claimsIn, quiet_append]
    refine ⟨quiet_of_unnoteds_zero (unnoteds_eq_zero_of_noted structureClaims_noted) ?_,
      quiet_of_noteds_zero hnone, fun c _ d hd hboth => ?_⟩
    · rw [structureTimes] at hle
      omega
    · exact noteds_eq_zero.mp hnone d hd hboth.2

/-! ## When every shared block is found -/

/-- In a check that comes to the end of pass 1, the duplicates are all the shared blocks
    whatever the order, exactly when each block that the resize inode claims is claimed twice
    by others, or by no other, or is a reserved descriptor block the structure claims once. -/
theorem duplicates_iff {options : FsckOptions} {fuel now : Nat} {fs0 : Filesystem}
    {journal : Bool × FsckReport}
    (hjournal : exec (journalStage fuel options {}) fs0 = (.ok journal, seen))
    (hprepare : exec (prepare fuel options now) fs0 = (.ok (.ok f), fs))
    (hpass1 : pass1Inodes fs f = .ok f1) :
    FindsShared seen fs f1.state ↔
      ∀ b < seen.superblock.blocksCount, 0 < resizeTimes fs b →
        2 ≤ structureTimes seen b + ownedTimes fs b ∨
          (ownedTimes fs b = 0 ∧ resizeTimes fs b = 1 ∧
            (structureTimes seen b = 0 ∨ structureTimes seen b = 1 ∧ ReservedGdt seen b)) := by
  have hdups := check_duplicates hjournal hprepare hpass1
  constructor
  · intro hfinds b hb hresize
    have hlast := hfinds.order _ resizeLast_perm b
    rw [mem_duplicatesIn, quiet_resizeLast] at hlast
    by_cases htwo : 2 ≤ structureTimes seen b + ownedTimes fs b
    · exact Or.inl htwo
    · have hunshared : ¬ Shared seen fs b := fun hshared =>
        absurd (hlast.mpr (hfinds.shared b hb hshared)).1 (by omega)
      simp only [Shared, not_or, not_and, not_lt, not_not] at hunshared
      obtain ⟨howned, honce, hreserved⟩ := hunshared.2 hresize
      refine Or.inr ⟨by omega, by omega, ?_⟩
      by_cases hzero : structureTimes seen b = 0
      · exact Or.inl hzero
      · exact Or.inr ⟨by omega, hreserved (by omega)⟩
  · intro hgood
    have hquiet : ∀ order, order.Perm (walkedInodes fs) → ∀ b, b ∈ duplicatesIn seen fs order ↔
        2 ≤ structureTimes seen b + ownedTimes fs b ∧ b < seen.superblock.blocksCount := by
      intro order hperm b
      rw [mem_duplicatesIn]
      refine and_congr_left fun hb => ?_
      rw [quiet_claimsIn hperm fun hresize => (hgood b hb hresize).imp_right And.left]
      omega
    have hfound : ∀ b, b ∈ f1.state.duplicates ↔
        2 ≤ structureTimes seen b + ownedTimes fs b ∧ b < seen.superblock.blocksCount := by
      rw [hdups]
      exact hquiet _ (.refl _)
    refine ⟨fun b hb hshared => (hfound b).mpr ⟨?_, hb⟩, fun order hperm b => ?_⟩
    · rcases hshared with htwo | ⟨hresize, hwith⟩
      · exact htwo
      · rcases hgood b hb hresize with htwo | ⟨howned, honce, hstructure⟩
        · exact htwo
        · rcases hwith with h1 | h2 | ⟨h1, hnot⟩
          · omega
          · omega
          · rcases hstructure with h0 | ⟨-, hreserved⟩
            · omega
            · exact absurd hreserved hnot
    · rw [hquiet order hperm b, hfound b]

/-! ### A block of the root in the map of the resize inode -/

/-- The start of the resize inode, mapping one block. -/
def resizeInode (block : Nat) : List UInt8 :=
  toLe 2 0x8180 ++ [0, 0] ++ toLe 4 1024 ++ List.replicate 18 0 ++ [1, 0] ++
    List.replicate 12 0 ++ toLe 4 block

/-- 16 blocks, 16 inodes: the root at block 7, which the resize inode maps too. -/
def resizeImage : Device := .ofChunks 16384
  [(1024, toLe 4 16 ++ toLe 4 16), (1024 + 0x14, [1]), (1024 + 0x21, [0x20]), (1024 + 0x28, [16]),
    (1024 + 0x38, [0x53, 0xef]), (2048, [3, 0, 0, 0, 4, 0, 0, 0, 5]),
    (5 * 1024 + 128, dirInode 7), (5 * 1024 + 6 * 128, resizeInode 7), (7 * 1024, dirBlock 2 2)]

/-- Its check up to pass 1: the duplicates, the blocks, and how often block 7 is claimed. -/
theorem resizeImage_checked : ((passOne resizeImage).bind fun (fs0, fs, _, f1) =>
    match exec (journalStage 0 { force := true } {}) fs0 with
    | (.ok _, seen) => some (f1.state.duplicates, seen.superblock.blocksCount, ownedTimes fs 7,
        resizeTimes fs 7)
    | _ => none) = some ([], 16, 1, 1) := by
  decide +kernel

theorem resize_run : ∃ fs0 journal seen fs f0 f1, openOn resizeImage = .ok fs0 ∧
    exec (journalStage 0 { force := true } {}) fs0 = (.ok journal, seen) ∧
    exec (prepare 0 { force := true } 0) fs0 = (.ok (.ok f0), fs) ∧ pass1Inodes fs f0 = .ok f1 ∧
    f1.state.duplicates = [] ∧ seen.superblock.blocksCount = 16 ∧ ownedTimes fs 7 = 1 ∧
    resizeTimes fs 7 = 1 := by
  obtain ⟨⟨fs0, fs, f0, f1⟩, hone, hrun⟩ := Option.bind_eq_some_iff.mp resizeImage_checked
  obtain ⟨hopen, hprepare, hpass1⟩ := passOne_ok hone
  dsimp only at hrun
  split at hrun
  · next journal seen hjournal =>
    obtain ⟨hdups, hrest⟩ := Prod.mk.inj (Option.some.inj hrun)
    obtain ⟨hlen, hrest⟩ := Prod.mk.inj hrest
    obtain ⟨howned, hresize⟩ := Prod.mk.inj hrest
    exact ⟨fs0, journal, seen, fs, f0, f1, hopen, hjournal, hprepare, hpass1, hdups, hlen,
      howned, hresize⟩
  · cases hrun

theorem duplicates_resize : ∃ (seen fs : Filesystem) (f1 : Findings), FindsShared seen fs f1.state ↔
    ∀ b < seen.superblock.blocksCount, 0 < resizeTimes fs b →
      2 ≤ structureTimes seen b + ownedTimes fs b ∨
        (ownedTimes fs b = 0 ∧ resizeTimes fs b = 1 ∧
          (structureTimes seen b = 0 ∨ structureTimes seen b = 1 ∧ ReservedGdt seen b)) := by
  obtain ⟨fs0, journal, seen, fs, f0, f1, -, hjournal, hprepare, hpass1, -⟩ := resize_run
  exact ⟨seen, fs, f1, duplicates_iff hjournal hprepare hpass1⟩

/-- The resize inode and the root claim block 7, and it is no duplicate. -/
theorem resize_not_found : ¬ ∀ (options : FsckOptions) (fuel now : Nat) (device : Device)
    (fs0 seen fs : Filesystem) (journal : Bool × FsckReport) (f0 f1 : Findings),
    openOn device = .ok fs0 → exec (journalStage fuel options {}) fs0 = (.ok journal, seen) →
    exec (prepare fuel options now) fs0 = (.ok (.ok f0), fs) → pass1Inodes fs f0 = .ok f1 →
    FindsShared seen fs f1.state := by
  intro hclaim
  obtain ⟨fs0, journal, seen, fs, f0, f1, hopen, hjournal, hprepare, hpass1, hdups, hlen, howned,
    hresize⟩ := resize_run
  have hfound := (hclaim _ 0 0 resizeImage fs0 seen fs journal f0 f1 hopen hjournal hprepare
    hpass1).shared 7 (by omega) (Or.inr ⟨by omega, Or.inl (by omega)⟩)
  rw [hdups] at hfound
  cases hfound

end MkfsExt4.Fsck
