/-
  The retry loop of `Geometry::compute`, state by state: the block count and the group size a
  turn starts with, where a turn goes, and what holds of every state the loop visits.
-/
import MkfsExt4.Layout.Compute
import Mathlib.Logic.Relation

namespace MkfsExt4.Layout

open Lib.Hoare

/-! ## Rounding up -/

theorem le_divCeil_mul (a : Nat) {b : Nat} (hb : 0 < b) : a ≤ divCeil a b * b := by
  have hmod := Nat.mod_lt (a + b - 1) hb
  have hdiv := Nat.div_add_mod' (a + b - 1) b
  simp only [divCeil]
  omega

theorem divCeil_le_iff {a b n : Nat} (hb : 0 < b) : divCeil a b ≤ n ↔ a ≤ n * b := by
  constructor
  · intro h
    exact Nat.le_trans (le_divCeil_mul a hb) (Nat.mul_le_mul_right b h)
  · intro h
    rw [divCeil, ← Nat.lt_succ_iff, Nat.div_lt_iff_lt_mul hb, Nat.succ_mul]
    omega

theorem lt_divCeil_iff {a b n : Nat} (hb : 0 < b) : n < divCeil a b ↔ n * b < a := by
  rw [← Nat.not_le, divCeil_le_iff hb, Nat.not_le]

theorem divCeil_mul_lt (a : Nat) {b : Nat} (hb : 0 < b) : divCeil a b * b < a + b := by
  rcases Nat.eq_zero_or_pos (divCeil a b) with h | h
  · rw [h]
    omega
  · have := (lt_divCeil_iff (a := a) (n := divCeil a b - 1) hb).mp (by omega)
    rw [Nat.sub_mul] at this
    have : b ≤ divCeil a b * b := Nat.le_mul_of_pos_left b h
    omega

theorem divCeil_mul_self (n : Nat) {b : Nat} (hb : 0 < b) : divCeil (n * b) b = n := by
  apply Nat.le_antisymm ((divCeil_le_iff hb).mpr (Nat.le_refl _))
  exact Nat.le_of_mul_le_mul_right (le_divCeil_mul (n * b) hb) hb

/-! ## Sizes a block can have -/

theorem isPowerOfTwo_iff {n : Nat} : isPowerOfTwo n = true ↔ ∃ k, n = 2 ^ k := by
  have := Nat.ne_zero_and_sub_one_eq_zero_iff_isPowerOfTwo (n := n)
  simp only [isPowerOfTwo, Bool.and_eq_true, bne_iff_ne, beq_iff_eq]
  exact this

theorem validateBlockSize_ok {blockSize : Nat} {u : Unit}
    (h : validateBlockSize blockSize = .ok u) : ∃ k, blockSize = 2 ^ k ∧ 10 ≤ k ∧ k ≤ 16 := by
  have hok := refuse_ok h
  simp only [not_or, not_not, Bool.not_eq_true', Bool.not_eq_false] at hok
  obtain ⟨k, rfl⟩ := isPowerOfTwo_iff.mp hok.2
  refine ⟨k, rfl, ?_, ?_⟩
  · exact (Nat.pow_le_pow_iff_right (by decide : 1 < 2)).mp hok.1.1
  · exact (Nat.pow_le_pow_iff_right (by decide : 1 < 2)).mp hok.1.2

theorem validateInodeSize_ok {inodeSize blockSize : Nat} {u : Unit}
    (h : validateInodeSize inodeSize blockSize = .ok u) :
    ∃ k, inodeSize = 2 ^ k ∧ 7 ≤ k ∧ inodeSize ≤ blockSize := by
  obtain ⟨_, hpow, h⟩ := bind_ok h
  have hle := refuse_ok h
  have hpow := refuse_ok hpow
  simp only [not_or, Bool.not_eq_true', Bool.not_eq_false] at hpow
  obtain ⟨k, hk⟩ := isPowerOfTwo_iff.mp hpow.2
  refine ⟨k, hk, ?_, Nat.le_of_not_lt hle⟩
  rw [hk] at hpow
  exact (Nat.pow_le_pow_iff_right (by decide : 1 < 2)).mp (Nat.le_of_not_lt hpow.1)

/-! ## The loop -/

namespace Request

variable (req : Request)

/-- Groups the data blocks come to, before the cast to 32 bits. -/
def groupsNeeded (s : Nat × Nat) : Nat := divCeil (s.1 - req.firstDataBlock) s.2

/-- The group count of a turn: the cast. -/
def groupCountAt (s : Nat × Nat) : Nat := req.groupsNeeded s % 2 ^ 32

/-- The inode table of a turn: inodes per group, and its blocks. -/
def tableAt (s : Nat × Nat) : Except Failure (Nat × Nat) :=
  req.fitInodes (req.groupCountAt s)
    (min (divCeil req.requestedInodes (req.groupCountAt s))
      (maxInodesPerGroup req.blockSize req.inodeSize))

def descBlocksAt (s : Nat × Nat) : Nat := divCeil (req.groupCountAt s) req.descPerBlock

def reservedGdtAt (s : Nat × Nat) : Nat := req.reservedGdt s.1 s.2 (req.descBlocksAt s)

def overheadLastAt (s : Nat × Nat) (itableBlocks : Nat) : Nat :=
  req.overheadLast (req.groupCountAt s) itableBlocks (req.descBlocksAt s) (req.reservedGdtAt s)

/-- What the last group is left with, when it is short. -/
def remAt (s : Nat × Nat) : Nat := (s.1 - req.firstDataBlock) % s.2

/-- What the loop breaks with at a state. -/
def groupsAt (s : Nat × Nat) (inodesPerGroup itableBlocks : Nat) : Groups where
  blocksCount := s.1
  blocksPerGroup := s.2
  groupCount := req.groupCountAt s
  descBlocks := req.descBlocksAt s
  inodesPerGroup
  itableBlocks
  reservedGdt := req.reservedGdtAt s

/-- One way round the loop: a block count and a group size lead to the next. -/
inductive Next (req : Request) : Nat × Nat → Nat × Nat → Prop where
  /-- More inodes than one group's bitmap has bits: the groups shrink. -/
  | shrink {s : Nat × Nat} : req.groupCountAt s ≠ 0 →
      req.blockSize * 8 < divCeil req.requestedInodes (req.groupCountAt s) → 256 ≤ s.2 →
      Next req s (s.1, s.2 - 8)
  /-- The last group is too short for its own metadata: it is dropped. -/
  | drop {s : Nat × Nat} {inodesPerGroup itableBlocks : Nat} : s.2 ≠ 0 →
      req.groupCountAt s ≠ 0 → req.tableAt s = .ok (inodesPerGroup, itableBlocks) →
      req.remAt s ≠ 0 → req.remAt s < req.overheadLastAt s itableBlocks + 50 →
      ¬ (req.groupCountAt s = 1 ∧ req.remAt s < req.overheadLastAt s itableBlocks) →
      Next req s (s.1 - req.remAt s, s.2)

/-- The loop comes to a state from the one it starts at. -/
def Visits (start s : Nat × Nat) : Prop := Relation.ReflTransGen req.Next start s

/-- The loop breaks at a state. -/
structure Settles (s : Nat × Nat) (grp : Groups) : Prop where
  size_ne : s.2 ≠ 0
  count_ne : req.groupCountAt s ≠ 0
  inodes_le : divCeil req.requestedInodes (req.groupCountAt s) ≤ req.blockSize * 8
  table : req.tableAt s = .ok (grp.inodesPerGroup, grp.itableBlocks)
  /-- The last group is whole, or has room for its own metadata and fifty blocks. -/
  room : req.remAt s = 0 ∨ req.overheadLastAt s grp.itableBlocks + 50 ≤ req.remAt s
  eq : grp = req.groupsAt s grp.inodesPerGroup grp.itableBlocks

variable {req}

/-- The loop breaks at a state it visits. -/
theorem retry_visits {fuel : Nat} {s : Nat × Nat} {grp : Groups}
    (h : req.retry fuel s.1 s.2 = .ok grp) : ∃ s', req.Visits s s' ∧ req.Settles s' grp := by
  induction fuel generalizing s with
  | zero => cases h
  | succ fuel ih =>
    simp only [retry] at h
    split at h
    · cases h
    rename_i hsize
    split at h
    · cases h
    rename_i hcount
    split at h
    · rename_i hinodes
      split at h
      · rename_i hlarge
        obtain ⟨s', hvisits, hsettles⟩ := ih (s := (s.1, s.2 - 8)) h
        exact ⟨s', .head (.shrink hcount hinodes hlarge) hvisits, hsettles⟩
      · cases h
    rename_i hinodes
    split at h
    · cases h
    rename_i n t htable
    split at h
    · cases h
    rename_i halone
    split at h
    · rename_i hshort
      obtain ⟨s', hvisits, hsettles⟩ := ih (s := (s.1 - req.remAt s, s.2)) h
      refine ⟨s', .head (.drop hsize hcount htable hshort.1 hshort.2 ?_) hvisits, hsettles⟩
      exact fun hone => halone ⟨hone.1, hshort.1, hone.2⟩
    · rename_i hroom
      cases h
      refine ⟨s, .refl, hsize, hcount, Nat.le_of_not_lt hinodes, htable, ?_, rfl⟩
      rw [not_and_or, not_not] at hroom
      exact hroom.imp_right Nat.le_of_not_lt

/-- A fact that every way round the loop keeps holds of every state the loop visits. -/
theorem Visits.invariant {I : Nat × Nat → Prop} (hstep : ∀ s s', req.Next s s' → I s → I s')
    {start s : Nat × Nat} (h : req.Visits start s) (hstart : I start) : I s := by
  induction h with
  | refl => exact hstart
  | tail _ hnext ih => exact hstep _ _ hnext ih

/-- A last group is dropped without leaving a short one. -/
theorem Next.groups_le {s s' : Nat × Nat} (h : req.Next s s') :
    s'.1 ≤ s.1 ∧ s'.2 ≤ s.2 ∧ (s.2 ≠ 0 → s'.2 ≠ 0) ∧
      (req.firstDataBlock ≤ s.1 → req.firstDataBlock ≤ s'.1) := by
  cases h with
  | shrink _ _ hlarge =>
    refine ⟨Nat.le_refl _, Nat.sub_le _ _, fun _ => ?_, id⟩
    show s.2 - 8 ≠ 0
    omega
  | drop =>
    refine ⟨Nat.sub_le _ _, Nat.le_refl _, id, fun hdata => ?_⟩
    have : req.remAt s ≤ s.1 - req.firstDataBlock := Nat.mod_le _ _
    show req.firstDataBlock ≤ s.1 - req.remAt s
    omega

/-- A count of groups that fits 32 bits goes on fitting them: the groups only shrink while
they are few. -/
theorem Next.needed_lt {s s' : Nat × Nat} (hb : 1024 ≤ req.blockSize)
    (hreq : req.requestedInodes < 2 ^ 32) (h : req.Next s s')
    (hlt : req.groupsNeeded s < 2 ^ 32) : req.groupsNeeded s' < 2 ^ 32 := by
  cases h with
  | shrink hcount hinodes hlarge =>
    rw [groupCountAt, Nat.mod_eq_of_lt hlt] at hcount hinodes
    -- More than 8192 inodes a group: at most 2^19 groups.
    have hfew : req.groupsNeeded s < 2 ^ 19 := by
      have hmany := (lt_divCeil_iff (Nat.pos_of_ne_zero hcount)).mp hinodes
      have : 1024 * 8 * req.groupsNeeded s ≤ req.blockSize * 8 * req.groupsNeeded s := by
        apply Nat.mul_le_mul_right
        omega
      omega
    have hdata : s.1 - req.firstDataBlock ≤ req.groupsNeeded s * s.2 :=
      le_divCeil_mul _ (by omega)
    have hhalf : req.groupsNeeded s * s.2 ≤ 2 * req.groupsNeeded s * (s.2 - 8) := by
      rw [Nat.mul_comm 2, Nat.mul_assoc]
      apply Nat.mul_le_mul_left
      omega
    have hle : req.groupsNeeded (s.1, s.2 - 8) ≤ 2 * req.groupsNeeded s :=
      (divCeil_le_iff (show 0 < s.2 - 8 by omega)).mpr (Nat.le_trans hdata hhalf)
    omega
  | drop hsize =>
    have hle : req.groupsNeeded (s.1 - req.remAt s, s.2) ≤ req.groupsNeeded s := by
      apply (divCeil_le_iff (Nat.pos_of_ne_zero hsize)).mpr
      have := le_divCeil_mul (s.1 - req.firstDataBlock) (Nat.pos_of_ne_zero hsize)
      exact Nat.le_trans (by dsimp only; omega) this
    omega

/-- 2^32 whole groups stay 2^32 whole groups. -/
theorem Next.whole_le {s s' : Nat × Nat} (h : req.Next s s')
    (hle : 2 ^ 32 * s.2 ≤ s.1 - req.firstDataBlock) :
    2 ^ 32 * s'.2 ≤ s'.1 - req.firstDataBlock := by
  cases h with
  | shrink =>
    refine Nat.le_trans (Nat.mul_le_mul_left _ (Nat.sub_le _ _)) hle
  | drop hsize =>
    -- The whole groups are what the remainder leaves.
    have hwhole := (Nat.le_div_iff_mul_le (Nat.pos_of_ne_zero hsize)).mpr hle
    have hdiv := Nat.div_add_mod' (s.1 - req.firstDataBlock) s.2
    have hmul := Nat.mul_le_mul_right s.2 hwhole
    show 2 ^ 32 * s.2 ≤ s.1 - req.remAt s - req.firstDataBlock
    simp only [remAt]
    omega

/-- Where 2^32 groups or more are needed, the cast group count is short of them at every
state where the loop can break. -/
theorem Visits.groupCount_lt {start s : Nat × Nat} {grp : Groups} (h : req.Visits start s)
    (hsettles : req.Settles s grp) (hstart : req.groupCountAt start ≠ 0)
    (hle : 2 ^ 32 ≤ req.groupsNeeded start) (hsize : start.2 ≠ 0) :
    req.groupCountAt s < req.groupsNeeded s := by
  have hpos := Nat.pos_of_ne_zero hsize
  have hwhole : 2 ^ 32 * start.2 ≤ start.1 - req.firstDataBlock := by
    have hne : req.groupsNeeded start ≠ 2 ^ 32 := by
      intro h
      rw [groupCountAt, h] at hstart
      exact hstart rfl
    have hlt : 2 ^ 32 < req.groupsNeeded start := by omega
    exact Nat.le_of_lt ((lt_divCeil_iff hpos).mp hlt)
  have hwhole := h.invariant (fun _ _ => Next.whole_le) hwhole
  have hneeded : 2 ^ 32 ≤ req.groupsNeeded s := by
    by_contra hlt
    have := (divCeil_le_iff (Nat.pos_of_ne_zero hsettles.size_ne)).mp
      (Nat.le_pred_of_lt (Nat.lt_of_not_le hlt))
    have hmul : (2 ^ 32 - 1) * s.2 < 2 ^ 32 * s.2 :=
      Nat.mul_lt_mul_of_pos_right (by decide) (Nat.pos_of_ne_zero hsettles.size_ne)
    simp only [Nat.pred_eq_sub_one] at this
    omega
  have : req.groupCountAt s < 2 ^ 32 := Nat.mod_lt _ (by decide)
  omega

end Request

end MkfsExt4.Layout
