/-
  The formatter's block allocator (`Allocator` in `src/format.rs`): a forward scan over the
  blocks that metadata left alone.

  A loop that walks a cursor towards `blocks_count` takes the distance left as its fuel.
  `Extends a a' runs` is what every allocation does: it appends runs of blocks that were free,
  that lie below `blocks_count`, and of which no two share a block.
-/
import MkfsExt4.Error
import MkfsExt4.Lib.Hoare
import Mathlib.Data.List.Nodup

namespace MkfsExt4.Format

open Lib.Hoare

/-- A run of blocks set aside for something other than group metadata. -/
structure Run where
  start : Nat
  len : Nat
deriving DecidableEq, Repr

namespace Run

def contains (r : Run) (block : Nat) : Bool := r.start ≤ block && block < r.start + r.len

/-- The blocks of a run, in order. -/
def blocks (r : Run) : List Nat := List.range' r.start r.len

end Run

/-- A forward-scanning allocator. -/
structure Allocator where
  blocksCount : Nat
  firstDataBlock : Nat
  blockSize : Nat
  runs : List Run := []
  metadata : Nat → Bool

abbrev AllocM := Cmd Failure Allocator

namespace Allocator

variable (a : Allocator)

def taken (block : Nat) : Bool := a.metadata block || a.runs.any fun r => r.contains block

def push (r : Run) : Allocator := { a with runs := a.runs ++ [r] }

/-- The first taken block of the `len` from `block` on. -/
def firstTaken : (len : Nat) → (block : Nat) → Option Nat
  | 0, _ => none
  | len + 1, block => if a.taken block then some block else firstTaken len (block + 1)

/-- The loop of `alloc`: a run that meets a taken block starts again past it. -/
def scan (len : Nat) : (fuel : Nat) → (block : Nat) → Option Nat
  | 0, _ => none
  | fuel + 1, block =>
    if block + len ≤ a.blocksCount then
      match a.firstTaken len block with
      | none => some block
      | some blocked => scan len fuel (blocked + 1)
    else none

/-- How far the free blocks go from `block` on, `most` at most. -/
def extent : (most : Nat) → (block : Nat) → Nat
  | 0, _ => 0
  | most + 1, block =>
    if block < a.blocksCount ∧ !a.taken block then extent most (block + 1) + 1 else 0

/-- One pass of `alloc_runs` for `need` blocks, from `block` on. -/
def gather : (fuel : Nat) → (a : Allocator) → (need block : Nat) → List Run × Allocator
  | 0, a, _, _ => ([], a)
  | fuel + 1, a, need, block =>
    if need = 0 ∨ a.blocksCount ≤ block then ([], a)
    else if a.taken block then gather fuel a need (block + 1)
    else
      let run : Run := { start := block, len := a.extent need block }
      let (runs, a) := gather fuel (a.push run) (need - run.len) (block + run.len)
      (run :: runs, a)

end Allocator

open Allocator

/-- The blocks of some runs, together. -/
def total (runs : List Run) : Nat := (runs.map Run.len).sum

/-- Allocate `len` contiguous free blocks at or after `goal`, or else from the start of the
filesystem. -/
def alloc (goal len : Nat) : AllocM Nat := do
  let a ← get
  match a.scan len (a.blocksCount + 1) goal with
  | some block =>
    set (a.push { start := block, len })
    return block
  | none =>
    match a.scan len (a.blocksCount + 1) a.firstDataBlock with
    | some block =>
      set (a.push { start := block, len })
      return block
    | none => throw (.error (.deviceTooSmall a.blocksCount len a.blockSize))

/-- Allocate `count` free blocks at or after `goal`, in as few runs as the free space allows. -/
def allocRuns (goal count : Nat) : AllocM (List Run) := do
  let a ← get
  let (runs, a) := gather (a.blocksCount + 1) a count goal
  set a
  if count ≤ total runs then return runs
  let (more, a) := gather (a.blocksCount + 1) a (count - total runs) a.firstDataBlock
  set a
  if count ≤ total (runs ++ more) then return runs ++ more
  throw (.error (.deviceTooSmall a.blocksCount count a.blockSize))

/-! ## What an allocation does -/

/-- The blocks of some runs, in order. -/
def blocksOf (runs : List Run) : List Nat := runs.flatMap Run.blocks

theorem Run.mem_blocks {r : Run} {b : Nat} : b ∈ r.blocks ↔ r.start ≤ b ∧ b < r.start + r.len := by
  rw [Run.blocks, List.mem_range'_1]

theorem Run.contains_iff {r : Run} {b : Nat} : r.contains b = true ↔ b ∈ r.blocks := by
  rw [Run.mem_blocks, Run.contains, Bool.and_eq_true, decide_eq_true_iff, decide_eq_true_iff]

@[simp] theorem blocksOf_nil : blocksOf [] = [] := rfl

@[simp] theorem blocksOf_cons (r : Run) (runs : List Run) :
    blocksOf (r :: runs) = r.blocks ++ blocksOf runs := rfl

@[simp] theorem blocksOf_append (runs runs' : List Run) :
    blocksOf (runs ++ runs') = blocksOf runs ++ blocksOf runs' := List.flatMap_append

theorem mem_blocksOf {runs : List Run} {b : Nat} :
    b ∈ blocksOf runs ↔ ∃ r ∈ runs, b ∈ r.blocks := List.mem_flatMap

/-- `a'` is `a` with `runs` handed out: free blocks of the filesystem, no two the same. -/
structure Extends (a a' : Allocator) (runs : List Run) : Prop where
  eq : a' = { a with runs := a.runs ++ runs }
  free : ∀ b ∈ blocksOf runs, a.taken b = false
  lt : ∀ b ∈ blocksOf runs, b < a.blocksCount
  nodup : (blocksOf runs).Nodup

namespace Extends

variable {a a' a'' : Allocator} {runs runs' : List Run}

theorem refl (a : Allocator) : Extends a a [] where
  eq := by rw [List.append_nil]
  free := nofun
  lt := nofun
  nodup := List.nodup_nil

theorem taken_iff (h : Extends a a' runs) (b : Nat) :
    a'.taken b = true ↔ a.taken b = true ∨ b ∈ blocksOf runs := by
  have hany : (runs.any fun r => r.contains b) = true ↔ b ∈ blocksOf runs := by
    rw [List.any_eq_true, mem_blocksOf]
    exact exists_congr fun r => and_congr_right fun _ => Run.contains_iff
  rw [h.eq]
  simp only [Allocator.taken, List.any_append, Bool.or_eq_true, or_assoc, hany]

theorem trans (h : Extends a a' runs) (h' : Extends a' a'' runs') :
    Extends a a'' (runs ++ runs') := by
  have hcount : a'.blocksCount = a.blocksCount := by rw [h.eq]
  have hnew : ∀ b ∈ blocksOf runs', a.taken b = false ∧ b ∉ blocksOf runs := by
    intro b hb
    have hfree := h'.free b hb
    refine ⟨Bool.eq_false_iff.mpr fun ht => ?_, fun hm => ?_⟩
    · exact absurd ((h.taken_iff b).mpr (Or.inl ht)) (by rw [hfree]; exact Bool.false_ne_true)
    · exact absurd ((h.taken_iff b).mpr (Or.inr hm)) (by rw [hfree]; exact Bool.false_ne_true)
  refine ⟨?_, ?_, ?_, ?_⟩
  · rw [h'.eq, h.eq, List.append_assoc]
  · intro b hb
    rw [blocksOf_append, List.mem_append] at hb
    exact hb.elim (h.free b) fun hb => (hnew b hb).1
  · intro b hb
    rw [blocksOf_append, List.mem_append] at hb
    exact hb.elim (h.lt b) fun hb => hcount ▸ h'.lt b hb
  · rw [blocksOf_append, List.nodup_append']
    exact ⟨h.nodup, h'.nodup, fun b hb hb' => (hnew b hb').2 hb⟩

end Extends

/-- One run of free blocks. -/
theorem extends_push {a : Allocator} {r : Run}
    (h : ∀ b, r.start ≤ b → b < r.start + r.len → b < a.blocksCount ∧ a.taken b = false) :
    Extends a (a.push r) [r] := by
  have hmem : ∀ b ∈ blocksOf [r], r.start ≤ b ∧ b < r.start + r.len := by
    intro b hb
    rwa [blocksOf_cons, blocksOf_nil, List.append_nil, Run.mem_blocks] at hb
  refine ⟨rfl, fun b hb => (h b (hmem b hb).1 (hmem b hb).2).2,
    fun b hb => (h b (hmem b hb).1 (hmem b hb).2).1, ?_⟩
  rw [blocksOf_cons, blocksOf_nil, List.append_nil]
  exact List.nodup_range'

namespace Allocator

variable {a : Allocator}

theorem firstTaken_none {len block : Nat} (h : a.firstTaken len block = none) :
    ∀ b, block ≤ b → b < block + len → a.taken b = false := by
  induction len generalizing block with
  | zero =>
    intro b hb hb'
    omega
  | succ len ih =>
    rw [firstTaken] at h
    split at h
    · cases h
    · next hfree =>
      intro b hb hb'
      rcases Nat.eq_or_lt_of_le hb with rfl | hlt
      · exact Bool.eq_false_iff.mpr hfree
      · exact ih h b hlt (by omega)

theorem scan_some {len fuel block b : Nat} (h : a.scan len fuel block = some b) :
    ∀ x, b ≤ x → x < b + len → x < a.blocksCount ∧ a.taken x = false := by
  induction fuel generalizing block with
  | zero => cases h
  | succ fuel ih =>
    rw [scan] at h
    split at h
    · next hin =>
      split at h
      · next hfree =>
        cases h
        exact fun x hx hx' => ⟨by omega, firstTaken_none hfree x hx hx'⟩
      · exact ih h
    · cases h

theorem extent_le (a : Allocator) (most block : Nat) : a.extent most block ≤ most := by
  induction most generalizing block with
  | zero => exact Nat.le_refl 0
  | succ most ih =>
    rw [extent]
    split
    · exact Nat.succ_le_succ (ih (block + 1))
    · exact Nat.zero_le _

theorem extent_free {most block b : Nat} (hb : block ≤ b) (h : b < block + a.extent most block) :
    b < a.blocksCount ∧ a.taken b = false := by
  induction most generalizing block with
  | zero =>
    rw [extent] at h
    omega
  | succ most ih =>
    rw [extent] at h
    split at h
    · next hfree =>
      rcases Nat.eq_or_lt_of_le hb with rfl | hlt
      · exact ⟨hfree.1, by simpa using hfree.2⟩
      · have hnext : block + 1 ≤ b := hlt
        exact ih hnext (by omega)
    · omega

theorem extent_pos {most block : Nat} (hmost : 0 < most) (hlt : block < a.blocksCount)
    (hfree : a.taken block = false) : 0 < a.extent most block := by
  obtain ⟨most, rfl⟩ := Nat.exists_eq_succ_of_ne_zero (Nat.pos_iff_ne_zero.mp hmost)
  rw [extent, if_pos ⟨hlt, by rw [hfree]; rfl⟩]
  exact Nat.succ_pos _

/-- A pass hands out non-empty runs of free blocks, and no more than it was asked for. -/
theorem gather_extends (fuel : Nat) (a : Allocator) (need block : Nat) :
    Extends a (gather fuel a need block).2 (gather fuel a need block).1 ∧
      (∀ r ∈ (gather fuel a need block).1, 0 < r.len) ∧
      total (gather fuel a need block).1 ≤ need := by
  induction fuel generalizing a need block with
  | zero => exact ⟨Extends.refl a, nofun, Nat.zero_le _⟩
  | succ fuel ih =>
    rw [gather]
    split
    · exact ⟨Extends.refl a, nofun, Nat.zero_le _⟩
    · next hgo =>
      rw [not_or, Nat.not_le] at hgo
      split
      · exact ih a need (block + 1)
      · next hfree =>
        obtain ⟨hext, hpos, htotal⟩ := ih (a.push ⟨block, a.extent need block⟩)
          (need - a.extent need block) (block + a.extent need block)
        have hle := a.extent_le need block
        refine ⟨(extends_push fun b hb hb' => extent_free hb hb').trans hext, ?_, ?_⟩
        · intro r hr
          rcases List.mem_cons.mp hr with rfl | hr
          · exact extent_pos (Nat.pos_of_ne_zero hgo.1) hgo.2 (Bool.eq_false_iff.mpr hfree)
          · exact hpos r hr
        · simp only [total, List.map_cons, List.sum_cons] at htotal ⊢
          omega

end Allocator

theorem alloc_ok {goal len block : Nat} {a a' : Allocator}
    (h : exec (alloc goal len) a = (.ok block, a')) : Extends a a' [⟨block, len⟩] := by
  obtain ⟨a0, a1, hget, hrest⟩ := exec_bind_ok h
  cases hget
  split at hrest
  · next b hscan =>
    cases hrest
    exact extends_push (scan_some hscan)
  · split at hrest
    · next b hscan =>
      cases hrest
      exact extends_push (scan_some hscan)
    · cases hrest

theorem total_append (runs runs' : List Run) : total (runs ++ runs') = total runs + total runs' := by
  rw [total, List.map_append, List.sum_append]
  rfl

/-- `alloc_runs` hands out exactly `count` blocks, in non-empty runs. -/
theorem allocRuns_ok {goal count : Nat} {runs : List Run} {a a' : Allocator}
    (h : exec (allocRuns goal count) a = (.ok runs, a')) :
    Extends a a' runs ∧ (∀ r ∈ runs, 0 < r.len) ∧ total runs = count := by
  obtain ⟨a0, a1, hget, hrest⟩ := exec_bind_ok h
  cases hget
  obtain ⟨hext, hpos, hle⟩ := Allocator.gather_extends (a.blocksCount + 1) a count goal
  generalize Allocator.gather (a.blocksCount + 1) a count goal = first at hrest hext hpos hle
  obtain ⟨runs1, b⟩ := first
  obtain ⟨_, a2, hset, hrest⟩ := exec_bind_ok hrest
  cases hset
  dsimp only at hext hpos hle hrest
  split at hrest
  · next henough =>
    cases hrest
    exact ⟨hext, hpos, Nat.le_antisymm hle henough⟩
  · obtain ⟨hext', hpos', hle'⟩ := Allocator.gather_extends (b.blocksCount + 1) b
      (count - total runs1) b.firstDataBlock
    generalize Allocator.gather (b.blocksCount + 1) b (count - total runs1) b.firstDataBlock =
      second at hrest hext' hpos' hle'
    obtain ⟨runs2, c⟩ := second
    obtain ⟨_, a3, hset, hrest⟩ := exec_bind_ok hrest
    cases hset
    dsimp only at hext' hpos' hle' hrest
    split at hrest
    · next henough =>
      cases hrest
      refine ⟨hext.trans hext', ?_, ?_⟩
      · intro r hr
        exact (List.mem_append.mp hr).elim (hpos r) (hpos' r)
      · rw [total_append] at henough ⊢
        omega
    · cases hrest

end MkfsExt4.Format
