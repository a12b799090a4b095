/-
  `BlockRuns` as a set of blocks (`src/fsck.rs`).

  The abstract state is a finite set of blocks, an insert the union with the range clipped to the
  device (`addRange`). `Refines r S` says that the runs are in order, hold exactly the blocks of
  `S` and count them. An insert keeps it (`Refines.insert`), so it holds after any sequence of
  them (`Refines.inserts`), and what the operations return is then a fact of `S`
  (`blockRuns_refine`): the parts already held and the parts of a range are listed in order.
-/
import MkfsExt4.Fsck.BlockRuns
import MkfsExt4.Lib.Runs

namespace MkfsExt4.Fsck

open Lib.Runs

namespace BlockRuns

variable {r : BlockRuns} {S : Finset ℕ}

/-- No blocks, of a device of `len`. -/
def new (len : Nat) : BlockRuns := { len }

/-- Whether a block is held: the last run that starts at or before it reaches past it. -/
def contains (r : BlockRuns) (block : Nat) : Bool :=
  match lastBefore r.runs (block + 1) with
  | some (_, e) => decide (block < e)
  | none => false

/-- Insert ranges, one after another. -/
def inserts (r : BlockRuns) (ranges : List (Nat × Nat)) : BlockRuns :=
  ranges.foldl (fun r p => (r.insert p.1 p.2).1) r

/-! ## What the operations return is in order -/

theorem contains_iff (h : Ordered r.runs) (block : Nat) :
    r.contains block = true ↔ Held r.runs block := by
  unfold contains
  constructor
  · intro hc
    split at hc
    · next s e hlast =>
      obtain ⟨hmem, hs⟩ := lastBefore_mem hlast
      exact ⟨(s, e), hmem, Nat.le_of_lt_succ hs, of_decide_eq_true hc⟩
    · cases hc
  · rintro ⟨p, hp, hs, he⟩
    rw [h.lastBefore_eq hp (Nat.lt_succ_of_le hs) he]
    exact decide_eq_true he

/-- The parts of a range that were held, as an insert returns them: in order, none empty. -/
theorem overlaps_ordered (h : Ordered r.runs) (start stop : Nat) :
    (r.insert start stop).2.Pairwise (fun p q => p.2 ≤ q.1) ∧
      ∀ p ∈ (r.insert start stop).2, p.1 < p.2 := by
  unfold insert
  dsimp only
  split_ifs with hss
  · exact ⟨List.Pairwise.nil, nofun⟩
  generalize min stop r.len = stop at hss ⊢
  -- The runs swallowed are some of those there, each cut at the end of the range.
  have hinside : ∀ rest : List (Nat × Nat), Ordered rest →
      let pieces := ((rest.filter fun p => start ≤ p.1 ∧ p.1 ≤ stop).filter
        fun p => p.1 < stop).map fun p => (p.1, min p.2 stop)
      pieces.Pairwise (fun p q => p.2 ≤ q.1) ∧ ∀ p ∈ pieces, p.1 < p.2 := by
    intro rest hrest
    refine ⟨List.pairwise_map.mpr (((hrest.apart.filter _).filter _).imp fun hpq => ?_),
      fun p hp => ?_⟩
    · exact Nat.le_trans (Nat.min_le_left _ _) (Nat.le_of_lt hpq)
    · obtain ⟨q, hq, rfl⟩ := List.mem_map.mp hp
      obtain ⟨hq, hlt⟩ := List.mem_filter.mp hq
      exact Nat.lt_min.mpr ⟨hrest.nonempty q (List.mem_of_mem_filter hq), of_decide_eq_true hlt⟩
  by_cases hreach : ∃ q ∈ r.runs, q.1 < start ∧ start ≤ q.2
  · obtain ⟨q, hq, hs, he⟩ := hreach
    rw [h.mergeBefore_reach stop hq hs he]
    obtain ⟨hpair, hne⟩ := hinside (r.runs.filter fun p => p.1 ≠ q.1) (h.filter _)
    have hfirst : ∀ p ∈ if start < q.2 then [(start, min q.2 stop)] else [],
        p = (start, min q.2 stop) ∧ start < q.2 := by
      intro p hp
      split at hp
      · next hlt => exact ⟨List.mem_singleton.mp hp, hlt⟩
      · cases hp
    refine ⟨List.pairwise_append.mpr ⟨?_, hpair, fun a ha b hb => ?_⟩, fun p hp => ?_⟩
    · split
      · exact List.pairwise_singleton _ _
      · exact List.Pairwise.nil
    · -- Of the runs that start at or after `start`, `q` ends before each other one.
      obtain ⟨rfl, -⟩ := hfirst a ha
      obtain ⟨p, hp, rfl⟩ := List.mem_map.mp hb
      obtain ⟨hp, hin⟩ := List.mem_filter.mp (List.mem_of_mem_filter hp)
      have hin := of_decide_eq_true hin
      have hmem := List.mem_of_mem_filter hp
      have hlt := h.nonempty p hmem
      have hpq : p ≠ q := by
        rintro rfl
        omega
      rcases h.apart_of_ne hmem hq hpq with h1 | h1 <;> simp only <;> omega
    · rcases List.mem_append.mp hp with hp | hp
      · obtain ⟨rfl, hlt⟩ := hfirst p hp
        simp only
        omega
      · exact hne p hp
  · rw [mergeBefore_none stop fun p hp hpq => hreach ⟨p, hp, hpq⟩]
    exact hinside r.runs h

/-- So are the held parts of a range. -/
theorem within_ordered (h : Ordered r.runs) (start stop : Nat) :
    (r.within start stop).Pairwise (fun p q => p.2 ≤ q.1) ∧
      ∀ p ∈ r.within start stop, p.1 < p.2 := by
  unfold within
  dsimp only
  refine ⟨(List.pairwise_map.mpr ((h.apart.filter _).imp fun hpq => ?_)).filter _, fun p hp => ?_⟩
  · simp only
    omega
  · exact of_decide_eq_true (List.mem_filter.mp hp).2

/-! ## Refinement -/

/-- The union with a range, clipped to the device. -/
def addRange (len : Nat) (S : Finset ℕ) (range : Nat × Nat) : Finset ℕ :=
  S ∪ Finset.Ico range.1 (min range.2 len)

/-- The runs hold the blocks of the set, and count them. -/
structure Refines (r : BlockRuns) (S : Finset ℕ) : Prop where
  ordered : Ordered r.runs
  held : ∀ b, Held r.runs b ↔ b ∈ S
  count : r.count = S.card

theorem Refines.new (len : Nat) : Refines (new len) ∅ :=
  ⟨⟨List.Pairwise.nil, nofun⟩, fun b => by simp [Held, BlockRuns.new], rfl⟩

/-- What an insert returns lists the part of the range that was held. -/
theorem Refines.expand_overlaps (h : Refines r S) (start stop : Nat) :
    expand (r.insert start stop).2 = (S ∩ Finset.Ico start (min stop r.len)).sort (· ≤ ·) := by
  refine expand_eq_sort (overlaps_ordered h.ordered start stop).1 fun b => ?_
  rw [show (∃ p ∈ (r.insert start stop).2, _) ↔ _ from held_overlaps h.ordered start stop b,
    h.held, Finset.mem_inter, Finset.mem_Ico, Nat.lt_min]

theorem insert_count (r : BlockRuns) (start stop : Nat) : (r.insert start stop).1.count =
    r.count + ((min stop r.len - start) -
      ((r.insert start stop).2.map fun p => p.2 - p.1).sum) := by
  unfold insert
  dsimp only
  split_ifs with hss
  · rw [Nat.sub_eq_zero_of_le hss, Nat.zero_sub, Nat.add_zero]
  · rfl

theorem Refines.insert (h : Refines r S) (start stop : Nat) :
    Refines (r.insert start stop).1 (addRange r.len S (start, stop)) := by
  refine ⟨ordered_insert h.ordered start stop, fun b => ?_, ?_⟩
  · rw [held_insert h.ordered, h.held, addRange, Finset.mem_union, Finset.mem_Ico, Nat.lt_min]
  have hheld := congrArg List.length (h.expand_overlaps start stop)
  rw [length_expand, Finset.length_sort] at hheld
  have hunion := Finset.card_union_add_card_inter S (Finset.Ico start (min stop r.len))
  have hpart := Finset.card_le_card
    (@Finset.inter_subset_right _ _ S (Finset.Ico start (min stop r.len)))
  rw [Nat.card_Ico] at hunion hpart
  have hadd : addRange r.len S (start, stop) = S ∪ Finset.Ico start (min stop r.len) := rfl
  rw [insert_count, hheld, h.count, hadd]
  omega

theorem Refines.inserts (h : Refines r S) (ranges : List (Nat × Nat)) :
    Refines (r.inserts ranges) (ranges.foldl (addRange r.len) S) := by
  unfold BlockRuns.inserts
  induction ranges generalizing r S with
  | nil => exact h
  | cons p ranges ih =>
    have hrest := ih (h.insert p.1 p.2)
    rwa [insert_len] at hrest

/-- Ranges added to a set: their union, clipped to the device. -/
theorem mem_foldl_addRange {len b : Nat} (ranges : List (Nat × Nat)) (S : Finset ℕ) :
    b ∈ ranges.foldl (addRange len) S ↔
      b ∈ S ∨ b < len ∧ ∃ p ∈ ranges, p.1 ≤ b ∧ b < p.2 := by
  induction ranges generalizing S with
  | nil => simp
  | cons p ranges ih =>
    rw [List.foldl_cons, ih, addRange, Finset.mem_union, Finset.mem_Ico, Nat.lt_min,
      List.exists_mem_cons_iff]
    tauto

@[simp] theorem inserts_len (r : BlockRuns) (ranges : List (Nat × Nat)) :
    (r.inserts ranges).len = r.len := by
  unfold inserts
  induction ranges generalizing r with
  | nil => rfl
  | cons p ranges ih => rw [List.foldl_cons, ih, insert_len]

/-- After any sequence of inserts the runs are in order and apart, and hold and count the union
    of the ranges, clipped to the device; the next insert returns the part of its range that is
    held, and `within` the part of any range, in order and without empty parts. -/
theorem blockRuns_refine (len : Nat) (ranges : List (Nat × Nat)) :
    let r := (new len).inserts ranges
    let S := (Finset.range len).filter fun b => ∃ p ∈ ranges, p.1 ≤ b ∧ b < p.2
    Ordered r.runs ∧ (∀ b, r.contains b = decide (b ∈ S)) ∧ r.count = S.card ∧
    (∀ start stop, expand (r.insert start stop).2 =
        (S ∩ Finset.Ico start (min stop len)).sort (· ≤ ·) ∧
      ∀ p ∈ (r.insert start stop).2, p.1 < p.2) ∧
    ∀ start stop, expand (r.within start stop) = (S ∩ Finset.Ico start stop).sort (· ≤ ·) ∧
      ∀ p ∈ r.within start stop, p.1 < p.2 := by
  intro r S
  have hS : ranges.foldl (addRange len) ∅ = S := by
    ext b
    simp only [S, mem_foldl_addRange, Finset.notMem_empty, false_or, Finset.mem_filter,
      Finset.mem_range]
  have hr : Refines r S := hS ▸ (Refines.new len).inserts ranges
  have hlen : r.len = len := inserts_len _ _
  refine ⟨hr.ordered, fun b => ?_, hr.count, fun start stop => ⟨?_, ?_⟩, fun start stop => ⟨?_, ?_⟩⟩
  · have hiff := (contains_iff hr.ordered b).trans (hr.held b)
    rw [Bool.eq_iff_iff, decide_eq_true_iff]
    exact hiff
  · rw [hr.expand_overlaps, hlen]
  · exact (overlaps_ordered hr.ordered start stop).2
  · refine expand_eq_sort (within_ordered hr.ordered start stop).1 fun b => ?_
    rw [show (∃ p ∈ r.within start stop, _) ↔ _ from held_within hr.ordered start stop b, hr.held,
      Finset.mem_inter, Finset.mem_Ico]
  · exact (within_ordered hr.ordered start stop).2

end BlockRuns

end MkfsExt4.Fsck
