/-
  In how many pieces a file lands (`alloc_runs` in `src/format.rs`).

  `supply` is the free space in the order `alloc_runs` comes to it: from the goal on, then from
  the start. The runs handed out are the maximal runs of its first blocks (`allocRuns_eq`), so
  how many there are is settled by the free space before the request.
-/
import MkfsExt4.Format.Allocations
import MkfsExt4.Format.Indirect

namespace MkfsExt4.Format

open Lib.Hoare Allocator

/-! ## Maximal runs -/

/-- Runs as few as can be: none is empty, and none goes on where the one before it ends. -/
def Maximal : List Run → Prop
  | [] => True
  | r :: runs => 0 < r.len ∧ (∀ s ∈ runs.head?, r.start + r.len ≠ s.start) ∧ Maximal runs

theorem addBlock_apart {runs : List Run} {block : Nat}
    (h : ∀ last ∈ runs.getLast?, last.start + last.len ≠ block) :
    addBlock runs block = runs ++ [⟨block, 1⟩] := by
  unfold addBlock
  split
  · next last hlast => exact if_neg (h last hlast)
  · next hnone =>
    rw [List.getLast?_eq_none_iff.mp hnone]
    rfl

/-- A run, block by block, becomes a run again. -/
theorem foldl_addBlock_run {runs : List Run} {start : Nat}
    (h : ∀ last ∈ runs.getLast?, last.start + last.len ≠ start) (n : Nat) :
    (List.range' start (n + 1)).foldl addBlock runs = runs ++ [⟨start, n + 1⟩] := by
  induction n with
  | zero => exact addBlock_apart h
  | succ n ih =>
    rw [List.range'_concat, List.foldl_append, ih, Nat.one_mul]
    show addBlock (runs ++ [⟨start, n + 1⟩]) (start + (n + 1)) = _
    rw [addBlock, List.getLast?_concat]
    dsimp only
    rw [if_pos rfl, List.dropLast_concat]

theorem foldl_addBlock_maximal {before runs : List Run} (h : Maximal runs)
    (hapart : ∀ last ∈ before.getLast?, ∀ s ∈ runs.head?, last.start + last.len ≠ s.start) :
    (blocksOf runs).foldl addBlock before = before ++ runs := by
  induction runs generalizing before with
  | nil => exact (List.append_nil before).symm
  | cons r runs ih =>
    obtain ⟨hpos, hnext, hrest⟩ := h
    obtain ⟨n, hn⟩ := Nat.exists_eq_succ_of_ne_zero (Nat.ne_of_gt hpos)
    have hrun := foldl_addBlock_run (fun last hlast => hapart last hlast r rfl) n
    have hr : Run.mk r.start (n + 1) = r := by rw [← Nat.succ_eq_add_one, ← hn]
    rw [hr] at hrun
    rw [blocksOf_cons, List.foldl_append, Run.blocks, hn, Nat.succ_eq_add_one, hrun,
      ih hrest ?_, List.append_assoc]
    · rfl
    · intro last hlast s hs
      rw [List.getLast?_concat] at hlast
      cases hlast
      exact hnext s hs

/-- Maximal runs are the runs their blocks fall into. -/
theorem runsOf_blocksOf {runs : List Run} (h : Maximal runs) : runsOf (blocksOf runs) = runs :=
  foldl_addBlock_maximal h nofun

theorem Maximal.append {runs more : List Run} (h : Maximal runs) (hmore : Maximal more)
    (hapart : ∀ r ∈ runs, ∀ s ∈ more, r.start + r.len ≠ s.start) : Maximal (runs ++ more) := by
  induction runs with
  | nil => exact hmore
  | cons r runs ih =>
    obtain ⟨hpos, hnext, hrest⟩ := h
    refine ⟨hpos, fun s hs => ?_, ih hrest fun q hq => hapart q (List.mem_cons_of_mem r hq)⟩
    cases runs with
    | nil => exact hapart r List.mem_cons_self s (List.mem_of_mem_head? hs)
    | cons q runs => exact hnext s hs

/-! ## The free space -/

namespace Allocator

variable (a : Allocator)

def free (block : Nat) : Bool := !a.taken block

/-- The free blocks from `low` on, below `high`. -/
def freeBetween (low high : Nat) : List Nat := (List.range' low (high - low)).filter a.free

/-- The free blocks in the order `alloc_runs` comes to them. -/
def supply (goal : Nat) : List Nat :=
  a.freeBetween goal a.blocksCount ++ a.freeBetween a.firstDataBlock (min goal a.blocksCount)

variable {a}

theorem freeBetween_of_le {low high : Nat} (h : high ≤ low) : a.freeBetween low high = [] := by
  rw [freeBetween, Nat.sub_eq_zero_of_le h]
  rfl

theorem mem_freeBetween {low high b : Nat} :
    b ∈ a.freeBetween low high ↔ low ≤ b ∧ b < high ∧ a.taken b = false := by
  rw [freeBetween, List.mem_filter, List.mem_range'_1, free, Bool.not_eq_true']
  constructor
  · rintro ⟨⟨hlow, hhigh⟩, hfree⟩
    exact ⟨hlow, by omega, hfree⟩
  · rintro ⟨hlow, hhigh, hfree⟩
    exact ⟨⟨hlow, by omega⟩, hfree⟩

theorem freeBetween_split {low mid high : Nat} (hlow : low ≤ mid) (hhigh : mid ≤ high) :
    a.freeBetween low high = a.freeBetween low mid ++ a.freeBetween mid high := by
  have hlen : high - low = (mid - low) + (high - mid) := by omega
  rw [freeBetween, hlen, ← List.range'_append_1, List.filter_append, Nat.add_sub_cancel' hlow]
  rfl

/-- Blocks that are all free, or all taken, stand for themselves or for nothing. -/
theorem freeBetween_all {low high : Nat} (h : ∀ b, low ≤ b → b < high → a.taken b = false) :
    a.freeBetween low high = List.range' low (high - low) := by
  refine List.filter_eq_self.mpr fun b hb => ?_
  rw [List.mem_range'_1] at hb
  rw [free, h b hb.1 (by omega)]
  rfl

theorem freeBetween_none {low high : Nat} (h : ∀ b, low ≤ b → b < high → a.taken b = true) :
    a.freeBetween low high = [] := by
  refine List.filter_eq_nil_iff.mpr fun b hb => ?_
  rw [List.mem_range'_1] at hb
  rw [free, h b hb.1 (by omega)]
  decide

theorem freeBetween_congr {a' : Allocator} {low high : Nat}
    (h : ∀ b, low ≤ b → b < high → a'.taken b = a.taken b) :
    a'.freeBetween low high = a.freeBetween low high := by
  refine List.filter_congr fun b hb => ?_
  rw [List.mem_range'_1] at hb
  rw [free, free, h b hb.1 (by omega)]

/-- An extent ends where it was to, at the end of the filesystem or at a taken block. -/
theorem extent_stops {most block : Nat} (h : a.extent most block < most) :
    a.blocksCount ≤ block + a.extent most block ∨
      a.taken (block + a.extent most block) = true := by
  induction most generalizing block with
  | zero => cases h
  | succ most ih =>
    rw [extent] at h ⊢
    split at h
    · next hin =>
      rw [if_pos hin]
      have hnext := ih (Nat.lt_of_succ_lt_succ h)
      rwa [Nat.add_right_comm, Nat.add_assoc] at hnext
    · next hout =>
      rw [if_neg hout]
      rw [not_and_or, Nat.not_lt] at hout
      exact hout.imp id fun ht => by simpa using ht

/-- One pass hands out the first `need` free blocks, in maximal runs. -/
theorem gather_eq {fuel need block : Nat} (hfuel : a.blocksCount < fuel + block) :
    blocksOf (gather fuel a need block).1 = (a.freeBetween block a.blocksCount).take need ∧
      Maximal (gather fuel a need block).1 := by
  induction fuel generalizing a need block with
  | zero =>
    rw [gather, freeBetween_of_le (by omega)]
    exact ⟨List.take_nil.symm, trivial⟩
  | succ fuel ih =>
    rw [gather]
    split
    · next hstop =>
      refine ⟨?_, trivial⟩
      rcases hstop with rfl | hend
      · exact List.take_zero.symm
      · rw [freeBetween_of_le hend]
        exact List.take_nil.symm
    · next hgo =>
      rw [not_or, Nat.not_le] at hgo
      split
      · next htaken =>
        rw [freeBetween_split (Nat.le_succ block) hgo.2, freeBetween_none fun b hlow hhigh => by
          rwa [show b = block by omega]]
        exact ih (by omega)
      · next hfree =>
        have hfree := Bool.eq_false_iff.mpr hfree
        have hpos := extent_pos (Nat.pos_of_ne_zero hgo.1) hgo.2 hfree
        have hle := a.extent_le need block
        have hrun : ∀ b, block ≤ b → b < block + a.extent need block → b < a.blocksCount ∧
            a.taken b = false := fun b => extent_free
        have hend : block + a.extent need block ≤ a.blocksCount := by
          have := (hrun (block + a.extent need block - 1) (by omega) (by omega)).1
          omega
        have hext := @extends_push a ⟨block, a.extent need block⟩ hrun
        obtain ⟨hblocks, hmax⟩ := @ih (a.push ⟨block, a.extent need block⟩)
          (need - a.extent need block) (block + a.extent need block) (by
            show a.blocksCount < _
            omega)
        have hrest : (a.push ⟨block, a.extent need block⟩).freeBetween (block + a.extent need block)
            a.blocksCount = a.freeBetween (block + a.extent need block) a.blocksCount := by
          refine freeBetween_congr fun b hlow _ => ?_
          rw [Bool.eq_iff_iff, hext.taken_iff, or_iff_left]
          rw [blocksOf_cons, blocksOf_nil, List.append_nil, Run.mem_blocks]
          exact fun hin => Nat.not_lt.mpr hlow hin.2
        refine ⟨?_, hpos, fun s hs heq => ?_, hmax⟩
        · rw [freeBetween_split (Nat.le_add_right block (a.extent need block)) hend,
            freeBetween_all fun b hlow hhigh => (hrun b hlow hhigh).2, Nat.add_sub_cancel_left,
            List.take_append, List.length_range', List.take_of_length_le (by
              rw [List.length_range']
              exact hle)]
          exact congrArg _ (hblocks.trans (by rw [← hrest]; rfl))
        · -- The run that follows would start where this one could have gone on.
          have hmem : s.start ∈ blocksOf (gather fuel (a.push ⟨block, a.extent need block⟩)
              (need - a.extent need block) (block + a.extent need block)).1 := by
            have hin := List.mem_of_mem_head? hs
            have hlen := (gather_extends fuel _ _ _).2.1 s hin
            exact mem_blocksOf.mpr ⟨s, hin, Run.mem_blocks.mpr ⟨Nat.le_refl _, by omega⟩⟩
          rw [hblocks] at hmem
          have hneed : 0 < need - a.extent need block := by
            rcases Nat.eq_zero_or_pos (need - a.extent need block) with h0 | hlt
            · rw [h0, List.take_zero] at hmem
              cases hmem
            · exact hlt
          have hin := List.mem_of_mem_take hmem
          change s.start ∈ (a.push _).freeBetween _ a.blocksCount at hin
          rw [hrest, ← heq, mem_freeBetween] at hin
          rcases @extent_stops a need block (by omega) with hout | htaken
          · omega
          · rw [hin.2.2] at htaken
            cases htaken

end Allocator

/-- What `alloc_runs` hands out are the maximal runs of the first `count` blocks of the free
space. -/
theorem allocRuns_eq {goal count : Nat} {runs : List Run} {a a' : Allocator}
    (h : exec (allocRuns goal count) a = (.ok runs, a')) :
    runs = runsOf ((a.supply goal).take count) ∧ count ≤ (a.supply goal).length := by
  obtain ⟨hext, hpos, htotal⟩ := allocRuns_ok h
  suffices hmain : blocksOf runs = (a.supply goal).take count ∧ Maximal runs by
    refine ⟨by rw [← hmain.1, runsOf_blocksOf hmain.2], ?_⟩
    have hlen := congrArg List.length hmain.1
    rw [length_blocksOf, htotal, List.length_take] at hlen
    omega
  obtain ⟨a0, a1, hget, hrest⟩ := exec_bind_ok h
  cases hget
  obtain ⟨hfirst, hmax⟩ := @gather_eq a (a.blocksCount + 1) count goal (by omega)
  have hext1 := (gather_extends (a.blocksCount + 1) a count goal).1
  have hexhaust := @gather_exhausts a (a.blocksCount + 1) count goal
  have hge := @gather_ge a (a.blocksCount + 1) count goal
  generalize gather (a.blocksCount + 1) a count goal = first at hrest hfirst hmax hext1 hexhaust hge
  obtain ⟨runs1, b⟩ := first
  obtain ⟨_, a2, hset, hrest⟩ := exec_bind_ok hrest
  cases hset
  dsimp only at hfirst hmax hext1 hexhaust hge hrest
  have hlen1 := congrArg List.length hfirst
  rw [length_blocksOf, List.length_take] at hlen1
  split at hrest
  · next henough =>
    cases hrest
    refine ⟨?_, hmax⟩
    rw [hfirst, Allocator.supply, List.take_append_of_le_length (by omega)]
  · next hshort =>
    have hcount : b.blocksCount = a.blocksCount := by rw [hext1.eq]
    have hfirstBlock : b.firstDataBlock = a.firstDataBlock := by rw [hext1.eq]
    obtain ⟨hsecond, hmax2⟩ := @gather_eq b (b.blocksCount + 1) (count - total runs1)
      b.firstDataBlock (by omega)
    have hext2 := (gather_extends (b.blocksCount + 1) b (count - total runs1) b.firstDataBlock).1
    generalize gather (b.blocksCount + 1) b (count - total runs1) b.firstDataBlock = second
      at hrest hsecond hmax2 hext2
    obtain ⟨runs2, c⟩ := second
    obtain ⟨_, a3, hset, hrest⟩ := exec_bind_ok hrest
    cases hset
    dsimp only at hsecond hmax2 hext2 hrest
    split at hrest
    · cases hrest
      -- The first pass took all there is from the goal on, and nothing before it.
      have htaken : ∀ x, goal ≤ x → x < a.blocksCount → b.taken x = true :=
        fun x hlow hhigh => hexhaust (by omega) (by omega) hlow hhigh
      have hbefore : ∀ x, x < goal → b.taken x = a.taken x := by
        intro x hx
        rw [Bool.eq_iff_iff, hext1.taken_iff, or_iff_left]
        intro hin
        obtain ⟨r, hr, hmem⟩ := mem_blocksOf.mp hin
        have hlow := (Run.mem_blocks.mp hmem).1
        have := hge r hr
        omega
      have hleft : b.freeBetween b.firstDataBlock b.blocksCount =
          a.freeBetween a.firstDataBlock (min goal a.blocksCount) := by
        rw [hcount, hfirstBlock]
        rcases Nat.lt_or_ge (min goal a.blocksCount) a.firstDataBlock with hout | hin
        · rw [Allocator.freeBetween_of_le (Nat.le_of_lt hout)]
          exact Allocator.freeBetween_none fun x hlow hhigh => htaken x (by omega) hhigh
        · rw [Allocator.freeBetween_split hin (Nat.min_le_right _ _),
            Allocator.freeBetween_congr fun x _ hhigh => hbefore x (by omega),
            Allocator.freeBetween_none fun x hlow hhigh => htaken x (by omega) hhigh, List.append_nil]
      have hall : blocksOf runs1 = a.freeBetween goal a.blocksCount := by
        rw [hfirst, List.take_of_length_le (by omega)]
      refine ⟨?_, hmax.append hmax2 fun r hr s hs heq => ?_⟩
      · have hkept : (blocksOf runs1).take count = blocksOf runs1 :=
          List.take_of_length_le (by rw [length_blocksOf]; omega)
        rw [blocksOf_append, hsecond, hleft, Allocator.supply, List.take_append, ← hall, hkept,
          length_blocksOf]
      · have hlow := hge r hr
        have hlen := (allocRuns_ok h).2.1 s (List.mem_append_right _ hs)
        have hmem : s.start ∈ blocksOf runs2 :=
          mem_blocksOf.mpr ⟨s, hs, Run.mem_blocks.mpr ⟨Nat.le_refl _, by omega⟩⟩
        rw [hsecond, hleft] at hmem
        have := (Allocator.mem_freeBetween.mp (List.mem_of_mem_take hmem)).2.1
        omega
    · cases hrest

end MkfsExt4.Format
