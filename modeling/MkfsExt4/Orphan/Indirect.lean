/-
  Truncating an indirect block map (`truncate_indirect`, `truncate_indirect_block` of
  `src/orphan.rs`).

  An indirect block and `i_block` are both a row of pointers that a loop goes over, setting to zero
  those it drops. `foldlM_trims` is the rule for such a loop: if each turn leaves of the tree under
  its pointer what is before the cut, so does the loop of them all.
-/
import MkfsExt4.Orphan.IndirectTree

namespace MkfsExt4

open Lib.Store Lib.Hoare Lib.Pruning

namespace Orphan

open Filesystem

/-! ## A loop over pointers -/

section Loop

variable {τ ι : Type} (get : τ → ι → Nat) (gone : τ → List Nat)
  (tree : Filesystem → ι → Nat → List Held → Prop) (cut : Nat)

/-- A tree stands where none of its blocks was written. -/
def Frames : Prop :=
  ∀ (fs fs' : Filesystem) (blocks : List Nat) (i : ι) (p : Nat) (held : List Held),
    Touches fs fs' blocks → tree fs i p held → (∀ x ∈ held, x.cell ∉ blocks) → tree fs' i p held

/-- What is held under pointer `i`, nothing if it is a hole. -/
def Rooted (fs : Filesystem) (t : τ) (i : ι) (held : List Held) : Prop :=
  if get t i = 0 then held = [] else tree fs i (get t i) held

/-- What the turn at pointer `i`, one of `all`, does. -/
structure Turn (all : List ι) (fs fs' : Filesystem) (t t' : τ) (i : ι) (held held' : List Held)
    (more : List Nat) : Prop where
  others : ∀ j ∈ all, j ≠ i → get t' j = get t j
  rooted : Rooted get tree fs' t' i held'
  pruned : Pruned Held.pos Held.cell cut held held' more
  freed : gone t' = gone t ++ more
  touches : Touches fs fs' (held.map Held.cell)

variable {get gone tree cut} {inv : Filesystem → τ → Prop} {step : τ → ι → FsM τ}

theorem Rooted.hole {fs : Filesystem} {t : τ} {i : ι} (h : get t i = 0) :
    Rooted get tree fs t i [] := by
  unfold Rooted
  rw [if_pos h]

theorem Rooted.of_tree {fs : Filesystem} {t : τ} {i : ι} {held : List Held} (h : get t i ≠ 0)
    (htree : tree fs i (get t i) held) : Rooted get tree fs t i held := by
  unfold Rooted
  rwa [if_neg h]

theorem Rooted.tree_of_ne {fs : Filesystem} {t : τ} {i : ι} {held : List Held}
    (h : Rooted get tree fs t i held) (hne : get t i ≠ 0) : tree fs i (get t i) held := by
  unfold Rooted at h
  rwa [if_neg hne] at h

/-- What is held under a pointer that is a hole or leads to nothing past the cut. -/
theorem Rooted.keep {fs : Filesystem} {t : τ} {i : ι} {held : List Held}
    (h : Rooted get tree fs t i held)
    (hbefore : get t i ≠ 0 → tree fs i (get t i) held → ∀ x ∈ held, ∀ n ∈ x.pos, n < cut) :
    Pruned Held.pos Held.cell cut held held [] := by
  refine Pruned.keep fun x hx => ?_
  unfold Rooted at h
  split at h
  · rw [h] at hx
    exact absurd hx List.not_mem_nil
  · next hne => exact hbefore hne h x hx

theorem Rooted.congr {fs : Filesystem} {t t' : τ} {i : ι} {held : List Held}
    (h : Rooted get tree fs t i held) (heq : get t' i = get t i) :
    Rooted get tree fs t' i held := by
  unfold Rooted
  rw [heq]
  exact h

theorem Rooted.touched (hframes : Frames tree) {fs fs' : Filesystem} {t : τ} {i : ι}
    {held : List Held} {blocks : List Nat} (h : Rooted get tree fs t i held)
    (hfs : Touches fs fs' blocks) (hother : ∀ x ∈ held, x.cell ∉ blocks) :
    Rooted get tree fs' t i held := by
  unfold Rooted at h ⊢
  split
  · next hzero => rwa [if_pos hzero] at h
  · next hne =>
    rw [if_neg hne] at h
    exact hframes _ _ _ _ _ _ hfs h hother

/-- A loop over pointers of their own: where each turn leaves what is before the cut, so does the
    loop. -/
theorem foldlM_trims (hframes : Frames tree) {all is : List ι}
    (hstep : ∀ {fs fs' : Filesystem} {t t' : τ} {held : List Held}, ∀ i ∈ is, inv fs t →
      Rooted get tree fs t i held → (held.map Held.cell).Nodup →
      exec (step t i) fs = (.ok t', fs') →
      inv fs' t' ∧ ∃ held' more, Turn get gone tree cut all fs fs' t t' i held held' more)
    (hall : is ⊆ all) (hnodup : is.Nodup) {fs fs' : Filesystem} {t t' : τ} {parts : List (List Held)}
    (hinv : inv fs t) (hparts : List.Forall₂ (Rooted get tree fs t) is parts)
    (hcells : (parts.flatten.map Held.cell).Nodup)
    (hrun : exec (is.foldlM step t) fs = (.ok t', fs')) :
    ∃ parts' more, List.Forall₂ (Rooted get tree fs' t') is parts' ∧
      Pruned Held.pos Held.cell cut parts.flatten parts'.flatten more ∧
      gone t' = gone t ++ more ∧ Touches fs fs' (parts.flatten.map Held.cell) ∧ inv fs' t' ∧
      ∀ j ∈ all, j ∉ is → get t' j = get t j := by
  induction is generalizing fs t parts with
  | nil =>
    obtain ⟨rfl, rfl⟩ := exec_pure_ok hrun
    cases hparts
    exact ⟨[], [], .nil, Pruned.nil, (List.append_nil _).symm, Touches.refl _ _, hinv,
      fun _ _ _ => rfl⟩
  | cons i is ih =>
    obtain ⟨hi, hnodup⟩ := List.nodup_cons.mp hnodup
    rw [List.foldlM_cons] at hrun
    obtain ⟨t₁, fs₁, hone, hrest⟩ := exec_bind_ok hrun
    cases hparts with
    | @cons _ part _ parts hpart hparts =>
      rw [List.flatten_cons, List.map_append] at hcells
      obtain ⟨hnodup₁, hnodup₂, hapart⟩ := List.nodup_append.mp hcells
      obtain ⟨hinv₁, held', gone₁, hturn⟩ := hstep i List.mem_cons_self hinv hpart hnodup₁ hone
      -- the trees under the other pointers stand as they did
      have hrest₁ : List.Forall₂ (Rooted get tree fs₁ t₁) is parts := by
        refine forall₂_imp_of_subset hparts fun hj hsub hrooted => ?_
        refine (Rooted.touched hframes hrooted hturn.touches fun x hx hin => ?_).congr
          (hturn.others _ (hall (List.mem_cons_of_mem i hj)) fun heq => hi (heq ▸ hj))
        exact hapart _ hin _ (List.mem_map_of_mem (hsub hx)) rfl
      obtain ⟨parts', more, hparts', hpruned, hmore, htouches, hinv', hothers⟩ :=
        ih (fun j hj => hstep j (List.mem_cons_of_mem i hj)) (fun j hj =>
          hall (List.mem_cons_of_mem i hj)) hnodup hinv₁ hrest₁ hnodup₂ hrest
      refine ⟨held' :: parts', gone₁ ++ more, .cons ?_ hparts', hturn.pruned.append hpruned, ?_, ?_,
        hinv', fun j hj hnot => ?_⟩
      · refine (Rooted.touched hframes hturn.rooted htouches fun x hx hin => ?_).congr
          (hothers i (hall List.mem_cons_self) hi)
        exact hapart _ (hturn.pruned.cells_subset (List.mem_map_of_mem hx)) _ hin rfl
      · rw [hmore, hturn.freed, List.append_assoc]
      · rw [List.flatten_cons, List.map_append]
        exact (hturn.touches.mono (List.subset_append_left _ _)).trans
          (htouches.mono (List.subset_append_right _ _))
      · exact (hothers j hj fun hin => hnot (List.mem_cons_of_mem i hin)).trans
          (hturn.others j hj fun heq => hnot (heq ▸ List.mem_cons_self))

end Loop

/-! ## An indirect block -/

variable {fs fs' : Filesystem} {cut n depth base block : Nat} {held : List Held}

/-- What truncating the tree under a pointer leaves of it: nothing if it was dropped. -/
structure Trim (fs fs' : Filesystem) (cut depth base block : Nat) (drop : Bool)
    (held held' : List Held) (freed : List Nat) : Prop where
  left : if drop then held' = [] else fs'.IndirectTree depth base block held'
  pruned : Pruned Held.pos Held.cell cut held held' freed
  touches : Touches fs fs' (held.map Held.cell)

/-- What `descend` does to a tree that holds no block twice; a block that it finds empty is left to
    be freed. -/
def Trims (cut n depth : Nat) (descend : (block base : Nat) → FsM (Bool × List Nat)) : Prop :=
  ∀ {fs fs' : Filesystem} {block base : Nat} {held : List Held} {empty : Bool} {freed : List Nat},
    fs.perBlock = n → fs.IndirectTree depth base block held → (held.map Held.cell).Nodup →
    exec (descend block base) fs = (.ok (empty, freed), fs') →
    ∃ held', Trim fs fs' cut depth base block empty held held'
      (if empty then freed ++ [block] else freed)

theorem truncateChild_trim {descend : (block base : Nat) → FsM (Bool × List Nat)}
    (hdescend : depth ≠ 0 → Trims cut n depth descend) {drop : Bool} {freed : List Nat}
    (hn : fs.perBlock = n) (htree : fs.IndirectTree depth base block held)
    (hnodup : (held.map Held.cell).Nodup) (hpast : ¬ base + n ^ depth ≤ cut)
    (hrun : exec (truncateChild cut depth descend block base) fs = (.ok (drop, freed), fs')) :
    ∃ held', Trim fs fs' cut depth base block drop held held' freed := by
  have hwithin := htree.within
  unfold truncateChild at hrun
  split at hrun
  · next hzero =>
    -- data, at or past the cut
    subst hzero
    obtain ⟨heq, rfl⟩ := exec_pure_ok hrun
    obtain ⟨rfl, rfl⟩ := Prod.mk.inj heq
    rw [pow_zero] at hpast
    refine ⟨[], rfl, Pruned.drop (fun x hx m hm => ?_) ?_, Touches.refl _ _⟩
    · have := (hwithin x hx m hm).1
      omega
    · rw [show held = _ from htree]
      exact List.Perm.refl _
  · next hdepth =>
    split at hrun
    · next hcut =>
      obtain ⟨all, fs₁, hcollect, hend⟩ := exec_bind_ok hrun
      obtain ⟨hcollected, rfl⟩ := reading_ok hcollect
      obtain ⟨heq, rfl⟩ := exec_pure_ok hend
      obtain ⟨rfl, rfl⟩ := Prod.mk.inj heq
      obtain ⟨d, rfl⟩ := Nat.exists_eq_succ_of_ne_zero hdepth
      refine ⟨[], rfl, Pruned.drop (fun x hx m hm => ?_)
        (collectIndirectSubtree_tree hcollected htree), Touches.refl _ _⟩
      exact Nat.le_trans hcut (hwithin x hx m hm).1
    · obtain ⟨⟨empty, gone⟩, fs₁, hbelow, hend⟩ := exec_bind_ok hrun
      obtain ⟨heq, rfl⟩ := exec_pure_ok hend
      obtain ⟨rfl, rfl⟩ := Prod.mk.inj heq
      exact hdescend hdepth hn htree hnodup hbelow

/-- What the loop over the entries of an indirect block keeps. -/
def SlotInv (n : Nat) (buf : List UInt8) (fs : Filesystem) (t : Truncated) : Prop :=
  fs.perBlock = n ∧ t.buf.length = buf.length ∧ (t.changed = false → t.buf = buf)

/-- The tree under the `i`-th entry of an indirect block. -/
def EntryTree (n depth base : Nat) (fs : Filesystem) (i p : Nat) (held : List Held) : Prop :=
  fs.IndirectTree depth (base + i * n ^ depth) p held

theorem EntryTree.frames : Frames (EntryTree n depth base) :=
  fun _ _ _ _ _ _ hfs htree hother => IndirectTree.touched hfs htree hother

theorem truncateSlot_turn {descend : (block base : Nat) → FsM (Bool × List Nat)}
    (hdescend : depth ≠ 0 → Trims cut n depth descend) {buf : List UInt8}
    (hlen : n * 4 ≤ buf.length) {t t' : Truncated} {i : Nat} (hi : i < n)
    (hinv : SlotInv n buf fs t)
    (hrooted : Rooted (fun t i => getU32 t.buf (i * 4)) (EntryTree n depth base) fs t i held)
    (hnodup : (held.map Held.cell).Nodup)
    (hrun : exec (truncateSlot cut n depth base descend t i) fs = (.ok t', fs')) :
    SlotInv n buf fs' t' ∧ ∃ held' more, Turn (fun t i => getU32 t.buf (i * 4)) Truncated.freed
      (EntryTree n depth base) cut (List.range n) fs fs' t t' i held held' more := by
  obtain ⟨hn, hsize, hsame⟩ := hinv
  unfold truncateSlot at hrun
  dsimp only at hrun
  split at hrun
  · next hkeep =>
    obtain ⟨rfl, rfl⟩ := exec_pure_ok hrun
    refine ⟨⟨hn, hsize, hsame⟩, held, [], fun _ _ _ => rfl, hrooted,
      hrooted.keep fun hne htree x hx m hm => ?_, (List.append_nil _).symm, Touches.refl _ _⟩
    have hbefore := hkeep.resolve_left hne
    have := (IndirectTree.within htree x hx m hm).2
    rw [hn] at this
    omega
  · next hpast =>
    obtain ⟨hne, hpast⟩ := not_or.mp hpast
    obtain ⟨⟨drop, gone⟩, fs₁, hchild, hrest⟩ := exec_bind_ok hrun
    obtain ⟨held', htrim⟩ :=
      truncateChild_trim hdescend hn (Rooted.tree_of_ne hrooted hne) hnodup hpast hchild
    have hn' : fs₁.perBlock = n := htrim.touches.perBlock.trans hn
    have hleft := htrim.left
    dsimp only at hrest
    cases drop with
    | true =>
      rw [if_pos rfl] at hrest
      obtain ⟨rfl, rfl⟩ := exec_pure_ok hrest
      obtain rfl : held' = [] := hleft
      refine ⟨⟨hn', by rw [length_putU32]; exact hsize, fun h => Bool.noConfusion h⟩,
        [], gone, fun j _ hj => ?_, ?_, htrim.pruned, rfl, htrim.touches⟩
      · exact getU32_putU32_disjoint (by omega)
      · exact Rooted.hole (getU32_putU32 (by omega) (by decide))
    | false =>
      rw [if_neg Bool.false_ne_true] at hrest
      obtain ⟨rfl, rfl⟩ := exec_pure_ok hrest
      exact ⟨⟨hn', hsize, hsame⟩, held', gone, fun _ _ _ => rfl, Rooted.of_tree hne hleft,
        htrim.pruned, rfl, htrim.touches⟩

/-- The entries of an indirect block and what is held under them, holes among them. -/
theorem entries_iff {buf : List UInt8} {t : Truncated} (hbuf : t.buf = buf) :
    (∃ parts, List.Forall₂ (Rooted (fun t i => getU32 t.buf (i * 4)) (EntryTree n depth base) fs t)
      (List.range n) parts ∧ parts.flatten = held) ↔
    ∃ parts, List.Forall₂ (fun i part =>
      fs.IndirectTree depth (base + i * n ^ depth) (getU32 buf (i * 4)) part)
      (usedEntries n buf) parts ∧ parts.flatten = held := by
  subst hbuf
  exact exists_parts_iff fun i => getU32 t.buf (i * 4) = 0

/-- A block of zeroes holds no pointer. -/
theorem getU32_of_zero {buf : List UInt8} (h : buf.all (· == 0) = true) (off : Nat) :
    getU32 buf off = 0 := by
  have hzero : buf = List.replicate buf.length 0 :=
    List.eq_replicate_iff.mpr ⟨rfl, fun b hb => eq_of_beq (List.all_eq_true.mp h b hb)⟩
  rw [hzero]
  exact getU32_zeroes _ _

/-- The block itself, once its entries are gone over: freed if it is empty, written back if it has
    changed. -/
theorem truncateIndirectBlock_step
    (hdescend : depth ≠ 0 → Trims cut n depth (truncateIndirectBlock cut n depth)) :
    Trims cut n (depth + 1) (truncateIndirectBlock cut n (depth + 1)) := by
  intro fs fs' block base held empty freed hn htree hnodup hrun
  obtain ⟨buf, parts, hread, hparts, rfl⟩ := htree
  rw [List.map_cons, Held.cell_node] at hnodup
  obtain ⟨hblock, hbelow⟩ := List.nodup_cons.mp hnodup
  have hbuf := length_of_readBlock hread
  have hlen : n * 4 ≤ buf.length := by
    rw [← hn, hbuf]
    exact Nat.div_mul_le_self _ 4
  rw [truncateIndirectBlock] at hrun
  obtain ⟨buf', fs₁, hbuf', hrest⟩ := exec_bind_ok hrun
  obtain ⟨hread', rfl⟩ := reading_ok hbuf'
  obtain rfl := Except.ok.inj (hread.symm.trans hread')
  obtain ⟨t, fs₂, hloop, hend⟩ := exec_bind_ok hrest
  rw [hn] at hparts
  obtain ⟨parts₁, hparts₁, hflat₁⟩ := (entries_iff (t := { buf }) rfl).mpr ⟨parts, hparts, rfl⟩
  rw [← hflat₁] at hbelow hblock
  have hstep : ∀ {fs fs' : Filesystem} {t t' : Truncated} {held : List Held}, ∀ i ∈ List.range n,
      SlotInv n buf fs t →
      Rooted (fun t i => getU32 t.buf (i * 4)) (EntryTree n depth base) fs t i held →
      (held.map Held.cell).Nodup →
      exec (truncateSlot cut n depth base (truncateIndirectBlock cut n depth) t i) fs =
        (.ok t', fs') →
      SlotInv n buf fs' t' ∧ ∃ held' more, Turn (fun t i => getU32 t.buf (i * 4)) Truncated.freed
        (EntryTree n depth base) cut (List.range n) fs fs' t t' i held held' more :=
    fun i hi => truncateSlot_turn hdescend hlen (List.mem_range.mp hi)
  have hinv : SlotInv n buf fs₁ { buf } := ⟨hn, rfl, fun _ => rfl⟩
  obtain ⟨parts₂, more, hparts₂, hpruned, hmore, htouches, ⟨hn', hsize, hsame⟩, -⟩ :=
    foldlM_trims EntryTree.frames hstep (List.Subset.refl _) List.nodup_range hinv
      hparts₁ hbelow hloop
  rw [hflat₁] at hpruned htouches hblock
  have hmore : t.freed = more := hmore
  have hsub : (parts.flatten.map Held.cell) ⊆ (Held.node block :: parts.flatten).map Held.cell :=
    List.subset_cons_self _ _
  -- the trees left under the entries, as the block now has them
  obtain ⟨parts₃, hparts₃, hflat₃⟩ := (entries_iff rfl).mp ⟨parts₂, hparts₂, rfl⟩
  rw [← hflat₃] at hpruned
  have hapart : ∀ x ∈ parts₃.flatten, x.cell ∉ [block] := fun x hx hin =>
    hblock (hpruned.cells_subset (List.mem_map.mpr ⟨x, hx, List.mem_singleton.mp hin⟩))
  split at hend
  · next hzero =>
    obtain ⟨heq, rfl⟩ := exec_pure_ok hend
    obtain ⟨rfl, rfl⟩ := Prod.mk.inj heq
    have hnone : usedEntries n t.buf = [] :=
      List.filter_eq_nil_iff.mpr fun i _ => by rw [getU32_of_zero hzero]; decide
    rw [hnone] at hparts₃
    cases hparts₃
    rw [hmore, if_pos rfl]
    exact ⟨[], rfl, Pruned.cons_drop rfl hpruned, htouches.mono hsub⟩
  · split at hend
    · next hchanged =>
      obtain ⟨_, fs₃, hwrite, hend⟩ := exec_bind_ok hend
      obtain ⟨heq, rfl⟩ := exec_pure_ok hend
      obtain ⟨rfl, rfl⟩ := Prod.mk.inj heq
      have hsize' : t.buf.length = fs₂.blockSize := by rw [hsize, hbuf, htouches.blockSize]
      have hwritten := writeBlock_touches hsize' hwrite
      have hread₂ : fs₂.readBlock block = .ok buf := (htouches.reads block hblock).trans hread
      rw [hmore, if_neg Bool.false_ne_true]
      refine ⟨_, ⟨t.buf, parts₃, readBlock_of_written hsize' hread₂ hwrite, ?_, rfl⟩,
        Pruned.cons_keep rfl hpruned, (htouches.mono hsub).trans
          (hwritten.mono fun _ hb => List.mem_singleton.mp hb ▸ List.mem_cons_self)⟩
      rw [hwritten.perBlock, hn']
      exact forall₂_imp_of_subset hparts₃ fun _ hsub htree =>
        IndirectTree.touched hwritten htree fun x hx => hapart x (hsub hx)
    · next hchanged =>
      obtain ⟨heq, rfl⟩ := exec_pure_ok hend
      obtain ⟨rfl, rfl⟩ := Prod.mk.inj heq
      rw [hsame (Bool.eq_false_of_not_eq_true hchanged)] at hparts₃
      rw [hmore, if_neg Bool.false_ne_true]
      refine ⟨_, ⟨buf, parts₃, (htouches.reads block hblock).trans hread, ?_, rfl⟩,
        Pruned.cons_keep rfl hpruned, htouches.mono hsub⟩
      rw [hn']
      exact hparts₃

/-- An indirect block, however deep. -/
theorem truncateIndirectBlock_trims (cut n depth : Nat) :
    Trims cut n (depth + 1) (truncateIndirectBlock cut n (depth + 1)) := by
  induction depth with
  | zero => exact truncateIndirectBlock_step fun h => absurd rfl h
  | succ depth ih => exact truncateIndirectBlock_step fun _ => ih

end Orphan

end MkfsExt4
