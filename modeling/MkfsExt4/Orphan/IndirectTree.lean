/-
  Indirect block maps with the blocks they hold.

  `IndirectTree` says which blocks a pointer leads to: at depth 0 the data block it names, above it
  an indirect block and what its own pointers lead to. A walk visits these blocks
  (`walkIndirectLevel_tree`), and where one ended well there is such a tree
  (`exists_tree_of_walk`).
-/
import MkfsExt4.Orphan.ExtentTree
import MkfsExt4.Read.Pointers

namespace MkfsExt4

open Lib.Store Lib.Hoare Lib.Pruning

namespace Filesystem

/-- The entries of an indirect block that are not holes. -/
def usedEntries (perBlock : Nat) (buf : List UInt8) : List Nat :=
  (List.range perBlock).filter fun i => getU32 buf (i * 4) ≠ 0

/-- The blocks a pointer leads to, `depth` levels above the data and covering the logical blocks
    from `base`. -/
def IndirectTree (fs : Filesystem) : (depth base block : Nat) → List Held → Prop
  | 0, base, block, held => held = [{ ref := dataRef base block }]
  | depth + 1, base, block, held => ∃ buf parts, fs.readBlock block = .ok buf ∧
      List.Forall₂ (fun i part =>
        fs.IndirectTree depth (base + i * fs.perBlock ^ depth) (getU32 buf (i * 4)) part)
        (usedEntries fs.perBlock buf) parts ∧
      held = Held.node block :: parts.flatten

variable {fs : Filesystem} {depth base block : Nat} {held : List Held}

theorem mem_usedEntries {perBlock i : Nat} {buf : List UInt8} :
    i ∈ usedEntries perBlock buf ↔ i < perBlock ∧ getU32 buf (i * 4) ≠ 0 := by
  rw [usedEntries, List.mem_filter, List.mem_range, decide_eq_true_iff]

theorem pointersOf_eq (perBlock : Nat) (buf : List UInt8) : pointersOf perBlock buf =
    (usedEntries perBlock buf).map fun i => (i, getU32 buf (i * 4)) := by
  rw [pointersOf, List.filter_map]
  rfl

namespace IndirectTree

/-- The data lie within the logical blocks the tree covers. -/
theorem within (h : fs.IndirectTree depth base block held) :
    ∀ x ∈ held, ∀ n ∈ x.pos, base ≤ n ∧ n < base + fs.perBlock ^ depth := by
  induction depth generalizing base block held with
  | zero =>
    subst h
    intro x hx n hn
    obtain rfl := List.mem_singleton.mp hx
    obtain rfl := Option.some.inj hn
    exact ⟨Nat.le_refl _, Nat.lt_succ_self _⟩
  | succ depth ih =>
    obtain ⟨buf, parts, -, hparts, rfl⟩ := h
    intro x hx n hn
    rcases List.mem_cons.mp hx with rfl | hx
    · cases hn
    · obtain ⟨i, hi, part, -, hpart, hx⟩ := exists_mem_of_flatten hparts hx
      obtain ⟨hle, hlt⟩ := ih hpart x hx n hn
      have hr : n - (base + i * fs.perBlock ^ depth) < fs.perBlock ^ depth := by omega
      have := entry_lt (mem_usedEntries.mp hi).1 hr
      omega

/-- A tree is still there where none of its indirect blocks was written. -/
theorem touched {fs' : Filesystem} {blocks : List Nat} (hfs : Touches fs fs' blocks)
    (h : fs.IndirectTree depth base block held) (hother : ∀ x ∈ held, x.cell ∉ blocks) :
    fs'.IndirectTree depth base block held := by
  induction depth generalizing base block held with
  | zero => exact h
  | succ depth ih =>
    obtain ⟨buf, parts, hread, hparts, rfl⟩ := h
    refine ⟨buf, parts, (hfs.reads _ (hother _ List.mem_cons_self)).trans hread, ?_, rfl⟩
    rw [hfs.perBlock]
    exact forall₂_imp_of_subset hparts fun _ hsub hpart =>
      ih hpart fun x hx => hother x (List.mem_cons_of_mem _ (hsub hx))

end IndirectTree

/-! ## Collecting a subtree -/

theorem forall₂_of_mapM {α β : Type} {f : α → Except Failure β} {xs : List α} {ys : List β}
    (h : xs.mapM f = .ok ys) : List.Forall₂ (fun x y => f x = .ok y) xs ys := by
  induction xs generalizing ys with
  | nil =>
    obtain rfl := Except.ok.inj h
    exact .nil
  | cons x xs ih =>
    rw [List.mapM_cons] at h
    obtain ⟨y, hy, h⟩ := bind_ok h
    obtain ⟨rest, hrest, h⟩ := bind_ok h
    obtain rfl := Except.ok.inj h
    exact .cons hy (ih hrest)

/-- `collect_indirect_subtree` collects what the block leads to. -/
theorem collectIndirectSubtree_tree {freed : List Nat}
    (h : Orphan.collectIndirectSubtree fs (depth + 1) block = .ok freed)
    (htree : fs.IndirectTree (depth + 1) base block held) : freed.Perm (held.map Held.cell) := by
  induction depth generalizing base block held freed with
  | zero =>
    obtain ⟨buf, parts, hread, hparts, rfl⟩ := htree
    rw [Orphan.collectIndirectSubtree] at h
    obtain ⟨buf', hread', h⟩ := bind_ok h
    obtain rfl := Except.ok.inj (hread.symm.trans hread')
    obtain rfl := Except.ok.inj h
    rw [length_of_readBlock hread]
    refine List.Perm.cons block ?_
    rw [show fs.blockSize / 4 = fs.perBlock from rfl, pointersOf_eq, List.map_map,
      ← List.flatMap_singleton' ((usedEntries fs.perBlock buf).map _), List.flatMap_map]
    refine perm_flatten_map (hparts.imp fun i part hpart => ?_)
    subst hpart
    exact List.Perm.refl _
  | succ depth ih =>
    obtain ⟨buf, parts, hread, hparts, rfl⟩ := htree
    rw [Orphan.collectIndirectSubtree] at h
    obtain ⟨buf', hread', h⟩ := bind_ok h
    obtain rfl := Except.ok.inj (hread.symm.trans hread')
    dsimp only at h
    rw [if_neg (Nat.succ_ne_zero depth), length_of_readBlock hread] at h
    obtain ⟨below, hbelow, h⟩ := bind_ok h
    obtain rfl := Except.ok.inj h
    rw [show fs.blockSize / 4 = fs.perBlock from rfl, pointersOf_eq, List.map_map] at hbelow
    have hall := forall₂_of_mapM hbelow
    rw [← List.reverse_reverse below, List.forall₂_reverse_iff, List.forall₂_map_left_iff] at hall
    refine List.Perm.cons block ((List.reverse_perm below).flatten.symm.trans ?_)
    exact perm_flatten hall hparts fun hcollect hpart => ih hcollect hpart

/-! ## Walking -/

/-- What a walk visits, the indirect block it starts from first. -/
theorem perm_of_visits {buf : List UInt8} {visits : Nat → List BlockRef} {parts : List (List Held)}
    (hparts : List.Forall₂ (fun i part => (mapRef (getU32 buf (i * 4)) :: visits i).Perm
      (part.map Held.ref)) (usedEntries fs.perBlock buf) parts) :
    (((usedEntries fs.perBlock buf).map fun i => mapRef (getU32 buf (i * 4))) ++
      (usedEntries fs.perBlock buf).reverse.flatMap visits).Perm (parts.flatten.map Held.ref) := by
  refine List.Perm.trans (List.Perm.append_left _
    ((List.reverse_perm _).flatMap_right visits)) ?_
  exact (List.map_append_flatMap_perm _ _ _).trans (perm_flatten_map hparts)

/-- A walk that ended well went over a tree. -/
theorem exists_tree_of_walk {refs : List BlockRef}
    (h : fs.walkIndirectLevel (depth + 1) block base = (refs, .ok ())) :
    ∃ held, fs.IndirectTree (depth + 1) base block held ∧
      (mapRef block :: refs).Perm (held.map Held.ref) := by
  induction depth generalizing base block refs with
  | zero =>
    obtain ⟨buf, hread, -, hrefs, -, -⟩ := walkIndirectLevel_eq h
    refine ⟨_, ⟨buf, (usedEntries fs.perBlock buf).map fun i =>
      [{ ref := dataRef (base + i) (getU32 buf (i * 4)) }], hread, ?_, rfl⟩, ?_⟩
    · rw [List.forall₂_map_right_iff, List.forall₂_same]
      intro i _
      rw [pow_zero, Nat.mul_one]
      rfl
    · rw [hrefs rfl, pointersOf_eq, List.map_map, List.map_cons, ← List.flatMap_def,
        List.map_flatMap]
      exact List.Perm.cons _ (List.Perm.of_eq List.map_eq_flatMap)
  | succ depth ih =>
    obtain ⟨buf, hread, -, -, hrefs, hok⟩ := walkIndirectLevel_eq h
    have hne : depth + 1 ≠ 0 := Nat.succ_ne_zero depth
    rw [pointersOf_eq] at hrefs hok
    have hbelow : ∀ i ∈ usedEntries fs.perBlock buf, ∃ part,
        fs.IndirectTree (depth + 1) (base + i * fs.perBlock ^ (depth + 1)) (getU32 buf (i * 4)) part ∧
        (mapRef (getU32 buf (i * 4)) :: (fs.walkIndirectLevel (depth + 1) (getU32 buf (i * 4))
          (base + i * fs.perBlock ^ (depth + 1))).1).Perm (part.map Held.ref) :=
      fun i hi => ih (Prod.ext rfl (hok hne _ (List.mem_map_of_mem hi)))
    obtain ⟨parts, hparts⟩ := exists_forall₂ hbelow
    refine ⟨_, ⟨buf, parts, hread, hparts.imp fun _ _ h => h.1, rfl⟩, ?_⟩
    rw [hrefs hne, List.map_map, List.map_map, ← List.map_reverse, List.flatMap_map]
    exact List.Perm.cons _ (perm_of_visits (hparts.imp fun _ _ h => h.2))

/-- A walk goes over a tree. -/
theorem walkIndirectLevel_tree (h : fs.IndirectTree (depth + 1) base block held)
    (hfits : base + fs.perBlock ^ (depth + 1) < 2 ^ 64) :
    ∃ refs, fs.walkIndirectLevel (depth + 1) block base = (refs, .ok ()) ∧
      (mapRef block :: refs).Perm (held.map Held.ref) := by
  induction depth generalizing base block held with
  | zero =>
    obtain ⟨buf, parts, hread, hparts, rfl⟩ := h
    rw [pow_one] at hfits
    refine ⟨_, walkIndirectLevel_leaf hread hfits, List.Perm.cons _ ?_⟩
    rw [pointersOf_eq, List.map_map, ← List.flatMap_singleton' (List.map _ _), List.flatMap_map]
    refine perm_flatten_map (hparts.imp fun i part hpart => ?_)
    rw [pow_zero, Nat.mul_one] at hpart
    subst hpart
    exact List.Perm.refl _
  | succ depth ih =>
    obtain ⟨buf, parts, hread, hparts, rfl⟩ := h
    have hbelow : List.Forall₂ (fun i part => ∃ refs,
        fs.walkIndirectLevel (depth + 1) (getU32 buf (i * 4))
          (base + i * fs.perBlock ^ (depth + 1)) = (refs, .ok ()) ∧
        (mapRef (getU32 buf (i * 4)) :: refs).Perm (part.map Held.ref))
        (usedEntries fs.perBlock buf) parts :=
      forall₂_imp_of_subset hparts fun hi _ hpart =>
        ih hpart (entry_fits hfits (mem_usedEntries.mp hi).1)
    have hok : ∀ q ∈ pointersOf fs.perBlock buf, (fs.walkIndirectLevel (depth + 1) q.2
        (base + q.1 * fs.perBlock ^ (depth + 1))).2 = .ok () := by
      intro q hq
      rw [pointersOf_eq] at hq
      obtain ⟨i, hi, rfl⟩ := List.mem_map.mp hq
      obtain ⟨_, refs, hwalk, _⟩ := exists_part hbelow hi
      rw [hwalk]
    rw [pow_succ, Nat.mul_comm] at hfits
    refine ⟨_, walkIndirectLevel_inner hread hfits hok, ?_⟩
    rw [pointersOf_eq, List.map_map, ← List.map_reverse, List.flatMap_map]
    refine List.Perm.cons _ (perm_of_visits (hbelow.imp fun i part ⟨refs, hwalk, hperm⟩ => ?_))
    rw [hwalk]
    exact hperm

end Filesystem

end MkfsExt4
