/-
  Where `resolve_block` (`src/fs.rs`) follows what it should not.

  It looks at `has_block_map` and not at `INLINE_DATA`, which `walk_blocks` looks at first:
  `resolveBlock_none_iff` says which inodes without blocks it takes for block maps. And it
  descends an extent tree without the two checks of the walk: `resolveBlock_settles_iff` says on
  which trees it comes to an answer. `Overruns` is a node whose entries go on past its buffer,
  `below` the step from a node to the next, which may lead round in a circle. Of an indirect map
  it computes what the trees span in 64 bits (`SpanOverflows`).
-/
import MkfsExt4.Lib.Descent
import MkfsExt4.Read.Files

namespace MkfsExt4

open Lib.Store Lib.Hoare Lib.Intervals Lib.Descent Relation

namespace Filesystem

/-! ## Inodes without blocks -/

/-- A pointer in the first slot of a block map is followed, and an extent map has to start with a
header. -/
theorem resolveBlock_some_map (fs : Filesystem) {inode : Inode} (hmap : inode.hasBlockMap = true) :
    ∃ block : List UInt8, block.length = iBlockLen ∧
      fs.resolveBlock { inode with block } 0 ≠ .ok none := by
  have hmap' : ∀ block, ({ inode with block } : Inode).hasBlockMap = true := fun _ => hmap
  have hext' : ∀ block, ({ inode with block } : Inode).usesExtents = inode.usesExtents :=
    fun _ => rfl
  refine ⟨1 :: List.replicate 59 0, rfl, ?_⟩
  rw [resolveBlock, hmap', hext']
  cases hext : inode.usesExtents with
  | true =>
    intro h
    rw [resolveExtent, resolveNode] at h
    obtain ⟨header, hheader, -⟩ := bind_ok h
    have hnone : (ExtentHeader.decode (1 :: List.replicate 59 0)).isOk = false := by decide
    rw [returned_ok hheader] at hnone
    cases hnone
  | false =>
    have hpointers : ({ inode with block := 1 :: List.replicate 59 0 } : Inode).blockPointers =
        1 :: List.replicate 14 0 := by
      show getU32s (1 :: List.replicate 59 0) 0 nBlocks = _
      decide
    rw [hpointers]
    intro h
    cases Except.ok.inj h

/-- An inode that `walk_blocks` takes to own no blocks resolves to none whatever its `i_block`
holds, unless it is inline data in a file of a kind that has block maps. -/
theorem resolveBlock_none_iff (fs : Filesystem) (inode : Inode) :
    ((inode.inlineData = true ∨ inode.hasBlockMap = false) →
      ∀ block : List UInt8, block.length = iBlockLen → ∀ logical,
        fs.resolveBlock { inode with block } logical = .ok none) ↔
      (inode.inlineData = true → inode.hasBlockMap = false) := by
  constructor
  · intro hnone hinline
    by_contra hmap
    obtain ⟨block, hlen, hsome⟩ := fs.resolveBlock_some_map (Bool.not_eq_false _ ▸ hmap)
    exact hsome (hnone (Or.inl hinline) block hlen 0)
  · intro hinline hno block _ logical
    have hmap : ({ inode with block } : Inode).hasBlockMap = false := hno.elim hinline id
    rw [resolveBlock, hmap]
    rfl

/-! ## A search past the end of a node -/

/-- How many entries a node's buffer has room for. -/
def roomIn (node : List UInt8) : Nat := (node.length - Extent.headerLen) / Extent.entryLen

theorem nodeEntry_eq (node : List UInt8) (i : Nat) : nodeEntry node i =
    if i < roomIn node then .ok (Extent.entry node i) else .error .panicked := by
  have hroom : i < roomIn node ↔
      ¬ node.length < Extent.headerLen + i * Extent.entryLen + Extent.entryLen := by
    have hle := Nat.le_div_iff_mul_le (k := Extent.entryLen) (x := i + 1)
      (y := node.length - Extent.headerLen) (by decide)
    rw [Nat.succ_mul] at hle
    unfold roomIn
    simp only [Extent.headerLen, Extent.entryLen] at hle ⊢
    omega
  unfold nodeEntry panicIf
  by_cases hi : i < roomIn node
  · rw [if_pos hi, if_neg (hroom.mp hi)]
    rfl
  · rw [if_neg hi, if_pos (not_not.mp fun hno => hi (hroom.mpr hno))]
    rfl

variable {node : List UInt8} {logical : Nat}

/-- A search for an extent ends at the one that covers the block, or at the end of the buffer,
or at the end of the entries claimed. -/
theorem findExtent_cases (node : List UInt8) (logical count i : Nat) :
    let seen := (List.range' i (min count (roomIn node - i))).map fun i =>
      Extent.decode (Extent.entry node i)
    findExtent node logical count i =
      match seen.find? (covers Extent.block Extent.effectiveLen logical) with
      | some ext => .ok (some (physicalOf logical ext))
      | none => if min count (roomIn node - i) < count then .error .panicked else .ok none := by
  induction count generalizing i with
  | zero => simp [findExtent]
  | succ count ih =>
    dsimp only at ih ⊢
    rw [findExtent, nodeEntry_eq]
    by_cases hi : i < roomIn node
    · have hmin : min (count + 1) (roomIn node - i) =
          min count (roomIn node - (i + 1)) + 1 := by omega
      rw [if_pos hi, hmin, List.range'_succ, List.map_cons, List.find?_cons]
      show (if _ then _ else _) = _
      by_cases hin : covers Extent.block Extent.effectiveLen logical
          (Extent.decode (Extent.entry node i)) = true
      · rw [hin, if_pos (of_decide_eq_true hin)]
        rfl
      · rw [Bool.not_eq_true] at hin
        rw [hin, if_neg (of_decide_eq_false hin), ih]
        simp only [Nat.add_lt_add_iff_right]
    · rw [if_neg hi, show roomIn node - i = 0 by omega, Nat.min_zero]
      simp only [List.range'_zero, List.map_nil, List.find?_nil, Nat.zero_lt_succ, if_true]
      rfl

/-- A search for an index ends before the first that starts past the block, or likewise. -/
theorem findIndex_cases (node : List UInt8) (logical count i : Nat) (next : Option Nat) :
    let seen := (List.range' i (min count (roomIn node - i))).map fun i =>
      ExtentIdx.decode (Extent.entry node i)
    findIndex node logical count i next =
      if (∀ idx ∈ seen, idx.block ≤ logical) ∧ min count (roomIn node - i) < count then
        .error .panicked
      else .ok ((((seen.takeWhile fun idx => decide (idx.block ≤ logical)).getLast?).map
        ExtentIdx.leaf).or next) := by
  induction count generalizing i next with
  | zero => simp [findIndex]
  | succ count ih =>
    dsimp only at ih ⊢
    rw [findIndex, nodeEntry_eq]
    by_cases hi : i < roomIn node
    · have hmin : min (count + 1) (roomIn node - i) =
          min count (roomIn node - (i + 1)) + 1 := by omega
      rw [if_pos hi, hmin, List.range'_succ, List.map_cons]
      show (if _ then _ else _) = _
      by_cases hle : (ExtentIdx.decode (Extent.entry node i)).block ≤ logical
      · rw [if_pos hle, ih, List.takeWhile_cons_of_pos (by simpa using hle), List.getLast?_cons]
        simp only [List.forall_mem_cons, hle, true_and, Nat.add_lt_add_iff_right]
        refine if_congr Iff.rfl rfl ?_
        generalize (List.takeWhile _ _).getLast? = last
        cases last <;> rfl
      · rw [if_neg hle, List.takeWhile_cons_of_neg (by simpa using hle), if_neg]
        · rfl
        · exact fun hall => hle (hall.1 _ List.mem_cons_self)
    · rw [if_neg hi, show roomIn node - i = 0 by omega, Nat.min_zero, List.range'_zero,
        List.map_nil, if_pos ⟨fun _ hidx => absurd hidx List.not_mem_nil, Nat.zero_lt_succ _⟩]
      rfl

/-- A node claims more entries than its buffer holds, and none of those it holds ends the
search for a logical block. -/
def Overruns (logical : Nat) (node : List UInt8) : Prop :=
  ∃ header, ExtentHeader.decode node = .ok header ∧ roomIn node < header.entries ∧
    if header.depth = 0 then
      ∀ ext ∈ extentsIn node (roomIn node), covers Extent.block Extent.effectiveLen logical ext = false
    else ∀ idx ∈ indicesIn node (roomIn node), idx.block ≤ logical

/-- The index a search for a logical block goes down, as far as the buffer goes. -/
def followed (logical : Nat) (node : List UInt8) : Option ExtentIdx :=
  match ExtentHeader.decode node with
  | .error _ => none
  | .ok header =>
    if header.depth = 0 then none
    else ((indicesIn node (min header.entries (roomIn node))).takeWhile
      fun idx => decide (idx.block ≤ logical)).getLast?

/-- A block that passes for one of the filesystem, and whose byte offset overflows. -/
def TooFar (fs : Filesystem) (block : Nat) : Prop :=
  block < fs.superblock.blocksCount ∧ 2 ^ 64 ≤ block * fs.blockSize

theorem readBlock_of_tooFar {fs : Filesystem} {block : Nat} (h : fs.TooFar block) :
    fs.readBlock block = .error .panicked := by
  unfold readBlock readAtBlock blockOffset
  dsimp only
  rw [if_neg (Nat.not_le.mpr h.1), if_neg (Nat.not_lt.mpr h.2)]
  rfl

theorem readBlock_returned {fs : Filesystem} {block : Nat} (h : ¬ fs.TooFar block) :
    ∃ r, fs.readBlock block = returned r := by
  unfold readBlock readAtBlock blockOffset
  dsimp only
  split
  · exact ⟨.error _, rfl⟩
  · next hcount =>
    rw [if_pos (Nat.not_le.mp fun hoff => h ⟨Nat.not_le.mp hcount, hoff⟩)]
    exact ⟨_, rfl⟩

theorem returned_settles {α : Type} (r : Except Error α) :
    returned r ≠ .error .panicked ∧ returned r ≠ .error .looping := by
  cases r <;> exact ⟨nofun, nofun⟩

/-- A node that decodes: what its search does. -/
theorem resolveNode_of_header (fs : Filesystem) (logical fuel : Nat) {node : List UInt8}
    {header : ExtentHeader} (h : ExtentHeader.decode node = .ok header) :
    fs.resolveNode logical (fuel + 1) node =
      if header.depth = 0 then findExtent node logical header.entries 0
      else findIndex node logical header.entries 0 none >>= fun next =>
        match next with
        | none => .ok none
        | some child => fs.readBlock child >>= fun bytes => fs.resolveNode logical fuel bytes := by
  rw [resolveNode, h]
  rfl

theorem overruns_iff {header : ExtentHeader} (h : ExtentHeader.decode node = .ok header) :
    Overruns logical node ↔ roomIn node < header.entries ∧ if header.depth = 0 then
      ∀ ext ∈ extentsIn node (roomIn node),
        covers Extent.block Extent.effectiveLen logical ext = false
      else ∀ idx ∈ indicesIn node (roomIn node), idx.block ≤ logical := by
  unfold Overruns
  rw [h]
  exact ⟨fun ⟨_, hheader, hrest⟩ => Except.ok.inj hheader ▸ hrest,
    fun hrest => ⟨header, rfl, hrest⟩⟩

theorem findExtent_whole (node : List UInt8) (logical n : Nat) : findExtent node logical n 0 =
    match (extentsIn node (min n (roomIn node))).find?
      (covers Extent.block Extent.effectiveLen logical) with
    | some ext => .ok (some (physicalOf logical ext))
    | none => if roomIn node < n then .error .panicked else .ok none := by
  have hclipped : min n (roomIn node) < n ↔ roomIn node < n := by omega
  have hfind := findExtent_cases node logical n 0
  simp only [Nat.sub_zero, hclipped, ← List.range_eq_range'] at hfind
  exact hfind

theorem findIndex_whole (node : List UInt8) (logical n : Nat) : findIndex node logical n 0 none =
    if (∀ idx ∈ indicesIn node (min n (roomIn node)), idx.block ≤ logical) ∧ roomIn node < n then
      .error .panicked
    else .ok ((((indicesIn node (min n (roomIn node))).takeWhile
      fun idx => decide (idx.block ≤ logical)).getLast?).map ExtentIdx.leaf) := by
  have hclipped : min n (roomIn node) < n ↔ roomIn node < n := by omega
  have hfind := findIndex_cases node logical n 0 none
  simp only [Nat.sub_zero, hclipped, ← List.range_eq_range', Option.or_none] at hfind
  exact hfind

/-- A search of a node: it runs past the buffer, or it answers by itself, or it goes on in the
block of an index. -/
theorem resolveNode_cases (fs : Filesystem) (logical fuel : Nat) (node : List UInt8) :
    (Overruns logical node ∧ fs.resolveNode logical (fuel + 1) node = .error .panicked) ∨
    (¬ Overruns logical node ∧ followed logical node = none ∧
      ∃ r, fs.resolveNode logical (fuel + 1) node = returned r) ∨
    ∃ idx, ¬ Overruns logical node ∧ followed logical node = some idx ∧
      fs.resolveNode logical (fuel + 1) node =
        (fs.readBlock idx.leaf >>= fun child => fs.resolveNode logical fuel child) := by
  cases hdec : ExtentHeader.decode node with
  | error e =>
    refine Or.inr (Or.inl ⟨?_, by rw [followed, hdec], .error e, by rw [resolveNode, hdec]; rfl⟩)
    rintro ⟨header, hheader, -⟩
    rw [hdec] at hheader
    cases hheader
  | ok header =>
    have hmin : roomIn node < header.entries → min header.entries (roomIn node) = roomIn node :=
      fun h => Nat.min_eq_right (Nat.le_of_lt h)
    rw [overruns_iff hdec, resolveNode_of_header fs logical fuel hdec, findExtent_whole,
      findIndex_whole]
    unfold followed
    rw [hdec]
    by_cases hdepth : header.depth = 0
    · simp only [if_pos hdepth]
      cases hfind : (extentsIn node (min header.entries (roomIn node))).find?
          (covers Extent.block Extent.effectiveLen logical) with
      | some ext =>
        refine Or.inr (Or.inl ⟨fun hover => ?_, trivial, .ok (some (physicalOf logical ext)), rfl⟩)
        rw [hmin hover.1] at hfind
        have hcov := List.find?_some hfind
        rw [hover.2 ext (List.mem_of_find?_eq_some hfind)] at hcov
        cases hcov
      | none =>
        have hnone := List.find?_eq_none.mp hfind
        by_cases hroom : roomIn node < header.entries
        · rw [hmin hroom] at hnone
          exact Or.inl ⟨⟨hroom, fun ext hext => Bool.eq_false_iff.mpr (hnone ext hext)⟩,
            if_pos hroom⟩
        · exact Or.inr (Or.inl ⟨fun hover => hroom hover.1, trivial, .ok none, if_neg hroom⟩)
    · simp only [if_neg hdepth]
      by_cases hover : (∀ idx ∈ indicesIn node (min header.entries (roomIn node)),
          idx.block ≤ logical) ∧ roomIn node < header.entries
      · rw [if_pos hover]
        rw [hmin hover.2] at hover
        exact Or.inl ⟨⟨hover.2, hover.1⟩, rfl⟩
      · rw [if_neg hover]
        have hno : ¬ (roomIn node < header.entries ∧
            ∀ idx ∈ indicesIn node (roomIn node), idx.block ≤ logical) := by
          rintro ⟨hroom, hall⟩
          rw [hmin hroom] at hover
          exact hover ⟨hall, hroom⟩
        cases ((indicesIn node (min header.entries (roomIn node))).takeWhile
            fun idx => decide (idx.block ≤ logical)).getLast? with
        | none => exact Or.inr (Or.inl ⟨hno, rfl, .ok none, rfl⟩)
        | some idx => exact Or.inr (Or.inr ⟨idx, hno, rfl, rfl⟩)

/-! ## The descent -/

open Classical in
/-- The node a search goes on in. -/
noncomputable def below (fs : Filesystem) (logical : Nat) (node : List UInt8) :
    Option (List UInt8) :=
  if Overruns logical node then none
  else (followed logical node).bind fun idx => (fs.readBlock idx.leaf).toOption

/-- A search stops at a node without an answer: it runs past the buffer, or the block it goes on
in is too far to address. -/
def Breaks (fs : Filesystem) (logical : Nat) (node : List UInt8) : Prop :=
  Overruns logical node ∨ ∃ idx, followed logical node = some idx ∧ fs.TooFar idx.leaf

theorem below_of_overruns {fs : Filesystem} (h : Overruns logical node) :
    fs.below logical node = none := if_pos h

theorem below_of_not {fs : Filesystem} (h : ¬ Overruns logical node) : fs.below logical node =
    (followed logical node).bind fun idx => (fs.readBlock idx.leaf).toOption := if_neg h

/-- A search of a node answers, or breaks, or goes on below. -/
theorem resolveNode_step (fs : Filesystem) (logical fuel : Nat) (node : List UInt8) :
    (fs.below logical node = none ∧ fs.Breaks logical node ∧
      fs.resolveNode logical (fuel + 1) node = .error .panicked) ∨
    (fs.below logical node = none ∧ ¬ fs.Breaks logical node ∧
      ∃ r, fs.resolveNode logical (fuel + 1) node = returned r) ∨
    ∃ child, fs.below logical node = some child ∧ ¬ fs.Breaks logical node ∧
      fs.resolveNode logical (fuel + 1) node = fs.resolveNode logical fuel child := by
  obtain ⟨hover, hres⟩ | ⟨hover, hnone, hres⟩ | ⟨idx, hover, hsome, hres⟩ :=
    resolveNode_cases fs logical fuel node
  · exact Or.inl ⟨below_of_overruns hover, Or.inl hover, hres⟩
  · refine Or.inr (Or.inl ⟨by rw [below_of_not hover, hnone]; rfl, ?_, hres⟩)
    rintro (h | ⟨idx, h, -⟩)
    · exact hover h
    · rw [hnone] at h
      cases h
  · rw [below_of_not hover, hsome, Option.bind_some, hres]
    by_cases hfar : fs.TooFar idx.leaf
    · rw [readBlock_of_tooFar hfar]
      exact Or.inl ⟨rfl, Or.inr ⟨idx, hsome, hfar⟩, rfl⟩
    · have hno : ¬ fs.Breaks logical node := by
        rintro (h | ⟨idx', h, hfar'⟩)
        · exact hover h
        · rw [hsome] at h
          exact hfar (Option.some.inj h ▸ hfar')
      obtain ⟨r, hr⟩ := readBlock_returned hfar
      rw [hr]
      cases r with
      | ok bytes => exact Or.inr (Or.inr ⟨bytes, rfl, hno, rfl⟩)
      | error e => exact Or.inr (Or.inl ⟨rfl, hno, .error e, rfl⟩)

/-- Fuel runs out exactly on a descent that long. -/
theorem resolveNode_looping_iff (fs : Filesystem) (logical fuel : Nat) (node : List UInt8) :
    fs.resolveNode logical fuel node = .error .looping ↔
      (after (fs.below logical) fuel node).isSome := by
  induction fuel generalizing node with
  | zero => exact ⟨fun _ => rfl, fun _ => rfl⟩
  | succ fuel ih =>
    rw [after]
    obtain ⟨hbelow, -, hres⟩ | ⟨hbelow, -, r, hres⟩ | ⟨child, hbelow, -, hres⟩ :=
      fs.resolveNode_step logical fuel node
    · rw [hbelow, hres]
      constructor
      · intro h
        cases h
      · intro h
        cases h
    · rw [hbelow, hres]
      refine ⟨fun h => absurd h (returned_settles r).2, fun h => ?_⟩
      cases h
    · rw [hbelow, hres, Option.bind_some]
      exact ih child

/-- A search panics at the first node on its way where it breaks. -/
theorem resolveNode_panicked_iff (fs : Filesystem) (logical fuel : Nat) (node : List UInt8) :
    fs.resolveNode logical fuel node = .error .panicked ↔
      ∃ n < fuel, ∃ stop, after (fs.below logical) n node = some stop ∧ fs.Breaks logical stop := by
  induction fuel generalizing node with
  | zero => exact ⟨fun h => (nomatch h), fun ⟨_, hn, _⟩ => (nomatch hn)⟩
  | succ fuel ih =>
    have hpast : fs.below logical node = none → ∀ n stop,
        after (fs.below logical) (n + 1) node ≠ some stop := by
      intro hnone n stop h
      rw [after, hnone] at h
      cases h
    obtain ⟨hbelow, hbreaks, hres⟩ | ⟨hbelow, hno, r, hres⟩ | ⟨child, hbelow, hno, hres⟩ :=
      fs.resolveNode_step logical fuel node
    · exact ⟨fun _ => ⟨0, Nat.succ_pos _, node, rfl, hbreaks⟩, fun _ => hres⟩
    · refine ⟨fun h => absurd (hres ▸ h) (returned_settles r).1, ?_⟩
      rintro ⟨n, -, stop, hstop, hbreaks⟩
      cases n with
      | zero => exact absurd (Option.some.inj hstop ▸ hbreaks) hno
      | succ n => exact absurd hstop (hpast hbelow n stop)
    · rw [hres, ih]
      constructor
      · rintro ⟨n, hn, stop, hstop, hbreaks⟩
        exact ⟨n + 1, Nat.succ_lt_succ hn, stop, by rw [after_succ_of_some hbelow, hstop], hbreaks⟩
      · rintro ⟨n, hn, stop, hstop, hbreaks⟩
        cases n with
        | zero => exact absurd (Option.some.inj hstop ▸ hbreaks) hno
        | succ n =>
          rw [after_succ_of_some hbelow] at hstop
          exact ⟨n, Nat.lt_of_succ_lt_succ hn, stop, hstop, hbreaks⟩

/-- A search from `root` goes astray: it comes to a node where it breaks, or it goes round in a
circle. -/
def Astray (fs : Filesystem) (logical : Nat) (root : List UInt8) : Prop :=
  (∃ node, ReflTransGen (Steps (fs.below logical)) root node ∧ fs.Breaks logical node) ∨
    Cycles (fs.below logical) root

/-- Every node below the root is a block of the filesystem. -/
theorem below_block {fs : Filesystem} {node child : List UInt8}
    (h : fs.below logical node = some child) :
    ∃ b < fs.superblock.blocksCount, child = fs.bytesOf b := by
  unfold below at h
  split at h
  · cases h
  · obtain ⟨idx, -, hread⟩ := Option.bind_eq_some_iff.mp h
    cases hblock : fs.readBlock idx.leaf with
    | error e =>
      rw [hblock] at hread
      cases hread
    | ok bytes =>
      rw [hblock] at hread
      obtain ⟨hcount, -, -, hbytes⟩ := readBlock_ok_iff.mp hblock
      exact ⟨idx.leaf, hcount, (Option.some.inj hread).symm.trans hbytes⟩

theorem resolveExtent_settles_iff (fs : Filesystem) (inode : Inode) (logical : Nat) :
    (fs.resolveExtent inode logical ≠ .error .panicked ∧
      fs.resolveExtent inode logical ≠ .error .looping) ↔ ¬ fs.Astray logical inode.block := by
  have hcycle : (after (fs.below logical) (fs.superblock.blocksCount + 2) inode.block).isSome ↔
      Cycles (fs.below logical) inode.block :=
    isSome_after_iff_cycle (fun _ _ => below_block) (by omega)
  unfold resolveExtent
  rw [Ne, Ne, resolveNode_panicked_iff, resolveNode_looping_iff, hcycle, ← not_or]
  refine not_congr ⟨?_, ?_⟩
  · rintro (⟨n, -, stop, hstop, hbreaks⟩ | hround)
    · exact Or.inl ⟨stop, reaches_of_after hstop, hbreaks⟩
    · exact Or.inr hround
  · rintro (⟨stop, hreach, hbreaks⟩ | hround)
    · obtain ⟨n, hn⟩ := exists_after_of_reaches hreach
      rcases Nat.lt_or_ge n (fs.superblock.blocksCount + 2) with hlt | hge
      · exact Or.inl ⟨n, hlt, stop, hn, hbreaks⟩
      · exact Or.inr (hcycle.mp (isSome_after_of_le hge (by rw [hn]; rfl)))
    · exact Or.inr hround

/-! ## Any block map -/

theorem blockSize_lt (fs : Filesystem) : fs.blockSize < 2 ^ 32 := Nat.mod_lt _ (by decide)

/-- A 32-bit pointer is never too far. -/
theorem not_tooFar (fs : Filesystem) {block : Nat} (h : block < 2 ^ 32) : ¬ fs.TooFar block := by
  intro hfar
  have hmul := Nat.mul_lt_mul'' h fs.blockSize_lt
  have := hfar.2
  omega

/-- Walking down indirect blocks comes to an answer. -/
theorem resolveIndirect_returned (fs : Filesystem) {remaining level block : Nat}
    (h : block < 2 ^ 32) : ∃ r, fs.resolveIndirect remaining level block = returned r := by
  induction level generalizing block with
  | zero => exact ⟨.ok (some block), rfl⟩
  | succ level ih =>
    rw [resolveIndirect]
    obtain ⟨r, hr⟩ := readBlock_returned (fs.not_tooFar h)
    rw [hr]
    cases r with
    | error e => exact ⟨.error e, rfl⟩
    | ok buf =>
      by_cases hzero : getU32 buf (remaining / fs.perBlock ^ level % fs.perBlock * 4) = 0
      · exact ⟨.ok none, if_pos hzero⟩
      · obtain ⟨r, hr⟩ := ih (getU32_lt buf _)
        exact ⟨r, (if_neg hzero).trans hr⟩

/-- A tree's span must fit 64 bits before it is compared, and a block past the tree is looked for
in those after it. -/
theorem resolveSlots_settles_iff (fs : Filesystem) {pointers : List Nat}
    (h : ∀ p ∈ pointers, p < 2 ^ 32) (slot : Nat × Nat) (slots : List (Nat × Nat))
    (remaining : Nat) :
    (fs.resolveSlots pointers (slot :: slots) remaining ≠ .error .panicked ∧
      fs.resolveSlots pointers (slot :: slots) remaining ≠ .error .looping) ↔
      fs.perBlock ^ slot.2 < 2 ^ 64 ∧ (fs.perBlock ^ slot.2 ≤ remaining →
        fs.resolveSlots pointers slots (remaining - fs.perBlock ^ slot.2) ≠ .error .panicked ∧
          fs.resolveSlots pointers slots (remaining - fs.perBlock ^ slot.2) ≠ .error .looping) := by
  rw [resolveSlots]
  dsimp only
  by_cases hspan : 2 ^ 64 ≤ fs.perBlock ^ slot.2
  · rw [panicIf, if_pos hspan]
    exact ⟨fun hs => absurd rfl hs.1, fun hs => absurd hs.1 (Nat.not_lt.mpr hspan)⟩
  rw [panicIf_of_not hspan]
  refine Iff.trans ?_ (and_iff_right (Nat.not_le.mp hspan)).symm
  by_cases hin : remaining < fs.perBlock ^ slot.2
  · refine iff_of_true ?_ fun hpast => absurd hin (Nat.not_lt.mpr hpast)
    show (if remaining < fs.perBlock ^ slot.2 then _ else _) ≠ _ ∧
      (if remaining < fs.perBlock ^ slot.2 then _ else _) ≠ _
    rw [if_pos hin]
    split
    · exact returned_settles (.ok none)
    · next hne =>
      have hroot : pointers.getD slot.1 0 < 2 ^ 32 := by
        rw [List.getD_eq_getElem?_getD] at hne ⊢
        cases hget : pointers[slot.1]? with
        | none => decide
        | some p => exact h p (List.mem_of_getElem? hget)
      obtain ⟨r, hr⟩ := fs.resolveIndirect_returned hroot
      rw [hr]
      exact returned_settles r
  · rw [forall_prop_of_true (Nat.not_lt.mp hin)]
    show (if remaining < fs.perBlock ^ slot.2 then _ else _) ≠ _ ∧
      (if remaining < fs.perBlock ^ slot.2 then _ else _) ≠ _ ↔ _
    rw [if_neg hin]

/-- A block past the double-indirect tree of an inode, in a filesystem whose triple-indirect tree
would span more blocks than 64 bits count: one with blocks of 16 MiB or more. -/
def SpanOverflows (fs : Filesystem) (logical : Nat) : Prop :=
  ndirBlocks + fs.perBlock + fs.perBlock ^ 2 ≤ logical ∧ 2 ^ 64 ≤ fs.perBlock ^ 3

theorem perBlock_lt (fs : Filesystem) : fs.perBlock < 2 ^ 30 := by
  have := fs.blockSize_lt
  unfold perBlock
  omega

/-- The three trees of an indirect map. -/
theorem resolveTrees_settles_iff (fs : Filesystem) {pointers : List Nat}
    (h : ∀ p ∈ pointers, p < 2 ^ 32) {logical : Nat} (hlog : ndirBlocks ≤ logical) :
    (fs.resolveSlots pointers [(ndirBlocks, 1), (ndirBlocks + 1, 2), (ndirBlocks + 2, 3)]
        (logical - ndirBlocks) ≠ .error .panicked ∧
      fs.resolveSlots pointers [(ndirBlocks, 1), (ndirBlocks + 1, 2), (ndirBlocks + 2, 3)]
        (logical - ndirBlocks) ≠ .error .looping) ↔ ¬ fs.SpanOverflows logical := by
  have hone : fs.perBlock ^ 1 < 2 ^ 64 :=
    Nat.lt_trans (Nat.pow_lt_pow_left fs.perBlock_lt (by decide)) (by decide)
  have htwo : fs.perBlock ^ 2 < 2 ^ 64 :=
    Nat.lt_trans (Nat.pow_lt_pow_left fs.perBlock_lt (by decide)) (by decide)
  rw [resolveSlots_settles_iff fs h, resolveSlots_settles_iff fs h, resolveSlots_settles_iff fs h,
    and_iff_right hone, and_iff_right htwo, SpanOverflows]
  dsimp only
  rw [pow_one] at hone ⊢
  constructor
  · rintro hfits ⟨hpast, hspan⟩
    exact absurd hspan (Nat.not_le.mpr (hfits (by omega) (by omega)).1)
  · intro hfits hfirst hsecond
    refine ⟨?_, fun _ => returned_settles (.ok none)⟩
    by_contra hspan
    exact hfits ⟨by omega, Nat.not_lt.mp hspan⟩

/-- `resolve_block` comes to an answer, or to an error it returns, exactly when it does not go
astray in an extent tree, nor come to an indirect tree whose span overflows. -/
theorem resolveBlock_settles_iff (fs : Filesystem) (inode : Inode) (logical : Nat) :
    (fs.resolveBlock inode logical ≠ .error .panicked ∧
      fs.resolveBlock inode logical ≠ .error .looping) ↔
      (inode.hasBlockMap = true →
        (inode.usesExtents = true → ¬ fs.Astray logical inode.block) ∧
          (inode.usesExtents = false → ¬ fs.SpanOverflows logical)) := by
  unfold resolveBlock
  cases hmap : inode.hasBlockMap with
  | false => exact ⟨fun _ h => (nomatch h), fun _ => ⟨nofun, nofun⟩⟩
  | true =>
    cases hext : inode.usesExtents with
    | true =>
      simp only [Bool.not_true, Bool.false_eq_true, if_false, if_true, forall_const,
        Bool.true_eq_false, false_imp_iff, and_true]
      exact fs.resolveExtent_settles_iff inode logical
    | false =>
      simp only [Bool.not_true, Bool.false_eq_true, if_false, forall_const, false_imp_iff,
        true_and]
      split
      · next hdirect =>
        refine iff_of_true ⟨nofun, nofun⟩ fun hover => ?_
        have := hover.1
        omega
      · next hpast =>
        have hpointers : ∀ p ∈ inode.blockPointers, p < 2 ^ 32 := by
          intro p hp
          obtain ⟨i, -, rfl⟩ := List.mem_map.mp hp
          exact getU32_lt _ _
        exact fs.resolveTrees_settles_iff hpointers (Nat.not_lt.mp hpast)

/-! ### An image to go astray in -/

/-- 16 blocks; block 5 is an extent node whose one index leads to block 5. -/
def strayImage : Device := .ofChunks 16384
  [(1024, [16, 0, 0, 0, 16]), (1024 + 0x14, [1]), (1024 + 0x21, [0x20]), (1024 + 0x28, [16]),
    (1024 + 0x38, [0x53, 0xef]), (2048, [3, 0, 0, 0, 4, 0, 0, 0, 7]),
    (5 * 1024, [0x0a, 0xf3, 1, 0, 84, 0, 1, 0, 0, 0, 0, 0] ++ [0, 0, 0, 0, 5, 0, 0, 0])]

/-- A file whose map leads to block 5. -/
def circular : Inode where
  mode := 0x81a4
  flags := IFlags.extents
  block := [0x0a, 0xf3, 1, 0, 4, 0, 2, 0, 0, 0, 0, 0] ++ [0, 0, 0, 0, 5, 0, 0, 0] ++
    List.replicate 40 0

/-- A file whose map claims a hundred extents and holds none. -/
def overfull : Inode where
  mode := 0x81a4
  flags := IFlags.extents
  block := [0x0a, 0xf3, 100, 0, 4, 0, 0, 0, 0, 0, 0, 0] ++ List.replicate 48 0

/-- A file of ten bytes kept in its inode. The first four are 5. -/
def inlineFile : Inode where
  mode := 0x81a4
  flags := IFlags.inlineData
  size := 10
  block := [5, 0, 0, 0] ++ List.replicate 56 0

/-- Two of the ways not to come to an answer. -/
theorem resolveBlock_astray : ∃ fs, openOn strayImage = .ok fs ∧
    fs.resolveBlock circular 0 = .error .looping ∧
    fs.resolveBlock overfull 0 = .error .panicked := by
  have hruns : (openOn strayImage).toOption.any (fun fs =>
      decide (fs.resolveBlock circular 0 = .error .looping ∧
        fs.resolveBlock overfull 0 = .error .panicked)) = true := by
    decide +kernel
  cases hopen : openOn strayImage with
  | error e =>
    rw [hopen] at hruns
    cases hruns
  | ok fs =>
    rw [hopen] at hruns
    exact ⟨fs, rfl, of_decide_eq_true hruns⟩

/-- What is inline is read as a pointer: the walk visits nothing, and the file reads as the start
of block 5. -/
theorem inline_followed : ∃ fs, openOn strayImage = .ok fs ∧ inlineFile.inlineData = true ∧
    fs.walkBlocks inlineFile = .done () ∧ fs.resolveBlock inlineFile 0 = .ok (some 5) ∧
    fs.readFile inlineFile = .ok [0x0a, 0xf3, 1, 0, 84, 0, 1, 0, 0, 0] := by
  have hruns : (openOn strayImage).toOption.any (fun fs =>
      decide (fs.resolveBlock inlineFile 0 = .ok (some 5) ∧
        fs.readFile inlineFile = .ok [0x0a, 0xf3, 1, 0, 84, 0, 1, 0, 0, 0])) = true := by
    decide +kernel
  cases hopen : openOn strayImage with
  | error e =>
    rw [hopen] at hruns
    cases hruns
  | ok fs =>
    rw [hopen] at hruns
    exact ⟨fs, rfl, by decide, rfl, of_decide_eq_true hruns⟩

end Filesystem

end MkfsExt4
