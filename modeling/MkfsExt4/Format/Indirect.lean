/-
  Block maps through indirect blocks (`alloc_indirect_file`, `build_indirect` and `runs_of` in
  `src/format.rs`), for filesystems without extents.

  Each loop fills at most `per_block` slots, so it recurses on the slots left. Block numbers
  are cut to 32 bits where they are stored as pointers.
-/
import MkfsExt4.Format.Allocator
import MkfsExt4.Structs.Inode

namespace MkfsExt4.Format

open Lib.Hoare

/-- A block map built from indirect blocks. -/
structure IndirectMap where
  pointers : List Nat := List.replicate nBlocks 0
  /-- Indirect blocks to write, with the blocks each points at. -/
  blocks : List (Nat × List Nat) := []

namespace IndirectMap

/-- Blocks spent on the indirect blocks themselves. -/
def overhead (map : IndirectMap) : Nat := map.blocks.length

/-- The pointers of an inode: the direct blocks, then the roots of the three trees. -/
def pointersOf (direct : List Nat) (ind dind tind : Nat) : List Nat :=
  (direct ++ List.replicate (ndirBlocks - direct.length) 0 ++ [ind, dind, tind]).map (· % 2 ^ 32)

end IndirectMap

/-! ## Runs -/

/-- One block more: it lengthens the last run or starts a new one. -/
def addBlock (runs : List Run) (block : Nat) : List Run :=
  match runs.getLast? with
  | some last =>
    if last.start + last.len = block then runs.dropLast ++ [{ last with len := last.len + 1 }]
    else runs ++ [{ start := block, len := 1 }]
  | none => [{ start := block, len := 1 }]

/-- Collapse a list of blocks into contiguous runs. -/
def runsOf (blocks : List Nat) : List Run := blocks.foldl addBlock []

theorem Run.blocks_one (b : Nat) : (Run.mk b 1).blocks = [b] := rfl

theorem blocksOf_addBlock (runs : List Run) (block : Nat) :
    blocksOf (addBlock runs block) = blocksOf runs ++ [block] := by
  unfold addBlock
  split
  · next last hlast =>
    split
    · next hnext =>
      obtain ⟨init, rfl⟩ := List.getLast?_eq_some_iff.mp hlast
      rw [List.dropLast_concat, blocksOf_append, blocksOf_append, List.append_assoc]
      congr 1
      simp only [blocksOf_cons, blocksOf_nil, List.append_nil, Run.blocks]
      rw [← hnext, List.range'_concat, Nat.one_mul]
    · rw [blocksOf_append]
      rfl
  · next hnone =>
    rw [List.getLast?_eq_none_iff.mp hnone]
    rfl

theorem blocksOf_runsOf (blocks : List Nat) : blocksOf (runsOf blocks) = blocks := by
  suffices hgen : ∀ (blocks : List Nat) (runs : List Run),
      blocksOf (blocks.foldl addBlock runs) = blocksOf runs ++ blocks from hgen blocks []
  intro blocks
  induction blocks with
  | nil => intro runs; exact (List.append_nil _).symm
  | cons b blocks ih =>
    intro runs
    rw [List.foldl_cons, ih, blocksOf_addBlock, List.append_assoc]
    rfl

/-! ## A file allocated with its map -/

/-- The next free block at or after the cursor, and the cursor past it. -/
def take (cursor : Nat) : AllocM (Nat × Nat) := do
  let block ← alloc cursor 1
  return (block, block + 1)

/-- The next `n` free blocks, one by one. -/
def takeData : (n : Nat) → (cursor : Nat) → AllocM (List Nat × Nat)
  | 0, cursor => return ([], cursor)
  | n + 1, cursor => do
    let (block, cursor) ← take cursor
    let (blocks, cursor) ← takeData n cursor
    return (block :: blocks, cursor)

/-- A single indirect block and its data, repeatedly, while data is needed and the double
indirect block has a slot left. -/
def takeChildren (perBlock : Nat) : (slots : Nat) → (need cursor : Nat) →
    AllocM (List (Nat × List Nat))
  | 0, _, _ => return []
  | slots + 1, need, cursor =>
    if need = 0 then return []
    else do
      let (child, cursor) ← take cursor
      let (entries, cursor) ← takeData (min perBlock need) cursor
      let children ← takeChildren perBlock slots (need - min perBlock need) cursor
      return (child, entries) :: children

/-- Allocate a block-mapped file of `count` blocks, its indirect blocks interleaved with its
data. -/
def allocIndirectFile (goal count blockSize : Nat) : AllocM (List Nat × IndirectMap) := do
  let perBlock := blockSize / 4
  let (direct, cursor) ← takeData (min ndirBlocks count) goal
  if count ≤ ndirBlocks then
    return (direct, { pointers := IndirectMap.pointersOf direct 0 0 0 })
  let (ind, cursor) ← take cursor
  let (entries, cursor) ← takeData (min perBlock (count - ndirBlocks)) cursor
  let data := direct ++ entries
  if count ≤ data.length then
    return (data, { pointers := IndirectMap.pointersOf direct ind 0 0, blocks := [(ind, entries)] })
  let (dind, cursor) ← take cursor
  let children ← takeChildren perBlock perBlock (count - data.length) cursor
  let data := data ++ children.flatMap Prod.snd
  if data.length < count then
    throw (.error (.invalidParams (s!"a {count}-block file exceeds what double indirection " ++
      s!"addresses at {blockSize}-byte blocks")))
  return (data, {
    pointers := IndirectMap.pointersOf direct ind dind 0
    blocks := (ind, entries) :: (children ++ [(dind, children.map Prod.fst)]) })

/-! ## A map for blocks already chosen -/

/-- A single indirect block for each `per_block` of the rest, while slots are left. -/
def mapChildren (allocOne : AllocM Nat) (perBlock : Nat) : (slots : Nat) → (rest : List Nat) →
    AllocM (List (Nat × List Nat) × List Nat)
  | 0, rest => return ([], rest)
  | slots + 1, rest =>
    if rest.isEmpty then return ([], rest)
    else do
      let ind ← allocOne
      let (children, after) ← mapChildren allocOne perBlock slots (rest.drop perBlock)
      return ((ind, rest.take perBlock) :: children, after)

/-- A double indirect block and its children, while slots are left. -/
def mapGrandchildren (allocOne : AllocM Nat) (perBlock : Nat) : (slots : Nat) →
    (rest : List Nat) → AllocM (List (Nat × List Nat) × List Nat × List Nat)
  | 0, rest => return ([], [], rest)
  | slots + 1, rest =>
    if rest.isEmpty then return ([], [], rest)
    else do
      let dind ← allocOne
      let (children, rest) ← mapChildren allocOne perBlock perBlock rest
      let (blocks, dinds, rest) ← mapGrandchildren allocOne perBlock slots rest
      return (children ++ (dind, children.map Prod.fst) :: blocks, dind :: dinds, rest)

/-- The single indirect block, when blocks are left after the direct ones. -/
def mapSingle (allocOne : AllocM Nat) (perBlock : Nat) (rest : List Nat) :
    AllocM (Nat × List (Nat × List Nat) × List Nat) :=
  if rest.isEmpty then return (0, [], rest)
  else do
    let ind ← allocOne
    return (ind, [(ind, rest.take perBlock)], rest.drop perBlock)

def mapDouble (allocOne : AllocM Nat) (perBlock : Nat) (rest : List Nat) :
    AllocM (Nat × List (Nat × List Nat) × List Nat) :=
  if rest.isEmpty then return (0, [], rest)
  else do
    let dind ← allocOne
    let (children, rest) ← mapChildren allocOne perBlock perBlock rest
    return (dind, children ++ [(dind, children.map Prod.fst)], rest)

def mapTriple (allocOne : AllocM Nat) (perBlock : Nat) (rest : List Nat) :
    AllocM (Nat × List (Nat × List Nat) × List Nat) :=
  if rest.isEmpty then return (0, [], rest)
  else do
    let tind ← allocOne
    let (blocks, dinds, rest) ← mapGrandchildren allocOne perBlock perBlock rest
    return (tind, blocks ++ [(tind, dinds)], rest)

/-- Map `blocks`, in logical order, through direct and indirect pointers. -/
def buildIndirect (blocks : List Nat) (blockSize : Nat) (allocOne : AllocM Nat) :
    AllocM IndirectMap := do
  let perBlock := blockSize / 4
  let (ind, single, rest) ← mapSingle allocOne perBlock (blocks.drop ndirBlocks)
  let (dind, double, rest) ← mapDouble allocOne perBlock rest
  let (tind, triple, rest) ← mapTriple allocOne perBlock rest
  let len := blocks.length
  if !rest.isEmpty then
    throw (.error (.invalidParams (s!"a {len}-block file exceeds what triple indirection " ++
      s!"addresses at {blockSize}-byte blocks")))
  return {
    pointers := IndirectMap.pointersOf (blocks.take ndirBlocks) ind dind tind
    blocks := single ++ double ++ triple }

/-! ## What the maps hold -/

theorem take_ok {cursor block cursor' : Nat} {a a' : Allocator}
    (h : exec (take cursor) a = (.ok (block, cursor'), a')) :
    Extends a a' [⟨block, 1⟩] := by
  obtain ⟨b, a1, halloc, hrest⟩ := exec_bind_ok h
  cases hrest
  exact alloc_ok halloc

theorem takeData_ok {n cursor cursor' : Nat} {blocks : List Nat} {a a' : Allocator}
    (h : exec (takeData n cursor) a = (.ok (blocks, cursor'), a')) :
    blocks.length = n ∧ ∃ runs, Extends a a' runs ∧ blocksOf runs = blocks := by
  induction n generalizing cursor blocks a with
  | zero =>
    cases h
    exact ⟨rfl, [], Extends.refl _, rfl⟩
  | succ n ih =>
    obtain ⟨⟨block, c⟩, a1, htake, hrest⟩ := exec_bind_ok h
    obtain ⟨⟨more, c'⟩, a2, hmore, hrest⟩ := exec_bind_ok hrest
    cases hrest
    obtain ⟨hlen, runs, hext, hblocks⟩ := ih hmore
    refine ⟨congrArg Nat.succ hlen, ⟨block, 1⟩ :: runs, (take_ok htake).trans hext, ?_⟩
    rw [blocksOf_cons, hblocks]
    rfl

theorem takeChildren_ok {perBlock slots need cursor : Nat} {children : List (Nat × List Nat)}
    {a a' : Allocator}
    (h : exec (takeChildren perBlock slots need cursor) a = (.ok children, a')) :
    ∃ runs, Extends a a' runs ∧ blocksOf runs = children.flatMap fun c => c.1 :: c.2 := by
  induction slots generalizing need cursor children a with
  | zero =>
    cases h
    exact ⟨[], Extends.refl _, rfl⟩
  | succ slots ih =>
    rw [takeChildren] at h
    split at h
    · cases h
      exact ⟨[], Extends.refl _, rfl⟩
    · obtain ⟨⟨child, c⟩, a1, htake, hrest⟩ := exec_bind_ok h
      obtain ⟨⟨entries, c'⟩, a2, hentries, hrest⟩ := exec_bind_ok hrest
      obtain ⟨more, a3, hmore, hrest⟩ := exec_bind_ok hrest
      cases hrest
      obtain ⟨-, runs, hext, hblocks⟩ := takeData_ok hentries
      obtain ⟨runs', hext', hblocks'⟩ := ih hmore
      refine ⟨⟨child, 1⟩ :: (runs ++ runs'), (take_ok htake).trans (hext.trans hext'), ?_⟩
      rw [blocksOf_cons, blocksOf_append, hblocks, hblocks', List.flatMap_cons]
      rfl

theorem sublist_children (children : List (Nat × List Nat)) :
    (children.flatMap Prod.snd).Sublist (children.flatMap fun c => c.1 :: c.2) := by
  induction children with
  | nil => exact List.Sublist.refl []
  | cons c children ih =>
    rw [List.flatMap_cons, List.flatMap_cons]
    exact (List.sublist_cons_self c.1 c.2).append ih

theorem mem_children {children : List (Nat × List Nat)} {c : Nat × List Nat} (h : c ∈ children) :
    c.1 ∈ children.flatMap fun c => c.1 :: c.2 :=
  List.mem_flatMap.mpr ⟨c, h, List.mem_cons_self⟩

/-- The file's data and the blocks of its map are blocks handed out for it, the data in the
order it was handed out. -/
theorem allocIndirectFile_ok {goal count blockSize : Nat} {data : List Nat} {map : IndirectMap}
    {a a' : Allocator}
    (h : exec (allocIndirectFile goal count blockSize) a = (.ok (data, map), a')) :
    ∃ runs, Extends a a' runs ∧ data.Sublist (blocksOf runs) ∧
      (∀ c ∈ map.blocks, c.1 ∈ blocksOf runs) ∧ count ≤ data.length := by
  obtain ⟨⟨direct, c1⟩, a1, hdirect, hrest⟩ := exec_bind_ok h
  obtain ⟨hlen, runs1, hext1, hblocks1⟩ := takeData_ok hdirect
  dsimp only at hrest
  split at hrest
  · next hfew =>
    cases hrest
    refine ⟨runs1, hext1, ?_, nofun, by omega⟩
    rw [hblocks1]
  · obtain ⟨⟨ind, c2⟩, a2, hind, hrest⟩ := exec_bind_ok hrest
    obtain ⟨⟨entries, c3⟩, a3, hentries, hrest⟩ := exec_bind_ok hrest
    obtain ⟨-, runs2, hext2, hblocks2⟩ := takeData_ok hentries
    have hext := hext1.trans ((take_ok hind).trans hext2)
    dsimp only at hrest
    split at hrest
    · next henough =>
      cases hrest
      refine ⟨_, hext, ?_, ?_, henough⟩
      · rw [blocksOf_append, blocksOf_append, hblocks1, hblocks2]
        exact (List.Sublist.refl direct).append (List.sublist_cons_self ind entries)
      · intro c hc
        obtain rfl := List.mem_singleton.mp hc
        rw [blocksOf_append, blocksOf_append]
        exact List.mem_append_right _ (List.mem_append_left _ List.mem_cons_self)
    · obtain ⟨⟨dind, c4⟩, a4, hdind, hrest⟩ := exec_bind_ok hrest
      obtain ⟨children, a5, hchildren, hrest⟩ := exec_bind_ok hrest
      obtain ⟨runs3, hext3, hblocks3⟩ := takeChildren_ok hchildren
      dsimp only at hrest
      split at hrest
      · cases hrest
      · next hall =>
        cases hrest
        refine ⟨_, hext.trans ((take_ok hdind).trans hext3), ?_, ?_, Nat.not_lt.mp hall⟩
        · simp only [blocksOf_append, hblocks1, hblocks2, hblocks3]
          exact ((List.Sublist.refl direct).append (List.sublist_cons_self ind entries)).append
            ((sublist_children children).cons dind)
        · intro c hc
          simp only [blocksOf_append, hblocks1, hblocks2, hblocks3]
          rcases List.mem_cons.mp hc with rfl | hc
          · exact List.mem_append_left _
              (List.mem_append_right _ (List.mem_append_left _ List.mem_cons_self))
          · rcases List.mem_append.mp hc with hc | hc
            · exact List.mem_append_right _ (List.mem_append_right _ (mem_children hc))
            · obtain rfl := List.mem_singleton.mp hc
              exact List.mem_append_right _ (List.mem_append_left _ List.mem_cons_self)

section BuildIndirect

variable {allocOne : AllocM Nat}

/-- What `build_indirect` asks of its allocator: a block it hands out is a new one. -/
def AllocatesOne (allocOne : AllocM Nat) : Prop :=
  ∀ b a a', exec allocOne a = (.ok b, a') → Extends a a' [⟨b, 1⟩]

/-- From `a` to `a'` runs were handed out that hold the block of every entry of `blocks`. -/
def Maps (a a' : Allocator) (blocks : List (Nat × List Nat)) : Prop :=
  ∃ runs, Extends a a' runs ∧ ∀ c ∈ blocks, c.1 ∈ blocksOf runs

/-- The blocks handed out from `a` to `a'` are those of the entries of `blocks`. -/
def Owns (a a' : Allocator) (blocks : List (Nat × List Nat)) : Prop :=
  ∃ runs, Extends a a' runs ∧ (blocksOf runs).Perm (blocks.map Prod.fst)

theorem Owns.maps {a a' : Allocator} {blocks : List (Nat × List Nat)} (h : Owns a a' blocks) :
    Maps a a' blocks := by
  obtain ⟨runs, hext, hperm⟩ := h
  exact ⟨runs, hext, fun c hc => hperm.mem_iff.mpr (List.mem_map_of_mem hc)⟩

theorem Owns.nil (a : Allocator) : Owns a a [] := ⟨[], Extends.refl _, List.Perm.refl _⟩

theorem Owns.append {a a' a'' : Allocator} {blocks blocks' : List (Nat × List Nat)}
    (h : Owns a a' blocks) (h' : Owns a' a'' blocks') : Owns a a'' (blocks ++ blocks') := by
  obtain ⟨runs, hext, hperm⟩ := h
  obtain ⟨runs', hext', hperm'⟩ := h'
  refine ⟨runs ++ runs', hext.trans hext', ?_⟩
  rw [blocksOf_append, List.map_append]
  exact hperm.append hperm'

/-- The order of the entries does not matter. -/
theorem Owns.perm {a a' : Allocator} {blocks blocks' : List (Nat × List Nat)}
    (h : Owns a a' blocks) (hperm : blocks.Perm blocks') : Owns a a' blocks' := by
  obtain ⟨runs, hext, hblocks⟩ := h
  exact ⟨runs, hext, hblocks.trans (hperm.map _)⟩

theorem owns_one (hone : AllocatesOne allocOne) {b : Nat} {a a' : Allocator} (entries : List Nat)
    (h : exec allocOne a = (.ok b, a')) : Owns a a' [(b, entries)] :=
  ⟨_, hone b a a' h, List.Perm.refl _⟩

theorem mapChildren_ok (hone : AllocatesOne allocOne) {perBlock slots : Nat}
    {rest after : List Nat} {children : List (Nat × List Nat)} {a a' : Allocator}
    (h : exec (mapChildren allocOne perBlock slots rest) a = (.ok (children, after), a')) :
    Owns a a' children := by
  induction slots generalizing rest children a with
  | zero =>
    cases h
    exact Owns.nil _
  | succ slots ih =>
    rw [mapChildren] at h
    split at h
    · cases h
      exact Owns.nil _
    · obtain ⟨ind, a1, hind, hrest⟩ := exec_bind_ok h
      obtain ⟨⟨more, after'⟩, a2, hmore, hrest⟩ := exec_bind_ok hrest
      cases hrest
      exact (owns_one hone _ hind).append (ih hmore)

theorem mapGrandchildren_ok (hone : AllocatesOne allocOne) {perBlock slots : Nat}
    {rest after dinds : List Nat} {blocks : List (Nat × List Nat)} {a a' : Allocator}
    (h : exec (mapGrandchildren allocOne perBlock slots rest) a = (.ok (blocks, dinds, after), a')) :
    Owns a a' blocks := by
  induction slots generalizing rest blocks dinds a with
  | zero =>
    cases h
    exact Owns.nil _
  | succ slots ih =>
    rw [mapGrandchildren] at h
    split at h
    · cases h
      exact Owns.nil _
    · obtain ⟨dind, a1, hdind, hrest⟩ := exec_bind_ok h
      obtain ⟨⟨children, rest1⟩, a2, hchildren, hrest⟩ := exec_bind_ok hrest
      obtain ⟨⟨more, dinds', rest2⟩, a3, hmore, hrest⟩ := exec_bind_ok hrest
      cases hrest
      refine ((owns_one hone (children.map Prod.fst) hdind).append
        ((mapChildren_ok hone hchildren).append (ih hmore))).perm ?_
      rw [List.singleton_append]
      exact List.perm_middle.symm

theorem mapSingle_ok (hone : AllocatesOne allocOne) {perBlock ind : Nat} {rest after : List Nat}
    {blocks : List (Nat × List Nat)} {a a' : Allocator}
    (h : exec (mapSingle allocOne perBlock rest) a = (.ok (ind, blocks, after), a')) :
    Owns a a' blocks := by
  unfold mapSingle at h
  split at h
  · cases h
    exact Owns.nil _
  · obtain ⟨b, a1, hb, hrest⟩ := exec_bind_ok h
    cases hrest
    exact owns_one hone _ hb

theorem mapDouble_ok (hone : AllocatesOne allocOne) {perBlock dind : Nat} {rest after : List Nat}
    {blocks : List (Nat × List Nat)} {a a' : Allocator}
    (h : exec (mapDouble allocOne perBlock rest) a = (.ok (dind, blocks, after), a')) :
    Owns a a' blocks := by
  unfold mapDouble at h
  split at h
  · cases h
    exact Owns.nil _
  · obtain ⟨b, a1, hb, hrest⟩ := exec_bind_ok h
    obtain ⟨⟨children, rest1⟩, a2, hchildren, hrest⟩ := exec_bind_ok hrest
    cases hrest
    exact ((owns_one hone (children.map Prod.fst) hb).append
      (mapChildren_ok hone hchildren)).perm List.perm_append_comm

theorem mapTriple_ok (hone : AllocatesOne allocOne) {perBlock tind : Nat} {rest after : List Nat}
    {blocks : List (Nat × List Nat)} {a a' : Allocator}
    (h : exec (mapTriple allocOne perBlock rest) a = (.ok (tind, blocks, after), a')) :
    Owns a a' blocks := by
  unfold mapTriple at h
  split at h
  · cases h
    exact Owns.nil _
  · obtain ⟨b, a1, hb, hrest⟩ := exec_bind_ok h
    obtain ⟨⟨blocks1, dinds, rest1⟩, a2, hmore, hrest⟩ := exec_bind_ok hrest
    cases hrest
    exact ((owns_one hone dinds hb).append (mapGrandchildren_ok hone hmore)).perm
      List.perm_append_comm

/-- The indirect blocks of a map are the blocks handed out for it. -/
theorem buildIndirect_owns (hone : AllocatesOne allocOne) {blocks : List Nat} {blockSize : Nat}
    {map : IndirectMap} {a a' : Allocator}
    (h : exec (buildIndirect blocks blockSize allocOne) a = (.ok map, a')) :
    Owns a a' map.blocks := by
  obtain ⟨⟨ind, single, rest1⟩, a1, hsingle, hrest⟩ := exec_bind_ok h
  obtain ⟨⟨dind, double, rest2⟩, a2, hdouble, hrest⟩ := exec_bind_ok hrest
  obtain ⟨⟨tind, triple, rest3⟩, a3, htriple, hrest⟩ := exec_bind_ok hrest
  dsimp only at hrest
  split at hrest
  · cases hrest
  · cases hrest
    exact ((mapSingle_ok hone hsingle).append (mapDouble_ok hone hdouble)).append
      (mapTriple_ok hone htriple)

theorem buildIndirect_ok (hone : AllocatesOne allocOne) {blocks : List Nat} {blockSize : Nat}
    {map : IndirectMap} {a a' : Allocator}
    (h : exec (buildIndirect blocks blockSize allocOne) a = (.ok map, a')) :
    Maps a a' map.blocks := (buildIndirect_owns hone h).maps

end BuildIndirect

end MkfsExt4.Format
