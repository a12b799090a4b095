/-
  Looking a name up by hash against reading the directory (`lookup` of `src/fs.rs`).

  `Listed` is a directory that can be read, each of its names once. `followChain_agrees_iff` says
  when the search of a chain of leaves answers as the linear search: when the name, if it is there
  at all, is in one of them. Which leaves a hash leads to is the routing of `Lib.Routing`
  (`searchNode_eq`), and a valid index places each name where its hash is routed.
-/
import MkfsExt4.Fs.Lookup
import MkfsExt4.Read.Dirs
import Mathlib.Data.List.Nodup
import Mathlib.Data.List.Pairwise

namespace MkfsExt4

open Lib.Hoare Lib.Routing

namespace Filesystem

variable (fs : Filesystem)

/-! ## What a directory holds -/

/-- The entries of a directory's logical block, if that is mapped. -/
def dirBlock (dir : Inode) (k : Nat) : Except Failure (Option (List DirEntry)) := do
  match ← fs.resolveBlock dir k with
  | none => return none
  | some physical =>
    let buf ← fs.readBlock physical
    let entries ← returned (Dirent.parseBlock buf)
    return some entries

/-- The entries of a logical block; a hole has none. -/
def entriesOf (dir : Inode) (k : Nat) : List DirEntry :=
  match fs.dirBlock dir k with
  | .ok (some entries) => entries
  | _ => []

/-- The live entries of a directory's blocks, one block after another. -/
def listing (dir : Inode) : List DirEntry :=
  (List.range (fs.dirBlocks dir.size)).flatMap fun k =>
    (fs.entriesOf dir k).filter DirEntry.isName

/-- A directory that can be read: each of its blocks is a hole or parses, what is live has a name,
    and no two entries have the same. -/
structure Listed (dir : Inode) : Prop where
  isDir : dir.isDir = true
  blockSize : fs.blockSize ≠ 0
  readable : ∀ k < fs.dirBlocks dir.size, (fs.dirBlock dir k).isOk = true
  named : ∀ k < fs.dirBlocks dir.size, ∀ e ∈ fs.entriesOf dir k, e.inode ≠ 0 → e.name ≠ []
  unique : ((fs.listing dir).map DirEntry.name).Nodup

/-- What the linear search finds among entries. -/
def inodeOf (name : List UInt8) (entries : List DirEntry) : Option Nat :=
  (entries.find? fun e => e.name == name).map DirEntry.inode

variable {fs}

section Listed

variable {dir : Inode} (h : fs.Listed dir)

include h

/-- `read_dir` lists what the blocks hold. -/
theorem readDir_listed : fs.readDir dir = .ok (fs.listing dir) := by
  unfold readDir
  rw [h.isDir]
  refine panicIf_bind_ok_iff.mpr ⟨h.blockSize, bind_ok_iff.mpr
    ⟨_, mapM_ok (g := fun k => (fs.entriesOf dir k).filter DirEntry.isName) fun k hk => ?_, ?_⟩⟩
  · have hok := h.readable k (List.mem_range.mp hk)
    unfold entriesOf
    unfold dirBlock at hok ⊢
    cases hres : fs.resolveBlock dir k with
    | error e =>
      rw [hres] at hok
      cases hok
    | ok resolved =>
      rw [hres] at hok
      dsimp only [bind, Except.bind] at hok ⊢
      cases resolved with
      | none => rfl
      | some physical =>
        dsimp only at hok ⊢
        cases hread : fs.readBlock physical with
        | error e =>
          rw [hread] at hok
          cases hok
        | ok buf =>
          rw [hread] at hok
          dsimp only at hok ⊢
          cases hparse : returned (Dirent.parseBlock buf) with
          | error e =>
            rw [hparse] at hok
            cases hok
          | ok entries => rfl
  · rw [listing, List.flatMap_def]
    rfl

theorem lookupLinear_listed (name : List UInt8) :
    fs.lookupLinear dir name = .ok (inodeOf name (fs.listing dir)) := by
  rw [lookupLinear, readDir_listed h]
  rfl

/-- The live entries of a block are listed. -/
theorem mem_listing {k : Nat} (hk : k < fs.dirBlocks dir.size) {e : DirEntry}
    (he : e ∈ fs.entriesOf dir k) (hlive : e.inode ≠ 0) : e ∈ fs.listing dir := by
  refine List.mem_flatMap.mpr ⟨k, List.mem_range.mpr hk, List.mem_filter.mpr ⟨he, ?_⟩⟩
  have hname := h.named k hk e he hlive
  simp [DirEntry.isName, DirEntry.isTail, hlive, hname]

/-- The entry of a name is the one the linear search finds. -/
theorem inodeOf_of_mem {e : DirEntry} (he : e ∈ fs.listing dir) :
    inodeOf e.name (fs.listing dir) = some e.inode := by
  have hinj := List.inj_on_of_nodup_map h.unique
  unfold inodeOf
  cases hfind : (fs.listing dir).find? (fun x => x.name == e.name) with
  | none => exact absurd (List.find?_eq_none.mp hfind e he) (by simp)
  | some e' =>
    have hname : e'.name = e.name := by simpa using List.find?_some hfind
    rw [hinj (List.mem_of_find?_eq_some hfind) he hname]
    rfl

end Listed

theorem mem_listing_iff {dir : Inode} {e : DirEntry} : e ∈ fs.listing dir ↔
    ∃ k < fs.dirBlocks dir.size, e ∈ fs.entriesOf dir k ∧ e.isName = true := by
  simp only [listing, List.mem_flatMap, List.mem_range, List.mem_filter]

theorem inode_ne_zero_of_isName {e : DirEntry} (h : e.isName = true) : e.inode ≠ 0 := by
  intro hzero
  rw [DirEntry.isName, hzero] at h
  cases h

/-- An entry is in one block only. -/
theorem Listed.block_unique {dir : Inode} (h : fs.Listed dir) {e : DirEntry}
    (hlive : e.isName = true) {k k' : Nat} (hk : k < fs.dirBlocks dir.size)
    (hk' : k' < fs.dirBlocks dir.size) (he : e ∈ fs.entriesOf dir k)
    (he' : e ∈ fs.entriesOf dir k') : k = k' := by
  by_contra hne
  have hnodup := h.unique.of_map
  rw [listing, List.nodup_flatMap] at hnodup
  have hsymm : Std.Symm (Function.onFun List.Disjoint fun k =>
      (fs.entriesOf dir k).filter DirEntry.isName) := ⟨fun _ _ h _ hx hy => h hy hx⟩
  exact hnodup.2.forall (List.mem_range.mpr hk) (List.mem_range.mpr hk') hne
    (List.mem_filter.mpr ⟨he, hlive⟩) (List.mem_filter.mpr ⟨he', hlive⟩)

/-- The linear search finds nothing when no entry has the name. -/
theorem inodeOf_eq_none {name : List UInt8} {entries : List DirEntry}
    (h : ∀ e ∈ entries, e.name ≠ name) : inodeOf name entries = none := by
  rw [inodeOf, List.find?_eq_none.mpr fun e he => by simpa using h e he]
  rfl

/-- A directory that says it has an index. -/
def Claims (dir : Inode) : Prop := dir.flags &&& IFlags.index ≠ 0

instance (dir : Inode) : Decidable (Claims dir) := inferInstanceAs (Decidable (_ ≠ _))

theorem lookup_of_claims {dir : Inode} {name : List UInt8} (h : Claims dir)
    {answer : Option Nat} (hindexed : fs.lookupIndexed dir name = .ok (some answer)) :
    fs.lookup dir name = .ok answer := by
  unfold lookup
  rw [if_pos (show dir.flags &&& IFlags.index ≠ 0 from h), hindexed]
  rfl

theorem lookup_of_not_claims {dir : Inode} {name : List UInt8} (h : ¬ Claims dir) :
    fs.lookup dir name = fs.lookupLinear dir name := if_neg h

/-! ## Following a chain of leaves -/

/-- The search of leaves one after another, until one holds the name. -/
def followChain (fs : Filesystem) (dir : Inode) (name : List UInt8) :
    List Nat → Except Failure (Option (Option Nat))
  | [] => .ok (some none)
  | leaf :: rest => do
    match ← fs.dirBlock dir leaf with
    | none => return none
    | some entries =>
      match entries.find? fun e => e.inode != 0 && e.name == name with
      | some entry => return some (some entry.inode)
      | none => followChain fs dir name rest

/-- The leaves a hash leads to in an index block. -/
def leavesOf (node : List UInt8) (offset hash : Nat) : List Nat :=
  (route Htree.continued hash (Htree.entries node offset)).map Prod.snd

/-- One turn of the search, its leaf read as a block of the directory. -/
theorem followLeaves_succ (dir : Inode) (name node : List UInt8) (offset fuel i : Nat) :
    fs.followLeaves dir name node offset (fuel + 1) i = (do
      let (_, leaf) ← Htree.entry node offset i
      match ← fs.dirBlock dir leaf with
      | none => return none
      | some entries =>
        match entries.find? fun e => e.inode != 0 && e.name == name with
        | some entry => return some (some entry.inode)
        | none =>
          if Htree.count node offset ≤ i + 1 then return some none
          else
            let (next, _) ← Htree.entry node offset (i + 1)
            if next % 2 = 0 then return some none
            else fs.followLeaves dir name node offset fuel (i + 1)) := by
  rw [followLeaves]
  refine congrArg _ (funext fun entry => ?_)
  obtain ⟨-, leaf⟩ := entry
  dsimp only
  rw [dirBlock]
  dsimp only [bind, Except.bind]
  match fs.resolveBlock dir leaf with
  | .error e => rfl
  | .ok none => rfl
  | .ok (some physical) =>
    dsimp only
    cases fs.readBlock physical with
    | error e => rfl
    | ok buf =>
      dsimp only
      cases returned (Dirent.parseBlock buf) with
      | error e => rfl
      | ok entries => rfl

theorem followLeaves_eq {dir : Inode} {name node : List UInt8} {offset : Nat}
    (h : Htree.Holds node offset) : ∀ (fuel i : Nat), i < Htree.count node offset →
      Htree.count node offset ≤ i + fuel →
      fs.followLeaves dir name node offset fuel i =
        fs.followChain dir name ((Htree.entryAt node offset i ::
          ((Htree.entries node offset).drop (i + 1)).takeWhile
            fun x => Htree.continued x.1).map Prod.snd)
  | 0, i, hi, hfuel => absurd hfuel (by omega)
  | fuel + 1, i, hi, hfuel => by
    rw [followLeaves_succ, Htree.entry_ok h hi, List.map_cons, followChain]
    dsimp only [bind, Except.bind]
    match fs.dirBlock dir (Htree.entryAt node offset i).2 with
    | .error e => rfl
    | .ok none => rfl
    | .ok (some entries) =>
      dsimp only
      cases entries.find? fun e => e.inode != 0 && e.name == name with
      | some entry => rfl
      | none =>
        dsimp only
        by_cases hlast : Htree.count node offset ≤ i + 1
        · rw [if_pos hlast, List.drop_of_length_le (by rwa [Htree.length_entries])]
          rfl
        · have hnext := Nat.not_le.mp hlast
          rw [if_neg hlast, Htree.entry_ok h hnext, Htree.drop_entries hnext,
            List.takeWhile_cons]
          dsimp only
          by_cases hodd : (Htree.entryAt node offset (i + 1)).1 % 2 = 0
          · rw [if_pos hodd, if_neg (by simp [Htree.continued, hodd])]
            rfl
          · have hcont : Htree.continued (Htree.entryAt node offset (i + 1)).1 = true := by
              rw [Htree.continued, decide_eq_true_iff]
              omega
            rw [if_neg hodd, if_pos hcont]
            exact followLeaves_eq h fuel (i + 1) hnext (by omega)

/-- The search of an index block is that of the leaves its hash leads to. -/
theorem searchNode_eq {dir : Inode} {name node : List UInt8} {offset : Nat}
    (h : Htree.Holds node offset) (hash : Nat) :
    fs.searchNode dir name node offset hash =
      fs.followChain dir name (leavesOf node offset hash) := by
  rw [searchNode, Htree.find_ok h, leavesOf, Htree.route_entries h]
  exact followLeaves_eq h _ _ (Htree.position_lt_count h hash) (Nat.le_add_left _ _)

/-- A chain of mapped leaves is searched as their entries together. -/
theorem followChain_mapped {dir : Inode} {name : List UInt8} : ∀ {chain : List Nat},
    (∀ k ∈ chain, (fs.dirBlock dir k).isOk = true ∧ fs.dirBlock dir k ≠ .ok none) →
      fs.followChain dir name chain = .ok (some (((chain.flatMap (fs.entriesOf dir)).find?
        fun e => e.inode != 0 && e.name == name).map DirEntry.inode))
  | [], _ => rfl
  | k :: chain, h => by
    obtain ⟨hok, hmapped⟩ := h k List.mem_cons_self
    rw [followChain, List.flatMap_cons, List.find?_append, entriesOf]
    match hblock : fs.dirBlock dir k with
    | .error e =>
      rw [hblock] at hok
      cases hok
    | .ok none => exact absurd hblock hmapped
    | .ok (some entries) =>
      dsimp only [bind, Except.bind]
      cases entries.find? fun e => e.inode != 0 && e.name == name with
      | some e => rfl
      | none => exact followChain_mapped fun k hk => h k (List.mem_cons_of_mem _ hk)

/-- The search of a chain of a directory's leaves answers as the linear search exactly when one of
    them holds the name, if any block does. -/
theorem followChain_agrees_iff {dir : Inode} (h : fs.Listed dir) {chain : List Nat}
    (hchain : ∀ k ∈ chain, k < fs.dirBlocks dir.size ∧ fs.dirBlock dir k ≠ .ok none)
    (name : List UInt8) :
    fs.followChain dir name chain = .ok (some (inodeOf name (fs.listing dir))) ↔
      ∀ e ∈ fs.listing dir, e.name = name → ∃ k ∈ chain, e ∈ fs.entriesOf dir k := by
  rw [followChain_mapped fun k hk => ⟨h.readable k (hchain k hk).1, (hchain k hk).2⟩]
  have hinj := List.inj_on_of_nodup_map h.unique
  cases hfind : (chain.flatMap (fs.entriesOf dir)).find? (fun e => e.inode != 0 && e.name == name) with
  | some e =>
    obtain ⟨k, hk, he⟩ := List.mem_flatMap.mp (List.mem_of_find?_eq_some hfind)
    have hmatch : e.inode ≠ 0 ∧ e.name = name := by simpa using List.find?_some hfind
    have hlisted := mem_listing h (hchain k hk).1 he hmatch.1
    have hlinear := inodeOf_of_mem h hlisted
    rw [hmatch.2] at hlinear
    rw [hlinear]
    refine ⟨fun _ e' he' hname => ⟨k, hk, ?_⟩, fun _ => rfl⟩
    rw [hinj he' hlisted (hname.trans hmatch.2.symm)]
    exact he
  | none =>
    constructor
    · intro heq e he hname
      have hlinear := inodeOf_of_mem h he
      rw [hname] at hlinear
      rw [hlinear] at heq
      cases heq
    · intro hall
      rw [inodeOf_eq_none fun e he hname => ?_]
      · rfl
      · obtain ⟨k, hk, hmem⟩ := hall e he hname
        obtain ⟨-, -, -, hlive⟩ := mem_listing_iff.mp he
        have hnone := List.find?_eq_none.mp hfind e (List.mem_flatMap.mpr ⟨k, hk, hmem⟩)
        exact hnone (by simp [inode_ne_zero_of_isName hlive, hname])

/-! ## One level -/

/-- The names that live in an index root. -/
def dots : List (List UInt8) := [[0x2e], [0x2e, 0x2e]]

/-- A valid index of a directory: its root, in the first block, holds "." and ".." and tells a
    hash this code knows. The table lists the leaves, each with the hash from which it takes
    names: they are mapped blocks of the directory, in ascending order, and every name outside
    the root is stored in the leaf that covers its hash or in one that continues it. -/
structure Indexed (fs : Filesystem) (dir : Inode) (root : List UInt8)
    (table : List (Nat × Nat)) : Prop where
  listed : fs.Listed dir
  rootRead : ∃ physical, fs.resolveBlock dir 0 = .ok (some physical) ∧
    fs.readBlock physical = .ok root
  isRoot : Htree.countOffset root fs.blockSize = some Htree.rootCountOffset
  version : Htree.rootHashVersion root ≤ 2
  rootNames : ((fs.entriesOf dir 0).filter DirEntry.isName).map DirEntry.name = dots
  ascending : table.Pairwise (·.1 ≤ ·.1)
  leaves : ∀ x ∈ table, x.2 ≠ 0 ∧ x.2 < fs.dirBlocks dir.size ∧ fs.dirBlock dir x.2 ≠ .ok none
  stored : ∀ k < fs.dirBlocks dir.size, k ≠ 0 →
    ∀ e ∈ (fs.entriesOf dir k).filter DirEntry.isName, ∃ i < table.length, ∃ x ∈ table[i]?, x.2 = k ∧
      StoredAt Htree.continued (fs.hashIn root e.name) table i

/-- A valid index of one level: its root leads to the leaves. -/
structure OneLevel (fs : Filesystem) (dir : Inode) (root : List UInt8) : Prop where
  levels : Htree.indirectLevels root = 0
  holds : Htree.Holds root Htree.rootCountOffset
  indexed : fs.Indexed dir root (Htree.entries root Htree.rootCountOffset)

/-- A name outside the root is in a leaf its hash is routed to. -/
theorem Indexed.mem_route {dir : Inode} {root : List UInt8} {table : List (Nat × Nat)}
    (h : fs.Indexed dir root table) {e : DirEntry} (he : e ∈ fs.listing dir)
    (hname : e.name ∉ dots) :
    ∃ x ∈ route Htree.continued (fs.hashIn root e.name) table, e ∈ fs.entriesOf dir x.2 := by
  obtain ⟨k, hk, hmem, hlive⟩ := mem_listing_iff.mp he
  have hfilter := List.mem_filter.mpr ⟨hmem, hlive⟩
  have hne : k ≠ 0 := by
    intro hzero
    rw [hzero] at hfilter
    have hin := List.mem_map_of_mem (f := DirEntry.name) hfilter
    rw [h.rootNames] at hin
    exact hname hin
  obtain ⟨i, -, x, hx, rfl, hstored⟩ := h.stored k hk hne e hfilter
  exact ⟨x, mem_route_of_storedAt h.ascending hstored hx, hmem⟩

/-- The leaves of a routed hash are mapped blocks of the directory. -/
theorem Indexed.routed_leaves {dir : Inode} {root : List UInt8} {table : List (Nat × Nat)}
    (h : fs.Indexed dir root table) {part : List (Nat × Nat)} (hpart : part ⊆ table) :
    ∀ k ∈ part.map Prod.snd, k < fs.dirBlocks dir.size ∧ fs.dirBlock dir k ≠ .ok none := by
  intro k hk
  obtain ⟨x, hx, rfl⟩ := List.mem_map.mp hk
  exact (h.leaves x (hpart hx)).2

theorem lookupIndexed_levels_zero {dir : Inode} {name root : List UInt8} {physical : Nat}
    (hres : fs.resolveBlock dir 0 = .ok (some physical)) (hread : fs.readBlock physical = .ok root)
    (hroot : Htree.countOffset root fs.blockSize = some Htree.rootCountOffset)
    (hlevels : Htree.indirectLevels root = 0) :
    fs.lookupIndexed dir name =
      fs.searchNode dir name root Htree.rootCountOffset (fs.hashIn root name) := by
  rw [lookupIndexed, hres]
  dsimp only [bind, Except.bind]
  rw [hread]
  dsimp only
  rw [if_neg (fun hne => hne hroot), if_neg (by omega)]

section OneLevel

variable {dir : Inode} {root : List UInt8} (h : fs.OneLevel dir root)

include h

theorem OneLevel.lookupIndexed_eq (name : List UInt8) : fs.lookupIndexed dir name =
    fs.followChain dir name (leavesOf root Htree.rootCountOffset (fs.hashIn root name)) := by
  obtain ⟨physical, hres, hread⟩ := h.indexed.rootRead
  rw [lookupIndexed_levels_zero hres hread h.indexed.isRoot h.levels, searchNode_eq h.holds]

/-- A name outside the root is found as the linear search finds it. -/
theorem OneLevel.lookupIndexed_name {name : List UInt8} (hname : name ∉ dots) :
    fs.lookupIndexed dir name = .ok (some (inodeOf name (fs.listing dir))) := by
  rw [h.lookupIndexed_eq]
  refine (followChain_agrees_iff h.indexed.listed
    (h.indexed.routed_leaves route_subset) name).mpr fun e he heq => ?_
  obtain ⟨x, hx, hmem⟩ := h.indexed.mem_route he (heq ▸ hname)
  exact ⟨x.2, List.mem_map_of_mem (heq ▸ hx), hmem⟩

/-- "." and ".." are listed, in the root. -/
theorem OneLevel.dots_listed {name : List UInt8} (hname : name ∈ dots) :
    ∃ e ∈ fs.listing dir, e.name = name ∧ e ∈ fs.entriesOf dir 0 := by
  rw [← h.indexed.rootNames] at hname
  obtain ⟨e, he, rfl⟩ := List.mem_map.mp hname
  obtain ⟨hmem, hlive⟩ := List.mem_filter.mp he
  have hentry := List.mem_of_getElem? (Htree.getElem?_entries h.holds.1)
  have hlt := (h.indexed.leaves _ hentry).2.1
  exact ⟨e, mem_listing_iff.mpr ⟨0, Nat.zero_lt_of_lt hlt, hmem, hlive⟩, rfl, hmem⟩

/-- No leaf holds them. -/
theorem OneLevel.lookupIndexed_dots {name : List UInt8} (hname : name ∈ dots) :
    fs.lookupIndexed dir name = .ok (some none) := by
  have hleaves : ∀ k ∈ leavesOf root Htree.rootCountOffset (fs.hashIn root name),
      k ≠ 0 ∧ k < fs.dirBlocks dir.size ∧ fs.dirBlock dir k ≠ .ok none := by
    intro k hk
    obtain ⟨x, hx, rfl⟩ := List.mem_map.mp hk
    exact h.indexed.leaves x (route_subset hx)
  have hlisted := h.indexed.listed
  rw [h.lookupIndexed_eq, followChain_mapped fun k hk =>
    ⟨hlisted.readable k (hleaves k hk).2.1, (hleaves k hk).2.2⟩]
  rw [List.find?_eq_none.mpr fun e he hmatch => ?_]
  · rfl
  · obtain ⟨k, hk, hmem⟩ := List.mem_flatMap.mp he
    obtain ⟨hne, hlt, -⟩ := hleaves k hk
    have hmatch : e.inode ≠ 0 ∧ e.name = name := by simpa using hmatch
    obtain ⟨e', he', hname', hroot⟩ := h.dots_listed hname
    have heq := List.inj_on_of_nodup_map hlisted.unique
      (mem_listing hlisted hlt hmem hmatch.1) he' (hmatch.2.trans hname'.symm)
    subst heq
    obtain ⟨-, -, -, hlive⟩ := mem_listing_iff.mp he'
    exact hne (hlisted.block_unique hlive hlt (Nat.zero_lt_of_lt hlt) hmem hroot)

/-- In every directory with a valid index of one level, `lookup_indexed` answers for every name
    other than "." and ".." what the linear search finds. -/
theorem lookupIndexed_oneLevel {name : List UInt8} (hname : name ∉ dots) :
    ∃ entries, fs.readDir dir = .ok entries ∧
      fs.lookupIndexed dir name =
        .ok (some ((entries.find? fun e => e.name == name).map DirEntry.inode)) :=
  ⟨fs.listing dir, readDir_listed h.indexed.listed, h.lookupIndexed_name hname⟩

end OneLevel

/-! ### Two names of one hash -/

/-- 16 blocks. Block 4 holds inode 2, a directory with these flags; block 5 its index root, blocks
    6 and 7 its leaves, with the names "bw9" and "fw9" of the same hash. -/
def indexImage (flags : List UInt8) : Device := .ofChunks 16384
  [(4 * 1024 + 128, [0xed, 0x41, 0, 0, 0, 0x0c]), (4 * 1024 + 128 + 0x20, flags),
    (4 * 1024 + 128 + 0x28, [5, 0, 0, 0, 6, 0, 0, 0, 7]),
    (5 * 1024, [2, 0, 0, 0, 12, 0, 1, 2, 0x2e, 0, 0, 0, 2, 0, 0, 0, 0xf4, 3, 2, 2, 0x2e, 0x2e]),
    (5 * 1024 + 29, [8, 0, 0, 124, 0, 2, 0, 1, 0, 0, 0, 0x3d, 0x0d, 0x28, 0x7e, 2]),
    (6 * 1024, [12, 0, 0, 0, 0, 4, 3, 1, 0x62, 0x77, 0x39]),
    (7 * 1024, [13, 0, 0, 0, 0, 4, 3, 1, 0x66, 0x77, 0x39])]

/-- A filesystem over the image, its inode table in block 4. -/
def indexFs (flags : List UInt8) : Filesystem where
  device := indexImage flags
  superblock := { Superblock.default with
    logBlockSize := 0, blocksCount := 16, inodesCount := 2, inodesPerGroup := 2, inodeSize := 128 }
  groupDescs := [{ inodeTable := 4 }]
  csumScheme := .none
  csumSeed := 0

def indexDir : Inode where
  mode := 0x41ed
  flags := IFlags.index
  size := 3072
  block := [5, 0, 0, 0, 6, 0, 0, 0, 7] ++ List.replicate 51 0

def indexRoot : List UInt8 := Lib.Store.window (indexImage [0, 0x10]).bytes (5 * 1024) 1024

theorem indexDir_oneLevel : (indexFs [0, 0x10]).OneLevel indexDir indexRoot where
  levels := by decide +kernel
  holds := by decide +kernel
  indexed := {
    listed := {
      isDir := by decide
      blockSize := by decide
      readable := by decide +kernel
      named := by decide +kernel
      unique := by decide +kernel }
    rootRead := ⟨5, by decide +kernel,
      readBlock_ok_iff.mpr ⟨by decide, by decide, by decide, rfl⟩⟩
    isRoot := by decide +kernel
    version := by decide +kernel
    rootNames := by decide +kernel
    ascending := by decide +kernel
    leaves := by decide +kernel
    stored := by decide +kernel }

/-- The second of two names of one hash, in the leaf that continues the first's. -/
theorem lookupIndexed_continued : [0x66, 0x77, 0x39] ∉ dots ∧
    ∃ entries, (indexFs [0, 0x10]).readDir indexDir = .ok entries ∧
      (indexFs [0, 0x10]).lookupIndexed indexDir [0x66, 0x77, 0x39] =
        .ok (some ((entries.find? fun e => e.name == [0x66, 0x77, 0x39]).map DirEntry.inode)) :=
  ⟨by decide, lookupIndexed_oneLevel indexDir_oneLevel (by decide)⟩

end Filesystem

end MkfsExt4
