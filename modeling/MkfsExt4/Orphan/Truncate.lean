/-
  Truncating an extent tree (`truncate`, `truncate_node` of `src/orphan.rs`).

  What a cut leaves of a tree is a tree again, of the blocks before the cut; the blocks that it no
  longer holds are those freed. The induction is on the depth of the tree, at each node over its
  entries; what one entry does leaves the blocks of the others alone (`Touches`), since no block is
  held twice.
-/
import MkfsExt4.Orphan.Nodes

namespace MkfsExt4

open Lib.Store Lib.Hoare Lib.Intervals Lib.Pruning

namespace Orphan

open Filesystem

variable {fs fs' : Filesystem} {inum generation cut depth lo hi : Nat} {header : ExtentHeader}
  {node : List UInt8} {held : List Held}

/-- What truncating the tree in `node` leaves: the tree in `node'`, of `left` entries, that holds
    `held'`. -/
structure Cut (fs fs' : Filesystem) (inum generation cut depth lo hi : Nat)
    (header : ExtentHeader) (node node' : List UInt8) (held held' : List Held) (left : Nat)
    (freed : List Nat) : Prop where
  tree : fs'.ExtentTree inum generation depth lo hi node' held'
  length : node'.length = node.length
  decode : ExtentHeader.decode node' = .ok { header with entries := left }
  le : left ≤ header.entries
  pruned : Pruned Held.pos Held.cell cut held held' freed
  touches : Touches fs fs' (held.map Held.cell)

/-- What `descend` does to a tree of this depth that holds no block twice. -/
def Cuts (inum generation cut depth : Nat) (descend : List UInt8 → FsM (List UInt8 × Nat × List Nat)) :
    Prop :=
  ∀ {fs fs' : Filesystem} {lo hi left : Nat} {header : ExtentHeader} {node node' : List UInt8}
    {held : List Held} {freed : List Nat}, fs.ExtentTree inum generation depth lo hi node held →
    ExtentHeader.decode node = .ok header → (held.map Held.cell).Nodup → hi < 2 ^ 64 →
    exec (descend node) fs = (.ok (node', left, freed), fs') →
    ∃ held', Cut fs fs' inum generation cut depth lo hi header node node' held held' left freed

/-- The child under an index, cut, stamped and written back in its block. -/
theorem Cut.under {fs₁ fs₂ : Filesystem} {leaf left : Nat} {node' out : List UInt8}
    {held' : List Held} {freed : List Nat} {idx : ExtentIdx} (hidx : idx.leaf = leaf)
    (h : Cut fs fs₁ inum generation cut depth lo hi header node node' held held' left freed)
    (hread : fs.readBlock leaf = .ok node) (hown : fs.OwnNode inum generation header node)
    (hleaf : leaf ∉ held.map Held.cell) (hleft : left ≠ 0)
    (hstamp : stampNode fs₁ inum generation node' = .ok out)
    (hwrite : exec (writeBlock leaf out) fs₁ = (.ok (), fs₂)) :
    fs₂.Under inum generation (fs₂.ExtentTree inum generation depth) lo hi idx
        (Held.node leaf :: held') ∧
      Touches fs fs₂ (leaf :: held.map Held.cell) := by
  have hcsum := h.touches.hasMetadataCsum
  obtain ⟨hlen, htake, hsum⟩ := stampNode_ok h.decode
    (fun hyes => by rw [h.length]; exact (hown.csum (hcsum ▸ hyes)).1) hstamp
  have hsize : out.length = fs₁.blockSize := by
    rw [hlen, h.length, length_of_readBlock hread, h.touches.blockSize]
  have hwritten := writeBlock_touches hsize hwrite
  have hread₁ : fs₁.readBlock leaf = .ok node := (h.touches.reads leaf hleaf).trans hread
  have hmax : left ≤ header.max := Nat.le_trans h.le hown.max
  have hentries : out.take (Extent.headerLen + left * Extent.entryLen) =
      node'.take (Extent.headerLen + left * Extent.entryLen) := by
    have hle : Extent.headerLen + left * Extent.entryLen ≤ Extent.tailOffset header.max :=
      Nat.add_le_add_left (Nat.mul_le_mul_right _ hmax) _
    rw [← Nat.min_eq_left hle, ← List.take_take, ← List.take_take]
    exact congrArg (List.take _) htake
  have hdecode : ExtentHeader.decode out = .ok { header with entries := left } := by
    rw [← h.decode]
    exact ExtentHeader.decode_congr (slice_congr_take hentries (by omega))
  have hapart : ∀ x ∈ held', x.cell ∉ [leaf] := fun x hx hin =>
    hleaf (h.pruned.cells_subset (List.mem_map.mpr ⟨x, hx, List.mem_singleton.mp hin⟩))
  refine ⟨⟨out, { header with entries := left }, held', ?_, hdecode, ⟨?_, hmax, ?_⟩, ?_, ?_⟩, ?_⟩
  · rw [hidx]
    exact readBlock_of_written hsize hread₁ hwrite
  · exact Nat.pos_of_ne_zero hleft
  · rw [hwritten.hasMetadataCsum, Stamped, hwritten.csumSeed]
    exact hsum
  · exact (h.tree.congr h.decode hlen hentries).touched hwritten hapart
  · rw [hidx]
  · exact (h.touches.mono (List.subset_cons_self _ _)).trans
      (hwritten.mono fun _ hb => List.mem_singleton.mp hb ▸ List.mem_cons_self)

/-- What one index entry does to the blocks under it. -/
theorem truncateEntry_under {descend : List UInt8 → FsM (List UInt8 × Nat × List Nat)}
    (hdescend : Cuts inum generation cut depth descend) {idx : ExtentIdx} {next mid : Nat}
    {keep : Bool} {freed : List Nat}
    (hunder : fs.Under inum generation (fs.ExtentTree inum generation depth) idx.block mid idx held)
    (hnodup : (held.map Held.cell).Nodup) (hmid : mid ≤ next) (hnext : next < 2 ^ 64)
    (hrun : exec (truncateEntry inum generation cut descend idx next) fs =
      (.ok (keep, freed), fs')) :
    ∃ held', (if keep then fs'.Under inum generation (fs'.ExtentTree inum generation depth)
        idx.block mid idx held' else held' = []) ∧
      Pruned Held.pos Held.cell cut held held' freed ∧ Touches fs fs' (held.map Held.cell) := by
  have hwithin := ExtentTree.under_within hunder
  have hsame := hunder
  obtain ⟨node, header, below, hread, hdecode, hown, htree, rfl⟩ := hunder
  rw [List.map_cons, Held.cell_node] at hnodup
  obtain ⟨hleaf, hbelow⟩ := List.nodup_cons.mp hnodup
  unfold truncateEntry at hrun
  split at hrun
  · next hpast =>
    -- past the cut: the whole subtree goes
    obtain ⟨all, fs₁, hcollect, hend⟩ := exec_bind_ok hrun
    obtain ⟨hcollect, rfl⟩ := reading_ok hcollect
    obtain ⟨heq, rfl⟩ := exec_pure_ok hend
    obtain ⟨rfl, rfl⟩ := Prod.mk.inj heq
    refine ⟨[], rfl, Pruned.drop (fun x hx n hn => ?_)
      (collectExtentSubtree_tree hcollect hread htree), Touches.refl _ _⟩
    exact Nat.le_trans hpast (hwithin x hx n hn).1
  split at hrun
  · next hbefore =>
    -- all of it before the cut
    obtain ⟨heq, rfl⟩ := exec_pure_ok hrun
    obtain ⟨rfl, rfl⟩ := Prod.mk.inj heq
    refine ⟨_, hsame, Pruned.keep fun x hx n hn => ?_, Touches.refl _ _⟩
    have := (hwithin x hx n hn).2
    omega
  · obtain ⟨child, fs₁, hchild, hrest⟩ := exec_bind_ok hrun
    obtain ⟨hchild, rfl⟩ := reading_ok hchild
    obtain rfl := Except.ok.inj (hread.symm.trans hchild)
    obtain ⟨⟨node', left, gone⟩, fs₂, hcut, hrest⟩ := exec_bind_ok hrest
    obtain ⟨held', hcut⟩ := hdescend htree hdecode hbelow (by omega) hcut
    dsimp only at hrest
    split at hrest
    · next hzero =>
      -- nothing is left under it: its node goes too
      obtain ⟨heq, rfl⟩ := exec_pure_ok hrest
      obtain ⟨rfl, rfl⟩ := Prod.mk.inj heq
      obtain rfl := hcut.tree.eq_nil hcut.decode hzero
      exact ⟨[], rfl, Pruned.cons_drop rfl hcut.pruned,
        hcut.touches.mono (List.subset_cons_self _ _)⟩
    · next hleft =>
      obtain ⟨out, fs₃, hstamp, hafter⟩ := exec_bind_ok hrest
      obtain ⟨hstamp, rfl⟩ := reading_ok hstamp
      obtain ⟨_, fs₄, hwrite, hend⟩ := exec_bind_ok hafter
      obtain ⟨heq, rfl⟩ := exec_pure_ok hend
      obtain ⟨rfl, rfl⟩ := Prod.mk.inj heq
      obtain ⟨hunder', htouches⟩ := hcut.under rfl hread hown hleaf hleft hstamp hwrite
      exact ⟨_, hunder', Pruned.cons_keep rfl hcut.pruned, htouches⟩

/-- What the index entries from the `i`-th on do to the blocks under them. -/
theorem truncateEntries_branches {descend : List UInt8 → FsM (List UInt8 × Nat × List Nat)}
    (hdescend : Cuts inum generation cut depth descend) {entries : Nat}
    (hraw : ∀ i < entries, (Extent.entry node i).length = Extent.entryLen) (hhi : hi < 2 ^ 64)
    {n i : Nat} (hn : i + n = entries) {kept : List (List UInt8)} {freed : List Nat}
    (hbranches : Branches ExtentIdx.block
      (fs.Under inum generation (fs.ExtentTree inum generation depth)) lo hi
      ((List.range' i n).map fun i => ExtentIdx.decode (Extent.entry node i)) held)
    (hnodup : (held.map Held.cell).Nodup)
    (hrun : exec (truncateEntries inum generation cut descend node entries (List.range' i n)) fs =
      (.ok (kept, freed), fs')) :
    ∃ held', Branches ExtentIdx.block
        (fs'.Under inum generation (fs'.ExtentTree inum generation depth)) lo hi
        (kept.map ExtentIdx.decode) held' ∧
      Pruned Held.pos Held.cell cut held held' freed ∧
      Touches fs fs' (held.map Held.cell) ∧ kept.length ≤ n ∧
      ∀ raw ∈ kept, raw.length = Extent.entryLen := by
  have htree_le : ∀ {fs : Filesystem} {lo hi : Nat} {idx : ExtentIdx} {held : List Held},
      fs.Under inum generation (fs.ExtentTree inum generation depth) lo hi idx held → lo ≤ hi :=
    fun ⟨_, _, _, _, _, _, htree, _⟩ => htree.le
  induction n generalizing i lo held fs kept freed with
  | zero =>
    obtain ⟨heq, rfl⟩ := exec_pure_ok hrun
    obtain ⟨rfl, rfl⟩ := Prod.mk.inj heq
    cases hbranches with
    | nil hle => exact ⟨[], .nil hle, Pruned.nil, Touches.refl _ _, Nat.le_refl 0,
        fun _ hmem => absurd hmem List.not_mem_nil⟩
  | succ n ih =>
    rw [List.range'_succ, List.map_cons] at hbranches
    rw [List.range'_succ, truncateEntries] at hrun
    cases hbranches with
    | @cons _ mid _ _ _ as bs hlo hhead hrest =>
      rw [List.map_append] at hnodup
      obtain ⟨has, hbs, hapart⟩ := List.nodup_append.mp hnodup
      -- the child under this index ends before the next one's key
      have hle := hrest.le htree_le
      have hmid : mid ≤ if i + 1 < entries then (ExtentIdx.decode (Extent.entry node (i + 1))).block
          else 2 ^ 64 - 1 := by
        split
        · obtain ⟨m, rfl⟩ : ∃ m, n = m + 1 := ⟨n - 1, by omega⟩
          rw [List.range'_succ, List.map_cons] at hrest
          cases hrest with
          | cons hkey _ _ => exact hkey
        · omega
      have hnext : (if i + 1 < entries then (ExtentIdx.decode (Extent.entry node (i + 1))).block
          else 2 ^ 64 - 1) < 2 ^ 64 := by
        split
        · exact Nat.lt_of_lt_of_le (getU32_lt _ _) (Nat.pow_le_pow_right (by decide) (by decide))
        · decide
      obtain ⟨⟨keep, gone⟩, fs₁, hentry, hrun⟩ := exec_bind_ok hrun
      obtain ⟨⟨kept', more⟩, fs₂, hentries, hrun⟩ := exec_bind_ok hrun
      obtain ⟨heq, rfl⟩ := exec_pure_ok hrun
      obtain ⟨rfl, rfl⟩ := Prod.mk.inj heq
      obtain ⟨as', hkept, hpruned, htouches⟩ :=
        truncateEntry_under hdescend hhead has hmid hnext hentry
      -- the blocks of the other children stand as they did
      have hrest₁ : Branches ExtentIdx.block
          (fs₁.Under inum generation (fs₁.ExtentTree inum generation depth)) mid hi
          ((List.range' (i + 1) n).map fun i => ExtentIdx.decode (Extent.entry node i)) bs :=
        hrest.imp_of_subset fun hsub hunder => Under.touched htouches
          (fun htree hother => htree.touched htouches hother) hunder fun x hx hin =>
            hapart _ hin _ (List.mem_map_of_mem (hsub hx)) rfl
      obtain ⟨bs', hbranches', hpruned', htouches', hcount, hraw'⟩ :=
        ih (by omega) hrest₁ hbs hentries
      have hboth : Touches fs fs' ((as ++ bs).map Held.cell) := by
        rw [List.map_append]
        exact (htouches.mono (List.subset_append_left _ _)).trans
          (htouches'.mono (List.subset_append_right _ _))
      refine ⟨as' ++ bs', ?_, hpruned.append hpruned', hboth, ?_⟩
      · cases keep with
        | false =>
          obtain rfl : as' = [] := hkept
          exact hbranches'.mono (Nat.le_trans hlo (htree_le hhead))
        | true =>
          have hunder := Under.touched htouches'
            (fun htree hother => htree.touched htouches' hother) hkept fun x hx hin =>
              hapart _ (hpruned.cells_subset (List.mem_map_of_mem hx)) _ hin rfl
          exact Branches.cons hlo hunder hbranches'
      · cases keep with
        | false => exact ⟨Nat.le_succ_of_le hcount, hraw'⟩
        | true =>
          refine ⟨Nat.succ_le_succ hcount, fun raw hmem => ?_⟩
          rcases List.mem_cons.mp hmem with rfl | hmem
          · exact hraw i (by omega)
          · exact hraw' raw hmem

/-- What `truncate_node` does when it ends well. -/
theorem truncateNode_ok {fuel left : Nat} {isRoot : Bool} {node' : List UInt8} {freed : List Nat}
    (hdecode : ExtentHeader.decode node = .ok header)
    (hrun : exec (truncateNode inum generation cut fuel isRoot node) fs =
      (.ok (node', left, freed), fs')) :
    ∃ fuel' kept, exec (if header.depth = 0 then pure (cutLeaf cut node (List.range header.entries))
        else truncateEntries inum generation cut (truncateNode inum generation cut fuel' false) node
          header.entries (List.range header.entries)) fs = (.ok (kept, freed), fs') ∧
      node' = rewriteNode header node kept ∧ left = kept.length := by
  cases fuel with
  | zero => cases hrun
  | succ fuel =>
    rw [truncateNode] at hrun
    obtain ⟨header', fs₁, hread, hrest⟩ := exec_bind_ok hrun
    obtain ⟨hreturned, rfl⟩ := reading_ok hread
    obtain rfl := Except.ok.inj (hdecode.symm.trans (returned_ok hreturned))
    dsimp only at hrest
    generalize (if isRoot = true then Extent.inlineLen else node.length) = space at hrest
    split at hrest
    · obtain ⟨_, _, hthrow, -⟩ := exec_bind_ok hrest
      cases hthrow
    · by_cases hdepth : header.depth = 0
      · rw [if_pos hdepth] at hrest
        obtain ⟨⟨kept, gone⟩, fs₂, hkept, hend⟩ := exec_bind_ok hrest
        obtain ⟨heq, rfl⟩ := exec_pure_ok hend
        obtain ⟨hnode', hrest⟩ := Prod.mk.inj heq
        obtain ⟨hleft, rfl⟩ := Prod.mk.inj hrest
        refine ⟨fuel, kept, ?_, hnode', hleft⟩
        rw [if_pos hdepth]
        exact hkept
      · rw [if_neg hdepth] at hrest
        obtain ⟨⟨kept, gone⟩, fs₂, hkept, hend⟩ := exec_bind_ok hrest
        obtain ⟨heq, rfl⟩ := exec_pure_ok hend
        obtain ⟨hnode', hrest⟩ := Prod.mk.inj heq
        obtain ⟨hleft, rfl⟩ := Prod.mk.inj hrest
        refine ⟨fuel, kept, ?_, hnode', hleft⟩
        rw [if_neg hdepth]
        exact hkept

/-- A node whose entries kept hold a tree. -/
theorem Cut.of_kept {left : Nat} {node' : List UInt8} {held' : List Held} {freed : List Nat}
    {kept : List (List UInt8)} (hnode : IsNode node depth header)
    (hmax : header.entries ≤ ExtentHeader.maxEntries node.length false)
    (hnode' : node' = rewriteNode header node kept) (hleft : left = kept.length)
    (hcount : kept.length ≤ header.entries)
    (htree : IsNode node' depth { header with entries := left } →
      left ≤ ExtentHeader.maxEntries node'.length false →
      fs'.ExtentTree inum generation depth lo hi node' held')
    (hpruned : Pruned Held.pos Held.cell cut held held' freed)
    (htouches : Touches fs fs' (held.map Held.cell)) :
    Cut fs fs' inum generation cut depth lo hi header node node' held held' left freed := by
  have hlen : node'.length = node.length := by rw [hnode', length_rewriteNode]
  have hdecode : ExtentHeader.decode node' = .ok { header with entries := left } := by
    rw [hnode', hleft]
    exact decode_rewriteNode hnode.decode (Nat.le_trans (Nat.le_add_right _ _) hnode.room) hcount
  have hle : left ≤ header.entries := hleft ▸ hcount
  have hroom : Extent.headerLen + left * Extent.entryLen ≤ node'.length := by
    rw [hlen]
    exact Nat.le_trans (Nat.add_le_add_left (Nat.mul_le_mul_right _ hle) _) hnode.room
  exact ⟨htree ⟨hdecode, hnode.depth, hroom⟩ (hlen ▸ Nat.le_trans hle hmax), hlen, hdecode, hle,
    hpruned, htouches⟩

/-- `truncate_node` on a tree of any depth. -/
theorem truncateNode_cuts (inum generation cut depth fuel : Nat) (isRoot : Bool) :
    Cuts inum generation cut depth (truncateNode inum generation cut fuel isRoot) := by
  induction depth generalizing fuel isRoot with
  | zero =>
    intro fs fs' lo hi left header node node' held freed htree hdecode hnodup hhi hrun
    obtain ⟨header', hnode, hmax, hord, rfl⟩ := htree
    obtain rfl : header = header' := Except.ok.inj (hdecode.symm.trans hnode.decode)
    obtain ⟨fuel', kept, hkept, hnode', hleft⟩ := truncateNode_ok hdecode hrun
    rw [if_pos hnode.depth] at hkept
    obtain ⟨heq, hfs⟩ := exec_pure_ok hkept
    subst hfs
    obtain ⟨hord', hpruned, hcount, hraw⟩ := @cutLeaf_pruned node cut lo hi _
      (fun i hi => length_entry hnode.room (List.mem_range.mp hi)) hord
    have hfst : (cutLeaf cut node (List.range header.entries)).1 = kept :=
      congrArg Prod.fst heq.symm
    have hsnd : (cutLeaf cut node (List.range header.entries)).2 = freed :=
      congrArg Prod.snd heq.symm
    rw [hfst] at hord' hcount hraw
    rw [hfst, hsnd] at hpruned
    rw [List.length_range] at hcount
    have hexts : extentsIn node' left = kept.map Extent.decode := by
      rw [extentsIn, hnode', hleft]
      conv_rhs => rw [← entries_rewriteNode hnode.room hcount hraw, List.map_map]
      rfl
    refine ⟨(kept.map Extent.decode).flatMap Held.ofExtent, Cut.of_kept hnode hmax hnode' hleft
      hcount (fun hnode'' hmax' => ⟨_, hnode'', hmax', ?_⟩) hpruned (Touches.refl _ _)⟩
    rw [hexts]
    exact ⟨hord', rfl⟩
  | succ depth ih =>
    intro fs fs' lo hi left header node node' held freed htree hdecode hnodup hhi hrun
    obtain ⟨header', hnode, hmax, hbranches⟩ := htree
    obtain rfl : header = header' := Except.ok.inj (hdecode.symm.trans hnode.decode)
    obtain ⟨fuel', kept, hkept, hnode', hleft⟩ := truncateNode_ok hdecode hrun
    rw [if_neg (by rw [hnode.depth]; omega), List.range_eq_range'] at hkept
    rw [indicesIn, List.range_eq_range'] at hbranches
    obtain ⟨held', hbranches', hpruned, htouches, hcount, hraw⟩ :=
      truncateEntries_branches (ih fuel' false) (fun i hi => length_entry hnode.room hi) hhi
        (Nat.zero_add _) hbranches hnodup hkept
    have hidxs : indicesIn node' left = kept.map ExtentIdx.decode := by
      rw [indicesIn, hnode', hleft]
      conv_rhs => rw [← entries_rewriteNode hnode.room hcount hraw, List.map_map]
      rfl
    refine ⟨held', Cut.of_kept hnode hmax hnode' hleft hcount
      (fun hnode'' hmax' => ⟨_, hnode'', hmax', ?_⟩) hpruned htouches⟩
    rw [hidxs]
    exact hbranches'

/-- What is left of a tree has no more nodes than it had. -/
theorem nodeCount_le {held' : List Held} {freed : List Nat}
    (h : Pruned Held.pos Held.cell cut held held' freed) : nodeCount held' ≤ nodeCount held := by
  have hle := h.others.length_le
  rwa [← List.countP_eq_length_filter, ← List.countP_eq_length_filter] at hle

/-- A root with nothing in it is an empty leaf afterwards. -/
theorem emptyRoot_ok {out : List UInt8} (hle : lo ≤ hi) (hroom : Extent.headerLen ≤ node.length)
    (hdecode : ExtentHeader.decode node = .ok header) (hzero : header.entries = 0)
    (h : emptyRoot node = .ok out) :
    out.length = node.length ∧ fs.ExtentTree inum generation 0 lo hi out [] ∧
      ∃ header, IsNode out 0 header ∧ header.entries = 0 := by
  have htree : ∀ {header' : ExtentHeader}, header'.entries = 0 → header'.depth = 0 →
      ExtentHeader.decode out = .ok header' → out.length = node.length →
      out.length = node.length ∧ fs.ExtentTree inum generation 0 lo hi out [] ∧
        ∃ header, IsNode out 0 header ∧ header.entries = 0 := by
    intro header' hentries hdepth hdecode' hlen
    have hnode : IsNode out 0 header' := ⟨hdecode', hdepth, by rw [hentries, hlen]; omega⟩
    refine ⟨hlen, ⟨header', hnode, hentries ▸ Nat.zero_le _, ?_, ?_⟩, header', hnode, hentries⟩
    · rw [hentries]
      exact hle
    · rw [hentries]
      rfl
  unfold emptyRoot at h
  obtain ⟨header', hheader, h⟩ := bind_ok h
  obtain rfl := Except.ok.inj (hdecode.symm.trans (returned_ok hheader))
  have htyped := ExtentHeader.typed_of_decode hdecode
  split at h
  · next hdepth =>
    obtain rfl := Except.ok.inj h
    exact htree hzero hdepth hdecode rfl
  · obtain rfl := Except.ok.inj h
    refine htree ?_ ?_ (ExtentHeader.decode_encodeInto ⟨htyped.entries,
      ExtentHeader.maxEntries_lt _ _, Nat.two_pow_pos 16, htyped.generation⟩ hroom) ?_
    · exact hzero
    · rfl
    · exact ExtentHeader.length_encodeInto _ _

/-- A walk goes over what is left of a tree that one went over before. -/
theorem walk_cut {inode inode' : Inode} {depth' : Nat} {held' : List Held} {freed : List Nat}
    (hlen : inode.block.length = iBlockLen) (hlen' : inode'.block.length = iBlockLen)
    (htree : fs.ExtentTree inum generation depth lo hi inode.block held)
    (htree' : fs'.ExtentTree inum generation depth' lo hi inode'.block held')
    (hpruned : Pruned Held.pos Held.cell cut held held' freed) {refs : List BlockRef}
    (hwalk : fs.walkExtents inode = (refs, .ok ())) :
    ∃ refs', fs'.walkExtents inode' = (refs', .ok ()) ∧ refs'.Perm (held'.map Held.ref) := by
  have hcount := (walkExtents_tree hlen htree).2 ⟨refs, hwalk⟩
  exact (walkExtents_tree hlen' htree').1 (Nat.lt_of_le_of_lt (nodeCount_le hpruned) hcount)

/-- Truncating a tree leaves a tree of what was before the cut, each block at its place and
    written or not as it was; what it no longer holds is freed. A walk visits what is left, and
    with no data left the root is an empty leaf. -/
theorem truncate_extents {inode inode' : Inode} {freed : List Nat}
    (hext : inode.usesExtents = true) (hlen : inode.block.length = iBlockLen)
    (htree : fs.ExtentTree inum inode.generation depth lo hi inode.block held) (hhi : hi < 2 ^ 64)
    (hnodup : (held.map Held.cell).Nodup)
    (hrun : exec (truncate inode inum cut) fs = (.ok (inode', freed), fs')) :
    ∃ depth' held', inode' = { inode with block := inode'.block } ∧
      fs'.ExtentTree inum inode'.generation depth' lo hi inode'.block held' ∧
      Pruned Held.pos Held.cell cut held held' freed ∧
      (∀ b ∈ freed, b ∉ held'.map Held.cell) ∧
      (∀ refs, fs.walkExtents inode = (refs, .ok ()) → ∃ refs',
        fs'.walkExtents inode' = (refs', .ok ()) ∧ refs'.Perm (held'.map Held.ref)) ∧
      (held'.filter (placed Held.pos) = [] → held' = [] ∧
        ∃ header, IsNode inode'.block 0 header ∧ header.entries = 0) := by
  unfold truncate at hrun
  rw [if_pos hext] at hrun
  obtain ⟨fuel, fs₁, hfuel, hrest⟩ := exec_bind_ok hrun
  obtain ⟨-, rfl⟩ := reading_ok hfuel
  obtain ⟨⟨root, entries, gone⟩, fs₂, hnode, hrest⟩ := exec_bind_ok hrest
  obtain ⟨header, hheader, -⟩ := htree.header
  obtain ⟨held', hcut⟩ := truncateNode_cuts inum inode.generation cut depth fuel true htree
    hheader.decode hnodup hhi hnode
  have hroom : Extent.headerLen ≤ root.length := by
    rw [hcut.length, hlen]
    decide
  dsimp only at hrest
  split at hrest
  · next hzero =>
    obtain ⟨out, fs₃, hread, hend⟩ := exec_bind_ok hrest
    obtain ⟨hempty, rfl⟩ := reading_ok hread
    obtain ⟨heq, rfl⟩ := exec_pure_ok hend
    obtain ⟨rfl, rfl⟩ := Prod.mk.inj heq
    obtain rfl := hcut.tree.eq_nil hcut.decode hzero
    obtain ⟨hlen', htree', hroot⟩ := emptyRoot_ok htree.le hroom hcut.decode hzero hempty
    exact ⟨0, [], rfl, htree', hcut.pruned, hcut.pruned.disjoint hnodup,
      fun refs hwalk => walk_cut hlen (hlen'.trans (hcut.length.trans hlen)) htree htree'
        hcut.pruned hwalk, fun _ => ⟨rfl, hroot⟩⟩
  · next hleft =>
    obtain ⟨out, fs₃, hsame, hend⟩ := exec_bind_ok hrest
    obtain ⟨rfl, rfl⟩ := exec_pure_ok hsame
    obtain ⟨heq, rfl⟩ := exec_pure_ok hend
    obtain ⟨rfl, rfl⟩ := Prod.mk.inj heq
    refine ⟨depth, held', rfl, hcut.tree, hcut.pruned, hcut.pruned.disjoint hnodup,
      fun refs hwalk => walk_cut hlen (hcut.length.trans hlen) htree hcut.tree hcut.pruned hwalk,
      fun hnone => ?_⟩
    obtain ⟨x, hx, hplaced⟩ := hcut.tree.exists_data hcut.decode (Nat.pos_of_ne_zero hleft)
    have hmem := List.mem_filter.mpr ⟨hx, hplaced⟩
    rw [hnone] at hmem
    exact absurd hmem List.not_mem_nil

/-- 16 blocks; block 5 is a leaf of three extents, the second never written. -/
def treeFs : Filesystem where
  device := .ofChunks 16384 [(5 * 1024, [0x0a, 0xf3, 3, 0, 84, 0, 0, 0, 0, 0, 0, 0,
    0, 0, 0, 0, 2, 0, 0, 0, 6, 0, 0, 0, 4, 0, 0, 0, 2, 0x80, 0, 0, 9, 0, 0, 0,
    8, 0, 0, 0, 1, 0, 0, 0, 12, 0, 0, 0])]
  superblock := { Superblock.default with
    logBlockSize := 0, blocksCount := 16, inodesCount := 2, inodesPerGroup := 2, inodeSize := 128 }
  groupDescs := [{ inodeTable := 4 }]
  csumScheme := .none
  csumSeed := 0

def treeInode : Inode where
  mode := 0x81a4
  flags := IFlags.extents
  block := [0x0a, 0xf3, 1, 0, 4, 0, 1, 0, 0, 0, 0, 0, 0, 0, 0, 0, 5, 0, 0, 0] ++
    List.replicate 40 0

def treeHeld : List Held := [.node 5, { ref := dataRef 0 6 }, { ref := dataRef 1 7 },
  { ref := dataRef 4 9, uninit := true }, { ref := dataRef 5 10, uninit := true },
  { ref := dataRef 8 12 }]

/-- The header of the leaf. -/
def treeLeaf : ExtentHeader := { entries := 3, max := 84, depth := 0, generation := 0 }

theorem treeInode_tree : treeFs.ExtentTree 12 0 1 0 16 treeInode.block treeHeld := by
  have hread : treeFs.readBlock 5 = .ok (window treeFs.device.bytes (5 * 1024) 1024) :=
    readBlock_ok_iff.mpr ⟨by decide, by decide, by decide, rfl⟩
  refine ⟨{ entries := 1, max := 4, depth := 1, generation := 0 }, ⟨by decide, rfl, by decide⟩,
    by decide, ?_⟩
  have hidx : indicesIn treeInode.block 1 = [{ block := 0, leaf := 5 }] := by decide
  rw [hidx]
  have hunder : treeFs.Under 12 0 (treeFs.ExtentTree 12 0 0) 0 16 { block := 0, leaf := 5 }
      treeHeld := by
    refine ⟨_, treeLeaf, treeHeld.tail, hread, by decide +kernel, ⟨by decide, by decide, nofun⟩,
      ?_, rfl⟩
    exact ⟨treeLeaf, ⟨by decide +kernel, rfl, by rw [length_window]; decide⟩,
      by rw [length_window]; decide, by decide +kernel, by decide +kernel⟩
  have hall : Branches ExtentIdx.block (treeFs.Under 12 0 (treeFs.ExtentTree 12 0 0)) 0 16
      [{ block := 0, leaf := 5 }] (treeHeld ++ []) :=
    Branches.cons (Nat.zero_le _) hunder (.nil (Nat.le_refl 16))
  exact hall

/-- A cut across the extent never written. -/
theorem truncate_extents_across : ∃ inode' fs' depth' held',
    exec (truncate treeInode 12 5) treeFs = (.ok (inode', [10, 12]), fs') ∧
      fs'.ExtentTree 12 inode'.generation depth' 0 16 inode'.block held' ∧
      Pruned Held.pos Held.cell 5 treeHeld held' [10, 12] := by
  have hruns : (exec (truncate treeInode 12 5) treeFs).1.toOption.map Prod.snd = some [10, 12] := by
    decide +kernel
  rcases hrun : exec (truncate treeInode 12 5) treeFs with ⟨_ | ⟨inode', freed⟩, fs'⟩
  · rw [hrun] at hruns
    cases hruns
  · rw [hrun] at hruns
    obtain rfl : freed = [10, 12] := Option.some.inj hruns
    obtain ⟨depth', held', -, htree, hpruned, -⟩ := truncate_extents (by decide) (by decide)
      treeInode_tree (by decide) (by decide) hrun
    exact ⟨inode', fs', depth', held', rfl, htree, hpruned⟩

end Orphan

end MkfsExt4
