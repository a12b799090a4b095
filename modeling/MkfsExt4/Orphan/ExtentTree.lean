/-
  Extent trees with the blocks they own.

  `ExtentTree` says what a well-formed tree is and which blocks it holds: the data under its
  extents and the nodes it keeps in blocks of their own, each with its checksum. A walk visits
  these blocks (`walkExtents_tree`), and `collect_extent_subtree` collects them
  (`collectExtentSubtree_tree`).
-/
import MkfsExt4.Fs.Touched
import MkfsExt4.Lib.Pruning
import MkfsExt4.Orphan
import MkfsExt4.Read.Walks
import MkfsExt4.Structs.ExtentCodec

namespace MkfsExt4

open Lib.Store Lib.Hoare Lib.Intervals Lib.Pruning

/-- A block of a map as a walk visits it, and whether its extent was never written. -/
structure Held where
  ref : BlockRef
  uninit : Bool := false
deriving DecidableEq, Repr

namespace Held

def pos (h : Held) : Option Nat := h.ref.logical

def cell (h : Held) : Nat := h.ref.physical

/-- A block of the map itself. -/
def node (block : Nat) : Held := { ref := Filesystem.mapRef block }

/-- The blocks of an extent. -/
def ofExtent (ext : Extent) : List Held :=
  (Filesystem.extentRefs ext).map fun ref => { ref, uninit := ext.isUninit }

@[simp] theorem pos_node (block : Nat) : (node block).pos = none := rfl

@[simp] theorem cell_node (block : Nat) : (node block).cell = block := rfl

theorem map_cell_ofExtent (ext : Extent) :
    (ofExtent ext).map cell = List.range' ext.start ext.effectiveLen := by
  rw [ofExtent, List.map_map, Filesystem.extentRefs, List.map_map, List.range'_eq_map_range]
  rfl

theorem pos_ofExtent {ext : Extent} {h : Held} (hh : h ∈ ofExtent ext) {n : Nat}
    (hn : n ∈ h.pos) : ext.block ≤ n ∧ n < ext.block + ext.effectiveLen := by
  obtain ⟨ref, href, rfl⟩ := List.mem_map.mp hh
  obtain ⟨k, hk, rfl⟩ := List.mem_map.mp href
  have hk := List.mem_range.mp hk
  have hn : ext.block + k = n := Option.some.inj hn
  omega

end Held

namespace Filesystem

variable (fs : Filesystem) (inum generation : Nat)

/-- A node's tail is in its block and matches its contents. -/
def Stamped (header : ExtentHeader) (node : List UInt8) : Prop :=
  Extent.tailOffset header.max + Extent.tailLen ≤ node.length ∧
    getU32 node (Extent.tailOffset header.max) =
      Csum.extentBlockCsum fs.csumSeed inum generation
        (node.take (Extent.tailOffset header.max))

/-- A node in a block of its own: not empty, its entries within its maximum, its checksum right
    where the filesystem carries one. -/
structure OwnNode (header : ExtentHeader) (node : List UInt8) : Prop where
  nonempty : 0 < header.entries
  max : header.entries ≤ header.max
  csum : fs.hasMetadataCsum = true → fs.Stamped inum generation header node

/-- The blocks held under an index: those of the tree in the block it leads to, and that. -/
def Under (tree : Nat → Nat → List UInt8 → List Held → Prop) (lo hi : Nat) (idx : ExtentIdx)
    (held : List Held) : Prop :=
  ∃ node header below, fs.readBlock idx.leaf = .ok node ∧
    ExtentHeader.decode node = .ok header ∧ fs.OwnNode inum generation header node ∧
    tree lo hi node below ∧ held = Held.node idx.leaf :: below

/-- What an index leads to is still there where none of its blocks was written. -/
theorem Under.touched {fs fs' : Filesystem} {inum generation : Nat}
    {tree tree' : Nat → Nat → List UInt8 → List Held → Prop} {blocks : List Nat}
    (hfs : Touches fs fs' blocks)
    (htrees : ∀ {lo hi : Nat} {node : List UInt8} {held : List Held}, tree lo hi node held →
      (∀ x ∈ held, x.cell ∉ blocks) → tree' lo hi node held)
    {lo hi : Nat} {idx : ExtentIdx} {held : List Held}
    (h : fs.Under inum generation tree lo hi idx held) (hother : ∀ x ∈ held, x.cell ∉ blocks) :
    fs'.Under inum generation tree' lo hi idx held := by
  obtain ⟨node, header, below, hread, hdecode, hown, htree, rfl⟩ := h
  refine ⟨node, header, below, ?_, hdecode, ⟨hown.nonempty, hown.max, ?_⟩, ?_, rfl⟩
  · exact (hfs.reads _ (hother _ List.mem_cons_self)).trans hread
  · rw [hfs.hasMetadataCsum, Stamped, hfs.csumSeed]
    exact hown.csum
  · exact htrees htree fun x hx => hother x (List.mem_cons_of_mem _ hx)

/-- `node` is the root of a well-formed tree over the logical blocks `lo..hi` that holds these
    blocks. -/
def ExtentTree : (depth lo hi : Nat) → List UInt8 → List Held → Prop
  | 0, lo, hi, node, held => ∃ header, IsNode node 0 header ∧
      header.entries ≤ ExtentHeader.maxEntries node.length false ∧
      Ordered Extent.block Extent.effectiveLen lo hi (extentsIn node header.entries) ∧
      held = (extentsIn node header.entries).flatMap Held.ofExtent
  | depth + 1, lo, hi, node, held => ∃ header, IsNode node (depth + 1) header ∧
      header.entries ≤ ExtentHeader.maxEntries node.length false ∧
      Branches ExtentIdx.block (fs.Under inum generation (ExtentTree depth)) lo hi
        (indicesIn node header.entries) held

variable {fs inum generation} {depth lo hi : Nat} {node : List UInt8} {held : List Held}

namespace ExtentTree

theorem header (h : fs.ExtentTree inum generation depth lo hi node held) :
    ∃ header, IsNode node depth header ∧
      header.entries ≤ ExtentHeader.maxEntries node.length false := by
  cases depth with
  | zero =>
    obtain ⟨header, hnode, hmax, -⟩ := h
    exact ⟨header, hnode, hmax⟩
  | succ depth =>
    obtain ⟨header, hnode, hmax, -⟩ := h
    exact ⟨header, hnode, hmax⟩

theorem le (h : fs.ExtentTree inum generation depth lo hi node held) : lo ≤ hi := by
  induction depth generalizing lo hi node held with
  | zero =>
    obtain ⟨_, _, _, hord, _⟩ := h
    exact hord.le
  | succ depth ih =>
    obtain ⟨_, _, _, hbranches⟩ := h
    exact hbranches.le fun ⟨_, _, _, _, _, _, htree, _⟩ => ih htree

/-- The data lie within the logical blocks the tree is over. -/
theorem within (h : fs.ExtentTree inum generation depth lo hi node held) :
    ∀ x ∈ held, ∀ n ∈ x.pos, lo ≤ n ∧ n < hi := by
  induction depth generalizing lo hi node held with
  | zero =>
    obtain ⟨_, _, _, hord, rfl⟩ := h
    intro x hx n hn
    obtain ⟨ext, hext, hx⟩ := List.mem_flatMap.mp hx
    have hpos := Held.pos_ofExtent hx hn
    have hmem := hord.mem hext
    omega
  | succ depth ih =>
    obtain ⟨_, _, _, hbranches⟩ := h
    refine hbranches.within (fun ⟨_, _, _, _, _, _, htree, _⟩ => htree.le) ?_
    intro lo hi idx held ⟨node, header, below, _, _, _, htree, heq⟩ x hx n hn
    subst heq
    rcases List.mem_cons.mp hx with rfl | hx
    · cases hn
    · exact ih htree x hx n hn

/-- A tree whose root has an entry holds data. -/
theorem exists_data (h : fs.ExtentTree inum generation depth lo hi node held)
    {header : ExtentHeader} (hdecode : ExtentHeader.decode node = .ok header)
    (hpos : 0 < header.entries) : ∃ x ∈ held, placed Held.pos x = true := by
  induction depth generalizing lo hi node held header with
  | zero =>
    obtain ⟨header', hnode, _, hord, rfl⟩ := h
    obtain rfl : header = header' := Except.ok.inj (hdecode.symm.trans hnode.decode)
    have hext : Extent.decode (Extent.entry node 0) ∈ extentsIn node header.entries :=
      List.mem_map.mpr ⟨0, List.mem_range.mpr hpos, rfl⟩
    obtain ⟨-, hlen, -⟩ := hord.mem hext
    refine ⟨_, List.mem_flatMap.mpr ⟨_, hext, List.mem_map.mpr ⟨_, List.mem_map.mpr
      ⟨0, List.mem_range.mpr hlen, rfl⟩, rfl⟩⟩, rfl⟩
  | succ depth ih =>
    obtain ⟨header', hnode, _, hbranches⟩ := h
    obtain rfl : header = header' := Except.ok.inj (hdecode.symm.trans hnode.decode)
    obtain ⟨n, hn⟩ : ∃ n, header.entries = n + 1 := ⟨header.entries - 1, by omega⟩
    rw [hn, indicesIn, List.range_succ_eq_map, List.map_cons] at hbranches
    cases hbranches with
    | cons _ hhead _ =>
      obtain ⟨child, header', below, -, hdecode', hown, htree, rfl⟩ := hhead
      obtain ⟨x, hx, hplaced⟩ := ih htree hdecode' hown.nonempty
      exact ⟨x, List.mem_append_left _ (List.mem_cons_of_mem _ hx), hplaced⟩

/-- A tree is still there where none of its nodes was written. -/
theorem touched {fs' : Filesystem} {blocks : List Nat} (hfs : Touches fs fs' blocks)
    (h : fs.ExtentTree inum generation depth lo hi node held)
    (hother : ∀ x ∈ held, x.cell ∉ blocks) :
    fs'.ExtentTree inum generation depth lo hi node held := by
  induction depth generalizing lo hi node held with
  | zero => exact h
  | succ depth ih =>
    obtain ⟨header, hnode, hmax, hbranches⟩ := h
    refine ⟨header, hnode, hmax, hbranches.imp_of_subset fun hsub hunder => ?_⟩
    exact Under.touched hfs (fun htree => ih htree) hunder fun x hx => hother x (hsub hx)

/-- What an index leads to lies within the logical blocks its tree is over. -/
theorem under_within {idx : ExtentIdx}
    (h : fs.Under inum generation (fs.ExtentTree inum generation depth) lo hi idx held) :
    ∀ x ∈ held, ∀ n ∈ x.pos, lo ≤ n ∧ n < hi := by
  obtain ⟨node, header, below, _, _, _, htree, rfl⟩ := h
  intro x hx n hn
  rcases List.mem_cons.mp hx with rfl | hx
  · cases hn
  · exact htree.within x hx n hn

/-- Only the header and the entries of a node matter. -/
theorem congr {node' : List UInt8} {header : ExtentHeader}
    (h : fs.ExtentTree inum generation depth lo hi node held)
    (hdecode : ExtentHeader.decode node = .ok header) (hlen : node'.length = node.length)
    (htake : node'.take (Extent.headerLen + header.entries * Extent.entryLen) =
      node.take (Extent.headerLen + header.entries * Extent.entryLen)) :
    fs.ExtentTree inum generation depth lo hi node' held := by
  have hdecode' : ExtentHeader.decode node' = .ok header := by
    rw [← hdecode]
    exact ExtentHeader.decode_congr (slice_congr_take htake (by omega))
  have hentry : ∀ i < header.entries, Extent.entry node' i = Extent.entry node i := by
    intro i hi
    have hmul := Nat.mul_le_mul_right Extent.entryLen (Nat.succ_le_of_lt hi)
    rw [Nat.succ_mul] at hmul
    exact slice_congr_take htake (by omega)
  cases depth with
  | zero =>
    obtain ⟨header', hnode, hmax, hord, rfl⟩ := h
    obtain rfl : header = header' := Except.ok.inj (hdecode.symm.trans hnode.decode)
    have hsame : extentsIn node' header.entries = extentsIn node header.entries :=
      List.map_congr_left fun i hi => by rw [hentry i (List.mem_range.mp hi)]
    refine ⟨header, ⟨hdecode', hnode.depth, hlen ▸ hnode.room⟩, hlen ▸ hmax, ?_⟩
    rw [hsame]
    exact ⟨hord, rfl⟩
  | succ depth =>
    obtain ⟨header', hnode, hmax, hbranches⟩ := h
    obtain rfl : header = header' := Except.ok.inj (hdecode.symm.trans hnode.decode)
    have hsame : indicesIn node' header.entries = indicesIn node header.entries :=
      List.map_congr_left fun i hi => by rw [hentry i (List.mem_range.mp hi)]
    refine ⟨header, ⟨hdecode', hnode.depth, hlen ▸ hnode.room⟩, hlen ▸ hmax, ?_⟩
    rw [hsame]
    exact hbranches

/-- A tree whose root has no entry holds nothing. -/
theorem eq_nil {header : ExtentHeader} (h : fs.ExtentTree inum generation depth lo hi node held)
    (hdecode : ExtentHeader.decode node = .ok header) (hzero : header.entries = 0) : held = [] := by
  cases depth with
  | zero =>
    obtain ⟨header', hnode, _, _, rfl⟩ := h
    obtain rfl : header = header' := Except.ok.inj (hdecode.symm.trans hnode.decode)
    rw [hzero]
    rfl
  | succ depth =>
    obtain ⟨header', hnode, _, hbranches⟩ := h
    obtain rfl : header = header' := Except.ok.inj (hdecode.symm.trans hnode.decode)
    rw [hzero] at hbranches
    cases hbranches
    rfl

/-- What is held under a root, index by index. -/
theorem parts (h : fs.ExtentTree inum generation (depth + 1) lo hi node held) :
    ∃ header parts, IsNode node (depth + 1) header ∧
      header.entries ≤ ExtentHeader.maxEntries node.length false ∧
      held = parts.flatten ∧
      List.Forall₂ (fun i part => ∃ child below,
        fs.readBlock (ExtentIdx.decode (Extent.entry node i)).leaf = .ok child ∧
        (∃ lo hi, fs.ExtentTree inum generation depth lo hi child below) ∧
        part = Held.node (ExtentIdx.decode (Extent.entry node i)).leaf :: below)
        (List.range header.entries) parts := by
  obtain ⟨header, hnode, hmax, hbranches⟩ := h
  obtain ⟨parts, hparts, hflat⟩ := hbranches.parts
  rw [indicesIn, List.forall₂_map_left_iff] at hparts
  refine ⟨header, parts, hnode, hmax, hflat, hparts.imp fun i part hunder => ?_⟩
  obtain ⟨lo, hi, child, _, below, hread, -, -, htree, heq⟩ := hunder
  exact ⟨child, below, hread, ⟨lo, hi, htree⟩, heq⟩

end ExtentTree

/-! ## Collecting a subtree -/

/-- What the stack of `collect_extent_subtree` stands for: the blocks it was given and those under
    them. -/
theorem collectNodes_tree : ∀ {guard : Nat} {stack freed out : List Nat}
    {parts : List (List Held)}, Orphan.collectNodes fs guard stack freed = .ok out →
    List.Forall₂ (fun block part => ∃ node below, fs.readBlock block = .ok node ∧
      (∃ depth lo hi, fs.ExtentTree inum generation depth lo hi node below) ∧
      part = Held.node block :: below) stack parts →
    out.Perm (freed ++ parts.flatten.map Held.cell) := by
  intro guard
  induction guard with
  | zero =>
    rintro stack freed out parts h (_ | _)
    · rw [Orphan.collectNodes] at h
      obtain rfl := Except.ok.inj h
      exact List.Perm.of_eq (List.append_nil _).symm
    · cases h
  | succ guard ih =>
    rintro stack freed out parts h (_ | ⟨hhead, hrest⟩)
    · rw [Orphan.collectNodes] at h
      obtain rfl := Except.ok.inj h
      exact List.Perm.of_eq (List.append_nil _).symm
    rename_i block part stack parts
    obtain ⟨node, below, hread, ⟨depth, lo, hi, htree⟩, hpart⟩ := hhead
    rw [Orphan.collectNodes] at h
    obtain ⟨node', hread', h⟩ := bind_ok h
    obtain rfl := Except.ok.inj (hread.symm.trans hread')
    obtain ⟨header, hdecode, h⟩ := bind_ok h
    have hdecode := returned_ok hdecode
    dsimp only at h
    subst hpart
    cases depth with
    | zero =>
      obtain ⟨header', hnode, hmax, -, rfl⟩ := htree
      obtain rfl : header = header' := Except.ok.inj (hdecode.symm.trans hnode.decode)
      rw [if_pos hnode.depth, Nat.min_eq_left hmax] at h
      refine (ih h hrest).trans (List.Perm.of_eq ?_)
      simp only [List.flatten_cons, List.map_append, List.map_cons, Held.cell_node,
        List.map_flatMap, Held.map_cell_ofExtent, extentsIn, List.flatMap_map, List.append_assoc,
        List.cons_append, List.nil_append]
    | succ depth =>
      obtain ⟨header', inner, hnode, hmax, rfl, hinner⟩ := htree.parts
      obtain rfl : header = header' := Except.ok.inj (hdecode.symm.trans hnode.decode)
      rw [if_neg (by rw [hnode.depth]; omega), Nat.min_eq_left hmax] at h
      have hleaves : List.Forall₂ (fun block part => ∃ node below, fs.readBlock block = .ok node ∧
          (∃ depth lo hi, fs.ExtentTree inum generation depth lo hi node below) ∧
          part = Held.node block :: below)
          ((List.range header.entries).map fun i =>
            (ExtentIdx.decode (Extent.entry node i)).leaf) inner := by
        rw [List.forall₂_map_left_iff]
        refine hinner.imp ?_
        rintro i part ⟨child, below, hread, ⟨lo, hi, htree⟩, heq⟩
        exact ⟨child, below, hread, ⟨depth, lo, hi, htree⟩, heq⟩
      have hall := ih h
        (List.rel_append (List.forall₂_reverse_iff.mpr hleaves) hrest)
      refine hall.trans ?_
      rw [List.flatten_append, List.map_append, List.flatten_cons, List.map_append, List.map_cons,
        Held.cell_node, List.append_assoc, List.cons_append]
      refine List.Perm.append_left freed (List.Perm.cons block ?_)
      exact ((List.reverse_perm inner).flatten.map _).append_right _

theorem collectExtentSubtree_tree {block : Nat} {freed : List Nat} {below : List Held}
    (h : Orphan.collectExtentSubtree fs block = .ok freed) (hread : fs.readBlock block = .ok node)
    (htree : fs.ExtentTree inum generation depth lo hi node below) :
    freed.Perm ((Held.node block :: below).map Held.cell) := by
  have hall := @collectNodes_tree fs inum generation _ _ _ _ [Held.node block :: below] h
    (.cons ⟨node, below, hread, ⟨depth, lo, hi, htree⟩, rfl⟩ .nil)
  rwa [List.flatten_singleton, List.nil_append] at hall

/-! ## Walking -/

/-- How many of the blocks are nodes. -/
def nodeCount (held : List Held) : Nat := held.countP fun x => x.pos.isNone

theorem nodeCount_append (held held' : List Held) :
    nodeCount (held ++ held') = nodeCount held + nodeCount held' := List.countP_append

theorem nodeCount_ofExtents (exts : List Extent) :
    nodeCount (exts.flatMap Held.ofExtent) = 0 := by
  refine List.countP_eq_zero.mpr fun x hx => ?_
  obtain ⟨ext, -, hx⟩ := List.mem_flatMap.mp hx
  obtain ⟨ref, href, rfl⟩ := List.mem_map.mp hx
  obtain ⟨k, -, rfl⟩ := List.mem_map.mp href
  exact Bool.false_ne_true

/-- A tree as the walk's stack has it, with the space it takes its node to have. -/
def Stacked (fs : Filesystem) (inum generation : Nat) (entry : List UInt8 × Nat)
    (held : List Held) : Prop :=
  entry.2 = entry.1.length ∧
    ∃ depth lo hi, fs.ExtentTree inum generation depth lo hi entry.1 held

/-- What the indices of a node visit, and the trees read there. -/
theorem walkEntries_parts {header : ExtentHeader} (hdepth : header.depth ≠ 0) :
    ∀ {is : List Nat} {parts : List (List Held)},
    List.Forall₂ (fun i part => ∃ child below,
      fs.readBlock (ExtentIdx.decode (Extent.entry node i)).leaf = .ok child ∧
      (∃ lo hi, fs.ExtentTree inum generation depth lo hi child below) ∧
      part = Held.node (ExtentIdx.decode (Extent.entry node i)).leaf :: below) is parts →
    ∃ refs children inner, fs.walkEntries header node is = (refs, .ok children) ∧
      List.Forall₂ (fs.Stacked inum generation) (children.map (·, fs.blockSize)) inner ∧
      (refs ++ inner.flatten.map Held.ref).Perm (parts.flatten.map Held.ref) ∧
      children.length + nodeCount inner.flatten = nodeCount parts.flatten := by
  intro is parts h
  induction h with
  | nil => exact ⟨[], [], [], rfl, .nil, List.Perm.refl _, rfl⟩
  | @cons i part is parts hhead hrest ih =>
    obtain ⟨child, below, hread, ⟨lo, hi, htree⟩, hpart⟩ := hhead
    obtain ⟨refs, children, inner, hwalk, hstacked, hperm, hcount⟩ := ih
    subst hpart
    refine ⟨mapRef (ExtentIdx.decode (Extent.entry node i)).leaf :: refs, child :: children,
      below :: inner, ?_, .cons ⟨(length_of_readBlock hread).symm, depth, lo, hi, htree⟩ hstacked,
      ?_, ?_⟩
    · rw [walkEntries, if_neg hdepth]
      dsimp only
      rw [hread, hwalk]
      simp [Walk.visit, Walk.reading, Walk.andThen, Walk.done]
    · rw [List.flatten_cons, List.map_append, List.flatten_cons, List.map_append, List.map_cons,
        List.cons_append, List.cons_append]
      refine List.Perm.cons _ ?_
      rw [← List.append_assoc]
      exact (List.perm_append_comm.append_right _).trans
        (by rw [List.append_assoc]; exact hperm.append_left _)
    · rw [List.flatten_cons, List.flatten_cons, nodeCount_append, nodeCount_append]
      have hone : nodeCount (Held.node (ExtentIdx.decode (Extent.entry node i)).leaf :: below) =
          nodeCount below + 1 := List.countP_cons_of_pos rfl
      rw [hone, List.length_cons]
      omega

/-- What the walk's turn at a node does. -/
theorem walkNode_tree (h : fs.ExtentTree inum generation depth lo hi node held) :
    ∃ header refs children inner, nodeHeader node node.length = .ok header ∧
      fs.walkEntries header node (List.range header.entries) = (refs, .ok children) ∧
      List.Forall₂ (fs.Stacked inum generation) (children.map (·, fs.blockSize)) inner ∧
      (refs ++ inner.flatten.map Held.ref).Perm (held.map Held.ref) ∧
      children.length + nodeCount inner.flatten = nodeCount held := by
  have hheader : ∀ {header : ExtentHeader}, ExtentHeader.decode node = .ok header →
      header.entries ≤ ExtentHeader.maxEntries node.length false →
      nodeHeader node node.length = .ok header := by
    intro header hdecode hmax
    rw [nodeHeader, hdecode]
    exact if_neg (Nat.not_lt.mpr hmax)
  cases depth with
  | zero =>
    obtain ⟨header, hnode, hmax, -, rfl⟩ := h
    refine ⟨header, _, [], [], hheader hnode.decode hmax, walkEntries_leaf hnode.depth _ _, .nil,
      List.Perm.of_eq ?_, (nodeCount_ofExtents _).symm⟩
    rw [List.flatten_nil, List.map_nil, List.append_nil, List.map_flatMap, extentsIn,
      List.flatMap_map]
    refine congrArg (List.flatMap · _) (funext fun i => ?_)
    rw [Held.ofExtent, List.map_map]
    exact (List.map_id _).symm
  | succ depth =>
    obtain ⟨header, parts, hnode, hmax, rfl, hparts⟩ := h.parts
    obtain ⟨refs, children, inner, hall⟩ := walkEntries_parts (by rw [hnode.depth]; omega) hparts
    exact ⟨header, refs, children, inner, hheader hnode.decode hmax, hall⟩

/-- A walk over trees ends well exactly when it may take as many turns as there are nodes, and
    visits what they hold. -/
theorem walkNodes_tree : ∀ {guard : Nat} {stack : List (List UInt8 × Nat)}
    {parts : List (List Held)}, List.Forall₂ (fs.Stacked inum generation) stack parts →
    (stack.length + nodeCount parts.flatten ≤ guard → ∃ refs,
      fs.walkNodes guard stack = (refs, .ok ()) ∧ refs.Perm (parts.flatten.map Held.ref)) ∧
    (guard < stack.length + nodeCount parts.flatten →
      ∀ refs, fs.walkNodes guard stack ≠ (refs, .ok ()))
  | guard, [], _, .nil => by
    refine ⟨fun _ => ⟨[], by rw [walkNodes]; rfl, List.Perm.refl _⟩, fun hlt => ?_⟩
    exact absurd hlt (Nat.not_lt_zero guard)
  | 0, _ :: _, _, .cons _ _ => ⟨fun hle => absurd hle (by simp), fun _ => nofun⟩
  | guard + 1, (node, space) :: stack, held :: parts, .cons hhead hrest => by
    obtain ⟨hspace, depth, lo, hi, htree⟩ := hhead
    dsimp only at hspace htree
    obtain ⟨header, refs, children, inner, hheader, hwalk, hinner, hperm, hcount⟩ :=
      walkNode_tree htree
    have hstack : List.Forall₂ (fs.Stacked inum generation)
        (children.reverse.map (·, fs.blockSize) ++ stack) (inner.reverse ++ parts) := by
      rw [List.map_reverse]
      exact List.rel_append (List.forall₂_reverse_iff.mpr hinner) hrest
    have hlen : (children.reverse.map (·, fs.blockSize) ++ stack).length +
        nodeCount (inner.reverse ++ parts).flatten + 1 =
          ((node, space) :: stack).length + nodeCount (held :: parts).flatten := by
      have hrev : nodeCount inner.reverse.flatten = nodeCount inner.flatten :=
        (List.reverse_perm inner).flatten.countP_eq _
      rw [List.flatten_append, nodeCount_append, List.flatten_cons, nodeCount_append, hrev,
        List.length_append, List.length_map, List.length_reverse, List.length_cons]
      omega
    have hstep : fs.walkNodes (guard + 1) ((node, space) :: stack) =
        (refs ++ (fs.walkNodes guard (children.reverse.map (·, fs.blockSize) ++ stack)).1,
          (fs.walkNodes guard (children.reverse.map (·, fs.blockSize) ++ stack)).2) := by
      rw [walkNodes, hspace, hheader]
      simp only [Walk.reading, Walk.andThen, hwalk, List.nil_append]
    have ih := @walkNodes_tree guard _ _ hstack
    rw [← hlen]
    constructor
    · intro hle
      obtain ⟨more, hmore, hperm'⟩ := ih.1 (Nat.le_of_succ_le_succ hle)
      refine ⟨refs ++ more, by rw [hstep, hmore], ?_⟩
      rw [List.flatten_append, List.map_append] at hperm'
      rw [List.flatten_cons, List.map_append]
      refine (hperm'.append_left refs).trans ?_
      rw [← List.append_assoc]
      refine List.Perm.append_right _ (List.Perm.trans ?_ hperm)
      exact (((List.reverse_perm inner).flatten.map _).append_left refs)
    · intro hlt all hall
      rw [hstep] at hall
      have hend := (Prod.mk.inj hall).2
      exact ih.2 (Nat.lt_of_succ_lt_succ hlt) _ (Prod.ext rfl hend)

/-- `walk_blocks` of an inode mapped by a well-formed tree visits what the tree holds, if it has
    no more nodes than the walk's guard allows. -/
theorem walkExtents_tree {inode : Inode} (hlen : inode.block.length = iBlockLen)
    (htree : fs.ExtentTree inum generation depth lo hi inode.block held) :
    (nodeCount held < walkGuard → ∃ refs, fs.walkExtents inode = (refs, .ok ()) ∧
      refs.Perm (held.map Held.ref)) ∧
    ((∃ refs, fs.walkExtents inode = (refs, .ok ())) → nodeCount held < walkGuard) := by
  have hstack : List.Forall₂ (fs.Stacked inum generation) [(inode.block, Extent.inlineLen)]
      [held] := .cons ⟨hlen.symm, depth, lo, hi, htree⟩ .nil
  have hall := @walkNodes_tree fs inum generation walkGuard _ _ hstack
  rw [List.flatten_singleton, List.length_singleton] at hall
  refine ⟨fun hlt => hall.1 (by omega), fun ⟨refs, hwalk⟩ => ?_⟩
  by_contra hge
  exact hall.2 (by omega) refs hwalk

end Filesystem

end MkfsExt4
