/-
  Looking up one logical block and walking the whole map (`resolve_block` and `walk_blocks` of
  `src/fs.rs`).

  `SortedTree` is what both need of an extent tree: its indices and extents in order, its nodes
  readable. The lookup descends by the keys, the walk takes the nodes off a stack; both come to
  the extents of the tree (`SortedTree.resolveExtent_eq`, `walkNodes_data`). Through indirect
  blocks both come to the same pointers (`walkIndirectLevel_data`). `walk_agrees` puts the two
  together, for a walk that ends well: one that cannot read an indirect block stops there, and
  the lookup of a block behind it need not (`walk_stops_short`).
-/
import MkfsExt4.Fs.References
import MkfsExt4.Read.Files

namespace MkfsExt4

open Lib.Store Lib.Hoare Lib.Intervals

/-- A data block at its logical position. -/
def dataRef (logical physical : Nat) : BlockRef :=
  { logical := some logical, physical, kind := .data }

@[simp] theorem dataRef_inj {l p l' p' : Nat} : dataRef l p = dataRef l' p' ↔ l = l' ∧ p = p' := by
  simp [dataRef]

namespace Walk

variable {α β : Type}

theorem andThen_of_ok {w : Walk α} {a : α} (h : w.2 = .ok a) (f : α → Walk β) :
    w.andThen f = (w.1 ++ (f a).1, (f a).2) := by
  rw [andThen, h]

/-- Walks that all end well visit what each of them visits, in order. -/
theorem foldl_andThen_eq {ws : List (Walk Unit)} {w : Walk Unit} (hw : w.2 = .ok ())
    (hws : ∀ v ∈ ws, v.2 = .ok ()) :
    ws.foldl (fun w next => w.andThen fun _ => next) w = (w.1 ++ ws.flatMap Prod.fst, .ok ()) := by
  induction ws generalizing w with
  | nil => rw [List.foldl_nil, List.flatMap_nil, List.append_nil, ← hw]
  | cons v ws ih =>
    have hrest := @ih (w.1 ++ v.1, v.2) (hws v List.mem_cons_self)
      fun u hu => hws u (List.mem_cons_of_mem v hu)
    rw [List.foldl_cons, andThen_of_ok hw, hrest, List.flatMap_cons, List.append_assoc]

end Walk

namespace Filesystem

variable {fs : Filesystem}

@[simp] theorem dataRef_ne_mapRef (l p b : Nat) : dataRef l p ≠ mapRef b := nofun

/-! ## Extent trees -/

/-- What the entries of a leaf visit. -/
theorem walkEntries_leaf {header : ExtentHeader} (hdepth : header.depth = 0) (node : List UInt8)
    (is : List Nat) : fs.walkEntries header node is =
      (is.flatMap fun i => extentRefs (Extent.decode (Extent.entry node i)), .ok []) := by
  induction is with
  | nil => rfl
  | cons i is ih =>
    rw [walkEntries, if_pos hdepth, ih]
    rfl

/-- What the indices of an inner node visit, and the nodes read there. -/
theorem walkEntries_inner {header : ExtentHeader} (hdepth : header.depth ≠ 0) {node : List UInt8}
    {is : List Nat} {refs : List BlockRef} {children : List (List UInt8)}
    (h : fs.walkEntries header node is = (refs, .ok children)) :
    refs = is.map (fun i => mapRef (ExtentIdx.decode (Extent.entry node i)).leaf) ∧
      List.Forall₂ (fun i child =>
        fs.readBlock (ExtentIdx.decode (Extent.entry node i)).leaf = .ok child) is children := by
  induction is generalizing refs children with
  | nil =>
    cases h
    exact ⟨rfl, .nil⟩
  | cons i is ih =>
    rw [walkEntries, if_neg hdepth] at h
    obtain ⟨_, r1, r2, h1, h2, rfl⟩ := Walk.andThen_ok h
    obtain rfl := Walk.visit_ok h1
    obtain ⟨child, r3, r4, h3, h4, rfl⟩ := Walk.andThen_ok h2
    obtain ⟨hread, rfl⟩ := Walk.reading_ok h3
    obtain ⟨rest, r5, r6, h5, h6, rfl⟩ := Walk.andThen_ok h4
    obtain ⟨rfl, hrest⟩ := ih h5
    cases h6
    exact ⟨by rw [List.append_nil]; rfl, .cons hread hrest⟩

/-- A block some extent of the list maps. -/
def MappedBy (exts : List Extent) (logical physical : Nat) : Prop :=
  ∃ ext ∈ exts, covers Extent.block Extent.effectiveLen logical ext = true ∧
    physicalOf logical ext = physical

theorem mem_extentRefs {ext : Extent} {l p : Nat} : dataRef l p ∈ extentRefs ext ↔
    covers Extent.block Extent.effectiveLen l ext = true ∧ physicalOf l ext = p := by
  rw [extentRefs, List.mem_map, covers, decide_eq_true_iff, physicalOf]
  constructor
  · rintro ⟨k, hk, heq⟩
    rw [List.mem_range] at hk
    obtain ⟨rfl, rfl⟩ := dataRef_inj.mp heq
    exact ⟨by omega, by omega⟩
  · rintro ⟨⟨hlow, hhigh⟩, rfl⟩
    refine ⟨l - ext.block, List.mem_range.mpr (by omega), dataRef_inj.mpr ⟨by omega, rfl⟩⟩

theorem mappedBy_append {exts exts' : List Extent} {l p : Nat} :
    MappedBy (exts ++ exts') l p ↔ MappedBy exts l p ∨ MappedBy exts' l p := by
  simp only [MappedBy, List.mem_append, or_and_right, exists_or]

theorem mappedBy_flatten {parts : List (List Extent)} {l p : Nat} :
    MappedBy parts.flatten l p ↔ ∃ part ∈ parts, MappedBy part l p := by
  simp only [MappedBy, List.mem_flatten]
  constructor
  · rintro ⟨ext, ⟨part, hpart, hext⟩, hmap⟩
    exact ⟨part, hpart, ext, hext, hmap⟩
  · rintro ⟨part, hpart, ext, hext, hmap⟩
    exact ⟨ext, ⟨part, hpart, hext⟩, hmap⟩

theorem decode_of_nodeHeader {node : List UInt8} {space : Nat} {header : ExtentHeader}
    (h : nodeHeader node space = .ok header) : ExtentHeader.decode node = .ok header := by
  obtain ⟨header', hdecode, hrest⟩ := bind_ok h
  dsimp only at hrest
  split at hrest
  · cases hrest
  · cases hrest
    exact returned_ok hdecode

theorem mappedBy_extentsIn {node : List UInt8} {n l p : Nat} : MappedBy (extentsIn node n) l p ↔
    dataRef l p ∈ (List.range n).flatMap fun i =>
      extentRefs (Extent.decode (Extent.entry node i)) := by
  simp only [MappedBy, extentsIn, List.mem_map, List.mem_flatMap, mem_extentRefs]
  constructor
  · rintro ⟨_, ⟨i, hi, rfl⟩, hmap⟩
    exact ⟨i, hi, hmap⟩
  · rintro ⟨i, hi, hmap⟩
    exact ⟨_, ⟨i, hi, rfl⟩, hmap⟩

/-- The trees under an inner node, for the nodes its walk read. -/
theorem SortedTree.children {depth lo hi : Nat} {node : List UInt8} {exts : List Extent}
    {header : ExtentHeader} {children : List (List UInt8)}
    (h : fs.SortedTree (depth + 1) lo hi node exts) (hdecode : ExtentHeader.decode node = .ok header)
    (hread : List.Forall₂ (fun i child =>
      fs.readBlock (ExtentIdx.decode (Extent.entry node i)).leaf = .ok child)
      (List.range header.entries) children) :
    ∃ parts, exts = parts.flatten ∧ List.Forall₂ (fun child exts =>
      ∃ depth lo hi, fs.SortedTree depth lo hi child exts) children parts := by
  obtain ⟨header', hnode, hbranches⟩ := h
  obtain rfl : header = header' := Except.ok.inj (hdecode.symm.trans hnode.decode)
  obtain ⟨parts, hparts, hflat⟩ := hbranches.parts
  rw [indicesIn, List.forall₂_map_left_iff] at hparts
  refine ⟨parts, hflat, ?_⟩
  clear hflat hbranches
  generalize List.range header.entries = is at hread hparts
  induction hread generalizing parts with
  | nil =>
    cases hparts
    exact .nil
  | cons hchild _ ih =>
    cases hparts with
    | cons htree hparts =>
      obtain ⟨lo, hi, child, hread, htree⟩ := htree
      rw [hchild] at hread
      obtain rfl := Except.ok.inj hread
      exact .cons ⟨depth, lo, hi, htree⟩ (ih _ hparts)

/-- A walk over trees that ends well visits, of the data, what their extents map. -/
theorem walkNodes_data {guard : Nat} {stack : List (List UInt8 × Nat)} {refs : List BlockRef}
    (h : fs.walkNodes guard stack = (refs, .ok ())) {parts : List (List Extent)}
    (htrees : List.Forall₂ (fun entry exts =>
      ∃ depth lo hi, fs.SortedTree depth lo hi entry.1 exts) stack parts) (l p : Nat) :
    dataRef l p ∈ refs ↔ MappedBy parts.flatten l p := by
  induction guard generalizing stack refs parts with
  | zero =>
    cases htrees with
    | nil =>
      cases h
      simp [MappedBy]
    | cons => cases h
  | succ guard ih =>
    cases htrees with
    | nil =>
      cases h
      simp [MappedBy]
    | @cons entry exts stack parts htree hrest =>
      obtain ⟨node, space⟩ := entry
      obtain ⟨depth, lo, hi, htree⟩ := htree
      dsimp only at htree
      rw [walkNodes] at h
      obtain ⟨header, r1, r2, h1, h2, rfl⟩ := Walk.andThen_ok h
      obtain ⟨hheader, rfl⟩ := Walk.reading_ok h1
      obtain ⟨children, r3, r4, h3, h4, rfl⟩ := Walk.andThen_ok h2
      have hdecode := decode_of_nodeHeader hheader
      rw [List.nil_append, List.mem_append, List.flatten_cons, mappedBy_append]
      cases depth with
      | zero =>
        obtain ⟨header', hnode, rfl, -⟩ := htree
        obtain rfl : header = header' := Except.ok.inj (hdecode.symm.trans hnode.decode)
        rw [walkEntries_leaf hnode.depth] at h3
        cases h3
        exact or_congr mappedBy_extentsIn.symm (ih h4 hrest)
      | succ depth =>
        obtain ⟨header', hnode⟩ := htree.exists_header
        obtain rfl : header = header' := Except.ok.inj (hdecode.symm.trans hnode.decode)
        obtain ⟨rfl, hread⟩ := walkEntries_inner (by rw [hnode.depth]; omega) h3
        obtain ⟨inner, rfl, hchildren⟩ := htree.children hdecode hread
        have hstack : List.Forall₂ (fun entry exts =>
            ∃ depth lo hi, fs.SortedTree depth lo hi entry.1 exts)
            (children.reverse.map (·, fs.blockSize) ++ stack) (inner.reverse ++ parts) :=
          List.rel_append (List.forall₂_map_left_iff.mpr
            (List.forall₂_reverse_iff.mpr hchildren)) hrest
        rw [ih h4 hstack, List.flatten_append, mappedBy_append, @mappedBy_flatten inner,
          @mappedBy_flatten inner.reverse]
        simp only [List.mem_reverse]
        refine or_iff_right_of_imp fun href => ?_
        obtain ⟨i, -, heq⟩ := List.mem_map.mp href
        exact absurd heq.symm (dataRef_ne_mapRef l p _)
/-! ## Indirect blocks -/

/-- Over the `span` logical blocks from `base` on, the lookup `find` never fails, and the data
among `refs` are what it finds. -/
structure Agrees (refs : List BlockRef) (base span : Nat)
    (find : Nat → Except Failure (Option Nat)) : Prop where
  answers : ∀ r < span, ∃ found, find r = .ok found
  mem_iff : ∀ l p, dataRef l p ∈ refs ↔ ∃ r < span, l = base + r ∧ find r = .ok (some p)

namespace Agrees

variable {refs refs' : List BlockRef} {base span span' : Nat}
  {find find' : Nat → Except Failure (Option Nat)}

theorem congr (h : Agrees refs base span find) (heq : ∀ r < span, find' r = find r) :
    Agrees refs base span find' where
  answers := fun r hr => heq r hr ▸ h.answers r hr
  mem_iff := fun l p => (h.mem_iff l p).trans <| exists_congr fun r =>
    and_congr_right fun hr => by rw [heq r hr]

/-- Blocks of the map itself do not count. -/
theorem maps (h : Agrees refs base span find) (blocks : List Nat) :
    Agrees (blocks.map mapRef ++ refs) base span find where
  answers := h.answers
  mem_iff := fun l p => by
    have hmap : dataRef l p ∉ blocks.map mapRef := by
      intro href
      obtain ⟨q, -, heq⟩ := List.mem_map.mp href
      exact dataRef_ne_mapRef l p q heq.symm
    rw [List.mem_append, or_iff_right hmap]
    exact h.mem_iff l p

theorem nothing (base span : Nat) : Agrees [] base span fun _ => .ok none where
  answers := fun _ _ => ⟨none, rfl⟩
  mem_iff := fun _ _ => iff_of_false List.not_mem_nil nofun

/-- One stretch of logical blocks after another. -/
theorem append (h : Agrees refs base span find) (h' : Agrees refs' (base + span) span' find') :
    Agrees (refs ++ refs') base (span + span')
      fun r => if r < span then find r else find' (r - span) where
  answers := fun r hr => by
    by_cases hlt : r < span
    · simpa only [if_pos hlt] using h.answers r hlt
    · simpa only [if_neg hlt] using h'.answers (r - span) (by omega)
  mem_iff := fun l p => by
    rw [List.mem_append, h.mem_iff, h'.mem_iff]
    constructor
    · rintro (⟨r, hr, rfl, hfind⟩ | ⟨r, hr, rfl, hfind⟩)
      · exact ⟨r, by omega, rfl, by rwa [if_pos hr]⟩
      · refine ⟨span + r, by omega, Nat.add_assoc _ _ _, ?_⟩
        rwa [if_neg (by omega), Nat.add_sub_cancel_left]
    · rintro ⟨r, hr, rfl, hfind⟩
      split at hfind
      · next hlt => exact Or.inl ⟨r, hlt, rfl, hfind⟩
      · exact Or.inr ⟨r - span, by omega, by omega, hfind⟩

end Agrees

/-- Whole trees before the one a block is in do not matter to the descent. -/
theorem resolveIndirect_add (fs : Filesystem) (k r level block : Nat) :
    fs.resolveIndirect (k * fs.perBlock ^ level + r) level block =
      fs.resolveIndirect r level block := by
  rcases Nat.eq_zero_or_pos fs.perBlock with hzero | hpos
  · cases level with
    | zero => rfl
    | succ level => rw [hzero, pow_succ, Nat.mul_zero, Nat.mul_zero, Nat.zero_add]
  · induction level generalizing k block with
    | zero => rfl
    | succ level ih =>
      have hskip : k * fs.perBlock ^ (level + 1) = k * fs.perBlock * fs.perBlock ^ level := by
        rw [pow_succ, Nat.mul_comm (fs.perBlock ^ level), Nat.mul_assoc]
      have hindex : (k * fs.perBlock * fs.perBlock ^ level + r) / fs.perBlock ^ level %
          fs.perBlock = r / fs.perBlock ^ level % fs.perBlock := by
        rw [Nat.mul_comm (k * fs.perBlock), Nat.mul_add_div (Nat.pow_pos hpos), Nat.mul_comm k,
          Nat.mul_add_mod]
      rw [hskip, resolveIndirect, resolveIndirect, hindex]
      simp only [ih]

/-- The blocks under entry `i` of an indirect block. -/
theorem resolveIndirect_entry {fs : Filesystem} {block i r level : Nat} {buf : List UInt8}
    (hread : fs.readBlock block = .ok buf) (hi : i < fs.perBlock)
    (hr : r < fs.perBlock ^ level) :
    fs.resolveIndirect (i * fs.perBlock ^ level + r) (level + 1) block =
      if getU32 buf (i * 4) = 0 then .ok none
      else fs.resolveIndirect r level (getU32 buf (i * 4)) := by
  have hpos : 0 < fs.perBlock ^ level := by omega
  have hindex : (i * fs.perBlock ^ level + r) / fs.perBlock ^ level % fs.perBlock = i := by
    rw [Nat.mul_comm i, Nat.mul_add_div hpos, Nat.div_eq_of_lt hr, Nat.add_zero,
      Nat.mod_eq_of_lt hi]
  rw [resolveIndirect, hread]
  show (if getU32 buf ((i * fs.perBlock ^ level + r) / fs.perBlock ^ level % fs.perBlock * 4) = 0
    then _ else _) = _
  rw [hindex, resolveIndirect_add]
  rfl

/-- Every block under an indirect block is under one of its entries. -/
theorem exists_entry {n level r : Nat} (h : r < n ^ (level + 1)) :
    ∃ i < n, ∃ r' < n ^ level, r = i * n ^ level + r' := by
  rw [pow_succ] at h
  have hpos : 0 < n ^ level := Nat.pos_of_ne_zero fun hzero => by
    rw [hzero, Nat.zero_mul] at h
    cases h
  refine ⟨r / n ^ level, Nat.div_lt_of_lt_mul h, r % n ^ level, Nat.mod_lt _ hpos, ?_⟩
  rw [Nat.mul_comm, Nat.div_add_mod]

theorem entry_lt {n level i r : Nat} (hi : i < n) (hr : r < n ^ level) :
    i * n ^ level + r < n ^ (level + 1) := by
  have hmul : (i + 1) * n ^ level ≤ n * n ^ level := Nat.mul_le_mul_right _ hi
  rw [Nat.add_mul, Nat.one_mul] at hmul
  rw [pow_succ, Nat.mul_comm (n ^ level)]
  omega

/-- An entry of a tree whose blocks 64 bits count is such a tree. -/
theorem entry_fits {n level base j : Nat} (h : base + n ^ (level + 1) < 2 ^ 64) (hj : j < n) :
    base + j * n ^ level + n ^ level < 2 ^ 64 := by
  have hmul : (j + 1) * n ^ level ≤ n * n ^ level := Nat.mul_le_mul_right _ hj
  rw [Nat.add_mul, Nat.one_mul] at hmul
  rw [pow_succ, Nat.mul_comm] at h
  omega

/-- What a walk down an indirect block that ended well visited: the block it read, and under it
either the data it points at or what the walks of the blocks it points at visited. -/
theorem walkIndirectLevel_eq {d block base : Nat} {refs : List BlockRef}
    (h : fs.walkIndirectLevel (d + 1) block base = (refs, .ok ())) :
    ∃ buf, fs.readBlock block = .ok buf ∧ base + fs.perBlock * fs.perBlock ^ d < 2 ^ 64 ∧
      (d = 0 → refs = (pointersOf fs.perBlock buf).map fun q => dataRef (base + q.1) q.2) ∧
      (d ≠ 0 → refs = ((pointersOf fs.perBlock buf).map Prod.snd).map mapRef ++
          (pointersOf fs.perBlock buf).reverse.flatMap fun q =>
            (fs.walkIndirectLevel d q.2 (base + q.1 * fs.perBlock ^ d)).1) ∧
      (d ≠ 0 → ∀ q ∈ pointersOf fs.perBlock buf,
        (fs.walkIndirectLevel d q.2 (base + q.1 * fs.perBlock ^ d)).2 = .ok ()) := by
  rw [walkIndirectLevel] at h
  obtain ⟨buf, r1, r2, h1, h2, rfl⟩ := Walk.andThen_ok h
  obtain ⟨hread, rfl⟩ := Walk.reading_ok h1
  dsimp only at h2
  obtain ⟨_, r3, r4, h3, h4, rfl⟩ := Walk.andThen_ok h2
  obtain ⟨hfits, rfl⟩ := Walk.reading_ok h3
  refine ⟨buf, hread, Nat.not_le.mp (panicIf_ok hfits), ?_⟩
  clear h h2
  split at h4
  · next hd =>
    obtain rfl := Walk.visit_ok h4
    subst hd
    simp [dataRef]
  · next hd =>
    obtain ⟨_, r5, r6, h5, h6, rfl⟩ := Walk.andThen_ok h4
    obtain rfl := Walk.visit_ok h5
    obtain ⟨-, hall⟩ := Walk.foldl_andThen_ok h6
    have hok : ∀ q ∈ pointersOf fs.perBlock buf,
        (fs.walkIndirectLevel d q.2 (base + q.1 * fs.perBlock ^ d)).2 = .ok () := by
      intro q hq
      obtain ⟨r, hr, -⟩ := hall _ (List.mem_map.mpr ⟨q, List.mem_reverse.mpr hq, rfl⟩)
      rw [hr]
    rw [Walk.foldl_andThen_eq rfl] at h6
    · refine ⟨fun h0 => absurd h0 hd, fun _ => ?_, fun _ => hok⟩
      cases h6
      rw [List.nil_append, List.nil_append, Walk.done, List.nil_append, List.flatMap_map,
        List.map_map]
      rfl
    · intro v hv
      obtain ⟨q, hq, rfl⟩ := List.mem_map.mp hv
      exact hok q (List.mem_reverse.mp hq)

theorem mem_pointersOf {perBlock i p : Nat} {buf : List UInt8} :
    (i, p) ∈ pointersOf perBlock buf ↔ i < perBlock ∧ getU32 buf (i * 4) = p ∧ p ≠ 0 := by
  rw [pointersOf, List.mem_filter, List.mem_map]
  constructor
  · rintro ⟨⟨j, hj, heq⟩, hne⟩
    obtain ⟨rfl, rfl⟩ := Prod.mk.inj heq
    exact ⟨List.mem_range.mp hj, rfl, of_decide_eq_true hne⟩
  · rintro ⟨hi, rfl, hne⟩
    exact ⟨⟨i, List.mem_range.mpr hi, rfl⟩, decide_eq_true hne⟩

/-- A walk down an indirect block that ended well agrees with the descent from there. -/
theorem walkIndirectLevel_agrees {d block base : Nat} {refs : List BlockRef}
    (h : fs.walkIndirectLevel (d + 1) block base = (refs, .ok ())) :
    Agrees refs base (fs.perBlock ^ (d + 1)) fun r => fs.resolveIndirect r (d + 1) block := by
  induction d generalizing block base refs with
  | zero =>
    obtain ⟨buf, hread, -, hrefs, -, -⟩ := walkIndirectLevel_eq h
    have hentry : ∀ i < fs.perBlock, fs.resolveIndirect i 1 block =
        if getU32 buf (i * 4) = 0 then .ok none else .ok (some (getU32 buf (i * 4))) := by
      intro i hi
      have hone := @resolveIndirect_entry fs block i 0 0 buf hread hi Nat.one_pos
      rwa [pow_zero, Nat.mul_one, Nat.add_zero] at hone
    rw [pow_one, hrefs rfl]
    refine ⟨fun r hr => ⟨_, (hentry r hr).trans (apply_ite _ _ _ _).symm⟩, fun l p => ?_⟩
    rw [List.mem_map]
    constructor
    · rintro ⟨⟨i, q⟩, hq, heq⟩
      obtain ⟨rfl, rfl⟩ := dataRef_inj.mp heq
      obtain ⟨hi, rfl, hne⟩ := mem_pointersOf.mp hq
      exact ⟨i, hi, rfl, by rw [hentry i hi, if_neg hne]⟩
    · rintro ⟨r, hr, rfl, hres⟩
      rw [hentry r hr] at hres
      split at hres
      · cases hres
      · next hne =>
        cases hres
        exact ⟨(r, _), mem_pointersOf.mpr ⟨hr, rfl, hne⟩, rfl⟩
  | succ d ih =>
    obtain ⟨buf, hread, -, -, hrefs, hok⟩ := walkIndirectLevel_eq h
    have hne : d + 1 ≠ 0 := Nat.succ_ne_zero d
    have hbelow : ∀ i p, (i, p) ∈ pointersOf fs.perBlock buf → _ := fun i p hq =>
      ih (Prod.ext rfl (hok hne (i, p) hq))
    rw [hrefs hne]
    refine Agrees.maps ⟨fun r hr => ?_, fun l p => ?_⟩ _
    · obtain ⟨i, hi, r', hr', rfl⟩ := exists_entry hr
      rw [resolveIndirect_entry hread hi hr']
      split
      · exact ⟨none, rfl⟩
      · next hp => exact (hbelow i _ (mem_pointersOf.mpr ⟨hi, rfl, hp⟩)).answers r' hr'
    · rw [List.mem_flatMap]
      constructor
      · rintro ⟨⟨i, q⟩, hq, href⟩
        rw [List.mem_reverse] at hq
        obtain ⟨r, hr, rfl, hres⟩ := ((hbelow i q hq).mem_iff l p).mp href
        obtain ⟨hi, rfl, hp⟩ := mem_pointersOf.mp hq
        refine ⟨i * fs.perBlock ^ (d + 1) + r, entry_lt hi hr, Nat.add_assoc _ _ _, ?_⟩
        rw [resolveIndirect_entry hread hi hr, if_neg hp, hres]
      · rintro ⟨r, hr, rfl, hres⟩
        obtain ⟨i, hi, r', hr', rfl⟩ := exists_entry hr
        rw [resolveIndirect_entry hread hi hr'] at hres
        split at hres
        · cases hres
        · next hp =>
          have hq := mem_pointersOf.mpr ⟨hi, rfl, hp⟩
          refine ⟨(i, getU32 buf (i * 4)), List.mem_reverse.mpr hq, ?_⟩
          exact ((hbelow i _ hq).mem_iff _ p).mpr ⟨r', hr', (Nat.add_assoc _ _ _).symm, hres⟩

/-- A walk of the tree under a pointer of `i_block` that ended well has counted the blocks of the
tree. -/
theorem walkIndirectSlot_within {pointers : List Nat} {slot d base : Nat} {refs : List BlockRef}
    (h : fs.walkIndirectSlot pointers slot (d + 1) base = (refs, .ok ())) :
    base + fs.perBlock ^ (d + 1) < 2 ^ 64 := by
  rw [walkIndirectSlot] at h
  split at h
  · exact Nat.not_le.mp (panicIf_ok (Walk.reading_ok h).1)
  · obtain ⟨_, r1, r2, -, h2, rfl⟩ := Walk.andThen_ok h
    obtain ⟨buf, -, hfits, -⟩ := walkIndirectLevel_eq h2
    rwa [pow_succ, Nat.mul_comm]

theorem walkIndirectSlot_fits {pointers : List Nat} {slot d base : Nat} {refs : List BlockRef}
    (h : fs.walkIndirectSlot pointers slot (d + 1) base = (refs, .ok ())) :
    fs.perBlock ^ (d + 1) < 2 ^ 64 :=
  Nat.lt_of_le_of_lt (Nat.le_add_left _ base) (walkIndirectSlot_within h)

/-- The tree under a pointer of `i_block`, walked to its end, agrees with its slot. -/
theorem walkIndirectSlot_agrees {pointers : List Nat} {slot d base : Nat} {refs : List BlockRef}
    (h : fs.walkIndirectSlot pointers slot (d + 1) base = (refs, .ok ())) :
    Agrees refs base (fs.perBlock ^ (d + 1)) (fs.resolveSlots pointers [(slot, d + 1)]) := by
  have hslot : ∀ r < fs.perBlock ^ (d + 1), fs.resolveSlots pointers [(slot, d + 1)] r =
      if pointers.getD slot 0 = 0 then .ok none
      else fs.resolveIndirect r (d + 1) (pointers.getD slot 0) := by
    intro r hr
    rw [resolveSlots_of_fits (walkIndirectSlot_fits h), if_pos hr]
  rw [walkIndirectSlot] at h
  split at h
  · next hroot =>
    obtain ⟨-, rfl⟩ := Walk.reading_ok h
    exact (Agrees.nothing _ _).congr fun r hr => (hslot r hr).trans (if_pos hroot)
  · next hroot =>
    obtain ⟨_, r1, r2, h1, h2, rfl⟩ := Walk.andThen_ok h
    obtain rfl := Walk.visit_ok h1
    exact ((walkIndirectLevel_agrees h2).maps [pointers.getD slot 0]).congr
      fun r hr => (hslot r hr).trans (if_neg hroot)

/-- The slots after the first. -/
theorem resolveSlots_cons {pointers : List Nat} {slot depth : Nat}
    (h : fs.perBlock ^ depth < 2 ^ 64) (slots : List (Nat × Nat)) :
    fs.resolveSlots pointers ((slot, depth) :: slots) = fun r =>
      if r < fs.perBlock ^ depth then fs.resolveSlots pointers [(slot, depth)] r
      else fs.resolveSlots pointers slots (r - fs.perBlock ^ depth) := by
  funext r
  rw [resolveSlots_of_fits h, resolveSlots_of_fits h]
  split <;> rfl

/-- The direct pointers. -/
theorem direct_agrees (pointers : List Nat) :
    Agrees ((((List.range ndirBlocks).map fun i => (i, pointers.getD i 0)).filter
      fun q => q.2 ≠ 0).map fun q => dataRef q.1 q.2) 0 ndirBlocks
      fun r => .ok (if pointers.getD r 0 = 0 then none else some (pointers.getD r 0)) where
  answers := fun _ _ => ⟨_, rfl⟩
  mem_iff := fun l p => by
    simp only [List.mem_map, List.mem_filter, List.mem_range, dataRef_inj, Nat.zero_add]
    constructor
    · rintro ⟨q, ⟨⟨i, hi, rfl⟩, hne⟩, rfl, rfl⟩
      exact ⟨i, hi, rfl, by rw [if_neg (of_decide_eq_true hne)]⟩
    · rintro ⟨r, hr, rfl, hfound⟩
      split at hfound
      · cases hfound
      · next hne =>
        cases hfound
        exact ⟨_, ⟨⟨l, hr, rfl⟩, decide_eq_true hne⟩, rfl, rfl⟩

/-- What `resolve_block` does with a map of pointers. -/
def resolvePointers (fs : Filesystem) (pointers : List Nat) (logical : Nat) :
    Except Failure (Option Nat) :=
  if logical < ndirBlocks then
    .ok (if pointers.getD logical 0 = 0 then none else some (pointers.getD logical 0))
  else fs.resolveSlots pointers [(ndirBlocks, 1), (ndirBlocks + 1, 2), (ndirBlocks + 2, 3)]
    (logical - ndirBlocks)

/-- A walk of an indirect map that ends well agrees with the lookup. -/
theorem walkIndirect_agrees {inode : Inode} {refs : List BlockRef}
    (h : fs.walkIndirect inode = (refs, .ok ())) :
    ∃ span, Agrees refs 0 span (fs.resolvePointers inode.blockPointers) ∧
      ∀ logical ≥ span, fs.resolvePointers inode.blockPointers logical = .ok none := by
  rw [walkIndirect] at h
  obtain ⟨_, r1, r2, h1, h2, rfl⟩ := Walk.andThen_ok h
  obtain rfl := Walk.visit_ok h1
  obtain ⟨_, r3, r4, h3, h4, rfl⟩ := Walk.andThen_ok h2
  obtain ⟨_, r5, r6, h5, h6, rfl⟩ := Walk.andThen_ok h4
  generalize inode.blockPointers = pointers at h3 h5 h6 ⊢
  have hdouble := (walkIndirectSlot_agrees h5).append (walkIndirectSlot_agrees h6)
  rw [← resolveSlots_cons (walkIndirectSlot_fits h5)] at hdouble
  have hsingle := (walkIndirectSlot_agrees h3).append (by rwa [pow_one])
  rw [← resolveSlots_cons (walkIndirectSlot_fits h3)] at hsingle
  refine ⟨_, (direct_agrees pointers).append (by rwa [Nat.zero_add]), fun logical hge => ?_⟩
  have hone := walkIndirectSlot_fits h3
  have htwo := walkIndirectSlot_fits h5
  have hthree := walkIndirectSlot_fits h6
  simp only [Nat.zero_add, Nat.reduceAdd] at hge hone htwo hthree
  rw [resolvePointers, if_neg (by omega), resolveSlots_of_fits hone, if_neg (by omega),
    resolveSlots_of_fits htwo, if_neg (by omega), resolveSlots_of_fits hthree, if_neg (by omega),
    resolveSlots]

/-! ## Any map -/

/-- What a lookup answers, from what there is to find. -/
theorem find_iff {find : Except Failure (Option Nat)} {p : Nat → Prop}
    (hanswer : ∃ found, find = .ok found) (hsome : ∀ q, find = .ok (some q) ↔ p q) :
    (∀ q, find = .ok (some q) ↔ p q) ∧ (find = .ok none ↔ ∀ q, ¬p q) := by
  refine ⟨hsome, fun hnone q hq => ?_, fun hno => ?_⟩
  · rw [(hsome q).mpr hq] at hnone
    cases hnone
  · obtain ⟨found, hfound⟩ := hanswer
    cases found with
    | none => exact hfound
    | some q => exact absurd ((hsome q).mp hfound) (hno q)

theorem resolveExtent_mappedBy {inode : Inode} {depth lo hi : Nat} {exts : List Extent}
    (h : fs.SortedTree depth lo hi inode.block exts) (logical : Nat) :
    (∃ found, fs.resolveExtent inode logical = .ok found) ∧
      ∀ p, fs.resolveExtent inode logical = .ok (some p) ↔ MappedBy exts logical p := by
  rw [h.resolveExtent_eq logical]
  refine ⟨⟨_, rfl⟩, fun p => ?_⟩
  rw [Except.ok.injEq, Option.map_eq_some_iff]
  simp only [h.ordered.find_eq_some_iff, MappedBy, and_assoc]

/-- `resolve_block` and a `walk_blocks` that ends well agree on every logical block. -/
theorem walk_agrees {inode : Inode} {refs : List BlockRef} (hmap : inode.hasBlockMap = true)
    (hinline : inode.inlineData = false)
    (htree : inode.usesExtents = true →
      ∃ depth lo hi exts, fs.SortedTree depth lo hi inode.block exts)
    (hwalk : fs.walkBlocks inode = (refs, .ok ())) (logical : Nat) :
    (∀ physical, fs.resolveBlock inode logical = .ok (some physical) ↔
      dataRef logical physical ∈ refs) ∧
    (fs.resolveBlock inode logical = .ok none ↔ ∀ physical, dataRef logical physical ∉ refs) := by
  rw [walkBlocks, if_neg (by simp [hmap, hinline])] at hwalk
  rw [resolveBlock, hmap, Bool.not_true, if_neg Bool.false_ne_true]
  cases hext : inode.usesExtents with
  | true =>
    rw [if_pos hext] at hwalk
    obtain ⟨depth, lo, hi, exts, h⟩ := htree hext
    obtain ⟨hanswer, hsome⟩ := resolveExtent_mappedBy h logical
    have hroot : List.Forall₂ (fun entry exts =>
        ∃ depth lo hi, fs.SortedTree depth lo hi entry.1 exts)
        [(inode.block, Extent.inlineLen)] [exts] := .cons ⟨depth, lo, hi, h⟩ .nil
    have hdata := walkNodes_data hwalk hroot logical
    rw [List.flatten_singleton] at hdata
    rw [if_pos rfl]
    exact find_iff hanswer fun p => (hsome p).trans (hdata p).symm
  | false =>
    rw [if_neg (by rw [hext]; exact Bool.false_ne_true)] at hwalk
    rw [if_neg Bool.false_ne_true]
    obtain ⟨span, hagrees, hpast⟩ := walkIndirect_agrees hwalk
    show (∀ _, fs.resolvePointers inode.blockPointers logical = _ ↔ _) ∧
      (fs.resolvePointers inode.blockPointers logical = _ ↔ _)
    rcases Nat.lt_or_ge logical span with hlt | hge
    · refine find_iff (hagrees.answers logical hlt) fun p => ?_
      rw [hagrees.mem_iff]
      refine ⟨fun hres => ⟨logical, hlt, (Nat.zero_add _).symm, hres⟩, ?_⟩
      rintro ⟨r, -, rfl, hres⟩
      rwa [Nat.zero_add]
    · refine find_iff ⟨none, hpast logical hge⟩ fun p => ?_
      rw [hagrees.mem_iff, hpast logical hge]
      refine iff_of_false (fun hnone => ?_) ?_
      · cases hnone
      · rintro ⟨r, hr, rfl, -⟩
        omega

theorem walk_agrees_held : ∃ fs, openOn (heldImage 0) = .ok fs ∧
    fs.walkBlocks heldInode = ([dataRef 0 5, dataRef 2 6], .ok ()) ∧
    fs.resolveBlock heldInode 2 = .ok (some 6) ∧ fs.resolveBlock heldInode 1 = .ok none := by
  obtain ⟨e, fs, -, hopen, hcount, hsize⟩ := geometryOf_some geometryOf_held.1
  have htree := held_tree (openOn_opened hopen).device hcount hsize
  have hwalk : fs.walkBlocks heldInode = ([dataRef 0 5, dataRef 2 6], .ok ()) := rfl
  have hagrees := @walk_agrees fs heldInode _ (by decide) (by decide)
    (fun _ => ⟨0, 0, _, _, htree.sortedTree⟩) hwalk
  exact ⟨fs, hopen, hwalk, ((hagrees 2).1 6).mpr (by decide), (hagrees 1).2.mpr fun p => by simp⟩

/-! ### A walk that stops -/

/-- 16 blocks; block 5 points at block 6, and block 6 at block 7. -/
def mappedImage : Device := .ofChunks 16384
  [(1024, [16, 0, 0, 0, 16]), (1024 + 0x14, [1]), (1024 + 0x21, [0x20]), (1024 + 0x28, [16]),
    (1024 + 0x38, [0x53, 0xef]), (2048, [3, 0, 0, 0, 4, 0, 0, 0, 7]), (5 * 1024, [6]),
    (6 * 1024, [7])]

/-- A file whose single indirect block is block 99 and whose double indirect block is block 5. -/
def brokenMap : Inode where
  mode := 0x81a4
  block := List.replicate 48 0 ++ [99, 0, 0, 0, 5, 0, 0, 0, 0, 0, 0, 0]

/-- The walk stops at the block it cannot read; the lookup finds what lies behind it. -/
theorem walk_stops_short : ∃ fs, openOn mappedImage = .ok fs ∧ brokenMap.hasBlockMap = true ∧
    brokenMap.inlineData = false ∧ brokenMap.usesExtents = false ∧
    fs.resolveBlock brokenMap 268 = .ok (some 7) ∧
    dataRef 268 7 ∉ (fs.walkBlocks brokenMap).1 := by
  have hruns : (openOn mappedImage).toOption.any (fun fs =>
      decide (fs.resolveBlock brokenMap 268 = .ok (some 7) ∧
        dataRef 268 7 ∉ (fs.walkBlocks brokenMap).1)) = true := by
    decide +kernel
  cases hopen : openOn mappedImage with
  | error e =>
    rw [hopen] at hruns
    cases hruns
  | ok fs =>
    rw [hopen] at hruns
    exact ⟨fs, rfl, by decide, by decide, by decide, of_decide_eq_true hruns⟩

end Filesystem

end MkfsExt4
