/-
  What the walk visits in an indirect map, given the blocks that hold it (`walk_indirect` of
  `src/fs.rs`).

  `Subtree n blocks level root data owned` says that `root`, `level` levels above the data, leads
  to `data` in order through the indirect blocks `owned`, each of `n` pointers, as `blocks` has
  them: every indirect block is filled before the next one. Proved: a walk from a root visits its
  data, from the logical block it is asked to start with on, and its indirect blocks, each once
  (`Subtree.walk`).
-/
import Mathlib.Data.List.Nodup
import MkfsExt4.Read.Walks
import MkfsExt4.Structs.SuperblockCodec

namespace MkfsExt4

open Lib.Store

/-! ## Pointers in a block -/

theorem getU32_putU32s_before {buf : List UInt8} {off at' : Nat} (vs : List Nat)
    (h : at' + 4 ≤ off) : getU32 (putU32s buf off vs) at' = getU32 buf at' := by
  rw [putU32s_eq]
  exact getU32_splice_disjoint (Or.inl h)

/-- A pointer of a buffer they were all written to. -/
theorem getU32_putU32s {buf : List UInt8} {off : Nat} {vs : List Nat}
    (hvs : ∀ v ∈ vs, v < 2 ^ 32) (hfit : off + vs.length * 4 ≤ buf.length) (i : Nat) :
    getU32 (putU32s buf off vs) (off + i * 4) = vs[i]?.getD (getU32 buf (off + i * 4)) := by
  induction vs generalizing buf off i with
  | nil => rfl
  | cons v vs ih =>
    rw [List.length_cons] at hfit
    cases i with
    | zero =>
      rw [putU32s, getU32_putU32s_before vs (by omega), Nat.zero_mul, Nat.add_zero,
        getU32_putU32 (by omega) (hvs v List.mem_cons_self)]
      rfl
    | succ i =>
      have hnext : off + (i + 1) * 4 = off + 4 + i * 4 := by omega
      rw [putU32s, hnext, ih (fun w hw => hvs w (List.mem_cons_of_mem v hw))
        (by rw [length_putU32]; omega), getU32_putU32_disjoint (Or.inr (by omega))]
      rfl

namespace Filesystem

/-- Slots that hold some pointers, none of them null, and are null from there on. -/
theorem filter_pointers {n : Nat} {entries : List Nat} {get : Nat → Nat}
    (hget : ∀ i < n, get i = entries[i]?.getD 0) (hpos : ∀ e ∈ entries, 0 < e)
    (hlen : entries.length ≤ n) :
    (((List.range n).map fun i => (i, get i)).filter fun p => p.2 ≠ 0) =
      entries.zipIdx.map fun q => (q.2, q.1) := by
  have hfirst : (List.range entries.length).map (fun i => (i, entries[i]?.getD 0)) =
      entries.zipIdx.map fun q => (q.2, q.1) := by
    refine List.ext_getElem (by simp) fun i hi _ => ?_
    rw [List.length_map, List.length_range] at hi
    simp [hi]
  have hmap : (List.range n).map (fun i => (i, get i)) =
      (List.range n).map fun i => (i, entries[i]?.getD 0) :=
    List.map_congr_left fun i hi => by rw [hget i (List.mem_range.mp hi)]
  obtain ⟨k, rfl⟩ := Nat.exists_eq_add_of_le hlen
  rw [hmap, List.range_add, List.map_append, List.filter_append, hfirst, List.filter_eq_self.mpr,
    List.filter_eq_nil_iff.mpr, List.append_nil]
  · intro q hq
    rw [List.map_map] at hq
    obtain ⟨i, -, rfl⟩ := List.mem_map.mp hq
    simp
  · intro q hq
    obtain ⟨⟨e, i⟩, hmem, rfl⟩ := List.mem_map.mp hq
    exact decide_eq_true (Nat.pos_iff_ne_zero.mp (hpos e (List.fst_mem_of_mem_zipIdx hmem)))

/-- The pointers found in a block they were written to. -/
theorem pointersOf_putU32s {n size : Nat} {entries : List Nat}
    (hvalid : ∀ e ∈ entries, 0 < e ∧ e < 2 ^ 32) (hlen : entries.length ≤ n) (hn : n * 4 ≤ size) :
    pointersOf n (putU32s (List.replicate size 0) 0 entries) =
      entries.zipIdx.map fun q => (q.2, q.1) := by
  refine filter_pointers (fun i _ => ?_) (fun e he => (hvalid e he).1) hlen
  have hread := @getU32_putU32s (List.replicate size 0) 0 entries
    (fun v hv => (hvalid v hv).2) (by rw [List.length_replicate]; omega) i
  rwa [Nat.zero_add, getU32_zeroes] at hread

/-- Pointers put to slots of their own stay where they were put. -/
theorem getU32_scattered {slot value : Nat → Nat} {n : Nat} {buf : List UInt8} {offs : List Nat}
    (hlen : n * 4 ≤ buf.length) (hnodup : (offs.map slot).Nodup)
    (hvalid : ∀ o ∈ offs, slot o < n ∧ value o < 2 ^ 32) :
    let scattered := offs.foldl (fun buf o => putU32 buf (slot o * 4) (value o)) buf
    (∀ o ∈ offs, getU32 scattered (slot o * 4) = value o) ∧
      ∀ i, i ∉ offs.map slot → getU32 scattered (i * 4) = getU32 buf (i * 4) := by
  induction offs generalizing buf with
  | nil => exact ⟨nofun, fun i _ => rfl⟩
  | cons o offs ih =>
    rw [List.map_cons, List.nodup_cons] at hnodup
    obtain ⟨hslot, hvalue⟩ := hvalid o List.mem_cons_self
    obtain ⟨hput, hkept⟩ := @ih (putU32 buf (slot o * 4) (value o)) (by rwa [length_putU32])
      hnodup.2 fun o' ho' => hvalid o' (List.mem_cons_of_mem o ho')
    refine ⟨fun o' ho' => ?_, fun i hi => ?_⟩
    · rcases List.mem_cons.mp ho' with rfl | ho'
      · exact (hkept _ hnodup.1).trans (getU32_putU32 (by omega) hvalue)
      · exact hput o' ho'
    · rw [List.map_cons, List.mem_cons, not_or] at hi
      exact (hkept i hi.2).trans (getU32_putU32_disjoint (by omega))

/-- The pointers found in a block they were scattered over. -/
theorem pointersOf_scattered {slot value : Nat → Nat} {n size : Nat} {offs : List Nat}
    (hn : n * 4 ≤ size) (hnodup : (offs.map slot).Nodup)
    (hvalid : ∀ o ∈ offs, slot o < n ∧ 0 < value o ∧ value o < 2 ^ 32) :
    (pointersOf n (offs.foldl (fun buf o => putU32 buf (slot o * 4) (value o))
      (List.replicate size 0))).Perm (offs.map fun o => (slot o, value o)) := by
  obtain ⟨hput, hkept⟩ := @getU32_scattered slot value n (List.replicate size 0) offs
    (by rwa [List.length_replicate]) hnodup
    fun o ho => ⟨(hvalid o ho).1, (hvalid o ho).2.2⟩
  refine (List.perm_ext_iff_of_nodup ?_ ?_).mpr fun ⟨i, p⟩ => ?_
  · exact (List.nodup_range.map fun i j h => (Prod.mk.inj h).1).filter _
  · refine List.Nodup.of_map Prod.fst ?_
    rwa [List.map_map]
  rw [mem_pointersOf, List.mem_map]
  constructor
  · rintro ⟨hi, rfl, hne⟩
    by_cases hslot : i ∈ offs.map slot
    · obtain ⟨o, ho, rfl⟩ := List.mem_map.mp hslot
      exact ⟨o, ho, Prod.ext rfl (hput o ho).symm⟩
    · exact absurd ((hkept i hslot).trans (getU32_zeroes _ _)) hne
  · rintro ⟨o, ho, heq⟩
    obtain ⟨rfl, rfl⟩ := Prod.mk.inj heq
    obtain ⟨hslot, hpos, -⟩ := hvalid o ho
    exact ⟨hslot, hput o ho, Nat.ne_of_gt hpos⟩

/-! ## Subtrees -/

/-- Pointers with the data and the indirect blocks under each: all but the last have `width`
blocks of data under them, and the last has some. -/
inductive Fills (sub : Nat → List Nat → List Nat → Prop) (width : Nat) :
    List Nat → List Nat → List Nat → Prop
  | nil : Fills sub width [] [] []
  | cons {entry : Nat} {entries d data o owned : List Nat} : sub entry d o → 0 < d.length →
    (data ≠ [] → d.length = width) → Fills sub width entries data owned →
    Fills sub width (entry :: entries) (d ++ data) (o ++ owned)

def Subtree (n : Nat) (blocks : List (Nat × List Nat)) :
    (level : Nat) → (root : Nat) → (data owned : List Nat) → Prop
  | 0, root, data, owned => data = [root] ∧ owned = []
  | level + 1, root, data, owned => ∃ entries below, (root, entries) ∈ blocks ∧
      entries.length ≤ n ∧ owned = root :: below ∧
      Fills (Subtree n blocks level) (n ^ level) entries data below

/-- Data blocks from a logical block on. -/
def dataRefs (base : Nat) (data : List Nat) : List BlockRef :=
  (data.zipIdx base).map fun q => dataRef q.2 q.1

theorem dataRefs_eq (base : Nat) (data : List Nat) : dataRefs base data =
    (data.zipIdx.map fun q => (q.2, q.1)).map fun q => dataRef (base + q.1) q.2 := by
  rw [dataRefs, @List.zipIdx_eq_map_add _ data base, List.map_map, List.map_map]
  rfl

theorem dataRefs_append (base : Nat) (xs ys : List Nat) :
    dataRefs base (xs ++ ys) = dataRefs base xs ++ dataRefs (base + xs.length) ys := by
  rw [dataRefs, List.zipIdx_append, List.map_append]
  rfl

theorem mem_dataRefs {base l p : Nat} {data : List Nat} :
    dataRef l p ∈ dataRefs base data ↔ base ≤ l ∧ data[l - base]? = some p := by
  rw [dataRefs, List.mem_map, ← List.mk_mem_zipIdx_iff_le_and_getElem?_sub]
  constructor
  · rintro ⟨⟨q, i⟩, hq, heq⟩
    obtain ⟨rfl, rfl⟩ := dataRef_inj.mp heq
    exact hq
  · exact fun h => ⟨_, h, rfl⟩

/-- Pointers to data are the data. -/
theorem Fills.data {n : Nat} {blocks : List (Nat × List Nat)} {width : Nat}
    {entries data owned : List Nat} (h : Fills (Subtree n blocks 0) width entries data owned) :
    data = entries ∧ owned = [] := by
  induction h with
  | nil => exact ⟨rfl, rfl⟩
  | cons hsub _ _ _ ih =>
    obtain ⟨rfl, rfl⟩ := hsub
    obtain ⟨rfl, rfl⟩ := ih
    exact ⟨rfl, rfl⟩

theorem Fills.of_data (n : Nat) (blocks : List (Nat × List Nat)) (data : List Nat) :
    Fills (Subtree n blocks 0) (n ^ 0) data data [] := by
  induction data with
  | nil => exact .nil
  | cons p data ih => exact .cons (d := [p]) (o := []) ⟨rfl, rfl⟩ Nat.one_pos (fun _ => rfl) ih

/-- A single indirect block. -/
theorem subtree_one {n block : Nat} {entries : List Nat} {blocks : List (Nat × List Nat)}
    (hmem : (block, entries) ∈ blocks) (hlen : entries.length ≤ n) :
    Subtree n blocks 1 block entries [block] :=
  ⟨entries, [], hmem, hlen, rfl, .of_data n blocks entries⟩

/-- A pointer is to data or to an indirect block. -/
theorem Subtree.root_mem {n level root : Nat} {blocks : List (Nat × List Nat)}
    {data owned : List Nat} (h : Subtree n blocks level root data owned) :
    root ∈ data ++ owned := by
  cases level with
  | zero =>
    obtain ⟨rfl, -⟩ := h
    exact List.mem_append_left _ List.mem_cons_self
  | succ level =>
    obtain ⟨entries, below, -, -, rfl, -⟩ := h
    exact List.mem_append_right _ List.mem_cons_self

theorem Fills.mem {n level width : Nat} {blocks : List (Nat × List Nat)}
    {entries data owned : List Nat} (h : Fills (Subtree n blocks level) width entries data owned) :
    ∀ e ∈ entries, e ∈ data ++ owned := by
  induction h with
  | nil => exact nofun
  | cons hsub _ _ _ ih =>
    intro e he
    simp only [List.mem_append] at ih ⊢
    rcases List.mem_cons.mp he with rfl | he
    · exact (List.mem_append.mp hsub.root_mem).imp Or.inl Or.inl
    · exact (ih e he).imp Or.inr Or.inr

variable {fs : Filesystem}

theorem walkIndirectLevel_leaf {block base : Nat} {buf : List UInt8}
    (hread : fs.readBlock block = .ok buf) (hfits : base + fs.perBlock < 2 ^ 64) :
    fs.walkIndirectLevel 1 block base =
      ((pointersOf fs.perBlock buf).map fun q => dataRef (base + q.1) q.2, .ok ()) := by
  have hspan : base + fs.perBlock * fs.perBlock ^ 0 < 2 ^ 64 := by rwa [pow_zero, Nat.mul_one]
  rw [walkIndirectLevel, hread]
  dsimp only
  rw [panicIf, if_neg (Nat.not_le.mpr hspan)]
  simp [Walk.andThen, Walk.reading, Walk.visit, dataRef]

theorem walkIndirectLevel_inner {block base d : Nat} {buf : List UInt8}
    (hread : fs.readBlock block = .ok buf)
    (hfits : base + fs.perBlock * fs.perBlock ^ (d + 1) < 2 ^ 64)
    (hok : ∀ q ∈ pointersOf fs.perBlock buf,
      (fs.walkIndirectLevel (d + 1) q.2 (base + q.1 * fs.perBlock ^ (d + 1))).2 = .ok ()) :
    fs.walkIndirectLevel (d + 2) block base =
      ((pointersOf fs.perBlock buf).map (fun q => mapRef q.2) ++
        (pointersOf fs.perBlock buf).reverse.flatMap fun q =>
          (fs.walkIndirectLevel (d + 1) q.2 (base + q.1 * fs.perBlock ^ (d + 1))).1, .ok ()) := by
  rw [walkIndirectLevel, hread, Walk.andThen_of_ok rfl]
  dsimp only
  rw [panicIf, if_neg (Nat.not_le.mpr hfits), Walk.andThen_of_ok rfl, if_neg (Nat.succ_ne_zero d),
    Walk.andThen_of_ok rfl, Walk.foldl_andThen_eq rfl, List.flatMap_map]
  · rfl
  · intro v hv
    obtain ⟨q, hq, rfl⟩ := List.mem_map.mp hv
    exact hok q (List.mem_reverse.mp hq)

/-- Where a walk takes up the subtrees under the pointers of a block: one after another, each
where the data of the one before it ends. -/
theorem Fills.walk {blocks : List (Nat × List Nat)} {level width base i : Nat}
    {entries data below : List Nat} {visits : Nat → Nat → Walk Unit}
    (hfills : Fills (Subtree fs.perBlock blocks (level + 1)) width entries data below)
    (hsub : ∀ entry d o, Subtree fs.perBlock blocks (level + 1) entry d o → d ⊆ data →
      o ⊆ below → ∀ j < i + entries.length, (visits entry (base + j * width)).2 = .ok () ∧
        (mapRef entry :: (visits entry (base + j * width)).1).Perm
          (dataRefs (base + j * width) d ++ o.map mapRef)) :
    (∀ q ∈ entries.zipIdx i, (visits q.1 (base + q.2 * width)).2 = .ok ()) ∧
      (entries.map mapRef ++ (entries.zipIdx i).flatMap fun q =>
        (visits q.1 (base + q.2 * width)).1).Perm
          (dataRefs (base + i * width) data ++ below.map mapRef) := by
  induction hfills generalizing i with
  | nil => exact ⟨nofun, List.Perm.refl _⟩
  | @cons entry entries d data o below hhead _ hfull hrest ih =>
    obtain ⟨hok, hperm⟩ := hsub entry d o hhead (List.subset_append_left _ _)
      (List.subset_append_left _ _) i (Nat.lt_add_of_pos_right (Nat.succ_pos _))
    obtain ⟨hoks, hperms⟩ := @ih (i + 1) fun entry d o h hd ho j hj =>
      hsub entry d o h (List.subset_append_of_subset_right _ hd)
        (List.subset_append_of_subset_right _ ho) j (by rw [List.length_cons]; omega)
    have hnext : dataRefs (base + (i + 1) * width) data =
        dataRefs (base + i * width + d.length) data := by
      cases data with
      | nil => rfl
      | cons p data =>
        rw [hfull (List.cons_ne_nil p data), Nat.add_mul, Nat.one_mul, Nat.add_assoc]
    refine ⟨fun q hq => ?_, List.perm_iff_count.mpr fun r => ?_⟩
    · rcases List.mem_cons.mp hq with rfl | hq
      · exact hok
      · exact hoks q hq
    · have hcount := hperm.count_eq r
      have hcounts := hperms.count_eq r
      rw [hnext] at hcounts
      rw [dataRefs_append]
      simp only [List.map_cons, List.map_append, List.zipIdx_cons, List.flatMap_cons,
        List.cons_append, List.count_cons, List.count_append] at hcount hcounts ⊢
      omega

/-- The walk through a subtree, but for its root. -/
theorem Subtree.walk {blocks : List (Nat × List Nat)} {level root base : Nat}
    {data owned : List Nat}
    (hread : ∀ c ∈ blocks, fs.readBlock c.1 =
      .ok (putU32s (List.replicate fs.blockSize 0) 0 c.2))
    (h : Subtree fs.perBlock blocks (level + 1) root data owned)
    (hvalid : ∀ b ∈ data ++ owned, 0 < b ∧ b < 2 ^ 32)
    (hfits : base + fs.perBlock ^ (level + 1) < 2 ^ 64) :
    (fs.walkIndirectLevel (level + 1) root base).2 = .ok () ∧
      (mapRef root :: (fs.walkIndirectLevel (level + 1) root base).1).Perm
        (dataRefs base data ++ owned.map mapRef) := by
  induction level generalizing root base data owned with
  | zero =>
    obtain ⟨entries, below, hroot, hlen, rfl, hfills⟩ := h
    obtain ⟨rfl, rfl⟩ := hfills.data
    have hpointers := pointersOf_putU32s
      (fun e he => hvalid e (List.mem_append_left _ he)) hlen (Nat.div_mul_le_self _ 4)
    rw [pow_one] at hfits
    rw [walkIndirectLevel_leaf (hread _ hroot) hfits, hpointers]
    refine ⟨rfl, ?_⟩
    rw [← dataRefs_eq]
    exact @List.perm_append_comm _ [mapRef root] _
  | succ level ih =>
    obtain ⟨entries, below, hroot, hlen, rfl, hfills⟩ := h
    have hbelow : ∀ b ∈ data ++ below, 0 < b ∧ b < 2 ^ 32 := by
      intro b hb
      rw [List.mem_append] at hb
      exact hvalid b (List.mem_append.mpr (hb.imp_right (List.mem_cons_of_mem root)))
    have hpointers := pointersOf_putU32s (fun e he => hbelow e (hfills.mem e he)) hlen
      (Nat.div_mul_le_self _ 4)
    obtain ⟨hoks, hperm⟩ := @hfills.walk fs blocks level _ base 0 _ _ _
      (fs.walkIndirectLevel (level + 1)) fun entry d o hsub hd ho j hj =>
        ih hsub (fun b hb => hbelow b <| List.append_subset.mpr
          ⟨List.subset_append_of_subset_left _ hd, List.subset_append_of_subset_right _ ho⟩ hb)
          (entry_fits hfits (by omega))
    have hmaps : (entries.zipIdx.map fun q => (q.2, q.1)).map (fun q => mapRef q.2) =
        entries.map mapRef := by
      rw [List.map_map, ← List.zipIdx_map_fst 0 entries, List.map_map, List.zipIdx_map_fst]
      rfl
    rw [walkIndirectLevel_inner (hread _ hroot) (by rwa [pow_succ, Nat.mul_comm] at hfits), hpointers]
    · refine ⟨rfl, ?_⟩
      rw [hmaps, List.map_cons]
      refine List.Perm.trans (List.Perm.cons _ ?_) List.perm_middle.symm
      rw [Nat.zero_mul, Nat.add_zero] at hperm
      refine List.Perm.trans (List.Perm.append_left _ ?_) hperm
      refine ((List.reverse_perm _).flatMap_right _).trans ?_
      rw [List.flatMap_map]
    · intro q hq
      rw [hpointers] at hq
      obtain ⟨r, hr, rfl⟩ := List.mem_map.mp hq
      exact hoks r hr

/-! ## A whole map -/

/-- A pointer of `i_block` to such a subtree, or none where there is no data for it. -/
def Slot (n : Nat) (blocks : List (Nat × List Nat)) (level root : Nat) (data owned : List Nat) :
    Prop :=
  if root = 0 then data = [] ∧ owned = [] else Subtree n blocks level root data owned

theorem Slot.walk {blocks : List (Nat × List Nat)} {pointers : List Nat} {level slot base : Nat}
    {data owned : List Nat}
    (hread : ∀ c ∈ blocks, fs.readBlock c.1 =
      .ok (putU32s (List.replicate fs.blockSize 0) 0 c.2))
    (h : Slot fs.perBlock blocks (level + 1) (pointers.getD slot 0) data owned)
    (hvalid : ∀ b ∈ data ++ owned, 0 < b ∧ b < 2 ^ 32)
    (hfits : base + fs.perBlock ^ (level + 1) < 2 ^ 64) :
    (fs.walkIndirectSlot pointers slot (level + 1) base).2 = .ok () ∧
      (fs.walkIndirectSlot pointers slot (level + 1) base).1.Perm
        (dataRefs base data ++ owned.map mapRef) := by
  rw [walkIndirectSlot]
  unfold Slot at h
  by_cases hroot : pointers.getD slot 0 = 0
  · rw [if_pos hroot] at h ⊢
    obtain ⟨rfl, rfl⟩ := h
    exact ⟨if_neg (Nat.not_le.mpr hfits), List.Perm.refl _⟩
  · rw [if_neg hroot] at h ⊢
    rw [Walk.andThen_of_ok rfl]
    exact h.walk hread hvalid hfits

/-- The data of a map by how it is reached, and the indirect blocks of each of the three trees. -/
structure MapParts where
  direct : List Nat
  single : List Nat := []
  double : List Nat := []
  triple : List Nat := []
  ind : List Nat := []
  dind : List Nat := []
  tind : List Nat := []

namespace MapParts

variable (m : MapParts)

def data : List Nat := m.direct ++ m.single ++ m.double ++ m.triple

def owned : List Nat := m.ind ++ m.dind ++ m.tind

variable {m} in
theorem mem_of_part {b : Nat} (h : b ∈ m.direct ∨ b ∈ m.single ++ m.ind ∨
    b ∈ m.double ++ m.dind ∨ b ∈ m.triple ++ m.tind) : b ∈ m.data ++ m.owned := by
  simp only [data, owned, List.mem_append] at h ⊢
  tauto

/-- `pointers` hold the map, each part of it filled before the next. -/
structure Held (n : Nat) (blocks : List (Nat × List Nat)) (pointers : List Nat) : Prop where
  direct_le : m.direct.length ≤ ndirBlocks
  direct : ∀ i < ndirBlocks, pointers.getD i 0 = m.direct[i]?.getD 0
  single : Slot n blocks 1 (pointers.getD ndirBlocks 0) m.single m.ind
  double : Slot n blocks 2 (pointers.getD (ndirBlocks + 1) 0) m.double m.dind
  triple : Slot n blocks 3 (pointers.getD (ndirBlocks + 2) 0) m.triple m.tind
  direct_full : m.single ≠ [] → m.direct.length = ndirBlocks
  single_full : m.double ≠ [] → (m.direct ++ m.single).length = ndirBlocks + n
  double_full : m.triple ≠ [] →
    (m.direct ++ m.single ++ m.double).length = ndirBlocks + n + n ^ 2

end MapParts

theorem dataRefs_congr {base base' : Nat} {data : List Nat} (h : data ≠ [] → base = base') :
    dataRefs base data = dataRefs base' data := by
  cases data with
  | nil => rfl
  | cons p data => rw [h (List.cons_ne_nil p data)]

/-- The walk of a mapped inode: its data where it belongs, and its indirect blocks. -/
theorem MapParts.Held.walk {blocks : List (Nat × List Nat)} {inode : Inode} {m : MapParts}
    (hread : ∀ c ∈ blocks, fs.readBlock c.1 =
      .ok (putU32s (List.replicate fs.blockSize 0) 0 c.2))
    (h : m.Held fs.perBlock blocks inode.blockPointers)
    (hvalid : ∀ b ∈ m.data ++ m.owned, 0 < b ∧ b < 2 ^ 32) (hfits : SpansFit fs.perBlock) :
    (fs.walkIndirect inode).2 = .ok () ∧
      (fs.walkIndirect inode).1.Perm (dataRefs 0 m.data ++ m.owned.map mapRef) := by
  have hmem : ∀ b, b ∈ m.direct ∨ b ∈ m.single ++ m.ind ∨ b ∈ m.double ++ m.dind ∨
      b ∈ m.triple ++ m.tind → b ∈ m.data ++ m.owned := fun _ => MapParts.mem_of_part
  unfold SpansFit at hfits
  have hdouble : ndirBlocks + fs.perBlock + fs.perBlock ^ 2 < 2 ^ 64 := by omega
  obtain ⟨k1, p1⟩ := @h.single.walk fs blocks _ 0 ndirBlocks ndirBlocks _ _ hread
    (fun b hb => hvalid b (hmem b (Or.inr (Or.inl hb)))) (by rw [pow_one]; omega)
  obtain ⟨k2, p2⟩ := @h.double.walk fs blocks _ 1 (ndirBlocks + 1) (ndirBlocks + fs.perBlock) _ _
    hread (fun b hb => hvalid b (hmem b (Or.inr (Or.inr (Or.inl hb))))) hdouble
  obtain ⟨k3, p3⟩ := @h.triple.walk fs blocks _ 2 (ndirBlocks + 2)
    (ndirBlocks + fs.perBlock + fs.perBlock ^ 2) _ _ hread
    (fun b hb => hvalid b (hmem b (Or.inr (Or.inr (Or.inr hb))))) hfits
  have hdirect := filter_pointers h.direct (fun e he => (hvalid e (hmem e (Or.inl he))).1)
    h.direct_le
  have hdata : dataRefs 0 m.data = dataRefs 0 m.direct ++ dataRefs ndirBlocks m.single ++
      dataRefs (ndirBlocks + fs.perBlock) m.double ++
      dataRefs (ndirBlocks + fs.perBlock + fs.perBlock ^ 2) m.triple := by
    rw [MapParts.data, dataRefs_append, dataRefs_append, dataRefs_append]
    simp only [Nat.zero_add]
    rw [dataRefs_congr h.direct_full, dataRefs_congr h.single_full, dataRefs_congr h.double_full]
  rw [walkIndirect, Walk.andThen_of_ok rfl, Walk.andThen_of_ok k1, Walk.andThen_of_ok k2]
  refine ⟨k3, ?_⟩
  dsimp only [Walk.visit]
  have hfirst : (m.direct.zipIdx.map fun q => (q.2, q.1)).map (fun q => dataRef q.1 q.2) =
      dataRefs 0 m.direct := by
    rw [dataRefs, List.map_map]
    rfl
  rw [hdirect]
  refine List.Perm.trans (List.Perm.of_eq (congrArg (· ++ _) hfirst)) ?_
  rw [hdata, MapParts.owned, List.map_append, List.map_append]
  refine List.perm_iff_count.mpr fun r => ?_
  have c1 := p1.count_eq r
  have c2 := p2.count_eq r
  have c3 := p3.count_eq r
  simp only [List.count_append, Nat.zero_add, Nat.reduceAdd] at c1 c2 c3 ⊢
  omega

end Filesystem

end MkfsExt4
