/-
  The order groups complete in, and the chunks the descriptor table goes out in, do not show
  (`write_filesystem_chunked` in `src/format.rs`). What the groups and the copies of their
  descriptors put where is the same for every schedule (`puts_writeTable`), and where pieces of
  metadata and descriptor regions are apart no two of them meet. The files and the superblocks
  come after all of it, in one order.
-/
import MkfsExt4.Format.Bounds
import MkfsExt4.Format.Cells
import Mathlib.Data.List.Induction

namespace MkfsExt4.Format

open Lib.Store Lib.Trace Lib.FirstFit Layout

variable (plan : Plan)

/-! ## The chunks of the table -/

/-- The groups of the chunks, one chunk after another. -/
theorem range_chunks (size n m : Nat) :
    ((List.range m).flatMap fun k =>
      List.range' (k * size) (min ((k + 1) * size) n - k * size)) = List.range (min (m * size) n) := by
  induction m with
  | zero => simp
  | succ m ih =>
    rw [List.range_succ, List.flatMap_append, ih, List.flatMap_cons, List.flatMap_nil,
      List.append_nil, List.range_eq_range', List.range_eq_range']
    have hstep : (m + 1) * size = m * size + size := Nat.succ_mul _ _
    rcases Nat.lt_or_ge n (m * size) with hlt | hle
    · rw [show min ((m + 1) * size) n - m * size = 0 by omega, List.range'_zero, List.append_nil]
      congr 1
      omega
    · rw [Nat.min_eq_left hle]
      have happ := List.range'_append_1 (s := 0) (m := m * size)
        (n := min ((m + 1) * size) n - m * size)
      rw [Nat.zero_add] at happ
      rw [happ]
      congr 1
      omega

/-- A group as it is queued. -/
def queued (group : Nat) : InFlight := { group, rest := writeGroup plan group }

variable {plan}

theorem chunkQueue_eq (plan : Plan) (chunk first : Nat) : chunkQueue plan chunk first =
    (List.range' (first * plan.geom.descPerBlock)
      (chunkEnd plan chunk first - first * plan.geom.descPerBlock)).map (queued plan) := rfl

/-- The table has a descriptor for every group. -/
theorem Plan.Sound.groups_le (h : plan.Sound) :
    plan.geom.groupCount ≤ plan.geom.descBlocks * plan.geom.descPerBlock := by
  rw [h.descBlocks]
  exact le_divCeil_mul _ h.descPerBlock_pos

theorem Plan.Sound.chunkEnd_eq (h : plan.Sound) {chunk first : Nat}
    (hfirst : first < plan.geom.descBlocks) : chunkEnd plan chunk first =
      min ((first + chunk) * plan.geom.descPerBlock) plan.geom.groupCount := by
  have hall := h.groups_le
  unfold chunkEnd
  rcases Nat.le_total chunk (plan.geom.descBlocks - first) with hle | hge
  · rw [Nat.min_eq_left hle]
  · rw [Nat.min_eq_right hge, show first + (plan.geom.descBlocks - first) = plan.geom.descBlocks by
      omega, Nat.min_eq_right hall]
    have := Nat.mul_le_mul_right plan.geom.descPerBlock
      (show plan.geom.descBlocks ≤ first + chunk by omega)
    omega

/-- The queues of all chunks hold every group once. -/
theorem Plan.Sound.queues (h : plan.Sound) {chunk : Nat} (hchunk : 0 < chunk) :
    ((List.range (divCeil plan.geom.descBlocks chunk)).flatMap fun k =>
      chunkQueue plan chunk (k * chunk)) =
        (List.range plan.geom.groupCount).map (queued plan) := by
  have hall : plan.geom.groupCount ≤
      divCeil plan.geom.descBlocks chunk * (chunk * plan.geom.descPerBlock) := by
    rw [← Nat.mul_assoc]
    exact Nat.le_trans h.groups_le (Nat.mul_le_mul_right _ (le_divCeil_mul _ hchunk))
  have hgroups := range_chunks (chunk * plan.geom.descPerBlock) plan.geom.groupCount
    (divCeil plan.geom.descBlocks chunk)
  rw [Nat.min_eq_right hall] at hgroups
  rw [← hgroups, List.map_flatMap]
  refine List.flatMap_congr fun k hk => ?_
  have hk := (lt_divCeil_iff hchunk).mp (List.mem_range.mp hk)
  rw [chunkQueue_eq, h.chunkEnd_eq hk, show k * chunk + chunk = (k + 1) * chunk from
    (Nat.succ_mul _ _).symm, Nat.mul_assoc, Nat.mul_assoc]

/-! ## Descriptors in their blocks -/

/-- A byte of the descriptor table. -/
def tableByte (plan : Plan) (o : Nat) : UInt8 :=
  let group := o / plan.geom.descSize
  match writeGroup plan group with
  | .ok (_, desc) =>
    if group < plan.geom.groupCount then
      (desc.encodeWithCsum plan.geom.descSize plan.csumScheme plan.csumSeed plan.uuid group).getD
        (o % plan.geom.descSize) 0
    else 0
  | .error _ => 0

theorem tableByte_of_ge {o : Nat} (h : plan.geom.groupCount ≤ o / plan.geom.descSize) :
    tableByte plan o = 0 := by
  unfold tableByte
  dsimp only
  split
  · rw [if_neg (Nat.not_lt.mpr h)]
  · rfl

theorem tableByte_of_lt {o : Nat} {ops : List Op} {desc : GroupDesc}
    (h : o / plan.geom.descSize < plan.geom.groupCount)
    (hwrite : writeGroup plan (o / plan.geom.descSize) = .ok (ops, desc)) :
    tableByte plan o = (desc.encodeWithCsum plan.geom.descSize plan.csumScheme plan.csumSeed
      plan.uuid (o / plan.geom.descSize)).getD (o % plan.geom.descSize) 0 := by
  unfold tableByte
  dsimp only
  rw [hwrite]
  exact if_pos h

/-- A byte of a chunk of the table, whatever the order its descriptors came in. -/
theorem getD_chunkTable (hsize : 0 < plan.geom.descSize) {firstGroup blocks o : Nat}
    {done : List (Nat × GroupDesc)} (ho : o < blocks * plan.geom.blockSize)
    (hdone : ∀ d ∈ done, firstGroup ≤ d.1 ∧ d.1 < plan.geom.groupCount ∧
      ∃ ops, writeGroup plan d.1 = .ok (ops, d.2)) :
    (chunkTable plan firstGroup blocks done).getD o 0 =
      if ∃ d ∈ done, d.1 = firstGroup + o / plan.geom.descSize then
        tableByte plan (firstGroup * plan.geom.descSize + o) else 0 := by
  have hplace : (firstGroup * plan.geom.descSize + o) / plan.geom.descSize =
      firstGroup + o / plan.geom.descSize := by
    rw [Nat.mul_comm, Nat.mul_add_div hsize]
  have hin : (firstGroup * plan.geom.descSize + o) % plan.geom.descSize =
      o % plan.geom.descSize := Nat.mul_add_mod_self_right ..
  -- The last descriptor of the group decides, and any of its others says the same.
  induction done using List.reverseRecOn with
  | nil =>
    rw [if_neg (by simp)]
    exact List.getD_replicate 0 ho
  | append_singleton done d ih =>
    have ih := ih fun d' hd' => hdone d' (List.mem_append_left _ hd')
    obtain ⟨hlow, hcount, ops, hwrite⟩ := hdone d (List.mem_append_right _ List.mem_cons_self)
    have hlen := length_chunkTable plan firstGroup blocks done
    have hsplice : chunkTable plan firstGroup blocks (done ++ [d]) =
        splice (chunkTable plan firstGroup blocks done) ((d.1 - firstGroup) * plan.geom.descSize)
          (d.2.encodeWithCsum plan.geom.descSize plan.csumScheme plan.csumSeed plan.uuid d.1) :=
      List.foldl_append ..
    have hcover := within_blocks (s := d.1 - firstGroup) (n := 1) (p := o) hsize
    rw [Nat.one_mul] at hcover
    rw [hsplice, getD_splice _ _ (by rw [hlen]; exact ho), GroupDesc.length_encodeWithCsum]
    by_cases hd : d.1 = firstGroup + o / plan.geom.descSize
    · have hstart : o - (d.1 - firstGroup) * plan.geom.descSize = o % plan.geom.descSize := by
        rw [hd, Nat.add_sub_cancel_left]
        have := Nat.div_add_mod' o plan.geom.descSize
        omega
      rw [if_pos (hcover.mpr (by omega)), hstart,
        if_pos ⟨d, List.mem_append_right _ List.mem_cons_self, hd⟩]
      rw [hd, ← hplace] at hwrite hcount
      rw [tableByte_of_lt hcount hwrite, hplace, hin, ← hd]
    · rw [if_neg fun hover => hd (by have := hcover.mp hover; omega), ih]
      refine if_congr ?_ rfl rfl
      simp only [List.mem_append, List.mem_singleton, or_and_right, exists_or, exists_eq_left, hd,
        or_false]

/-- The groups of a chunk that was done with, and the descriptors they ended with. -/
theorem mem_done {chunk first : Nat} {turns : List Nat} {done : List (Nat × GroupDesc)}
    (hdone : (drain plan.inFlight turns (chunkQueue plan chunk first)).result = .ok done)
    {d : Nat × GroupDesc} : d ∈ done ↔ first * plan.geom.descPerBlock ≤ d.1 ∧
      d.1 < chunkEnd plan chunk first ∧ ∃ ops, writeGroup plan d.1 = .ok (ops, d.2) := by
  obtain ⟨-, hperm, -⟩ := drain_ok (inFlight_pos plan) hdone
  rw [hperm.mem_iff, List.mem_filterMap]
  constructor
  · rintro ⟨t, ht, hend⟩
    obtain ⟨hrest, hlow, hhigh⟩ := mem_chunkQueue ht
    cases hgroup : writeGroup plan t.group with
    | error e =>
      rw [InFlight.ended, hrest, hgroup] at hend
      cases hend
    | ok r =>
      rw [InFlight.ended, hrest, hgroup] at hend
      cases hend
      exact ⟨hlow, hhigh, r.1, hgroup⟩
  · rintro ⟨hlow, hhigh, ops, hwrite⟩
    exact ⟨_, chunkQueue_mem hlow hhigh, InFlight.ended_of hwrite⟩

theorem Plan.Sound.descSize_pos (h : plan.Sound) : 0 < plan.geom.descSize := by
  have hmul := h.descSize
  rcases Nat.eq_zero_or_pos plan.geom.descSize with h0 | hpos
  · have := h.blockSize_pos
    rw [h0, Nat.mul_zero] at hmul
    omega
  · exact hpos

/-- A chunk of the table is the part of the whole table it stands for. -/
theorem Plan.Sound.getD_chunk (h : plan.Sound) {chunk first o : Nat} {turns : List Nat}
    {done : List (Nat × GroupDesc)}
    (hdone : (drain plan.inFlight turns (chunkQueue plan chunk first)).result = .ok done)
    (ho : o < min chunk (plan.geom.descBlocks - first) * plan.geom.blockSize) :
    (chunkTable plan (first * plan.geom.descPerBlock)
      (min chunk (plan.geom.descBlocks - first)) done).getD o 0 =
        tableByte plan (first * plan.geom.blockSize + o) := by
  have hsize := h.descSize_pos
  have hstart : first * plan.geom.descPerBlock * plan.geom.descSize =
      first * plan.geom.blockSize := by
    rw [Nat.mul_assoc, h.descSize]
  have hgroup : (first * plan.geom.blockSize + o) / plan.geom.descSize =
      first * plan.geom.descPerBlock + o / plan.geom.descSize := by
    rw [← hstart, Nat.mul_comm (first * _), Nat.mul_add_div hsize]
  -- Only the groups past the last one are missing.
  have hend : o / plan.geom.descSize <
      min chunk (plan.geom.descBlocks - first) * plan.geom.descPerBlock := by
    rw [Nat.div_lt_iff_lt_mul hsize, Nat.mul_assoc, h.descSize]
    exact ho
  rw [getD_chunkTable hsize ho, hstart]
  · split
    · rfl
    · next hnone =>
      symm
      apply tableByte_of_ge
      rw [hgroup]
      by_contra hlt
      have hin : first * plan.geom.descPerBlock + o / plan.geom.descSize <
          chunkEnd plan chunk first := by
        refine Nat.lt_min.mpr ⟨?_, Nat.not_le.mp hlt⟩
        rw [Nat.add_mul]
        exact Nat.add_lt_add_left hend _
      obtain ⟨state, hstate⟩ := built_of_drain hdone (Nat.le_add_right _ _) hin
      obtain ⟨⟨ops, desc⟩, hwrite⟩ := writeGroup_of_build hstate
      exact hnone ⟨(_, desc), (mem_done hdone).mpr ⟨Nat.le_add_right _ _, hin, ops, hwrite⟩, rfl⟩
  · intro d hd
    obtain ⟨hlow, hhigh, hwrite⟩ := (mem_done hdone).mp hd
    exact ⟨hlow, Nat.lt_of_lt_of_le hhigh (Nat.min_le_right _ _), hwrite⟩

/-! ## What is put where -/

/-- What the groups and the copies of their descriptors put at a position. -/
inductive TablePuts (plan : Plan) (p : Nat) : UInt8 → Prop where
  | group {g : Nat} {ops : List Op} {desc : GroupDesc} {v : UInt8} : g < plan.geom.groupCount →
      writeGroup plan g = .ok (ops, desc) → Puts ops p v → TablePuts plan p v
  | copy {c i : Nat} : c ∈ classicCopies plan.geom → i < plan.geom.descBlocks →
      p / plan.geom.blockSize = c + i →
      TablePuts plan p (tableByte plan (i * plan.geom.blockSize + p % plan.geom.blockSize))
  | holder {i : Nat} : plan.geom.metaBg = true → i < plan.geom.descBlocks →
      ¬ i < plan.geom.firstMetaBg → p / plan.geom.blockSize ∈ metaHolders plan.geom i →
      TablePuts plan p (tableByte plan (i * plan.geom.blockSize + p % plan.geom.blockSize))

theorem trace_writeCopies (plan : Plan) (first blocks : Nat) (table : List UInt8) :
    (writeCopies plan first blocks table).trace =
      ((classicCopies plan.geom).map fun copy =>
        .write ((copy + first) * plan.geom.blockSize) table) ++
      if plan.geom.metaBg then (List.range blocks).flatMap fun i =>
        if ¬ first + i < plan.geom.firstMetaBg then
          (metaHolders plan.geom (first + i)).map fun block =>
            .write (block * plan.geom.blockSize)
              (slice table (i * plan.geom.blockSize) plan.geom.blockSize)
        else []
      else [] := by
  have honly : ∀ (c : Prop) [Decidable c] (m : FormatM Unit),
      (onlyIf c m).trace = if c then m.trace else [] := fun c _ m => by
    unfold onlyIf
    split <;> rfl
  unfold writeCopies writeBlock issue
  dsimp only
  rw [forM_emit, bind_of_ok rfl, honly, forM_of_ok]
  · simp only [honly, forM_emit]
  · intro i _
    unfold onlyIf
    split
    · rw [forM_emit]
    · rfl

section Copies

variable {first blocks : Nat} {table : List UInt8} (hb : 0 < plan.geom.blockSize)
  (hlen : table.length = blocks * plan.geom.blockSize)
  (htable : ∀ o < blocks * plan.geom.blockSize,
    table.getD o 0 = tableByte plan (first * plan.geom.blockSize + o))

include htable in
theorem getD_tableBlock {i r : Nat} (hi : i < blocks) (hr : r < plan.geom.blockSize) :
    (slice table (i * plan.geom.blockSize) plan.geom.blockSize).getD r 0 =
      tableByte plan ((first + i) * plan.geom.blockSize + r) := by
  have := Nat.mul_le_mul_right plan.geom.blockSize hi
  rw [Nat.succ_mul] at this
  rw [getD_slice _ _ _ _ _ hr, htable _ (by omega), ← Nat.add_assoc, ← Nat.add_mul]

include hb hlen htable

/-- What the classic copies put of a chunk of the table. -/
theorem puts_copies {p : Nat} {v : UInt8} :
    Puts ((classicCopies plan.geom).map fun copy =>
        .write ((copy + first) * plan.geom.blockSize) table) p v ↔
      ∃ i, first ≤ i ∧ i < first + blocks ∧
        tableByte plan (i * plan.geom.blockSize + p % plan.geom.blockSize) = v ∧
        ∃ c ∈ classicCopies plan.geom, p / plan.geom.blockSize = c + i := by
  have hbyte := fun {i : Nat} (hi : i < blocks) => getD_tableBlock htable hi (Nat.mod_lt p hb)
  constructor
  · rintro ⟨op, hop, hv⟩
    obtain ⟨c, hc, rfl⟩ := List.mem_map.mp hop
    obtain ⟨i, hi, hblock, hv⟩ := (puts_write hb hlen).mp hv
    exact ⟨first + i, by omega, by omega, by rw [← hbyte hi, hv], c, hc, by omega⟩
  · rintro ⟨i, hlow, hhigh, rfl, c, hc, hblock⟩
    refine ⟨_, List.mem_map_of_mem hc, (puts_write hb hlen).mpr
      ⟨i - first, by omega, by omega, ?_⟩⟩
    rw [hbyte (by omega), Nat.add_sub_cancel' hlow]

/-- What the holders of meta block groups put of it. -/
theorem puts_holders {p : Nat} {v : UInt8} :
    Puts ((List.range blocks).flatMap fun i =>
        if ¬ first + i < plan.geom.firstMetaBg then
          (metaHolders plan.geom (first + i)).map fun block =>
            .write (block * plan.geom.blockSize)
              (slice table (i * plan.geom.blockSize) plan.geom.blockSize)
        else []) p v ↔
      ∃ i, first ≤ i ∧ i < first + blocks ∧
        tableByte plan (i * plan.geom.blockSize + p % plan.geom.blockSize) = v ∧
        ¬ i < plan.geom.firstMetaBg ∧ p / plan.geom.blockSize ∈ metaHolders plan.geom i := by
  have hbyte := fun {i : Nat} (hi : i < blocks) => getD_tableBlock htable hi (Nat.mod_lt p hb)
  have hslice : ∀ i < blocks,
      (slice table (i * plan.geom.blockSize) plan.geom.blockSize).length = plan.geom.blockSize := by
    intro i hi
    have := Nat.mul_le_mul_right plan.geom.blockSize hi
    rw [Nat.succ_mul] at this
    exact length_slice (by omega)
  rw [puts_flatMap]
  constructor
  · rintro ⟨i, hi, hput⟩
    have hi := List.mem_range.mp hi
    split at hput
    · next hfirst =>
      obtain ⟨op, hop, hv⟩ := hput
      obtain ⟨block, hblock, rfl⟩ := List.mem_map.mp hop
      obtain ⟨rfl, hbuf⟩ := (puts_write_one hb (hslice i hi)).mp hv
      exact ⟨first + i, by omega, by omega, by rw [← hbyte hi, hbuf], hfirst, hblock⟩
    · cases hput.choose_spec.1
  · rintro ⟨i, hlow, hhigh, rfl, hfirst, hblock⟩
    refine ⟨i - first, List.mem_range.mpr (by omega), ?_⟩
    rw [Nat.add_sub_cancel' hlow, if_pos hfirst]
    refine ⟨_, List.mem_map_of_mem hblock, (puts_write_one hb (hslice _ (by omega))).mpr
      ⟨rfl, ?_⟩⟩
    rw [hbyte (by omega), Nat.add_sub_cancel' hlow]

/-- The copies put a chunk of the table where they stand, and nothing else. -/
theorem puts_writeCopies {p : Nat} {v : UInt8} :
    Puts (writeCopies plan first blocks table).trace p v ↔ ∃ i, first ≤ i ∧ i < first + blocks ∧
      tableByte plan (i * plan.geom.blockSize + p % plan.geom.blockSize) = v ∧
      ((∃ c ∈ classicCopies plan.geom, p / plan.geom.blockSize = c + i) ∨
        plan.geom.metaBg = true ∧ ¬ i < plan.geom.firstMetaBg ∧
          p / plan.geom.blockSize ∈ metaHolders plan.geom i) := by
  rw [trace_writeCopies, puts_append, puts_copies hb hlen htable]
  constructor
  · rintro (⟨i, hlow, hhigh, hv, hplace⟩ | hput)
    · exact ⟨i, hlow, hhigh, hv, Or.inl hplace⟩
    · split at hput
      · next hmeta =>
        obtain ⟨i, hlow, hhigh, hv, hplace⟩ := (puts_holders hb hlen htable).mp hput
        exact ⟨i, hlow, hhigh, hv, Or.inr ⟨hmeta, hplace⟩⟩
      · cases hput.choose_spec.1
  · rintro ⟨i, hlow, hhigh, hv, hplace | ⟨hmeta, hplace⟩⟩
    · exact Or.inl ⟨i, hlow, hhigh, hv, hplace⟩
    · refine Or.inr ?_
      rw [if_pos hmeta]
      exact (puts_holders hb hlen htable).mpr ⟨i, hlow, hhigh, hv, hplace⟩

end Copies

/-- A chunk that was written: its groups, then the copies of their descriptors. -/
theorem writeChunk_ok {chunk first : Nat} {turns : List Nat} {free : Nat × Nat}
    (hres : (writeChunk plan chunk turns first).result = .ok free) : ∃ done,
      (drain plan.inFlight turns (chunkQueue plan chunk first)).result = .ok done ∧
      (writeChunk plan chunk turns first).trace =
        (drain plan.inFlight turns (chunkQueue plan chunk first)).trace ++
          (writeCopies plan first (min chunk (plan.geom.descBlocks - first))
            (chunkTable plan (first * plan.geom.descPerBlock)
              (min chunk (plan.geom.descBlocks - first)) done)).trace := by
  rw [writeChunk_eq] at hres ⊢
  obtain ⟨done, hdone, hrest, htrace⟩ := bind_ok hres
  obtain ⟨_, -, -, hcopies⟩ := bind_ok hrest
  rw [htrace, hcopies, trace_pure, List.append_nil]
  exact ⟨done, hdone, rfl⟩

/-- A chunk: what its groups put, and what its copies do. -/
theorem Plan.Sound.puts_writeChunk (h : plan.Sound) {chunk first : Nat} {turns : List Nat}
    {free : Nat × Nat} (hres : (writeChunk plan chunk turns first).result = .ok free) {p : Nat}
    {v : UInt8} : Puts (writeChunk plan chunk turns first).trace p v ↔
      (∃ t ∈ chunkQueue plan chunk first, Puts t.ops p v) ∨
        ∃ i, first ≤ i ∧ i < first + min chunk (plan.geom.descBlocks - first) ∧
          tableByte plan (i * plan.geom.blockSize + p % plan.geom.blockSize) = v ∧
          ((∃ c ∈ classicCopies plan.geom, p / plan.geom.blockSize = c + i) ∨
            plan.geom.metaBg = true ∧ ¬ i < plan.geom.firstMetaBg ∧
              p / plan.geom.blockSize ∈ metaHolders plan.geom i) := by
  obtain ⟨done, hdone, htrace⟩ := writeChunk_ok hres
  rw [htrace, puts_append, puts_perm (drain_ok (inFlight_pos plan) hdone).2.2, puts_flatMap,
    puts_writeCopies h.blockSize_pos (length_chunkTable plan _ _ done)
      fun o ho => h.getD_chunk hdone ho]

/-- What the groups have free between them. -/
def tableFree (plan : Plan) : Nat × Nat :=
  let done := ((List.range plan.geom.groupCount).map (queued plan)).filterMap InFlight.ended
  ((done.map fun d => d.2.freeBlocksCount).sum, (done.map fun d => d.2.freeInodesCount).sum)

theorem answer_writeChunk {chunk first : Nat} {turns : List Nat} {free : Nat × Nat}
    (h : (writeChunk plan chunk turns first).result = .ok free) :
    let done := (chunkQueue plan chunk first).filterMap InFlight.ended
    free = ((done.map fun d => d.2.freeBlocksCount).sum,
      (done.map fun d => d.2.freeInodesCount).sum) := by
  rw [writeChunk_eq] at h
  obtain ⟨done, hdone, hrest, -⟩ := bind_ok h
  obtain ⟨_, -, hpure, -⟩ := bind_ok hrest
  obtain ⟨-, hperm, -⟩ := drain_ok (inFlight_pos plan) hdone
  rw [← Except.ok.inj hpure]
  dsimp only
  rw [(hperm.map _).sum_nat, (hperm.map _).sum_nat]

theorem foldl_add_pairs {α : Type} (f g : α → Nat) (xs : List α) (free : Nat × Nat) :
    xs.foldl (fun free x => (free.1 + f x, free.2 + g x)) free =
      (free.1 + (xs.map f).sum, free.2 + (xs.map g).sum) := by
  induction xs generalizing free with
  | nil => rfl
  | cons x xs ih =>
    rw [List.foldl_cons, ih, List.map_cons, List.map_cons, List.sum_cons, List.sum_cons,
      Nat.add_assoc, Nat.add_assoc]

theorem sum_map_flatMap {α β : Type} (f : β → Nat) (q : α → List β) (xs : List α) :
    (xs.map fun x => ((q x).map f).sum).sum = ((xs.flatMap q).map f).sum := by
  induction xs with
  | nil => rfl
  | cons x xs ih =>
    rw [List.map_cons, List.sum_cons, ih, List.flatMap_cons, List.map_append, List.sum_append]

theorem writeTable_eq (plan : Plan) (chunkBlocks : Nat) (schedule : Nat → List Nat) :
    writeTable plan chunkBlocks schedule =
      (List.range (divCeil plan.geom.descBlocks (max chunkBlocks 1))).foldlM (fun free k =>
        writeChunk plan (max chunkBlocks 1) (schedule k) (k * max chunkBlocks 1) >>= fun more =>
          pure (free.1 + more.1, free.2 + more.2)) (0, 0) := rfl

/-- Every chunk of a table that was written came to an end. -/
theorem writeTable_chunk {chunkBlocks : Nat} {schedule : Nat → List Nat} {free : Nat × Nat}
    (hres : (writeTable plan chunkBlocks schedule).result = .ok free) {k : Nat}
    (hk : k * max chunkBlocks 1 < plan.geom.descBlocks) :
    ∃ more, (writeChunk plan (max chunkBlocks 1) (schedule k)
      (k * max chunkBlocks 1)).result = .ok more := by
  rw [writeTable_eq] at hres
  have hmem := List.mem_range.mpr ((lt_divCeil_iff (by omega)).mpr hk)
  obtain ⟨b0, b1, hstep⟩ := foldlM_ok hres hmem
  obtain ⟨more, hmore, -⟩ := bind_ok hstep
  exact ⟨more, hmore⟩

/-- The table was written: its groups are built, and what they have free does not depend on the
schedule. -/
theorem Plan.Sound.writeTable_ok (h : plan.Sound) {chunkBlocks : Nat} {schedule : Nat → List Nat}
    {free : Nat × Nat} (hres : (writeTable plan chunkBlocks schedule).result = .ok free) :
    free = tableFree plan ∧ (writeTable plan chunkBlocks schedule).trace =
      (List.range (divCeil plan.geom.descBlocks (max chunkBlocks 1))).flatMap fun k =>
        (writeChunk plan (max chunkBlocks 1) (schedule k) (k * max chunkBlocks 1)).trace := by
  have hchunk : 0 < max chunkBlocks 1 := by omega
  rw [writeTable_eq] at hres ⊢
  obtain ⟨hfree, htrace⟩ := foldlM_of_answers (fun k _ more hmore => answer_writeChunk hmore) hres
  refine ⟨?_, htrace⟩
  rw [hfree, foldl_add_pairs, Nat.zero_add, Nat.zero_add, sum_map_flatMap, sum_map_flatMap,
    ← List.filterMap_flatMap, h.queues hchunk]
  rfl

/-- Whatever the schedule, the same bytes are put in the same places. -/
theorem Plan.Sound.puts_writeTable (h : plan.Sound) {chunkBlocks : Nat}
    {schedule : Nat → List Nat} {free : Nat × Nat}
    (hres : (writeTable plan chunkBlocks schedule).result = .ok free) {p : Nat} {v : UInt8} :
    Puts (writeTable plan chunkBlocks schedule).trace p v ↔ TablePuts plan p v := by
  have hchunk : 0 < max chunkBlocks 1 := by omega
  have hwrote := fun k hk => writeTable_chunk hres (k := k) hk
  have hqueues := h.queues hchunk
  rw [(h.writeTable_ok hres).2, puts_flatMap]
  generalize max chunkBlocks 1 = chunk at hchunk hwrote hqueues ⊢
  constructor
  · rintro ⟨k, hk, hput⟩
    obtain ⟨more, hmore⟩ := hwrote k ((lt_divCeil_iff hchunk).mp (List.mem_range.mp hk))
    rcases (h.puts_writeChunk hmore).mp hput with
      ⟨t, ht, hops⟩ | ⟨i, hlow, hi, rfl, ⟨c, hc, hblock⟩ | ⟨hmeta, hfirst, hblock⟩⟩
    · have hall : t ∈ (List.range (divCeil plan.geom.descBlocks chunk)).flatMap fun k =>
          chunkQueue plan chunk (k * chunk) := List.mem_flatMap.mpr ⟨k, hk, ht⟩
      rw [hqueues] at hall
      obtain ⟨g, hg, rfl⟩ := List.mem_map.mp hall
      cases hwrite : writeGroup plan g with
      | error e =>
        rw [InFlight.ops, queued, hwrite] at hops
        cases hops.choose_spec.1
      | ok r =>
        rw [InFlight.ops_of hwrite] at hops
        exact .group (List.mem_range.mp hg) hwrite hops
    · exact .copy hc (by omega) hblock
    · exact .holder hmeta (by omega) hfirst hblock
  -- A block of the table goes out with the chunk it is in.
  have hcopy : ∀ i < plan.geom.descBlocks, ((∃ c ∈ classicCopies plan.geom,
      p / plan.geom.blockSize = c + i) ∨ plan.geom.metaBg = true ∧ ¬ i < plan.geom.firstMetaBg ∧
        p / plan.geom.blockSize ∈ metaHolders plan.geom i) →
      ∃ k ∈ List.range (divCeil plan.geom.descBlocks chunk),
        Puts (writeChunk plan chunk (schedule k) (k * chunk)).trace p
          (tableByte plan (i * plan.geom.blockSize + p % plan.geom.blockSize)) := by
    intro i hi hplace
    have hdiv := Nat.div_add_mod' i chunk
    have hmod := Nat.mod_lt i hchunk
    have hk : i / chunk * chunk < plan.geom.descBlocks := by omega
    obtain ⟨more, hmore⟩ := hwrote _ hk
    exact ⟨i / chunk, List.mem_range.mpr ((lt_divCeil_iff hchunk).mpr hk),
      (h.puts_writeChunk hmore).mpr (Or.inr ⟨i, by omega, by omega, rfl, hplace⟩)⟩
  intro hput
  cases hput with
  | @group g ops desc _ hg hwrite hops =>
    have hall := List.mem_map_of_mem (f := queued plan) (List.mem_range.mpr hg)
    rw [← hqueues] at hall
    obtain ⟨k, hk, hin⟩ := List.mem_flatMap.mp hall
    obtain ⟨more, hmore⟩ := hwrote k ((lt_divCeil_iff hchunk).mp (List.mem_range.mp hk))
    refine ⟨k, hk, (h.puts_writeChunk hmore).mpr (Or.inl ⟨_, hin, ?_⟩)⟩
    rw [InFlight.ops_of hwrite]
    exact hops
  | copy hc hi hblock => exact hcopy _ hi (Or.inl ⟨_, hc, hblock⟩)
  | holder hmeta hi hfirst hblock => exact hcopy _ hi (Or.inr ⟨hmeta, hfirst, hblock⟩)

/-! ## Runs that are apart -/

/-- No two runs of metadata share a block: bitmaps, inode tables, and the superblock and
descriptor regions at the front of groups. -/
structure Plan.RunsApart (plan : Plan) : Prop where
  parts : ∀ g lay p g' lay' p' b, plan.geom.group g = .ok lay → plan.geom.group g' = .ok lay' →
    (g, p) ≠ (g', p') → Within (plan.geom.part lay p) b → ¬ Within (plan.geom.part lay' p') b
  clear : ∀ g lay p b, plan.geom.group g = .ok lay → Within (plan.geom.part lay p) b →
    ∀ h < plan.geom.groupCount, ¬ Within (plan.geom.superRegion h) b
  regions : ∀ g < plan.geom.groupCount, ∀ h < plan.geom.groupCount, g ≠ h → ∀ b,
    Within (plan.geom.superRegion g) b → ¬ Within (plan.geom.superRegion h) b

/-- The groups reach the end, every flex group but the last has room for its metadata, and what
a group has at its front stays in the group. -/
structure Spacious (geom : Geometry) : Prop where
  reach : geom.blocksCount ≤ geom.groupFirstBlock geom.groupCount
  room : geom.RoomForAll
  fronts : ∀ g < geom.groupCount, geom.superOverhead g ≤ geom.blocksPerGroup

section Spacious

variable {geom : Geometry}

theorem groupFirstBlock_succ (geom : Geometry) (g : Nat) :
    geom.groupFirstBlock (g + 1) = geom.groupFirstBlock g + geom.blocksPerGroup := by
  rw [Geometry.groupFirstBlock, Geometry.groupFirstBlock, Nat.succ_mul, Nat.add_assoc]

theorem Spacious.regionsReported (h : Spacious geom) (hc : Computed geom) :
    geom.RegionsReported := by
  rintro g hg b hb ⟨hlow, hhigh⟩
  have hfit := h.fronts g hg
  obtain ⟨i, rfl⟩ := Nat.exists_eq_add_of_le hlow
  simp only [Geometry.superRegion] at hlow hhigh hb ⊢
  by_contra hrep
  have := (Geometry.free_iff hc.groupCount_lt hg (by omega) hb).mp (Bool.eq_false_iff.mpr hrep)
  omega

theorem Spacious.metadataSound (h : Spacious geom) (hc : Computed geom) : geom.MetadataSound :=
  Geometry.metadataSound_of_room hc h.room (h.regionsReported hc)

theorem Spacious.regions_apart (h : Spacious geom) {g g' b : Nat} (hg : g < geom.groupCount)
    (hg' : g' < geom.groupCount) (hne : g ≠ g') (hb : Within (geom.superRegion g) b) :
    ¬Within (geom.superRegion g') b := by
  rintro ⟨hlow', hhigh'⟩
  obtain ⟨hlow, hhigh⟩ := hb
  simp only [Geometry.superRegion] at hlow hhigh hlow' hhigh'
  have hfit := h.fronts g hg
  have hfit' := h.fronts g' hg'
  have hnext := groupFirstBlock_succ geom g
  have hnext' := groupFirstBlock_succ geom g'
  rcases Nat.lt_or_gt_of_ne hne with hlt | hlt
  · have := geom.groupFirstBlock_mono (show g + 1 ≤ g' from hlt)
    omega
  · have := geom.groupFirstBlock_mono (show g' + 1 ≤ g from hlt)
    omega

end Spacious

/-- Where there is room, no two runs meet. -/
theorem Plan.Sound.runsApart {plan : Plan} (h : plan.Sound) (hroomy : Spacious plan.geom) :
    plan.RunsApart := by
  have hsound := hroomy.metadataSound h.computed
  refine ⟨hsound.apart, hsound.clear, fun g hg g' hg' hne b hb => ?_⟩
  exact hroomy.regions_apart hg hg' hne hb

/-- What a group leaves at a position of one of its pieces. -/
def partByte (state : GroupState) (p : Part) (o : Nat) : UInt8 :=
  match p with
  | .blockBitmap => state.blockBitmap.getD o 0
  | .inodeBitmap => state.inodeBitmap.getD o 0
  | .inodeTable => 0

/-- A group puts nothing outside its own metadata. -/
theorem puts_writeGroup (hb : 0 < plan.geom.blockSize) {g : Nat} {ops : List Op}
    {desc : GroupDesc} (hwrite : writeGroup plan g = .ok (ops, desc)) {p : Nat} {v : UInt8}
    (hput : Puts ops p v) : ∃ state lay part, buildGroup plan g = .ok state ∧
      plan.geom.group g = .ok lay ∧ Within (plan.geom.part lay part) (p / plan.geom.blockSize) ∧
      v = partByte state part (p % plan.geom.blockSize) := by
  obtain ⟨state, lay, hstate, hlay, -, rfl⟩ := writeGroup_ok hwrite
  obtain ⟨-, hblock, hinode⟩ := buildGroup_ok hstate
  obtain ⟨op, hop, hv⟩ := hput
  simp only [List.mem_append, List.mem_ite_nil_left, List.mem_singleton] at hop
  rcases hop with (⟨-, rfl⟩ | ⟨-, rfl⟩) | ⟨-, rfl⟩
  · obtain ⟨hin, rfl⟩ := (puts_write_one hb hblock).mp hv
    exact ⟨state, lay, .blockBitmap, hstate, hlay,
      ⟨Nat.le_of_eq hin.symm, Nat.lt_succ_of_le (Nat.le_of_eq hin)⟩, rfl⟩
  · obtain ⟨hin, rfl⟩ := (puts_write_one hb hinode).mp hv
    exact ⟨state, lay, .inodeBitmap, hstate, hlay,
      ⟨Nat.le_of_eq hin.symm, Nat.lt_succ_of_le (Nat.le_of_eq hin)⟩, rfl⟩
  · obtain ⟨hin, rfl⟩ := (puts_zero hb).mp hv
    exact ⟨state, lay, .inodeTable, hstate, hlay, hin, rfl⟩

/-- A block of a classic copy is in the descriptor region of its group. -/
theorem copy_in_region {c i b : Nat} (hc : c ∈ classicCopies plan.geom)
    (hi : i < plan.geom.descBlocks) (hb : b = c + i) : ∃ g < plan.geom.groupCount,
      (plan.geom.metaBg = true → plan.geom.metaBgOf g < plan.geom.firstMetaBg) ∧
      c = plan.geom.groupFirstBlock g + (plan.geom.hasSuper g).toNat ∧
      Within (plan.geom.superRegion g) b := by
  obtain ⟨g, hg, hloc⟩ := List.mem_filterMap.mp hc
  obtain ⟨hg, hclassic⟩ := List.mem_filter.mp hg
  obtain ⟨hdesc, rfl⟩ := Geometry.descBlockLocation_some hloc
  have hover : plan.geom.superOverhead g = (plan.geom.hasSuper g).toNat +
      (plan.geom.descBlocks + plan.geom.reservedGdtBlocks) := by
    have hclassic : !plan.geom.metaBg ∨ plan.geom.metaBgOf g < plan.geom.firstMetaBg := by
      simpa using hclassic
    rw [Geometry.superOverhead, Geometry.descBlocksInGroup, hdesc]
    simp only [Bool.not_true, Bool.false_eq_true, if_false]
    rw [if_pos (by simpa using hclassic)]
  refine ⟨g, List.mem_range.mp hg, fun hm => ?_, rfl, ?_⟩
  · simpa [hm] using hclassic
  · unfold Within Geometry.superRegion
    rw [hover]
    dsimp only
    omega

/-- The block a meta block group's descriptors stand in is behind the superblock of a group of
it. -/
theorem holder_of_mem (hdpb : 2 ≤ plan.geom.descPerBlock) {i b : Nat}
    (hb : b ∈ metaHolders plan.geom i) : ∃ g < plan.geom.groupCount, plan.geom.metaBgOf g = i ∧
      plan.geom.groupHasDesc g = true ∧
      b = plan.geom.groupFirstBlock g + (plan.geom.hasSuper g).toNat := by
  obtain ⟨g, hg, hloc⟩ := List.mem_filterMap.mp hb
  obtain ⟨hg, hcount⟩ := List.mem_filter.mp hg
  obtain ⟨hdesc, rfl⟩ := Geometry.descBlockLocation_some hloc
  refine ⟨g, of_decide_eq_true hcount, ?_, hdesc, rfl⟩
  unfold Geometry.metaBgOf Geometry.metaBgSize
  refine Nat.div_eq_of_lt_le ?_ ?_ <;>
    simp only [Geometry.metaBgSize, List.mem_cons, List.not_mem_nil, or_false] at hg <;>
    first | rw [Nat.succ_mul]; omega | omega

theorem holder_in_region (hdpb : 2 ≤ plan.geom.descPerBlock) (hmeta : plan.geom.metaBg = true)
    {i b : Nat} (hi : ¬ i < plan.geom.firstMetaBg) (hb : b ∈ metaHolders plan.geom i) :
    ∃ g < plan.geom.groupCount, plan.geom.metaBgOf g = i ∧ Within (plan.geom.superRegion g) b := by
  obtain ⟨g, hg, hof, hdesc, rfl⟩ := holder_of_mem hdpb hb
  have hover : plan.geom.superOverhead g = (plan.geom.hasSuper g).toNat + 1 := by
    rw [Geometry.superOverhead, Geometry.descBlocksInGroup, hdesc, hof, hmeta]
    simp [hi]
  refine ⟨g, hg, hof, ?_⟩
  unfold Within Geometry.superRegion
  rw [hover]
  dsimp only
  omega

/-- In a block that is no group's own metadata and in one region at most, no two different bytes
are put in one place. -/
theorem Plan.Sound.puts_one_region (h : plan.Sound) {p : Nat} {v v' : UInt8}
    (hnone : ∀ g lay part, plan.geom.group g = .ok lay →
      ¬ Within (plan.geom.part lay part) (p / plan.geom.blockSize))
    (hsame : ∀ g < plan.geom.groupCount, ∀ g' < plan.geom.groupCount,
      Within (plan.geom.superRegion g) (p / plan.geom.blockSize) →
      Within (plan.geom.superRegion g') (p / plan.geom.blockSize) → g = g')
    (hv : TablePuts plan p v) (hv' : TablePuts plan p v') : v = v' := by
  have hdpb : 2 ≤ plan.geom.descPerBlock :=
    Nat.le_trans (by decide) h.computed.descPerBlock_ge
  have hgroup : ∀ {g : Nat} {ops : List Op} {desc : GroupDesc} {w : UInt8},
      writeGroup plan g = .ok (ops, desc) → ¬ Puts ops p w := by
    intro g ops desc w hwrite hput
    obtain ⟨_, lay, part, -, hlay, hin, -⟩ := puts_writeGroup h.blockSize_pos hwrite hput
    exact hnone g lay part hlay hin
  cases hv with
  | group hg hwrite hput => exact absurd hput (hgroup hwrite)
  | copy hc hi hblock =>
    obtain ⟨g, hg, hclassic, hcopy, hin⟩ := copy_in_region hc hi hblock
    cases hv' with
    | group hg' hwrite' hput' => exact absurd hput' (hgroup hwrite')
    | copy hc' hi' hblock' =>
      obtain ⟨g', hg', -, hcopy', hin'⟩ := copy_in_region hc' hi' hblock'
      obtain rfl := hsame g hg g' hg' hin hin'
      congr 3
      omega
    | holder hmeta hi' hfirst hblock' =>
      obtain ⟨g', hg', hof, hin'⟩ := holder_in_region hdpb hmeta hfirst hblock'
      obtain rfl := hsame g hg g' hg' hin hin'
      exact absurd (hof ▸ hclassic hmeta) hfirst
  | holder hmeta hi hfirst hblock =>
    obtain ⟨g, hg, hof, hin⟩ := holder_in_region hdpb hmeta hfirst hblock
    cases hv' with
    | group hg' hwrite' hput' => exact absurd hput' (hgroup hwrite')
    | copy hc' hi' hblock' =>
      obtain ⟨g', hg', hclassic, -, hin'⟩ := copy_in_region hc' hi' hblock'
      obtain rfl := hsame g hg g' hg' hin hin'
      exact absurd (hof ▸ hclassic hmeta) hfirst
    | holder hmeta' hi' hfirst' hblock' =>
      obtain ⟨g', hg', hof', hin'⟩ := holder_in_region hdpb hmeta hfirst' hblock'
      obtain rfl := hsame g hg g' hg' hin hin'
      rw [← hof, ← hof']

/-- Where runs are apart, no two different bytes are put in one place. -/
theorem Plan.Sound.puts_one (h : plan.Sound) (hapart : plan.RunsApart) {p : Nat} {v v' : UInt8}
    (hv : TablePuts plan p v) (hv' : TablePuts plan p v') : v = v' := by
  by_cases hpart : ∃ g lay part, plan.geom.group g = .ok lay ∧
      Within (plan.geom.part lay part) (p / plan.geom.blockSize)
  · obtain ⟨g, lay, part, hlay, hin⟩ := hpart
    have hclear := hapart.clear g lay part _ hlay hin
    -- It is that group that puts something there.
    have hone : ∀ {w : UInt8}, TablePuts plan p w → ∃ state, buildGroup plan g = .ok state ∧
        w = partByte state part (p % plan.geom.blockSize) := by
      intro w hw
      cases hw with
      | @group g' _ _ _ hg' hwrite hput =>
        obtain ⟨state, lay', part', hstate, hlay', hin', rfl⟩ :=
          puts_writeGroup h.blockSize_pos hwrite hput
        have heq : (g, part) = (g', part') := by
          by_contra hne
          exact hapart.parts _ _ _ _ _ _ _ hlay hlay' hne hin hin'
        obtain ⟨rfl, rfl⟩ := Prod.mk.inj heq
        exact ⟨state, hstate, rfl⟩
      | copy hc hi hblock =>
        obtain ⟨g', hg', -, -, hin'⟩ := copy_in_region hc hi hblock
        exact absurd hin' (hclear g' hg')
      | holder hmeta hi hfirst hblock =>
        obtain ⟨g', hg', -, hin'⟩ := holder_in_region
          (Nat.le_trans (by decide) h.computed.descPerBlock_ge) hmeta hfirst hblock
        exact absurd hin' (hclear g' hg')
    obtain ⟨state, hstate, rfl⟩ := hone hv
    obtain ⟨state', hstate', rfl⟩ := hone hv'
    rw [Except.ok.inj (hstate.symm.trans hstate')]
  · refine h.puts_one_region (fun g lay part hlay hin => hpart ⟨g, lay, part, hlay, hin⟩)
      (fun g hg g' hg' hin hin' => ?_) hv hv'
    by_contra hne
    exact hapart.regions g hg g' hg' hne _ hin hin'

/-! ## Two schedules -/

/-- The rest of a format, once the descriptor table is out. -/
def afterTable (plan : Plan) (free : Nat × Nat) : FormatM Report :=
  writeFiles plan >>= fun _ => writeSuperblocks plan free >>= fun _ =>
    pure {
      blocksCount := plan.geom.blocksCount
      blockSize := plan.geom.blockSize
      inodesCount := plan.geom.inodesCount
      freeBlocksCount := free.1
      freeInodesCount := free.2
      groupCount := plan.geom.groupCount
      uuid := plan.uuid
      label := plan.label
      journalBlocks := plan.journalBlocks }

theorem writeFilesystemChunked_eq (plan : Plan) (chunkBlocks : Nat) (schedule : Nat → List Nat) :
    writeFilesystemChunked plan chunkBlocks schedule =
      (writeFront plan >>= fun _ => writeTable plan chunkBlocks schedule >>= afterTable plan) := by
  unfold writeFilesystemChunked writeContents afterTable
  simp only [bind_assoc, pure_bind]

/-- A table whose groups can all be built is written. -/
theorem ends_writeTable (hbuilt : ∀ g < plan.geom.groupCount, ∃ state, buildGroup plan g = .ok state)
    (chunkBlocks : Nat) (schedule : Nat → List Nat) : Ends (writeTable plan chunkBlocks schedule) := by
  rw [writeTable_eq]
  refine ends_foldlM (fun k _ free => ends_bind (ends_writeChunk ?_ _) fun _ => ends_pure _) _
  exact fun g hg => hbuilt g (Nat.lt_of_lt_of_le hg (Nat.min_le_right _ _))

/-- Every group of a table that was written can be built. -/
theorem Plan.Sound.built_of_writeTable (h : plan.Sound) {chunkBlocks : Nat}
    {schedule : Nat → List Nat} {free : Nat × Nat}
    (hres : (writeTable plan chunkBlocks schedule).result = .ok free) {g : Nat}
    (hg : g < plan.geom.groupCount) : ∃ state, buildGroup plan g = .ok state := by
  have hchunk : 0 < max chunkBlocks 1 := by omega
  have hwrote := fun k hk => writeTable_chunk hres (k := k) hk
  have hqueues := h.queues hchunk
  generalize max chunkBlocks 1 = chunk at hchunk hwrote hqueues
  have hall := List.mem_map_of_mem (f := queued plan) (List.mem_range.mpr hg)
  rw [← hqueues] at hall
  obtain ⟨k, hk, hin⟩ := List.mem_flatMap.mp hall
  obtain ⟨more, hmore⟩ := hwrote k ((lt_divCeil_iff hchunk).mp (List.mem_range.mp hk))
  rw [writeChunk_eq] at hmore
  obtain ⟨done, hdone, -⟩ := bind_ok hmore
  obtain ⟨-, hlow, hhigh⟩ := mem_chunkQueue hin
  exact built_of_drain hdone hlow hhigh

/-- Any other schedule gets through the table too. -/
theorem Plan.Sound.writeTable_schedule (h : plan.Sound) {chunkBlocks chunkBlocks' : Nat}
    {schedule schedule' : Nat → List Nat} {free : Nat × Nat}
    (hres : (writeTable plan chunkBlocks schedule).result = .ok free) :
    (writeTable plan chunkBlocks' schedule').result = .ok free := by
  obtain ⟨free', hfree'⟩ := ends_writeTable (fun g hg => h.built_of_writeTable hres hg)
    chunkBlocks' schedule'
  rw [hfree', (h.writeTable_ok hres).1, (h.writeTable_ok hfree').1]

/-- What a format leaves, and what it reports, do not depend on how its descriptor table is cut
up and in which order its groups get on. -/
theorem writePlan_schedule {deviceSize : Nat} {params : Params} {ambient : Ambient} {plan : Plan}
    (htyped : params.Typed) (hplan : Format.plan deviceSize params ambient = .ok plan)
    (hapart : plan.RunsApart) {chunkBlocks chunkBlocks' : Nat}
    {schedule schedule' : Nat → List Nat} {dev dev' : Device} {report : Report}
    (hrun : writePlan plan chunkBlocks schedule dev = (.ok report, dev')) :
    writePlan plan chunkBlocks' schedule' dev = (.ok report, dev') := by
  have h := plan_sound htyped hplan
  have hsplit : ∀ {chunkBlocks : Nat} {schedule : Nat → List Nat} {free : Nat × Nat},
      (writeFront plan).result = .ok () → (writeTable plan chunkBlocks schedule).result = .ok free →
      writeFilesystemChunked plan chunkBlocks schedule = {
        trace := (writeFront plan).trace ++ ((writeTable plan chunkBlocks schedule).trace ++
          (afterTable plan free).trace)
        result := (afterTable plan free).result } := by
    intro _ _ _ hfront hfree
    rw [writeFilesystemChunked_eq, bind_of_ok hfront, bind_of_ok hfree]
  unfold writePlan at hrun ⊢
  dsimp only at hrun ⊢
  split at hrun
  · cases hrun
  next after hops =>
  obtain ⟨hresult, rfl⟩ := Prod.mk.inj hrun
  have hends := hresult
  rw [writeFilesystemChunked_eq] at hends
  obtain ⟨_, hfront, hends, -⟩ := bind_ok hends
  obtain ⟨free, hfree, -, -⟩ := bind_ok hends
  have hfree' : (writeTable plan chunkBlocks' schedule').result = .ok free :=
    h.writeTable_schedule hfree
  rw [hsplit hfront hfree] at hops hresult
  rw [hsplit hfront hfree']
  -- Only what the table puts where has to be compared.
  obtain ⟨before, hbefore, hops⟩ := runOps_append_ok.mp hops
  obtain ⟨mid, hmid, hafter⟩ := runOps_append_ok.mp hops
  have hmid' : runOps (writeTable plan chunkBlocks' schedule').trace before = (.ok (), mid) := by
    refine runOps_congr (fun p v => ?_) (fun p v v' hv hv' => ?_) (fun op hop span hspan => ?_) hmid
    · rw [h.puts_writeTable hfree, h.puts_writeTable hfree']
    · exact h.puts_one hapart ((h.puts_writeTable hfree).mp hv) ((h.puts_writeTable hfree).mp hv')
    · obtain ⟨start, len, hlen, rfl, -⟩ := issues_writeTable h.computed.itable_pos
        h.descPerBlock_pos chunkBlocks' schedule' op hop span hspan
      exact Nat.mul_pos hlen h.blockSize_pos
  rw [runOps_append_ok.mpr ⟨before, hbefore, runOps_append_ok.mpr ⟨mid, hmid', hafter⟩⟩]
  exact Prod.ext hresult rfl

/-- A format comes to its end when the groups can be built and the two fixed parts can be made. -/
theorem ends_writeFilesystemChunked
    (hbuilt : ∀ g < plan.geom.groupCount, ∃ state, buildGroup plan g = .ok state)
    (hfront : (writeFront plan).result.isOk = true) (hfiles : (writeFiles plan).result.isOk = true)
    (chunkBlocks : Nat) (schedule : Nat → List Nat) :
    Ends (writeFilesystemChunked plan chunkBlocks schedule) := by
  have hof : ∀ m : FormatM Unit, m.result.isOk = true → Ends m := by
    rintro ⟨_, _ | a⟩ hm
    · cases hm
    · exact ⟨a, rfl⟩
  rw [writeFilesystemChunked_eq]
  refine ends_bind (hof _ hfront) fun _ => ends_bind (ends_writeTable hbuilt _ _) fun free => ?_
  refine ends_bind (hof _ hfiles) fun _ => ends_bind ?_ fun _ => ends_pure _
  exact ends_bind (ends_emit _) fun _ => ends_bind (ends_forM fun _ _ => ends_emit _)
    fun _ => ends_emit _

/-- A plan whose copies fit gets written to a device that has its blocks. -/
theorem Plan.Sound.writePlan_ok (h : plan.Sound) {chunkBlocks : Nat}
    (hfit : CopiesFit plan (max chunkBlocks 1)) (schedule : Nat → List Nat) {dev : Device}
    (hsize : plan.geom.blocksCount * plan.geom.blockSize ≤ dev.size)
    (hends : Ends (writeFilesystemChunked plan chunkBlocks schedule)) :
    ∃ report dev', writePlan plan chunkBlocks schedule dev = (.ok report, dev') := by
  obtain ⟨report, hreport⟩ := hends
  have hops : ∀ op ∈ (writeFilesystemChunked plan chunkBlocks schedule).trace, op.Fits dev.size :=
    fun op hop span hspan =>
      Nat.le_trans (whole_of_copiesFit h hfit schedule op hop span hspan).2.2.2 hsize
  unfold writePlan
  dsimp only
  rw [runOps_of_fits hops, hreport]
  exact ⟨report, _, rfl⟩

/-- A plan whose groups have places and whose copies fit is written. -/
theorem runs_of_plan {dev : Device} {params : Params} {ambient : Ambient} (htyped : params.Typed)
    (hplan : Format.plan dev.size params ambient = .ok plan)
    (hsize : plan.geom.blocksCount * plan.geom.blockSize ≤ dev.size)
    (hblocks : plan.geom.blocksPerGroup ≤ 8 * plan.geom.blockSize)
    (hinodes : plan.geom.inodesPerGroup ≤ 8 * plan.geom.blockSize)
    (hplaced : ∀ g < plan.geom.groupCount,
      (plan.geom.placeFlex (plan.geom.flexFirstGroup g)).isOk = true)
    (hfit : CopiesFit plan (max gdtChunkBlocks 1)) (hfront : (writeFront plan).result.isOk = true)
    (hfiles : (writeFiles plan).result.isOk = true) :
    ∃ report dev', writePlan plan gdtChunkBlocks (fun _ => []) dev = (.ok report, dev') := by
  have hbuilt : ∀ g < plan.geom.groupCount, ∃ state, buildGroup plan g = .ok state := by
    intro g hg
    have hplace := hplaced g hg
    cases hplaced : plan.geom.placeFlex (plan.geom.flexFirstGroup g) with
    | error e =>
      rw [hplaced] at hplace
      cases hplace
    | ok placement => exact buildGroup_of_placed hg hblocks hinodes hplaced
  exact (plan_sound htyped hplan).writePlan_ok hfit (fun _ => []) hsize
    (ends_writeFilesystemChunked hbuilt hfront hfiles gdtChunkBlocks fun _ => [])

/-- The parts of a plan that the groups do not decide can be made. -/
def partsMade (sizeBytes : Nat) (params : Params) (ambient : Ambient) : Bool :=
  (Format.plan sizeBytes params ambient).toOption.any fun plan =>
    (writeFront plan).result.isOk && (writeFiles plan).result.isOk

/-- A geometry whose groups have places, and whose copies end in it, is written. -/
theorem runs_of_geometry {dev : Device} {params : Params} {ambient : Ambient} {geom : Geometry}
    (htyped : params.Typed) (hgeom : compute dev.size params = .ok geom)
    (hmade : partsMade dev.size params ambient = true)
    (hends : ∀ copy ∈ classicCopies geom, copy + geom.descBlocks ≤ geom.blocksCount)
    (hsize : geom.blocksCount * geom.blockSize ≤ dev.size)
    (hblocks : geom.blocksPerGroup ≤ 8 * geom.blockSize)
    (hinodes : geom.inodesPerGroup ≤ 8 * geom.blockSize)
    (hplaced : ∀ g < geom.groupCount, (geom.placeFlex (geom.flexFirstGroup g)).isOk = true) :
    ∃ plan report dev', Format.plan dev.size params ambient = .ok plan ∧ plan.geom = geom ∧
      writePlan plan gdtChunkBlocks (fun _ => []) dev = (.ok report, dev') := by
  unfold partsMade at hmade
  cases hplan : Format.plan dev.size params ambient with
  | error e =>
    rw [hplan] at hmade
    cases hmade
  | ok plan =>
    rw [hplan] at hmade
    obtain ⟨hfront, hfiles⟩ := Bool.and_eq_true_iff.mp hmade
    obtain ⟨geom', hgeom', -, hfor⟩ := plan_ok hplan
    obtain rfl := hfor.geom
    obtain rfl : geom = plan.geom := Except.ok.inj (hgeom.symm.trans hgeom')
    obtain ⟨report, dev', hrun⟩ := runs_of_plan htyped hplan hsize hblocks hinodes hplaced
      (copiesFit_of_ends hends _) hfront hfiles
    exact ⟨plan, report, dev', rfl, rfl, hrun⟩

/-! ### Groups with their own metadata -/

section Single

variable {geom : Geometry} {g : Nat}

/-- A group that is a flex group by itself has room for its metadata behind its front. -/
theorem hasRoom_of_front (hgc : geom.groupCount < 2 ^ 32) (hg : g < geom.groupCount)
    (hsingle : geom.logGroupsPerFlex = 0)
    (hroom : geom.superOverhead g + (2 + geom.itableBlocksPerGroup) ≤ geom.blocksPerGroup)
    (hend : geom.groupFirstBlock g + geom.blocksPerGroup ≤ geom.blocksCount) : geom.HasRoom g := by
  have hmembers : geom.flexMembers g = 1 := if_pos hsingle
  have hclear : ∀ {i len : Nat}, geom.superOverhead g ≤ i → i + len ≤ geom.blocksPerGroup →
      Clear geom.Free (geom.groupFirstBlock g + i) len := by
    intro i len hi hlen b hlow hhigh
    obtain ⟨k, rfl⟩ := Nat.exists_eq_add_of_le hlow
    rw [Nat.add_assoc]
    exact (Geometry.free_iff hgc hg (by omega) (by omega)).mpr (by omega)
  unfold Geometry.HasRoom
  rw [hmembers, groupFirstBlock_succ]
  exact ⟨geom.groupFirstBlock g + geom.superOverhead g, by omega,
    hclear (Nat.le_refl _) (by omega), geom.groupFirstBlock g + (geom.superOverhead g + 1),
    by omega, hclear (by omega) (by omega), geom.groupFirstBlock g + (geom.superOverhead g + 2),
    by omega, hclear (by omega) (by omega),
    show geom.groupFirstBlock g + (geom.superOverhead g + 2) + geom.itableBlocksPerGroup ≤ _
      by omega⟩

theorem placeFlex_of_room (hlen : 0 < geom.itableBlocksPerGroup) (h : geom.HasRoom g) :
    (geom.placeFlex g).isOk = true := by
  cases hplace : geom.placeFlex g with
  | ok placement => rfl
  | error e => exact absurd h (Geometry.placeFlex_error hlen hplace)

end Single

/-! ### A filesystem of several groups -/

/-- 20 groups of 368 one-kilobyte blocks, each a flex group by itself, without a journal. -/
def severalParams : Params :=
  { blockSize := some 1024, blocksPerGroup := some 368, flexBgSize := some 1,
    inodesCount := some 320, inodeSize := some 128, journal := .none }

theorem severalParams_typed : severalParams.Typed :=
  { Params.typed_default with
    blockSize := fun n hn => by cases hn; decide
    blocksPerGroup := fun n hn => by cases hn; decide
    flexBgSize := fun n hn => by cases hn; decide
    inodesCount := fun n hn => by cases hn; decide
    inodeSize := fun n hn => by cases hn; decide
    journal := fun n hn => nomatch hn }

def severalDevice : Device := .ofChunks (7361 * 1024) []

def several : Geometry where
  blockSize := 1024
  logBlockSize := 0
  blocksCount := 7361
  firstDataBlock := 1
  blocksPerGroup := 368
  rBlocksCount := 368
  inodesCount := 320
  inodesPerGroup := 16
  inodeSize := 128
  itableBlocksPerGroup := 2
  groupCount := 20
  descSize := 64
  descBlocks := 2
  reservedGdtBlocks := 256
  logGroupsPerFlex := 0
  metaBg := false
  firstMetaBg := 0
  features := { compat := 0x38, incompat := 0x22c2, roCompat := 0x46b }

theorem several_answers :
    compute severalDevice.size (onDevice severalParams severalDevice) = .ok several ∧
    partsMade severalDevice.size (onDevice severalParams severalDevice) {} = true ∧
    (∀ copy ∈ classicCopies several, copy + several.descBlocks ≤ several.blocksCount) ∧
    ∀ g < 20, several.superOverhead g ≤ 259 := by
  decide +kernel

theorem several_hasRoom {g : Nat} (hg : g < 20) : several.HasRoom g := by
  have hfront := several_answers.2.2.2 g hg
  refine hasRoom_of_front (by decide) hg rfl ?_ ?_
  · show several.superOverhead g + 4 ≤ 368
    omega
  · show 1 + g * 368 + 368 ≤ 7361
    omega

theorem several_spacious : Spacious several := by
  refine ⟨by decide, fun g hg => ?_, fun g hg => ?_⟩
  · have hnext : g + 1 < 20 := hg
    exact @several_hasRoom g (by omega)
  · exact Nat.le_trans (several_answers.2.2.2 g hg) (by decide)

theorem several_written : ∃ plan report dev',
    Format.plan severalDevice.size (onDevice severalParams severalDevice) {} = .ok plan ∧
      plan.geom = several ∧
      writePlan plan gdtChunkBlocks (fun _ => []) severalDevice = (.ok report, dev') :=
  runs_of_geometry (onDevice_typed severalParams_typed (by decide)) several_answers.1
    several_answers.2.1 several_answers.2.2.1 (by decide) (by decide) (by decide) fun _ hg =>
      placeFlex_of_room (by decide) (several_hasRoom hg)

/-- Its table at once, and one descriptor block at a time in another order. -/
theorem several_schedules : ∃ plan report dev',
    Format.plan severalDevice.size (onDevice severalParams severalDevice) {} = .ok plan ∧
      plan.geom.descBlocks = 2 ∧ plan.RunsApart ∧
      writePlan plan gdtChunkBlocks (fun _ => []) severalDevice = (.ok report, dev') ∧
      writePlan plan 1 (fun _ => [2, 0, 1]) severalDevice = (.ok report, dev') := by
  obtain ⟨plan, report, dev', hplan, hgeom, hrun⟩ := several_written
  have htyped : (onDevice severalParams severalDevice).Typed :=
    onDevice_typed severalParams_typed (by decide)
  have hapart := (plan_sound htyped hplan).runsApart (by rw [hgeom]; exact several_spacious)
  exact ⟨plan, report, dev', hplan, by rw [hgeom]; rfl, hapart, hrun,
    writePlan_schedule htyped hplan hapart hrun⟩

end MkfsExt4.Format
