/-
  Write-back and eviction keep the cache coherent (`src/cache.rs`, `write_back`,
  `make_room`).

  Proved: what each call on the inner device does (`wp_innerReadAt` and its like), and for
  an inner device whose `write_at` never fails: `writeBack_spec` (the loop, with the run
  it is gathering laid over the device), `makeRoom_spec`, and that a flush leaves nothing
  dirty.
-/
import MkfsExt4.Cache.Invariant

namespace MkfsExt4.Cache

open Lib.Store Lib.Hoare

/-! ## Calls on the inner device -/

/-- The cache after one more call of kind `k`, for the `len` bytes at `offset`. -/
def CachedDevice.called (c : CachedDevice) (k : Call) (offset len : Nat) : CachedDevice :=
  { c with
    inner.made := Function.update c.inner.made k (c.inner.made k + 1)
    inner.requests := ⟨k, offset, len⟩ :: c.inner.requests }

section Calls

variable {c : CachedDevice} {E : Error → CachedDevice → Prop}

theorem wp_innerCall {α : Type} {k : Call} {offset len : Nat}
    {f : Device → Except Error (α × Device)} {Q : α → CachedDevice → Prop}
    (hfail : c.inner.fails k (c.inner.made k) = true → E (.io offset) (c.called k offset len))
    {a : α} {d : Device} (hf : f c.inner.dev = .ok (a, d))
    (hok : Q a { c.called k offset len with inner.dev := d }) :
    wp (innerCall k offset len f) c Q E := by
  simp only [innerCall, wp_bind, wp_get, wp_set]
  by_cases h : c.inner.fails k (c.inner.made k) = true
  · simp only [h, if_true]
    exact hfail h
  · simp only [h, hf]
    exact hok

theorem wp_innerReadAt {offset len : Nat} {Q : List UInt8 → CachedDevice → Prop}
    (hb : offset + len ≤ c.inner.dev.size)
    (hfail : (∃ n, c.inner.fails .read n = true) → E (.io offset) (c.called .read offset len))
    (hok : Q (window c.inner.dev.bytes offset len) (c.called .read offset len)) :
    wp (innerReadAt offset len) c Q E := by
  refine wp_innerCall (fun h => hfail ⟨_, h⟩) ?_ hok
  simp [Device.readAt, checkBounds, hb, bind, Except.bind, pure, Except.pure, Except.map]

theorem wp_innerWriteAt {offset : Nat} {buf : List UInt8} {Q : Unit → CachedDevice → Prop}
    (hb : offset + buf.length ≤ c.inner.dev.size)
    (hfail : (∃ n, c.inner.fails .write n = true) →
      E (.io offset) (c.called .write offset buf.length))
    (hok : Q () { c.called .write offset buf.length with
      inner.dev := { c.inner.dev with bytes := overlay c.inner.dev.bytes offset buf } }) :
    wp (innerWriteAt offset buf) c Q E := by
  refine wp_innerCall (fun h => hfail ⟨_, h⟩) ?_ hok
  simp [Device.writeAt, checkBounds, hb, bind, Except.bind, pure, Except.pure, Except.map]

theorem wp_innerWriteZeroes {offset len : Nat} {Q : Unit → CachedDevice → Prop}
    (hb : offset + len ≤ c.inner.dev.size)
    (hfail : (∃ n, c.inner.fails .zeroes n = true) →
      E (.io offset) (c.called .zeroes offset len))
    (hok : Q () { c.called .zeroes offset len with
      inner.dev := { c.inner.dev with bytes := Lib.Store.fill c.inner.dev.bytes offset len 0 } }) :
    wp (innerWriteZeroes offset len) c Q E := by
  refine wp_innerCall (fun h => hfail ⟨_, h⟩) ?_ hok
  simp [Device.writeZeroes, checkBounds, hb, bind, Except.bind, pure, Except.pure, Except.map]

theorem wp_innerFlush {Q : Unit → CachedDevice → Prop}
    (hfail : (∃ n, c.inner.fails .flush n = true) → E (.io 0) (c.called .flush 0 0))
    (hok : Q () (c.called .flush 0 0)) : wp innerFlush c Q E :=
  wp_innerCall (fun h => hfail ⟨_, h⟩) rfl hok

end Calls

/-! ## The invariant of a cached device -/

/-- A cached device of `N` bytes with cache blocks of `bs` over an inner device with the
    failure script `F` shows the mirror `mir`, when `run` is still to be written. -/
structure Inv (N bs : Nat) (F : Call → Nat → Bool) (mir : Mirror) (run : Run)
    (c : CachedDevice) : Prop where
  size : c.inner.dev.size = N
  block : c.blockSize = bs
  fails : c.inner.fails = F
  coherent : Coherent N bs mir (overlay c.inner.dev.bytes run.start run.bytes) c.map

variable {N bs : Nat} {F : Call → Nat → Bool} {mir mir' : Mirror} {c : CachedDevice}
  {E : Error → CachedDevice → Prop}

theorem Inv.mono {run : Run} (h : Inv N bs F mir run c) (hle : mir'.Le mir) :
    Inv N bs F mir' run c :=
  ⟨h.size, h.block, h.fails, h.coherent.mono hle⟩

/-- With no bytes gathered, the device itself is what the map fits. -/
theorem Inv.settled {run : Run} (h : Inv N bs F mir run c) (hr : run.bytes = []) :
    Coherent N bs mir c.inner.dev.bytes c.map := by
  have := h.coherent
  rwa [hr, overlay_nil] at this

theorem Inv.of_coherent {c' : CachedDevice} (h : Inv N bs F mir {} c)
    (hi : c'.inner.dev.size = c.inner.dev.size) (hb : c'.blockSize = c.blockSize)
    (hf : c'.inner.fails = c.inner.fails)
    (hc : Coherent N bs mir' c'.inner.dev.bytes c'.map) : Inv N bs F mir' {} c' :=
  ⟨hi.trans h.size, hb.trans h.block, hf.trans h.fails, by simpa using hc⟩

/-! ## One turn of the write-back loop -/

/-- The run `blk` adds its dirty range to, or starts. -/
def Run.gather (run : Run) (bs blk : Nat) (e : Entry) : Run where
  start := if run.bytes.isEmpty then blk * bs + e.dirty.1 else run.start
  bytes := run.bytes ++ slice e.data e.dirty.1 (e.dirty.2 - e.dirty.1)

/-- The run ends where the dirty range of `blk` starts. -/
def Run.Joins (run : Run) (bs blk : Nat) (e : Entry) : Prop :=
  run.bytes ≠ [] → run.start + run.bytes.length = blk * bs + e.dirty.1

theorem overlay_gather {run : Run} {blk : Nat} {e : Entry} (hj : run.Joins bs blk e)
    (bytes : Nat → UInt8) :
    overlay bytes (run.gather bs blk e).start (run.gather bs blk e).bytes =
      e.overDevice bs blk (overlay bytes run.start run.bytes) := by
  by_cases hr : run.bytes = []
  · simp [Run.gather, hr, Entry.overDevice]
  · have h := hj hr
    simp only [Run.gather, List.isEmpty_iff, hr, if_false, Entry.overDevice]
    rw [overlay_append, h]

theorem gather_finish {run : Run} {blk : Nat} {e : Entry} (hok : e.Ok N bs blk)
    (hd : e.dirty.1 < e.dirty.2) (hj : run.Joins bs blk e) :
    (run.gather bs blk e).start + (run.gather bs blk e).bytes.length = blk * bs + e.dirty.2 := by
  have hv := hok.dirty_valid hd
  have hl := hok.valid_length
  have hs := length_slice (by omega : e.dirty.1 + (e.dirty.2 - e.dirty.1) ≤ e.data.length)
  by_cases hr : run.bytes = []
  · simp only [Run.gather, hr, List.isEmpty_nil, if_true, List.nil_append, hs]
    omega
  · have h := hj hr
    simp only [Run.gather, List.isEmpty_iff, hr, if_false, List.length_append, hs]
    omega

/-- The blocks of a strictly sorted list: `rest` is what the loop has not visited. -/
structure Visits (blocks rest : List Nat) : Prop where
  sorted : rest.Pairwise (· < ·)
  subset : ∀ b ∈ blocks, b ∈ rest ∨ ∀ r ∈ rest, b < r

theorem Visits.tail {blocks rest : List Nat} {blk : Nat} (h : Visits blocks (blk :: rest)) :
    Visits blocks rest where
  sorted := h.sorted.of_cons
  subset := fun b hb => by
    rcases h.subset b hb with hm | hlt
    · rcases List.mem_cons.mp hm with rfl | hm
      · exact .inr fun r hr => List.rel_of_pairwise_cons h.sorted hr
      · exact .inl hm
    · exact .inr fun r hr => hlt r (List.mem_cons_of_mem _ hr)

/-- The block after `blk` is the next one the loop visits. -/
theorem Visits.next {blocks rest : List Nat} {blk : Nat} (h : Visits blocks (blk :: rest))
    (hn : blk + 1 ∈ blocks) : ∃ rest', rest = (blk + 1) :: rest' := by
  have hmem : blk + 1 ∈ rest := by
    rcases h.subset _ hn with hm | hlt
    · rcases List.mem_cons.mp hm with he | hm
      · omega
      · exact hm
    · have := hlt blk List.mem_cons_self
      omega
  cases rest with
  | nil => cases hmem
  | cons r rest' =>
    have h1 : blk < r := List.rel_of_pairwise_cons h.sorted List.mem_cons_self
    have h2 : r ≤ blk + 1 := by
      rcases List.mem_cons.mp hmem with he | hm
      · omega
      · exact (List.rel_of_pairwise_cons h.sorted.of_cons hm).le
    exact ⟨rest', by rw [show r = blk + 1 by omega]⟩

/-- A run in the making is continued by the first block left. -/
def Run.Continued (run : Run) (bs : Nat) (rest : List Nat) (c : CachedDevice) : Prop :=
  run.bytes ≠ [] → ∃ b rest' e, rest = b :: rest' ∧ c.map.lookup b = some e ∧
    e.dirty.1 < e.dirty.2 ∧ e.dirty.1 = 0 ∧ run.start + run.bytes.length = b * bs

section Continued

variable {blocks rest : List Nat} {run : Run} {blk : Nat} {e : Entry}

theorem Run.Continued.joins (h : run.Continued bs (blk :: rest) c)
    (hb : c.map.lookup blk = some e) : run.Joins bs blk e := by
  intro hr
  obtain ⟨b, rest', e', hrest, he', _, h0, hfin⟩ := h hr
  cases hrest
  rw [hb] at he'
  cases he'
  omega

/-- With nothing dirty at hand, no run is in the making. -/
theorem Run.Continued.no_run (h : run.Continued bs (blk :: rest) c)
    (hb : ∀ e, c.map.lookup blk = some e → ¬e.dirty.1 < e.dirty.2) : run.bytes = [] := by
  by_contra hr
  obtain ⟨b, rest', e', hrest, he', hd, _⟩ := h hr
  cases hrest
  exact hb e' he' hd

/-- A run that is not written out goes on in the next block: its bytes reach the end of
    `blk`, and the dirty range of the next block starts at that block's start. -/
theorem Run.Continued.of_next (hok : e.Ok N bs blk) (hd : e.dirty.1 < e.dirty.2)
    (hj : run.Joins bs blk e) (hv : Visits blocks (blk :: rest))
    (hok' : ∀ e', c.map.lookup (blk + 1) = some e' → e'.Ok N bs (blk + 1))
    (hnext : (e.dirty.2 == e.data.length && blocks.contains (blk + 1) &&
      ((c.map.lookup (blk + 1)).map fun n => n.isDirty && n.dirty.1 == 0).getD false) = true) :
    (run.gather bs blk e).Continued bs rest c := by
  simp only [Bool.and_eq_true, beq_iff_eq, List.contains_iff_mem] at hnext
  obtain ⟨⟨hend, hmem⟩, hnxt⟩ := hnext
  obtain ⟨rest', hrest⟩ := hv.next hmem
  cases hl : c.map.lookup (blk + 1) with
  | none => simp [hl] at hnxt
  | some e' =>
    simp only [hl, Option.map_some, Option.getD_some, Bool.and_eq_true, beq_iff_eq,
      isDirty_iff] at hnxt
    have hlen := hok.length
    have hin' := (hok' e' hl).inside
    have hfin := gather_finish hok hd hj
    rw [Nat.succ_mul] at hin'
    refine fun _ => ⟨blk + 1, rest', e', hrest, hl, hnxt.1, hnxt.2, hfin.trans ?_⟩
    rw [Nat.succ_mul]
    omega

end Continued

/-- The loop invariant of `write_back` over `rest`, started on `c₀`: a run in the making is
    continued by the first block left. `all` says that the blocks cover every dirty one. -/
structure Writing (N bs : Nat) (F : Call → Nat → Bool) (mir : Mirror) (c₀ : CachedDevice)
    (blocks : List Nat) (all : Prop) (rest : List Nat) (run : Run) (c : CachedDevice) : Prop where
  inv : Inv N bs F mir run c
  visits : Visits blocks rest
  joins : run.bytes ≠ [] → ∃ b rest' e, rest = b :: rest' ∧ c.map.lookup b = some e ∧
    e.dirty.1 < e.dirty.2 ∧ e.dirty.1 = 0 ∧ run.start + run.bytes.length = b * bs
  absent : ∀ b, c₀.map.lookup b = none → c.map.lookup b = none
  dirty : all → ∀ b e, c.map.lookup b = some e → e.dirty.1 < e.dirty.2 → b ∈ rest

section Turn

variable {c₀ : CachedDevice} {blocks rest : List Nat} {all : Prop} {run : Run} {blk : Nat}
  {e : Entry}

/-- A clean or absent block is skipped, whether or not it leaves the map. -/
theorem Writing.skip (h : Writing N bs F mir c₀ blocks all (blk :: rest) run c)
    (hb : ∀ e, c.map.lookup blk = some e → ¬e.dirty.1 < e.dirty.2) :
    Writing N bs F mir c₀ blocks all rest run c where
  inv := h.inv
  visits := h.visits.tail
  joins := fun hr => absurd (Run.Continued.no_run h.joins hb) hr
  absent := h.absent
  dirty := fun ha b e he hd => by
    rcases List.mem_cons.mp (h.dirty ha b e he hd) with rfl | hm
    · exact absurd hd (hb e he)
    · exact hm

theorem Writing.skip_erase (h : Writing N bs F mir c₀ blocks all (blk :: rest) run c)
    (hb : c.map.lookup blk = some e) (hc : ¬e.dirty.1 < e.dirty.2) :
    Writing N bs F mir c₀ blocks all rest run (c.erase blk) := by
  have hclean : ∀ e, c.map.lookup blk = some e → ¬e.dirty.1 < e.dirty.2 := by
    intro e' he'
    rw [hb] at he'
    cases he'
    exact hc
  have hs := h.skip hclean
  refine ⟨⟨h.inv.size, h.inv.block, h.inv.fails, h.inv.coherent.erase_clean hb hc⟩, hs.visits,
    fun hr => absurd (Run.Continued.no_run h.joins hclean) hr, fun b h0 => ?_, fun ha b e' he' hd => ?_⟩
  · by_cases hbb : b = blk
    · subst hbb
      exact AList.lookup_erase b c.map
    · exact (AList.lookup_erase_ne hbb).trans (h.absent b h0)
  · by_cases hbb : b = blk
    · subst hbb
      rw [CachedDevice.erase, AList.lookup_erase] at he'
      cases he'
    · rw [CachedDevice.erase, AList.lookup_erase_ne hbb] at he'
      exact hs.dirty ha b e' he' hd

theorem cleaned_lookup_ne {remove : Bool} {b : Nat} (hbb : b ≠ blk) :
    (c.cleaned blk e remove).map.lookup b = c.map.lookup b := by
  unfold CachedDevice.cleaned
  split
  · exact AList.lookup_erase_ne hbb
  · exact AList.lookup_insert_ne hbb

theorem cleaned_lookup_clean {remove : Bool} {e' : Entry}
    (h : (c.cleaned blk e remove).map.lookup blk = some e') : ¬e'.dirty.1 < e'.dirty.2 := by
  unfold CachedDevice.cleaned at h
  split at h
  · rw [CachedDevice.erase, AList.lookup_erase] at h
    cases h
  · rw [CachedDevice.insert, AList.lookup_insert] at h
    cases h
    exact Nat.lt_irrefl 0

theorem Inv.cleaned {remove : Bool} (h : Inv N bs F mir run c) (hb : c.map.lookup blk = some e)
    (hd : e.dirty.1 < e.dirty.2) (hj : run.Joins bs blk e) :
    Inv N bs F mir (run.gather bs blk e) (c.cleaned blk e remove) := by
  have he := h.coherent.gather_erase hb hd
  have hc := h.coherent.gather_clean hb hd
  rw [← overlay_gather hj] at he hc
  cases remove
  · exact ⟨h.size, h.block, h.fails, hc⟩
  · exact ⟨h.size, h.block, h.fails, he⟩

/-- What holds whether or not the run is written out after `blk` was gathered. -/
theorem Writing.gathered {remove : Bool}
    (h : Writing N bs F mir c₀ blocks all (blk :: rest) run c)
    (hb : c.map.lookup blk = some e) :
    (∀ b, c₀.map.lookup b = none → (c.cleaned blk e remove).map.lookup b = none) ∧
      (all → ∀ b e', (c.cleaned blk e remove).map.lookup b = some e' →
        e'.dirty.1 < e'.dirty.2 → b ∈ rest) := by
  refine ⟨fun b h0 => ?_, fun ha b e' he' hd => ?_⟩
  · have hbb : b ≠ blk := by
      rintro rfl
      rw [h.absent b h0] at hb
      cases hb
    rw [cleaned_lookup_ne hbb]
    exact h.absent b h0
  · by_cases hbb : b = blk
    · subst hbb
      exact absurd hd (cleaned_lookup_clean he')
    · rw [cleaned_lookup_ne hbb] at he'
      rcases List.mem_cons.mp (h.dirty ha b e' he' hd) with rfl | hm
      · exact absurd rfl hbb
      · exact hm

/-- One turn of the loop. -/
theorem writeBackBlock_spec {remove : Bool} (hw : ∀ n, F .write n = false)
    (h : Writing N bs F mir c₀ blocks all (blk :: rest) run c) :
    wp (writeBackBlock blocks remove run blk) c
      (fun run' t => Writing N bs F mir c₀ blocks all rest run' t) E := by
  unfold writeBackBlock
  simp only [wp_bind, wp_get]
  cases hb : c.map.lookup blk with
  | none =>
    refine (wp_pure _).mpr (h.skip fun e he => ?_)
    rw [hb] at he
    cases he
  | some e =>
    by_cases hd : e.dirty.1 < e.dirty.2
    swap
    · have hnd : ¬e.isDirty = true := fun hd' => hd ((isDirty_iff e).mp hd')
      simp only [if_neg hnd]
      cases remove
      · refine h.skip fun e' he' => ?_
        rw [hb] at he'
        cases he'
        exact hd
      · exact h.skip_erase hb hd
    have hok := h.inv.coherent.ok blk e hb
    have hj := Run.Continued.joins h.joins hb
    have hg : Inv N bs F mir (run.gather bs blk e) (c.cleaned blk e remove) :=
      h.inv.cleaned hb hd hj
    obtain ⟨habs, hdirty⟩ : (∀ b, c₀.map.lookup b = none →
        (c.cleaned blk e remove).map.lookup b = none) ∧ _ := h.gathered hb
    have hfin := gather_finish hok hd hj
    simp only [if_pos ((isDirty_iff e).mpr hd), wp_bind, wp_modify, wp_get, h.inv.block]
    split
    · rename_i hnext
      exact ⟨hg, h.visits.tail, Run.Continued.of_next hok hd hj h.visits (hg.coherent.ok _) hnext,
        habs, hdirty⟩
    · simp only [wp_bind]
      have hin := hok.data_inside
      have hv := hok.dirty_valid hd
      have hvl := hok.valid_length
      refine wp_innerWriteAt ?_ ?_ ?_
      · show (run.gather bs blk e).start + (run.gather bs blk e).bytes.length ≤ _
        rw [hfin, hg.size]
        omega
      · rw [hg.fails]
        rintro ⟨n, hn⟩
        rw [hw] at hn
        cases hn
      · refine ⟨⟨hg.size, hg.block, hg.fails, ?_⟩, h.visits.tail, fun hr => absurd rfl hr, habs,
          hdirty⟩
        rw [overlay_nil]
        exact hg.coherent

end Turn

/-! ## Whole write-backs -/

/-- Writing back sorted blocks keeps the invariant, brings no block in, and leaves nothing
    dirty when the blocks are all the dirty ones. -/
theorem writeBack_spec {blocks : List Nat} {remove : Bool} (hw : ∀ n, F .write n = false)
    (hs : blocks.Pairwise (· < ·)) (h : Inv N bs F mir {} c) :
    wp (writeBack blocks remove) c
      (fun _ t => Inv N bs F mir {} t ∧ (∀ b, c.map.lookup b = none → t.map.lookup b = none) ∧
        ((∀ b e, c.map.lookup b = some e → e.dirty.1 < e.dirty.2 → b ∈ blocks) →
          ∀ b e, t.map.lookup b = some e → ¬e.dirty.1 < e.dirty.2)) E := by
  unfold writeBack
  rw [wp_bind]
  have hstart : Writing N bs F mir c blocks
      (∀ b e, c.map.lookup b = some e → e.dirty.1 < e.dirty.2 → b ∈ blocks) blocks {} c :=
    ⟨h, ⟨hs, fun b hb => .inl hb⟩, fun hr => absurd rfl hr, fun _ h0 => h0, fun ha => ha⟩
  refine wp_mono (wp_foldlM (Writing N bs F mir c blocks _)
    (fun x xs run s hI => writeBackBlock_spec hw hI) hstart) (fun run t ht => ?_) fun _ _ he => he
  rw [wp_pure]
  have hrun : run.bytes = [] := by
    by_contra hr
    obtain ⟨b, rest', e, hnil, _⟩ := ht.joins hr
    cases hnil
  refine ⟨⟨ht.inv.size, ht.inv.block, ht.inv.fails, by simpa using ht.inv.settled hrun⟩,
    ht.absent, fun ha b e he hd => ?_⟩
  exact absurd (ht.dirty ha b e he hd) List.not_mem_nil

theorem strict_of_insertionSort {l : List Nat} (h : l.Nodup) :
    (l.insertionSort (· ≤ ·)).Pairwise (· < ·) := by
  have hs := List.pairwise_insertionSort (· ≤ · : Nat → Nat → Prop) l
  have hn : (l.insertionSort (· ≤ ·)).Nodup := (List.perm_insertionSort _ l).nodup_iff.mpr h
  exact (hs.and hn).imp fun h => lt_of_le_of_ne h.1 h.2

theorem victims_sorted (c : CachedDevice) : c.victims.Pairwise (· < ·) := by
  unfold CachedDevice.victims
  refine strict_of_insertionSort ?_
  have hkeys : ((c.map.entries.map fun x => (x.2.tick, x.1)).map Prod.snd).Nodup := by
    rw [List.map_map]
    exact c.map.keys_nodup
  have hperm := (List.perm_insertionSort olderOrEq
    (c.map.entries.map fun x => (x.2.tick, x.1))).map Prod.snd
  rw [List.map_take]
  exact ((hperm.nodup_iff.mpr hkeys).sublist (List.take_sublist _ _))

/-- Eviction keeps the invariant and brings no block in. -/
theorem makeRoom_spec (hw : ∀ n, F .write n = false) (h : Inv N bs F mir {} c) :
    wp makeRoom c
      (fun _ t => Inv N bs F mir {} t ∧ ∀ b, c.map.lookup b = none → t.map.lookup b = none) E := by
  unfold makeRoom
  simp only [wp_bind, wp_get]
  split
  · exact ⟨h, fun _ h0 => h0⟩
  · exact wp_mono (writeBack_spec hw (victims_sorted c) h) (fun _ t ht => ⟨ht.1, ht.2.1⟩)
      fun _ _ he => he

theorem dirtyBlocks_sorted (c : CachedDevice) : c.dirtyBlocks.Pairwise (· < ·) := by
  refine strict_of_insertionSort ?_
  have hsub : ((c.map.entries.filter fun x => x.2.isDirty).map Sigma.fst).Sublist
      (c.map.entries.map Sigma.fst) := List.filter_sublist.map _
  exact hsub.nodup c.map.keys_nodup

theorem mem_dirtyBlocks {b : Nat} {e : Entry} (hb : c.map.lookup b = some e)
    (hd : e.dirty.1 < e.dirty.2) : b ∈ c.dirtyBlocks := by
  unfold CachedDevice.dirtyBlocks
  rw [List.mem_insertionSort, List.mem_map]
  refine ⟨⟨b, e⟩, List.mem_filter.mpr ⟨AList.mem_lookup_iff.mp hb, ?_⟩, rfl⟩
  exact (isDirty_iff e).mpr hd

/-- With nothing dirty, the device shows the mirror. -/
theorem Inv.device_eq (hbs : 0 < bs) (h : Inv N bs F mir {} c)
    (hc : ∀ b e, c.map.lookup b = some e → ¬e.dirty.1 < e.dirty.2) {p : Nat} (hp : p < N)
    {v : UInt8} (hv : mir p = some v) : c.inner.dev.bytes p = v := by
  have hdev := (h.settled rfl).device (p / bs) (p % bs) v (Nat.mod_lt _ hbs)
  rw [Nat.div_add_mod'] at hdev
  refine hdev hp hv ?_
  rintro ⟨e, he, h1, h2⟩
  exact hc _ e he (by omega)

/-- A flush keeps the invariant, and one that returns leaves the mirror on the device. -/
theorem flush_spec (hbs : 0 < bs) (hw : ∀ n, F .write n = false) (h : Inv N bs F mir {} c)
    (hE : ∀ e t, (∃ n, F .flush n = true) → Inv N bs F mir {} t → E e t) :
    wp flush c
      (fun _ t => Inv N bs F mir {} t ∧ ∀ p < N, ∀ v, mir p = some v → t.inner.dev.bytes p = v)
      E := by
  unfold flush
  simp only [wp_bind, wp_get]
  refine wp_mono (writeBack_spec hw (dirtyBlocks_sorted c) h) (fun _ t ht => ?_) fun _ _ he => he
  obtain ⟨hinv, _, hclean⟩ := ht
  have hclean := hclean fun b e hb hd => mem_dirtyBlocks hb hd
  have hcalled : Inv N bs F mir {} (t.called .flush 0 0) :=
    ⟨hinv.size, hinv.block, hinv.fails, hinv.coherent⟩
  refine wp_innerFlush (fun hf => hE _ _ ?_ hcalled) ⟨hcalled, fun p hp v hv => ?_⟩
  · rwa [hinv.fails] at hf
  · exact hinv.device_eq hbs hclean hp hv

end MkfsExt4.Cache
