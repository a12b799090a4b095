/-
  The cache stays within its bounds (`src/cache.rs`).

  `Bounded` says that a cached device holds no more blocks than it may, that the ranges of
  every entry lie inside its block and end at multiples of `g`, and that every request the
  inner device got asks for multiples of `g` inside the device. It holds after every
  operation whether the inner device answered or failed, so unlike `Inv` it says nothing of
  the bytes. A read, a write and a zeroing that fail half way keep it as well.

  With `g` the sector size this is alignment; with `g = 1` it is the bounds alone.
-/
import MkfsExt4.Cache.Ops
import Mathlib.Data.List.Perm.Subperm
import Mathlib.Order.MinMax

namespace MkfsExt4.Cache

open Lib.Store Lib.Hoare

/-! ## Multiples -/

section Multiples

variable {g a b : Nat}

theorem dvd_min (ha : g ∣ a) (hb : g ∣ b) : g ∣ min a b := by
  rcases min_choice a b with h | h <;> rwa [h]

theorem dvd_max (ha : g ∣ a) (hb : g ∣ b) : g ∣ max a b := by
  rcases max_choice a b with h | h <;> rwa [h]

end Multiples

/-! ## Counting entries -/

section Count

variable {s t : AList fun _ : Nat => Entry}

theorem length_keys (m : AList fun _ : Nat => Entry) : m.keys.length = m.entries.length :=
  List.length_map _

/-- A map without new keys is no longer. -/
theorem length_le_of_absent (h : ∀ b, s.lookup b = none → t.lookup b = none) :
    t.entries.length ≤ s.entries.length := by
  have hsub : t.keys ⊆ s.keys := by
    intro b hb
    by_contra hs
    exact AList.lookup_eq_none.mp (h b (AList.lookup_eq_none.mpr hs)) hb
  have hle := (List.Nodup.subperm t.keys_nodup hsub).length_le
  rwa [length_keys, length_keys] at hle

/-- A map without new keys that lost one is shorter. -/
theorem length_lt_of_absent (h : ∀ b, s.lookup b = none → t.lookup b = none) {b : Nat}
    (hs : b ∈ s) (ht : t.lookup b = none) : t.entries.length < s.entries.length := by
  have herase : ∀ a, (s.erase b).lookup a = none → t.lookup a = none := by
    intro a ha
    by_cases hab : a = b
    · rwa [hab]
    · rw [AList.lookup_erase_ne hab] at ha
      exact h a ha
  have hle := length_le_of_absent herase
  have hmem : b ∈ s.keys := hs
  have hkeys := List.length_erase_of_mem hmem
  rw [← AList.keys_erase, length_keys, length_keys] at hkeys
  have hpos := List.length_pos_of_mem hmem
  rw [length_keys] at hpos
  omega

theorem length_insert_le (s : AList fun _ : Nat => Entry) (b : Nat) (e : Entry) :
    (s.insert b e).entries.length ≤ s.entries.length + 1 := by
  have hle := length_le_of_absent (s := s) (t := s.erase b) fun a ha => by
    by_cases hab : a = b
    · subst hab
      exact AList.lookup_erase a s
    · rwa [AList.lookup_erase_ne hab]
  exact Nat.succ_le_succ hle

end Count

/-! ## The invariant -/

/-- A request for multiples of `g` inside a device of `N` bytes. -/
structure Request.Fits (g N : Nat) (r : Request) : Prop where
  offset : g ∣ r.offset
  len : g ∣ r.len
  inside : r.offset + r.len ≤ N

/-- An entry that `blk` can hold, both of its ranges between multiples of `g`. -/
structure Entry.Fits (g N bs blk : Nat) (e : Entry) : Prop where
  ok : e.Ok N bs blk
  valid : g ∣ e.valid.1 ∧ g ∣ e.valid.2
  dirty : g ∣ e.dirty.1 ∧ g ∣ e.dirty.2

/-- A cache of at most `cap` blocks that, beyond the requests of `log`, asked its inner
    device of `N` bytes only for multiples of `g` inside it. -/
structure Bounded (g N bs cap : Nat) (log : List Request) (c : CachedDevice) : Prop where
  size : c.inner.dev.size = N
  block : c.blockSize = bs
  most : c.maxBlocks = cap
  held : c.map.entries.length ≤ cap
  peak : c.peak ≤ cap
  fits : ∀ blk e, c.map.lookup blk = some e → e.Fits g N bs blk
  asked : ∀ r ∈ c.inner.requests, r ∈ log ∨ r.Fits g N

section Entries

variable {g N bs blk : Nat} {e : Entry}

/-- What the ranges do not depend on: the bytes, as long as there are as many, and the
    recency stamp. -/
theorem Entry.Fits.congr (h : e.Fits g N bs blk) {e' : Entry}
    (hl : e'.data.length = e.data.length) (hv : e'.valid = e.valid) (hd : e'.dirty = e.dirty) :
    e'.Fits g N bs blk where
  ok := ⟨h.ok.inside, hl.trans h.ok.length, by rw [hv]; exact h.ok.valid_le,
    by rw [hv, hl]; exact h.ok.valid_length, by rw [hv, hd]; exact h.ok.dirty_valid⟩
  valid := by rw [hv]; exact h.valid
  dirty := by rw [hd]; exact h.dirty

theorem Entry.Fits.clean (h : e.Fits g N bs blk) :
    { e with dirty := (0, 0) : Entry }.Fits g N bs blk where
  ok := ⟨h.ok.inside, h.ok.length, h.ok.valid_le, h.ok.valid_length, nofun⟩
  valid := h.valid
  dirty := ⟨Nat.dvd_zero g, Nat.dvd_zero g⟩

/-- The bytes of a block come in multiples of `g`. -/
theorem Entry.Fits.length (hg : g ∣ bs) (hN : g ∣ N) (h : e.Fits g N bs blk) :
    g ∣ e.data.length := by
  rw [h.ok.length]
  exact dvd_min hg (Nat.dvd_sub hN (Nat.dvd_mul_left_of_dvd hg blk))

theorem Entry.Fits.filled (hg : g ∣ bs) (hN : g ∣ N) (h : e.Fits g N bs blk)
    (device : List UInt8) : (e.filled device).Fits g N bs blk where
  ok := by
    have hl : (e.filled device).data.length = e.data.length := by simp [Entry.filled]
    refine ⟨h.ok.inside, hl.trans h.ok.length, Nat.zero_le _, hl.ge, fun hd => ?_⟩
    exact ⟨Nat.zero_le _, (h.ok.dirty_valid hd).2.trans h.ok.valid_length⟩
  valid := ⟨Nat.dvd_zero g, h.length hg hN⟩
  dirty := h.dirty

/-- The hull of two ranges between multiples of `g` is one. -/
theorem Entry.Fits.write (h : e.Fits g N bs blk) {s t : Nat} (hst : s ≤ t)
    (ht : t ≤ e.data.length) (hs : g ∣ s) (ht' : g ∣ t) (piece : List UInt8) (tick : Nat) :
    (e.write s t piece tick).Fits g N bs blk := by
  have hok := h.ok
  have hvl := hok.valid_length
  have hl : (e.write s t piece tick).data.length = e.data.length := by simp [Entry.write]
  refine ⟨⟨hok.inside, hl.trans hok.length, ?_, ?_, fun hd => ?_⟩,
    ⟨dvd_min h.valid.1 hs, dvd_max h.valid.2 ht'⟩, ?_⟩
  · show min e.valid.1 s ≤ max e.valid.2 t
    omega
  · rw [hl]
    show max e.valid.2 t ≤ e.data.length
    omega
  · show min e.valid.1 s ≤ (e.write s t piece tick).dirty.1 ∧
      (e.write s t piece tick).dirty.2 ≤ max e.valid.2 t
    unfold Entry.write
    dsimp only
    split
    · rename_i hdirty
      have hin := hok.dirty_valid ((isDirty_iff e).mp hdirty)
      dsimp only
      omega
    · dsimp only
      omega
  · unfold Entry.write
    dsimp only
    split
    · exact ⟨dvd_min h.dirty.1 hs, dvd_max h.dirty.2 ht'⟩
    · exact ⟨hs, ht'⟩

end Entries

section Steps

variable {g N bs cap : Nat} {log : List Request} {c : CachedDevice} {blk : Nat} {e : Entry}

/-- What asks nothing and leaves the map alone keeps the invariant. -/
theorem Bounded.congr (h : Bounded g N bs cap log c) {c' : CachedDevice}
    (hs : c'.inner.dev.size = c.inner.dev.size) (hb : c'.blockSize = c.blockSize)
    (hm : c'.maxBlocks = c.maxBlocks) (hmap : c'.map = c.map) (hp : c.peak = c'.peak)
    (hr : c'.inner.requests = c.inner.requests) : Bounded g N bs cap log c' where
  size := hs.trans h.size
  block := hb.trans h.block
  most := hm.trans h.most
  held := by rw [hmap]; exact h.held
  peak := hp ▸ h.peak
  fits := by rw [hmap]; exact h.fits
  asked := by rw [hr]; exact h.asked

theorem Bounded.called (h : Bounded g N bs cap log c) {k : Call} {offset len : Nat}
    (hr : Request.Fits g N ⟨k, offset, len⟩) : Bounded g N bs cap log (c.called k offset len) where
  size := h.size
  block := h.block
  most := h.most
  held := h.held
  peak := h.peak
  fits := h.fits
  asked := fun r hm => by
    rcases List.mem_cons.mp hm with rfl | hm
    · exact .inr hr
    · exact h.asked r hm

theorem Bounded.erase (h : Bounded g N bs cap log c) (blk : Nat) :
    Bounded g N bs cap log (c.erase blk) where
  size := h.size
  block := h.block
  most := h.most
  held := by
    refine (length_le_of_absent fun a ha => ?_).trans h.held
    by_cases hab : a = blk
    · subst hab
      exact AList.lookup_erase a c.map
    · exact (AList.lookup_erase_ne hab).trans ha
  peak := h.peak
  fits := fun b e he => by
    by_cases hbb : b = blk
    · subst hbb
      exact absurd ((AList.lookup_erase b c.map).symm.trans he) nofun
    · exact h.fits b e ((AList.lookup_erase_ne hbb).symm.trans he)
  asked := h.asked

theorem Bounded.insert (h : Bounded g N bs cap log c)
    (hlen : (c.map.insert blk e).entries.length ≤ cap) (he : e.Fits g N bs blk) :
    Bounded g N bs cap log (c.insert blk e) where
  size := h.size
  block := h.block
  most := h.most
  held := hlen
  peak := max_le h.peak hlen
  fits := fun b e' hb => by
    by_cases hbb : b = blk
    · subst hbb
      cases (AList.lookup_insert c.map).symm.trans hb
      exact he
    · exact h.fits b e' ((AList.lookup_insert_ne hbb).symm.trans hb)
  asked := h.asked

/-- An entry in the place of one the cache holds. -/
theorem Bounded.replace (h : Bounded g N bs cap log c) {e' : Entry}
    (hb : c.map.lookup blk = some e') (he : e.Fits g N bs blk) :
    Bounded g N bs cap log (c.insert blk e) := by
  refine h.insert ((length_le_of_absent fun a ha => ?_).trans h.held) he
  by_cases hab : a = blk
  · rw [hab, hb] at ha
    cases ha
  · exact (AList.lookup_insert_ne hab).trans ha

/-- A new entry where there is room for one. -/
theorem Bounded.add (h : Bounded g N bs cap log c) (hroom : c.map.entries.length < cap)
    (he : e.Fits g N bs blk) : Bounded g N bs cap log (c.insert blk e) :=
  h.insert ((length_insert_le c.map blk e).trans hroom) he

theorem Bounded.cleaned (h : Bounded g N bs cap log c) {remove : Bool}
    (hb : c.map.lookup blk = some e) : Bounded g N bs cap log (c.cleaned blk e remove) := by
  cases remove with
  | true => exact h.erase blk
  | false => exact h.replace hb (h.fits blk e hb).clean

theorem Bounded.blockLen_eq (h : Bounded g N bs cap log c) (blk : Nat) :
    c.blockLen blk = min bs (N - blk * bs) := by
  rw [CachedDevice.blockLen, h.size, h.block]

end Steps

/-! ## Device reads -/

section Commands

variable {g N bs cap : Nat} {log : List Request} {c : CachedDevice} {blk : Nat} {e : Entry}

/-- A read of whole blocks asks for multiples of `g` inside the device. -/
theorem readRunFromInner_bounded (hg : g ∣ bs) (hN : g ∣ N) (h : Bounded g N bs cap log c)
    {first n : Nat} (hin : first * bs ≤ N) :
    wp (readRunFromInner first n) c
      (fun data t => Bounded g N bs cap log t ∧ t.map = c.map ∧
        data.length = min (n * bs) (N - first * bs))
      fun _ t => Bounded g N bs cap log t := by
  have hfits : Request.Fits g N ⟨.read, first * bs, min (n * bs) (N - first * bs)⟩ := by
    have hfirst : g ∣ first * bs := Nat.dvd_mul_left_of_dvd hg first
    refine ⟨hfirst, dvd_min (Nat.dvd_mul_left_of_dvd hg n) (Nat.dvd_sub hN hfirst), ?_⟩
    dsimp only
    omega
  unfold readRunFromInner
  simp only [wp_bind, wp_get, h.block, h.blockLen_eq, sum_blockLen]
  refine wp_innerReadAt ?_ (fun _ => h.called hfits) ⟨h.called hfits, rfl, length_window _ _ _⟩
  rw [h.size]
  exact hfits.inside

theorem fillEntry_bounded (hg : g ∣ bs) (hN : g ∣ N) (h : Bounded g N bs cap log c)
    (hb : c.map.lookup blk = some e) :
    wp (fillEntry blk e) c
      (fun e' t => Bounded g N bs cap log t ∧ t.map.lookup blk = some e')
      fun _ t => Bounded g N bs cap log t := by
  have hfits := h.fits blk e hb
  unfold fillEntry
  simp only [wp_bind, wp_modify, wp_pure]
  refine wp_mono (readRunFromInner_bounded hg hN h hfits.ok.inside.le)
    (fun device t ht => ⟨?_, AList.lookup_insert _⟩) fun _ _ ht => ht
  have hb' : t.map.lookup blk = some e := by
    rw [ht.2.1]
    exact hb
  exact ht.1.replace hb' (hfits.filled hg hN device)

theorem Bounded.ticked (h : Bounded g N bs cap log c) (n : Nat) :
    Bounded g N bs cap log { c with tick := n } := h.congr rfl rfl rfl rfl rfl rfl

/-! ## Write-back -/

/-- The loop of `write_back` over `rest`, started on `c₀`: the run in the making lies
    between multiples of `g`, and what was visited left the map if it is to. -/
structure WritingOut (g N bs cap : Nat) (log : List Request) (c₀ : CachedDevice)
    (blocks : List Nat) (remove : Bool) (rest : List Nat) (run : Run) (c : CachedDevice) :
    Prop where
  bounded : Bounded g N bs cap log c
  visits : Visits blocks rest
  continued : run.Continued bs rest c
  grain : g ∣ run.start ∧ g ∣ run.bytes.length
  absent : ∀ b, c₀.map.lookup b = none → c.map.lookup b = none
  gone : remove = true → ∀ b ∈ blocks, b ∉ rest → c.map.lookup b = none

section Turn

variable {c₀ : CachedDevice} {blocks rest : List Nat} {remove : Bool} {run : Run}

/-- What is gone after `blk` was visited, if `blk` is. -/
theorem WritingOut.gone_cons
    (h : WritingOut g N bs cap log c₀ blocks remove (blk :: rest) run c) {c' : CachedDevice}
    (hsame : ∀ b, c.map.lookup b = none → c'.map.lookup b = none)
    (hblk : remove = true → c'.map.lookup blk = none) :
    remove = true → ∀ b ∈ blocks, b ∉ rest → c'.map.lookup b = none := by
  intro hr b hb hn
  by_cases hbb : b = blk
  · rw [hbb]
    exact hblk hr
  · refine hsame b (h.gone hr b hb fun hm => ?_)
    rcases List.mem_cons.mp hm with he | hm
    · exact hbb he
    · exact hn hm

theorem gather_grain (hg : g ∣ bs) (hr : g ∣ run.start ∧ g ∣ run.bytes.length)
    (he : e.Fits g N bs blk) (hd : e.dirty.1 < e.dirty.2) :
    g ∣ (run.gather bs blk e).start ∧ g ∣ (run.gather bs blk e).bytes.length := by
  have hv := he.ok.dirty_valid hd
  have hl := he.ok.valid_length
  have hs := length_slice (by omega : e.dirty.1 + (e.dirty.2 - e.dirty.1) ≤ e.data.length)
  refine ⟨?_, ?_⟩
  · unfold Run.gather
    dsimp only
    split
    · exact Nat.dvd_add (Nat.dvd_mul_left_of_dvd hg blk) he.dirty.1
    · exact hr.1
  · rw [Run.gather, List.length_append, hs]
    exact Nat.dvd_add hr.2 (Nat.dvd_sub he.dirty.2 he.dirty.1)

/-- One turn of the loop, whether or not the inner device takes the run. -/
theorem writeBackBlock_bounded (hg : g ∣ bs)
    (h : WritingOut g N bs cap log c₀ blocks remove (blk :: rest) run c) :
    wp (writeBackBlock blocks remove run blk) c
      (fun run' t => WritingOut g N bs cap log c₀ blocks remove rest run' t)
      fun _ t => Bounded g N bs cap log t := by
  unfold writeBackBlock
  simp only [wp_bind, wp_get]
  cases hb : c.map.lookup blk with
  | none =>
    have hrun := h.continued.no_run fun e he => by
      rw [hb] at he
      cases he
    exact ⟨h.bounded, h.visits.tail, fun hr => absurd hrun hr, h.grain, h.absent,
      h.gone_cons (fun _ h0 => h0) fun _ => hb⟩
  | some e =>
    have hfits := h.bounded.fits blk e hb
    by_cases hd : e.dirty.1 < e.dirty.2
    · have hj := h.continued.joins hb
      have hclean : Bounded g N bs cap log (c.cleaned blk e remove) := h.bounded.cleaned hb
      have hfin := gather_finish hfits.ok hd hj
      have hgrain := gather_grain hg h.grain hfits hd
      have hsame : ∀ b, c.map.lookup b = none →
          (c.cleaned blk e remove).map.lookup b = none := by
        intro b h0
        have hbb : b ≠ blk := by
          rintro rfl
          rw [h0] at hb
          cases hb
        rwa [cleaned_lookup_ne hbb]
      have habs := fun b h0 => hsame b (h.absent b h0)
      have hgone := h.gone_cons hsame fun hr => by
        rw [hr]
        exact AList.lookup_erase blk c.map
      simp only [if_pos ((isDirty_iff e).mpr hd), wp_bind, wp_modify, wp_get, h.bounded.block]
      split
      · rename_i hnext
        have hcont := Run.Continued.of_next hfits.ok hd hj h.visits
          (fun e' he' => (hclean.fits _ e' he').ok) hnext
        exact ⟨hclean, h.visits.tail, hcont, hgrain, habs, hgone⟩
      · simp only [wp_bind]
        have hin := hfits.ok.data_inside
        have hv := hfits.ok.dirty_valid hd
        have hvl := hfits.ok.valid_length
        have hreq : Request.Fits g N ⟨.write, (run.gather bs blk e).start,
            (run.gather bs blk e).bytes.length⟩ := by
          refine ⟨hgrain.1, hgrain.2, ?_⟩
          dsimp only
          omega
        refine wp_innerWriteAt ?_ (fun _ => hclean.called hreq) ?_
        · rw [hclean.size]
          exact hreq.inside
        · exact ⟨(hclean.called hreq).congr rfl rfl rfl rfl rfl rfl, h.visits.tail,
            fun hr => absurd rfl hr, ⟨hgrain.1, Nat.dvd_zero g⟩, habs, hgone⟩
    · have hnd : ¬e.isDirty = true := fun hd' => hd ((isDirty_iff e).mp hd')
      have hrun := h.continued.no_run fun e' he' => by
        rw [hb] at he'
        cases he'
        exact hd
      simp only [if_neg hnd]
      cases remove with
      | false =>
        exact ⟨h.bounded, h.visits.tail, fun hr => absurd hrun hr, h.grain, h.absent,
          fun hr => absurd hr Bool.false_ne_true⟩
      | true =>
        have hsame : ∀ b, c.map.lookup b = none → (c.erase blk).map.lookup b = none := by
          intro b h0
          by_cases hbb : b = blk
          · subst hbb
            exact AList.lookup_erase b c.map
          · exact (AList.lookup_erase_ne hbb).trans h0
        exact ⟨h.bounded.erase blk, h.visits.tail, fun hr => absurd hrun hr, h.grain,
          fun b h0 => hsame b (h.absent b h0),
          h.gone_cons hsame fun _ => AList.lookup_erase blk c.map⟩

/-- Writing back sorted blocks keeps the invariant and brings no block in; with `remove`
    none of the blocks stays. -/
theorem writeBack_bounded (hg : g ∣ bs) (hs : blocks.Pairwise (· < ·))
    (h : Bounded g N bs cap log c) :
    wp (writeBack blocks remove) c
      (fun _ t => Bounded g N bs cap log t ∧
        (∀ b, c.map.lookup b = none → t.map.lookup b = none) ∧
        (remove = true → ∀ b ∈ blocks, t.map.lookup b = none))
      fun _ t => Bounded g N bs cap log t := by
  unfold writeBack
  rw [wp_bind]
  have hstart : WritingOut g N bs cap log c blocks remove blocks {} c :=
    ⟨h, ⟨hs, fun b hb => .inl hb⟩, fun hr => absurd rfl hr, ⟨Nat.dvd_zero g, Nat.dvd_zero g⟩,
      fun _ h0 => h0, fun _ b hb hn => absurd hb hn⟩
  refine wp_mono (wp_foldlM (WritingOut g N bs cap log c blocks remove)
    (fun x xs run s hI => writeBackBlock_bounded hg hI) hstart) (fun run t ht => ?_)
    fun _ _ ht => ht
  rw [wp_pure]
  exact ⟨ht.bounded, ht.absent, fun hr b hb => ht.gone hr b hb List.not_mem_nil⟩

end Turn

/-- A batch is at least one block, and every block of it is in the cache. -/
theorem victim_mem (hpos : 0 < c.map.entries.length) : ∃ b ∈ c.victims, b ∈ c.map := by
  obtain ⟨byAge, hbyAge⟩ : ∃ l, l = (c.map.entries.map fun x => (x.2.tick, x.1)).insertionSort
    olderOrEq := ⟨_, rfl⟩
  have hperm : byAge.Perm (c.map.entries.map fun x => (x.2.tick, x.1)) := by
    rw [hbyAge]
    exact List.perm_insertionSort _ _
  have hlen : 0 < byAge.length := by
    rw [hperm.length_eq, List.length_map]
    exact hpos
  obtain ⟨x, xs, hx⟩ := List.exists_cons_of_length_pos hlen
  refine ⟨x.2, ?_, ?_⟩
  · unfold CachedDevice.victims
    rw [List.mem_insertionSort, ← hbyAge, hx]
    refine List.mem_map_of_mem ?_
    rw [show max (c.maxBlocks / 8) 1 = max (c.maxBlocks / 8) 1 - 1 + 1 by omega,
      List.take_succ_cons]
    exact List.mem_cons_self
  · have hm : x ∈ byAge := hx ▸ List.mem_cons_self
    obtain ⟨y, hy, rfl⟩ := List.mem_map.mp (hperm.mem_iff.mp hm)
    have hkey : y.1 ∈ c.map.entries.map Sigma.fst := List.mem_map_of_mem hy
    exact hkey

/-- Eviction that ends well leaves room for one more block. -/
theorem makeRoom_bounded (hg : g ∣ bs) (hcap : 0 < cap) (h : Bounded g N bs cap log c) :
    wp makeRoom c
      (fun _ t => Bounded g N bs cap log t ∧ t.map.entries.length < cap)
      fun _ t => Bounded g N bs cap log t := by
  unfold makeRoom
  simp only [wp_bind, wp_get]
  split
  · rename_i hroom
    rw [h.most] at hroom
    exact ⟨h, hroom⟩
  · rename_i hfull
    rw [h.most] at hfull
    refine wp_mono (writeBack_bounded hg (victims_sorted c) h) (fun _ t ht => ⟨ht.1, ?_⟩)
      fun _ _ ht => ht
    obtain ⟨b, hb, hmem⟩ := victim_mem (c := c) (by omega)
    exact (length_lt_of_absent ht.2.1 hmem (ht.2.2 rfl b hb)).trans_le h.held

/-! ## Reads -/

/-- A new recency stamp on an entry of the cache. -/
theorem Bounded.restamp (h : Bounded g N bs cap log c) (hb : c.map.lookup blk = some e) (n : Nat) :
    Bounded g N bs cap log ({ c with tick := n }.insert blk { e with tick := n }) :=
  (h.ticked n).replace hb ((h.fits blk e hb).congr rfl rfl rfl)

theorem serveCached_bounded (hg : g ∣ bs) (hN : g ∣ N) (h : Bounded g N bs cap log c)
    (hb : c.map.lookup blk = some e) (offset finish : Nat) (buf : List UInt8) :
    wp (serveCached offset finish blk e buf) c
      (fun _ t => Bounded g N bs cap log t) fun _ t => Bounded g N bs cap log t := by
  unfold serveCached
  simp only [wp_bind, wp_get]
  split <;> simp only [wp_bind, wp_modify, wp_pure]
  · refine wp_mono (fillEntry_bounded hg hN h hb) (fun e' t ht => wp_touch ?_) fun _ _ ht => ht
    exact ht.1.restamp ht.2 _
  · exact wp_touch (h.restamp hb _)

/-- A block of a device read joins the cache, `data` being what is left of it. -/
theorem insertRun_bounded (hg : g ∣ bs) (hN : g ∣ N) (hcap : 0 < cap)
    (h : Bounded g N bs cap log c) {data : List UInt8} (hin : blk * bs < N)
    (hdata : min bs (N - blk * bs) ≤ data.length) :
    wp (insertRun data blk) c
      (fun data' t => Bounded g N bs cap log t ∧
        data'.length = data.length - min bs (N - blk * bs))
      fun _ t => Bounded g N bs cap log t := by
  unfold insertRun
  simp only [wp_bind, wp_get, wp_modify, wp_pure]
  refine wp_mono (makeRoom_bounded hg hcap h) (fun _ t ht => wp_touch ⟨?_, ?_⟩) fun _ _ ht => ht
  · have hblen := h.blockLen_eq blk
    have htake : (data.take (c.blockLen blk)).length = min bs (N - blk * bs) := by
      rw [List.length_take, hblen]
      omega
    have hgrain : g ∣ c.blockLen blk := by
      rw [hblen]
      exact dvd_min hg (Nat.dvd_sub hN (Nat.dvd_mul_left_of_dvd hg blk))
    refine (ht.1.ticked _).add ht.2 ⟨⟨hin, htake, Nat.zero_le _, ?_, fun hd => absurd hd (Nat.lt_irrefl 0)⟩,
      ⟨Nat.dvd_zero g, hgrain⟩, ⟨Nat.dvd_zero g, Nat.dvd_zero g⟩⟩
    exact (htake.trans hblen.symm).ge
  · rw [List.length_drop, h.blockLen_eq]

theorem serveAbsent_bounded (hg : g ∣ bs) (hN : g ∣ N) (hcap : 0 < cap)
    (h : Bounded g N bs cap log c) {n : Nat} (hn : 0 < n) (hin : (blk + n - 1) * bs < N)
    (offset finish : Nat) (buf : List UInt8) :
    wp (serveAbsent offset finish blk n buf) c
      (fun _ t => Bounded g N bs cap log t) fun _ t => Bounded g N bs cap log t := by
  have hblk : ∀ b < blk + n, b * bs < N := fun b hb =>
    (Nat.mul_le_mul_right bs (by omega : b ≤ blk + n - 1)).trans_lt hin
  unfold serveAbsent
  simp only [wp_bind, wp_get]
  refine wp_mono (readRunFromInner_bounded hg hN h (hblk blk (by omega)).le) (fun data t ht => ?_)
    fun _ _ ht => ht
  -- what is left of the read covers the blocks left
  have hstart : ∃ b m, List.range' blk n = List.range' b m ∧ b + m = blk + n ∧
      min (m * bs) (N - b * bs) ≤ data.length ∧ Bounded g N bs cap log t :=
    ⟨blk, n, rfl, rfl, ht.2.2.ge, ht.1⟩
  refine wp_mono (wp_foldlM
    (fun rest data t => ∃ b m, rest = List.range' b m ∧ b + m = blk + n ∧
      min (m * bs) (N - b * bs) ≤ data.length ∧ Bounded g N bs cap log t) ?_ hstart)
    (fun _ t ht => ?_) fun _ _ ht => ht
  · rintro x xs data s ⟨b, m, hrest, hend, hlen, hs⟩
    cases m with
    | zero => cases hrest
    | succ m =>
      rw [List.range'_succ, List.cons.injEq] at hrest
      obtain ⟨rfl, hrest⟩ := hrest
      have hmul : (m + 1) * bs = m * bs + bs := Nat.succ_mul m bs
      refine wp_mono (insertRun_bounded hg hN hcap hs (hblk x (by omega)) (by omega))
        (fun data' t ht => ⟨x + 1, m, hrest, by omega, ?_, ht.1⟩) fun _ _ ht => ht
      rw [ht.2, Nat.succ_mul]
      omega
  · obtain ⟨_, _, _, _, _, ht⟩ := ht
    exact ht

theorem readBlocks_bounded (hg : g ∣ bs) (hN : g ∣ N) (hcap : 0 < cap) {offset finish last : Nat}
    (hlast : last * bs < N) (fuel blk : Nat) (buf : List UInt8) (c : CachedDevice)
    (h : Bounded g N bs cap log c) :
    wp (readBlocks offset finish last fuel blk buf) c
      (fun _ t => Bounded g N bs cap log t) fun _ t => Bounded g N bs cap log t := by
  induction fuel generalizing blk buf c with
  | zero => exact h
  | succ fuel ih =>
    unfold readBlocks
    split
    · exact h
    · rename_i hblk
      simp only [wp_bind, wp_get]
      cases hb : c.map.lookup blk with
      | some e =>
        dsimp only
        rw [wp_bind]
        exact wp_mono (serveCached_bounded hg hN h hb offset finish buf)
          (fun buf' t ht => ih (blk + 1) buf' t ht) fun _ _ ht => ht
      | none =>
        have hpos : 0 < absentRun c (last + 1 - blk) blk := absentRun_pos (by omega) hb
        have hle := absentRun_le c (last + 1 - blk) blk
        have hin : (blk + absentRun c (last + 1 - blk) blk - 1) * bs < N :=
          (Nat.mul_le_mul_right bs (by omega)).trans_lt hlast
        dsimp only
        rw [wp_bind]
        exact wp_mono (serveAbsent_bounded hg hN hcap h hpos hin offset finish buf)
          (fun buf' t ht => ih _ buf' t ht) fun _ _ ht => ht

/-- The last block of a request inside the device starts inside it. -/
theorem last_block_inside {offset len : Nat} (hl : 0 < len) (hin : offset + len ≤ N) :
    (offset + len - 1) / bs * bs < N := by
  have h := Nat.div_mul_le_self (offset + len - 1) bs
  omega

theorem readAt_bounded (hg : g ∣ bs) (hN : g ∣ N) (hcap : 0 < cap) (h : Bounded g N bs cap log c)
    (offset len : Nat) :
    wp (readAt offset len) c
      (fun _ t => Bounded g N bs cap log t) fun _ t => Bounded g N bs cap log t := by
  unfold readAt
  simp only [wp_bind, wp_get, h.size, h.block, checkBounds]
  by_cases hin : offset + len ≤ N
  · rw [if_pos hin]
    dsimp only
    split
    · exact h
    · rename_i hl
      exact readBlocks_bounded hg hN hcap (last_block_inside (Nat.pos_of_ne_zero hl) hin) _ _ _ c h
  · rw [if_neg hin]
    exact h

/-! ## Writes and zeroes -/

theorem writeBlock_bounded (hg : g ∣ bs) (hN : g ∣ N) (hcap : 0 < cap)
    (h : Bounded g N bs cap log c) {offset : Nat} {buf : List UInt8} (ho : g ∣ offset)
    (hl : g ∣ buf.length) (hoff : offset < (blk + 1) * bs) (hstart : blk * bs < offset + buf.length)
    (hin : offset + buf.length ≤ N) :
    wp (writeBlock offset buf blk) c
      (fun _ t => Bounded g N bs cap log t) fun _ t => Bounded g N bs cap log t := by
  rw [Nat.succ_mul] at hoff
  have hgb : g ∣ blk * bs := Nat.dvd_mul_left_of_dvd hg blk
  obtain ⟨blen, hblen⟩ : ∃ n, n = min bs (N - blk * bs) := ⟨_, rfl⟩
  have hgl : g ∣ blen := by
    rw [hblen]
    exact dvd_min hg (Nat.dvd_sub hN hgb)
  -- the range written inside the block
  obtain ⟨s, hs⟩ : ∃ s, s = max offset (blk * bs) - blk * bs := ⟨_, rfl⟩
  obtain ⟨t, ht⟩ : ∃ t, t = min (offset + buf.length) (blk * bs + blen) - blk * bs := ⟨_, rfl⟩
  have hgs : g ∣ s := by
    rw [hs]
    exact Nat.dvd_sub (dvd_max ho hgb) hgb
  have hgt : g ∣ t := by
    rw [ht]
    exact Nat.dvd_sub (dvd_min (Nat.dvd_add ho hl) (Nat.dvd_add hgb hgl)) hgb
  have hst : s ≤ t := by omega
  have htl : t ≤ blen := by omega
  have hgo : ∀ e (d : CachedDevice), Bounded g N bs cap log d → d.map.lookup blk = some e →
      wp (do
        let e ← if e.valid.2 < s ∨ t < e.valid.1 then fillEntry blk e else pure e
        let tick ← touch
        modify fun x => x.insert blk (e.write s t (slice buf (blk * bs + s - offset) (t - s)) tick))
        d (fun _ t => Bounded g N bs cap log t) fun _ t => Bounded g N bs cap log t := by
    intro e d hd hb
    have hput : ∀ e (d : CachedDevice), Bounded g N bs cap log d → d.map.lookup blk = some e →
        Bounded g N bs cap log ({ d with tick := d.tick + 1 }.insert blk
          (e.write s t (slice buf (blk * bs + s - offset) (t - s)) (d.tick + 1))) := by
      intro e d hd hb
      have hfits := hd.fits blk e hb
      have hlen := hfits.ok.length
      exact (hd.ticked _).replace hb (hfits.write hst (by omega) hgs hgt _ _)
    split <;> simp only [wp_bind, wp_modify, wp_pure]
    · refine wp_mono (fillEntry_bounded hg hN hd hb) (fun e' d' hd' => wp_touch ?_) fun _ _ ht => ht
      exact hput e' d' hd'.1 hd'.2
    · exact wp_touch (hput e d hd hb)
  unfold writeBlock
  simp only [wp_bind, wp_get, h.block, h.blockLen_eq, ← hblen, ← hs, ← ht]
  cases hb : c.map.lookup blk with
  | some e => exact hgo e c h hb
  | none =>
    simp only [wp_bind, wp_modify]
    refine wp_mono (makeRoom_bounded hg hcap h) (fun _ d hd => wp_touch ?_) fun _ _ ht => ht
    refine hgo _ _ ((hd.1.ticked _).add hd.2 ?_) (AList.lookup_insert _)
    refine ⟨⟨by omega, ?_, le_rfl, ?_, fun hlt => absurd hlt (Nat.lt_irrefl s)⟩, ⟨hgs, hgs⟩,
      ⟨hgs, hgs⟩⟩
    · exact List.length_replicate.trans hblen
    · rw [List.length_replicate]
      exact hst.trans htl

theorem writeAt_bounded (hg : g ∣ bs) (hN : g ∣ N) (hcap : 0 < cap) (hbs : 0 < bs)
    (h : Bounded g N bs cap log c) {offset : Nat} {buf : List UInt8} (ho : g ∣ offset)
    (hl : g ∣ buf.length) :
    wp (writeAt offset buf) c
      (fun _ t => Bounded g N bs cap log t) fun _ t => Bounded g N bs cap log t := by
  unfold writeAt
  simp only [wp_bind, wp_get, h.size, checkBounds]
  by_cases hin : offset + buf.length ≤ N
  · rw [if_pos hin]
    dsimp only
    split
    · exact h
    · rename_i hne
      refine wp_mono (wp_forM (fun rest t => Bounded g N bs cap log t ∧
        ∀ b ∈ rest, offset < (b + 1) * bs ∧ b * bs < offset + buf.length) ?_
        ⟨h, fun b hb => touched_meets hbs h.block (List.length_pos_of_ne_nil hne) hb⟩)
        (fun _ t ht => ht.1) fun _ _ ht => ht
      rintro x xs s ⟨hs, hrest⟩
      obtain ⟨hoff, hstart⟩ := hrest x List.mem_cons_self
      exact wp_mono (writeBlock_bounded hg hN hcap hs ho hl hoff hstart hin)
        (fun _ t ht => ⟨ht, fun b hb => hrest b (List.mem_cons_of_mem x hb)⟩) fun _ _ ht => ht
  · rw [if_neg hin]
    exact h

theorem zeroBlock_bounded (h : Bounded g N bs cap log c) (offset len blk : Nat) :
    wp (zeroBlock offset len blk) c
      (fun _ t => Bounded g N bs cap log t) fun _ t => Bounded g N bs cap log t := by
  unfold zeroBlock
  simp only [wp_bind, wp_get]
  cases hb : c.map.lookup blk with
  | none => exact h
  | some e =>
    dsimp only
    split
    · exact h.erase blk
    · split
      · exact h.replace hb ((h.fits blk e hb).congr (length_splice _ _ _) rfl rfl)
      · exact h

theorem writeZeroes_bounded (h : Bounded g N bs cap log c) {offset len : Nat} (ho : g ∣ offset)
    (hl : g ∣ len) :
    wp (writeZeroes offset len) c
      (fun _ t => Bounded g N bs cap log t) fun _ t => Bounded g N bs cap log t := by
  unfold writeZeroes
  simp only [wp_bind, wp_get, h.size, checkBounds]
  by_cases hin : offset + len ≤ N
  · rw [if_pos hin]
    dsimp only
    split
    · exact h
    · rw [wp_bind]
      refine wp_mono (wp_forM (fun _ t => Bounded g N bs cap log t)
        (fun x _ s hs => zeroBlock_bounded hs offset len x) h) (fun _ t ht => ?_) fun _ _ ht => ht
      have hreq : Request.Fits g N ⟨.zeroes, offset, len⟩ := ⟨ho, hl, hin⟩
      exact wp_innerWriteZeroes (by rw [ht.size]; exact hin) (fun _ => ht.called hreq)
        ((ht.called hreq).congr rfl rfl rfl rfl rfl rfl)
  · rw [if_neg hin]
    exact h

theorem flush_bounded (hg : g ∣ bs) (h : Bounded g N bs cap log c) :
    wp flush c (fun _ t => Bounded g N bs cap log t) fun _ t => Bounded g N bs cap log t := by
  unfold flush
  simp only [wp_bind, wp_get]
  refine wp_mono (writeBack_bounded hg (dirtyBlocks_sorted c) h) (fun _ t ht => ?_) fun _ _ ht => ht
  have hreq : Request.Fits g N ⟨.flush, 0, 0⟩ := ⟨Nat.dvd_zero g, Nat.dvd_zero g, Nat.zero_le N⟩
  exact wp_innerFlush (fun _ => ht.1.called hreq) (ht.1.called hreq)

/-! ## Sequences of operations -/

/-- The caller asks for multiples of `g`. -/
def Op.Aligned (g : Nat) : Op → Prop
  | .readAt offset len => g ∣ offset ∧ g ∣ len
  | .writeAt offset buf => g ∣ offset ∧ g ∣ buf.length
  | .writeZeroes offset len => g ∣ offset ∧ g ∣ len
  | .flush => True

/-- One operation keeps the invariant, however it ends. -/
theorem op_bounded (hg : g ∣ bs) (hN : g ∣ N) (hcap : 0 < cap) (hbs : 0 < bs)
    (h : Bounded g N bs cap log c) {op : Op} (hop : op.Aligned g) :
    Bounded g N bs cap log (exec op.run c).2 := by
  refine wp_state_iff.mp ?_
  cases op with
  | readAt offset len => exact readAt_bounded hg hN hcap h offset len
  | writeAt offset buf =>
    unfold Op.run
    rw [wp_bind]
    exact writeAt_bounded hg hN hcap hbs h hop.1 hop.2
  | writeZeroes offset len =>
    unfold Op.run
    rw [wp_bind]
    exact writeZeroes_bounded h hop.1 hop.2
  | flush =>
    unfold Op.run
    rw [wp_bind]
    exact flush_bounded hg h

theorem runOps_bounded (hg : g ∣ bs) (hN : g ∣ N) (hcap : 0 < cap) (hbs : 0 < bs) {ops : List Op}
    (hops : ∀ op ∈ ops, op.Aligned g) (h : Bounded g N bs cap log c) :
    Bounded g N bs cap log (runOps c ops).2 := by
  induction ops generalizing c with
  | nil => exact h
  | cons op ops ih =>
    exact ih (fun o ho => hops o (List.mem_cons_of_mem op ho))
      (op_bounded hg hN hcap hbs h (hops op List.mem_cons_self))

end Commands

/-- What `with_geometry` builds starts within its bounds. -/
theorem withGeometry_bounded {inner : Inner} {bs cap : Nat} {c : CachedDevice}
    (hc : withGeometry inner bs cap = some c) (g : Nat) :
    0 < bs ∧ 0 < c.maxBlocks ∧ Bounded g inner.dev.size bs c.maxBlocks inner.requests c := by
  unfold withGeometry at hc
  split at hc
  · rename_i hgeo
    cases hc
    have hmost : 0 < max (cap / bs) 8 := by omega
    refine ⟨by omega, hmost, rfl, rfl, rfl, Nat.zero_le _, Nat.zero_le _, fun blk e he => ?_,
      fun r hr => .inl hr⟩
    cases he
  · cases hc

theorem aligned_one (ops : List Op) : ∀ op ∈ ops, op.Aligned 1 := by
  intro op _
  cases op with
  | flush => trivial
  | _ => exact ⟨Nat.one_dvd _, Nat.one_dvd _⟩

/-- In every run, whichever calls the inner device fails, the cache never holds more than
    `max_blocks` blocks; and with a sector size that divides the cache block size, the
    device size and every request of the caller, each request to the inner device is
    sector-aligned and in bounds. -/
theorem runOps_within_bounds {inner : Inner} {bs cap : Nat} {c : CachedDevice}
    (hc : withGeometry inner bs cap = some c) (ops : List Op) :
    ((runOps c ops).2.map.entries.length ≤ c.maxBlocks ∧ (runOps c ops).2.peak ≤ c.maxBlocks) ∧
      (inner.dev.logicalSectorSize ∣ bs → inner.dev.logicalSectorSize ∣ inner.dev.size →
        (∀ op ∈ ops, op.Aligned inner.dev.logicalSectorSize) →
        ∀ r ∈ (runOps c ops).2.inner.requests,
          r ∈ inner.requests ∨ r.Fits inner.dev.logicalSectorSize inner.dev.size) := by
  constructor
  · obtain ⟨hbs, hcap, h⟩ := withGeometry_bounded hc 1
    have hrun := runOps_bounded (Nat.one_dvd bs) (Nat.one_dvd _) hcap hbs (aligned_one ops) h
    exact ⟨hrun.held, hrun.peak⟩
  · intro hg hN hops
    obtain ⟨hbs, hcap, h⟩ := withGeometry_bounded hc inner.dev.logicalSectorSize
    exact (runOps_bounded hg hN hcap hbs hops h).asked

/-- An inner device of two sectors that fails its first `write_at`. -/
def twoSectorInner : Inner where
  dev := { size := 1024, bytes := fun _ => 0 }
  fails := fun k n => k == .write && n == 0

/-- A write of the whole device, a flush whose `write_at` fails and a read. -/
def twoSectorOps : List Op :=
  [.writeAt 0 (List.replicate 1024 7), .flush, .readAt 512 512]

theorem twoSectorInner_within_bounds :
    ∃ c, withGeometry twoSectorInner 512 0 = some c ∧ (runOps c twoSectorOps).2.peak ≤ 8 ∧
      ∀ r ∈ (runOps c twoSectorOps).2.inner.requests, r.Fits 512 1024 := by
  have hg : Nat.isPowerOfTwo 512 ∧ 512 ≤ 512 := ⟨⟨9, rfl⟩, le_rfl⟩
  have hops : ∀ op ∈ twoSectorOps, op.Aligned 512 := by
    intro op hop
    simp only [twoSectorOps, List.mem_cons, List.not_mem_nil, or_false] at hop
    rcases hop with rfl | rfl | rfl
    · exact ⟨by decide, by rw [List.length_replicate]; decide⟩
    · trivial
    · exact ⟨by decide, by decide⟩
  obtain ⟨c, hc⟩ : ∃ c, withGeometry twoSectorInner 512 0 = some c := ⟨_, if_pos hg⟩
  have hmost : c.maxBlocks = 8 := by
    rw [withGeometry, if_pos hg] at hc
    cases hc
    rfl
  have h := runOps_within_bounds hc twoSectorOps
  rw [hmost] at h
  refine ⟨c, hc, h.1.2, fun r hr => ?_⟩
  exact (h.2 (by decide) (by decide) hops r hr).resolve_left List.not_mem_nil

end MkfsExt4.Cache
