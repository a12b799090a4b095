/-
  Reads, writes and zeroes through the cache (`src/cache.rs`, `read_at`, `write_at`,
  `write_zeroes`).

  Over an inner device whose `write_at` never fails, each operation keeps the invariant:
  a read that returns shows the mirror, a write or a zeroing that returns is the write on
  the mirror, and one that fails leaves the bytes it covers uncertain and no others. An
  operation fails only when the inner device failed a call.
-/
import MkfsExt4.Cache.WriteBack

namespace MkfsExt4.Cache

open Lib.Store Lib.Hoare

variable {N bs : Nat} {F : Call → Nat → Bool} {mir : Mirror} {c : CachedDevice}
  {E : Error → CachedDevice → Prop}

/-! ## Block arithmetic -/

theorem Inv.blockLen_eq {run : Run} (h : Inv N bs F mir run c) (blk : Nat) :
    c.blockLen blk = min bs (N - blk * bs) := by
  rw [CachedDevice.blockLen, h.size, h.block]

/-- The bytes of a run of blocks, the last of which may be short. -/
theorem sum_blockLen (N bs first n : Nat) :
    ((List.range n).map fun i => min bs (N - (first + i) * bs)).sum =
      min (n * bs) (N - first * bs) := by
  induction n with
  | zero => simp
  | succ n ih =>
    rw [List.range_succ, List.map_append, List.sum_append, ih]
    simp only [List.map_cons, List.map_nil, List.sum_cons, List.sum_nil, Nat.add_mul, Nat.one_mul]
    omega

theorem lt_succ_div_mul (hbs : 0 < bs) (p : Nat) : p < (p / bs + 1) * bs := by
  have h := Nat.mod_lt p hbs
  have e := Nat.div_add_mod' p bs
  rw [Nat.succ_mul]
  omega

/-- Each block that a request touches holds some byte of it. -/
theorem touched_meets (hbs : 0 < bs) (hc : c.blockSize = bs) {offset len blk : Nat} (hl : 0 < len)
    (hb : blk ∈ c.touched offset len) : offset < (blk + 1) * bs ∧ blk * bs < offset + len := by
  rw [CachedDevice.touched, hc, List.mem_range'_1] at hb
  have h1 := lt_succ_div_mul hbs offset
  have h2 : (offset / bs + 1) * bs ≤ (blk + 1) * bs := Nat.mul_le_mul_right bs (by omega)
  have h3 : blk * bs ≤ (offset + len - 1) / bs * bs := Nat.mul_le_mul_right bs (by omega)
  have h4 := Nat.div_mul_le_self (offset + len - 1) bs
  omega

/-! ## Device reads -/

/-- A read of whole blocks changes nothing but the count and the list of calls. -/
theorem readRunFromInner_spec {first n : Nat} {Q : List UInt8 → CachedDevice → Prop}
    (h : Inv N bs F mir {} c) (hin : first * bs ≤ N)
    (hE : (∃ n, F .read n = true) →
      E (.io (first * bs)) (c.called .read (first * bs) (min (n * bs) (N - first * bs))))
    (hQ : Q (window c.inner.dev.bytes (first * bs) (min (n * bs) (N - first * bs)))
      (c.called .read (first * bs) (min (n * bs) (N - first * bs)))) :
    wp (readRunFromInner first n) c Q E := by
  unfold readRunFromInner
  simp only [wp_bind, wp_get, h.block, h.blockLen_eq, sum_blockLen]
  refine wp_innerReadAt ?_ (fun hf => hE ?_) hQ
  · rw [h.size]
    omega
  · rwa [h.fails] at hf

theorem Inv.called {run : Run} (h : Inv N bs F mir run c) (k : Call) (offset len : Nat) :
    Inv N bs F mir run (c.called k offset len) :=
  ⟨h.size, h.block, h.fails, h.coherent⟩

/-- Filling an entry keeps the invariant and makes the whole block valid. -/
theorem fillEntry_spec {blk : Nat} {e : Entry} {Q : Entry → CachedDevice → Prop}
    (h : Inv N bs F mir {} c) (hb : c.map.lookup blk = some e)
    (hE : ∀ err t, (∃ n, F .read n = true) → Inv N bs F mir {} t → E err t)
    (hQ : ∀ e' t, Inv N bs F mir {} t → t.map.lookup blk = some e' →
      e'.valid = (0, e.data.length) → e'.data.length = e.data.length → Q e' t) :
    wp (fillEntry blk e) c Q E := by
  have hok := (h.settled rfl).ok blk e hb
  have hlen : min (1 * bs) (N - blk * bs) = e.data.length := by
    rw [hok.length, Nat.one_mul]
  unfold fillEntry
  simp only [wp_bind, wp_modify, wp_pure]
  refine readRunFromInner_spec h hok.inside.le (fun hf => hE _ _ hf (h.called _ _ _)) ?_
  rw [hlen]
  refine hQ _ _ ?_ (AList.lookup_insert _) rfl (by simp [Entry.filled])
  exact h.of_coherent rfl rfl rfl ((h.settled rfl).fill hb)

theorem wp_touch {Q : Nat → CachedDevice → Prop}
    (hQ : Q (c.tick + 1) { c with tick := c.tick + 1 }) : wp touch c Q E := hQ

theorem Inv.touched {run : Run} (h : Inv N bs F mir run c) (n : Nat) :
    Inv N bs F mir run { c with tick := n } :=
  ⟨h.size, h.block, h.fails, h.coherent⟩

/-- A new recency stamp changes nothing the invariant reads. -/
theorem Inv.restamp {blk : Nat} {e : Entry} (h : Inv N bs F mir {} c)
    (hb : c.map.lookup blk = some e) (n : Nat) :
    Inv N bs F mir {} (c.insert blk { e with tick := n }) := by
  have hc := h.settled rfl
  have hok := hc.ok blk e hb
  refine h.of_coherent rfl rfl rfl (hc.insert (fun _ _ _ _ _ hm => hm)
    ⟨hok.inside, hok.length, hok.valid_le, hok.valid_length, hok.dirty_valid⟩
    (hc.agrees blk e hb) fun i v hi hp hm hd => hc.device blk i v hi hp hm ?_)
  rintro ⟨e', he', hr⟩
  rw [hb] at he'
  cases he'
  exact hd hr

/-! ## The read loop -/

theorem absentRun_absent (c : CachedDevice) (n blk : Nat) :
    ∀ j < absentRun c n blk, c.map.lookup (blk + j) = none := by
  induction n generalizing blk with
  | zero => exact fun j hj => absurd hj (Nat.not_lt_zero j)
  | succ n ih =>
    intro j hj
    unfold absentRun at hj
    split at hj
    · rename_i hnone
      cases j with
      | zero => simpa using hnone
      | succ j =>
        have := ih (blk + 1) j (by omega)
        rwa [Nat.add_assoc, Nat.add_comm 1 j] at this
    · exact absurd hj (Nat.not_lt_zero j)

theorem absentRun_le (c : CachedDevice) (n blk : Nat) : absentRun c n blk ≤ n := by
  induction n generalizing blk with
  | zero => exact le_rfl
  | succ n ih =>
    unfold absentRun
    split
    · exact Nat.succ_le_succ (ih (blk + 1))
    · exact Nat.zero_le _

theorem absentRun_pos {n blk : Nat} (hn : 0 < n) (hb : c.map.lookup blk = none) :
    0 < absentRun c n blk := by
  obtain ⟨n, rfl⟩ := Nat.exists_eq_succ_of_ne_zero hn.ne'
  simp [absentRun, hb]

/-- What is left of a device read when the blocks `rest` are still to be inserted. -/
structure Inserting (N bs : Nat) (F : Call → Nat → Bool) (mir : Mirror) (finish : Nat)
    (rest : List Nat) (data : List UInt8) (c : CachedDevice) : Prop where
  inv : Inv N bs F mir {} c
  left : ∃ blk n, rest = List.range' blk n ∧ blk + n = finish ∧ (0 < n → (finish - 1) * bs < N) ∧
    data.length = min (n * bs) (N - blk * bs) ∧
    (∀ i v, i < data.length → mir (blk * bs + i) = some v → data.getD i 0 = v) ∧
    ∀ j < n, c.map.lookup (blk + j) = none

theorem insertRun_spec {finish blk : Nat} {rest : List Nat} {data : List UInt8}
    (hw : ∀ n, F .write n = false)
    (h : Inserting N bs F mir finish (blk :: rest) data c) :
    wp (insertRun data blk) c (fun data' t => Inserting N bs F mir finish rest data' t) E := by
  obtain ⟨hinv, b, n, hrest, hfin, hlast, hlen, hdata, habs⟩ := h
  obtain ⟨n, rfl⟩ : ∃ m, n = m + 1 := by
    cases n with
    | zero => simp at hrest
    | succ n => exact ⟨n, rfl⟩
  rw [List.range'_succ, List.cons.injEq] at hrest
  obtain ⟨rfl, hrest⟩ := hrest
  -- every block of the run starts inside the device
  have hinside : blk * bs < N := by
    have hl := hlast (Nat.succ_pos n)
    have hle : blk * bs ≤ (finish - 1) * bs := Nat.mul_le_mul_right bs (by omega)
    omega
  unfold insertRun
  simp only [wp_bind, wp_get, wp_modify, wp_pure]
  refine wp_mono (makeRoom_spec hw hinv) (fun _ t ht => wp_touch ?_) fun _ _ he => he
  obtain ⟨hinv', habs'⟩ := ht
  have hblen := hinv.blockLen_eq blk
  have hmul : (n + 1) * bs = n * bs + bs := Nat.succ_mul n bs
  have htake : (data.take (c.blockLen blk)).length = min bs (N - blk * bs) := by
    rw [List.length_take, hblen, hlen]
    omega
  have hent := (hinv'.settled rfl).insert_read (habs' blk (habs 0 (Nat.succ_pos n))) hinside htake
    (fun i v hi hm => by
      rw [htake] at hi
      have hi' : i < data.length := by omega
      rw [List.getD_eq_getElem?_getD, List.getElem?_take, if_pos (by omega),
        ← List.getD_eq_getElem?_getD]
      exact hdata i v hi' hm) (t.tick + 1)
  rw [htake, ← hblen] at hent
  refine ⟨hinv'.of_coherent rfl rfl rfl hent, blk + 1, n, hrest, by omega,
    fun hn => hlast (Nat.succ_pos n), ?_, ?_, ?_⟩
  · rw [List.length_drop, hlen, hblen, Nat.succ_mul blk]
    omega
  · intro i v hi hm
    have hfull : 0 < (data.drop (c.blockLen blk)).length := by omega
    rw [List.length_drop] at hi hfull
    have hbs : c.blockLen blk = bs := by omega
    rw [hbs] at hi ⊢
    have := hdata (bs + i) v (by omega) (by rw [← hm, Nat.succ_mul, Nat.add_assoc])
    rw [← this]
    simp [List.getD_eq_getElem?_getD]
  · intro j hj
    have hne : blk + 1 + j ≠ blk := by omega
    refine (AList.lookup_insert_ne hne).trans ?_
    refine habs' _ ?_
    have := habs (j + 1) (by omega)
    rwa [show blk + (j + 1) = blk + 1 + j by omega] at this

/-- Every byte of a read of absent blocks is the mirror's. -/
theorem Inv.read_absent {blk n : Nat} (hbs : 0 < bs) (h : Inv N bs F mir {} c)
    (habs : ∀ j < n, c.map.lookup (blk + j) = none) {q : Nat} {v : UInt8}
    (hq : q < min (n * bs) (N - blk * bs)) (hm : mir (blk * bs + q) = some v) :
    c.inner.dev.bytes (blk * bs + q) = v := by
  have hj : q / bs < n := Nat.div_lt_of_lt_mul (by rw [Nat.mul_comm]; omega)
  have hdev := (h.settled rfl).device (blk + q / bs) (q % bs) v (Nat.mod_lt _ hbs)
  have heq : (blk + q / bs) * bs + q % bs = blk * bs + q := by
    have := Nat.div_add_mod' q bs
    rw [Nat.add_mul]
    omega
  rw [heq] at hdev
  exact hdev (by omega) hm (not_dirtyAt_of_absent (habs _ hj) _)

/-- `buf`, read from `offset` to `finish`, shows the mirror up to device byte `upto`. -/
structure Served (mir : Mirror) (offset finish : Nat) (buf : List UInt8) (upto : Nat) : Prop where
  length : buf.length = finish - offset
  shows : ∀ i v, i < buf.length → offset + i < upto → mir (offset + i) = some v →
    buf.getD i 0 = v

/-- Copying the next piece in serves the caller further. -/
theorem Served.piece {offset finish lo hi : Nat} {buf piece : List UInt8}
    (h : Served mir offset finish buf lo) (hlen : piece.length = min finish hi - max offset lo)
    (hpiece : ∀ j v, j < piece.length → mir (max offset lo + j) = some v → piece.getD j 0 = v) :
    Served mir offset finish (splice buf (max offset lo - offset) piece) hi := by
  have hl := h.length
  refine ⟨by simpa using hl, fun i v hi' hup hm => ?_⟩
  rw [length_splice] at hi'
  rw [getD_splice _ _ hi']
  by_cases hr : max offset lo ≤ offset + i
  · rw [if_pos (by omega)]
    refine hpiece _ v (by omega) ?_
    rwa [show max offset lo + (i - (max offset lo - offset)) = offset + i by omega]
  · rw [if_neg (by omega)]
    exact h.shows i v hi' (by omega) hm

/-- Past the end of the device there is nothing to serve. -/
theorem Served.extend {offset finish upto : Nat} {buf : List UInt8} (hN : finish ≤ N)
    (h : Served mir offset finish buf (min upto N)) : Served mir offset finish buf upto :=
  ⟨h.length, fun i v hi hup hm => h.shows i v hi (by have := h.length; omega) hm⟩

section Read

variable {offset finish blk : Nat} {buf : List UInt8}

/-- A cached block serves its part, filled if the request reaches outside `valid`. -/
theorem serveCached_spec {e : Entry} (h : Inv N bs F mir {} c) (hb : c.map.lookup blk = some e)
    (hoff : offset < (blk + 1) * bs) (hstart : blk * bs < finish) (hN : finish ≤ N)
    (hof : offset < finish)
    (hE : ∀ err t, (∃ n, F .read n = true) → Inv N bs F mir {} t → E err t)
    (hs : Served mir offset finish buf (blk * bs)) :
    wp (serveCached offset finish blk e buf) c
      (fun buf' t => Inv N bs F mir {} t ∧ Served mir offset finish buf' ((blk + 1) * bs)) E := by
  have hlen := ((h.settled rfl).ok blk e hb).length
  rw [Nat.succ_mul] at hoff
  have hup : min ((blk + 1) * bs) N = blk * bs + min bs (N - blk * bs) := by
    rw [Nat.succ_mul]
    omega
  have hfit : max offset (blk * bs) ≤ min finish (blk * bs + min bs (N - blk * bs)) := by omega
  unfold serveCached
  simp only [wp_bind, wp_get, h.block, h.blockLen_eq]
  -- from here on the bytes wanted are inside `valid` of the entry at hand
  have hserve : ∀ e' (t : CachedDevice), Inv N bs F mir {} t → t.map.lookup blk = some e' →
      e'.valid.1 ≤ max offset (blk * bs) - blk * bs →
      min finish (blk * bs + min bs (N - blk * bs)) - blk * bs ≤ e'.valid.2 →
      Served mir offset finish
        (splice buf (blk * bs + (max offset (blk * bs) - blk * bs) - offset)
          (slice e'.data (max offset (blk * bs) - blk * bs)
            (min finish (blk * bs + min bs (N - blk * bs)) - blk * bs -
              (max offset (blk * bs) - blk * bs)))) ((blk + 1) * bs) := by
    intro e' t ht hb' hv0 hv1
    have hvl := ((ht.settled rfl).ok blk e' hb').valid_length
    have hdiff : min finish (blk * bs + min bs (N - blk * bs)) - blk * bs -
        (max offset (blk * bs) - blk * bs) =
        min finish (blk * bs + min bs (N - blk * bs)) - max offset (blk * bs) := by omega
    have hpos : blk * bs + (max offset (blk * bs) - blk * bs) - offset =
        max offset (blk * bs) - offset := by omega
    rw [hdiff, hpos]
    refine Served.extend hN ?_
    rw [hup]
    have hpl := length_slice (by omega : max offset (blk * bs) - blk * bs +
      (min finish (blk * bs + min bs (N - blk * bs)) - max offset (blk * bs)) ≤ e'.data.length)
    refine hs.piece hpl fun j v hj hm => ?_
    rw [hpl] at hj
    rw [getD_slice _ _ _ _ _ hj]
    refine (ht.settled rfl).agrees blk e' hb' _ v (by omega) (by omega) ?_
    rwa [show blk * bs + (max offset (blk * bs) - blk * bs + j) =
      max offset (blk * bs) + j by omega]
  split <;> simp only [wp_bind, wp_modify, wp_pure]
  · refine fillEntry_spec h hb hE fun e' t ht hb' hv hl => wp_touch ?_
    exact ⟨(ht.touched (t.tick + 1)).restamp hb' (t.tick + 1), hserve e' t ht hb' (by rw [hv]; exact Nat.zero_le _)
      (by rw [hv]; show _ ≤ e.data.length; omega)⟩
  · refine wp_touch ?_
    exact ⟨(h.touched (c.tick + 1)).restamp hb (c.tick + 1), hserve e c h hb (by omega) (by omega)⟩

/-- Absent blocks serve their part from one device read and join the cache. -/
theorem serveAbsent_spec {n : Nat} (hbs : 0 < bs) (hw : ∀ n, F .write n = false)
    (h : Inv N bs F mir {} c) (habs : ∀ j < n, c.map.lookup (blk + j) = none) (hn : 0 < n)
    (hoff : offset < (blk + 1) * bs) (hend : (blk + n - 1) * bs < finish) (hN : finish ≤ N)
    (hof : offset < finish)
    (hE : ∀ err t, (∃ n, F .read n = true) → Inv N bs F mir {} t → E err t)
    (hs : Served mir offset finish buf (blk * bs)) :
    wp (serveAbsent offset finish blk n buf) c
      (fun buf' t => Inv N bs F mir {} t ∧ Served mir offset finish buf' ((blk + n) * bs)) E := by
  have hstart : blk * bs ≤ (blk + n - 1) * bs := Nat.mul_le_mul_right bs (by omega)
  have hbsn : bs ≤ n * bs := Nat.le_mul_of_pos_left bs hn
  have hmul : (blk + n) * bs = blk * bs + n * bs := Nat.add_mul blk n bs
  rw [Nat.succ_mul] at hoff
  have hread : ∀ q v, q < min (n * bs) (N - blk * bs) → mir (blk * bs + q) = some v →
      c.inner.dev.bytes (blk * bs + q) = v := fun q v hq hm => h.read_absent hbs habs hq hm
  have hins : Inserting N bs F mir (blk + n) (List.range' blk n)
      (window c.inner.dev.bytes (blk * bs) (min (n * bs) (N - blk * bs)))
      (c.called .read (blk * bs) (min (n * bs) (N - blk * bs))) := by
    refine ⟨h.called _ _ _, blk, n, rfl, rfl, fun _ => by omega, length_window _ _ _, ?_, habs⟩
    intro i v hi hm
    rw [length_window] at hi
    rw [getD_window _ _ _ _ _ hi]
    exact hread i v hi hm
  unfold serveAbsent
  simp only [wp_bind, wp_get, h.block]
  refine readRunFromInner_spec h (by omega) (fun hf => hE _ _ hf (h.called _ _ _)) ?_
  refine wp_mono (wp_foldlM (Inserting N bs F mir (blk + n))
    (fun x xs data s hI => insertRun_spec hw hI) hins) (fun _ t ht => ⟨ht.inv, ?_⟩) fun _ _ he => he
  simp only [length_window]
  refine Served.extend hN ?_
  rw [show min ((blk + n) * bs) N = blk * bs + min (n * bs) (N - blk * bs) by omega]
  have hpl := length_slice (by rw [length_window]; omega : max offset (blk * bs) - blk * bs +
    (min finish (blk * bs + min (n * bs) (N - blk * bs)) - max offset (blk * bs)) ≤
    (window c.inner.dev.bytes (blk * bs) (min (n * bs) (N - blk * bs))).length)
  refine hs.piece hpl fun j v hj hm => ?_
  rw [hpl] at hj
  rw [getD_slice _ _ _ _ _ hj, getD_window _ _ _ _ _ (by omega)]
  refine hread _ v (by omega) ?_
  rwa [show blk * bs + (max offset (blk * bs) - blk * bs + j) =
    max offset (blk * bs) + j by omega]

/-- The loop of `read_at` serves every block left. -/
theorem readBlocks_spec (hbs : 0 < bs) (hw : ∀ n, F .write n = false)
    (hof : offset < finish) (hN : finish ≤ N)
    (hE : ∀ err t, (∃ n, F .read n = true) → Inv N bs F mir {} t → E err t) (fuel : Nat) :
    ∀ (blk : Nat) (buf : List UInt8) (c : CachedDevice), Inv N bs F mir {} c →
      offset < (blk + 1) * bs → (finish - 1) / bs + 1 - blk ≤ fuel →
      Served mir offset finish buf (blk * bs) →
      wp (readBlocks offset finish ((finish - 1) / bs) fuel blk buf) c
        (fun buf' t => Inv N bs F mir {} t ∧ Served mir offset finish buf' finish) E := by
  have hdone : ∀ blk buf, (finish - 1) / bs < blk → Served mir offset finish buf (blk * bs) →
      Served mir offset finish buf finish := by
    intro blk buf hb hs
    have h1 := lt_succ_div_mul hbs (finish - 1)
    have h2 : ((finish - 1) / bs + 1) * bs ≤ blk * bs := Nat.mul_le_mul_right bs hb
    exact ⟨hs.length, fun i v hi hup hm => hs.shows i v hi (by omega) hm⟩
  have hinside : ∀ b, b ≤ (finish - 1) / bs → b * bs < finish := by
    intro b hb
    have h1 : b * bs ≤ (finish - 1) / bs * bs := Nat.mul_le_mul_right bs hb
    have h2 := Nat.div_mul_le_self (finish - 1) bs
    omega
  induction fuel with
  | zero =>
    intro blk buf c h _ hfuel hs
    exact ⟨h, hdone blk buf (by omega) hs⟩
  | succ fuel ih =>
    intro blk buf c h hoff hfuel hs
    unfold readBlocks
    by_cases hlast : (finish - 1) / bs < blk
    · rw [if_pos hlast]
      exact ⟨h, hdone blk buf hlast hs⟩
    rw [if_neg hlast, wp_bind, wp_get]
    have hnext : ∀ n, offset < (blk + n + 1) * bs := by
      intro n
      have : (blk + 1) * bs ≤ (blk + n + 1) * bs := Nat.mul_le_mul_right bs (by omega)
      omega
    cases hb : c.map.lookup blk with
    | some e =>
      dsimp only
      rw [wp_bind]
      refine wp_mono (serveCached_spec h hb hoff (hinside blk (by omega)) hN hof hE hs)
        (fun buf' t ht => ?_) fun _ _ he => he
      exact ih (blk + 1) buf' t ht.1 (hnext 1) (by omega) ht.2
    | none =>
      have habs := absentRun_absent c ((finish - 1) / bs + 1 - blk) blk
      have hle := absentRun_le c ((finish - 1) / bs + 1 - blk) blk
      have hpos : 0 < absentRun c ((finish - 1) / bs + 1 - blk) blk :=
        absentRun_pos (by omega) hb
      dsimp only
      rw [wp_bind]
      refine wp_mono (serveAbsent_spec hbs hw h habs hpos hoff (hinside _ (by omega)) hN hof hE hs)
        (fun buf' t ht => ?_) fun _ _ he => he
      exact ih _ buf' t ht.1 (hnext _) (by omega) ht.2

/-- `read_at` keeps the invariant, and what it returns is the mirror's. -/
theorem readAt_spec {len : Nat} (hbs : 0 < bs) (hw : ∀ n, F .write n = false)
    (h : Inv N bs F mir {} c) (hin : offset + len ≤ N)
    (hE : ∀ err t, (∃ n, F .read n = true) → Inv N bs F mir {} t → E err t) :
    wp (readAt offset len) c
      (fun bytes t => Inv N bs F mir {} t ∧
        Served mir offset (offset + len) bytes (offset + len)) E := by
  unfold readAt
  simp only [wp_bind, wp_get, h.size, h.block, checkBounds, hin, if_true]
  by_cases hl : len = 0
  · rw [if_pos hl]
    exact ⟨h, ⟨by simp [hl], fun i v hi => absurd hi (Nat.not_lt_zero i)⟩⟩
  · rw [if_neg hl]
    refine readBlocks_spec hbs hw (by omega) hin hE _ _ _ c h ?_ (by omega)
      ⟨by simp, fun i v hi hup => ?_⟩
    · exact lt_succ_div_mul hbs offset
    · have := Nat.div_mul_le_self offset bs
      omega

end Read

/-! ## Writes -/

theorem Mirror.write_append (mir : Mirror) (offset : Nat) (xs ys : List UInt8) :
    (mir.write offset xs).write (offset + xs.length) ys = mir.write offset (xs ++ ys) := by
  unfold Mirror.write
  rw [List.map_append, overlay_append, List.length_map]

@[simp] theorem Mirror.write_nil (mir : Mirror) (offset : Nat) : mir.write offset [] = mir :=
  overlay_nil mir offset

/-- Forgetting a range forgets every write into it. -/
theorem Mirror.forget_le_write (mir : Mirror) (offset len : Nat) {xs : List UInt8}
    (h : xs.length ≤ len) : (mir.forget offset len).Le (mir.write offset xs) := by
  intro p v hm
  rw [forget_apply] at hm
  split at hm
  · cases hm
  · rwa [write_apply, if_neg (by omega)]

section Write

variable {offset blk : Nat} {buf : List UInt8}

/-- The mirror when `buf` is written as far as device byte `upto`. -/
def Mirror.upto (mir : Mirror) (offset : Nat) (buf : List UInt8) (upto : Nat) : Mirror :=
  mir.write offset (buf.take (upto - offset))

theorem Mirror.upto_next (hN : offset + buf.length ≤ N) (hstart : blk * bs < offset + buf.length) :
    (mir.upto offset buf (blk * bs)).write (max offset (blk * bs))
      (slice buf (max offset (blk * bs) - offset)
        (min (offset + buf.length) (blk * bs + min bs (N - blk * bs)) - max offset (blk * bs))) =
      mir.upto offset buf ((blk + 1) * bs) := by
  have hlen : (buf.take (blk * bs - offset)).length = blk * bs - offset := by
    rw [List.length_take]
    omega
  have hk : max offset (blk * bs) - offset = blk * bs - offset := by omega
  have hat : max offset (blk * bs) = offset + (buf.take (blk * bs - offset)).length := by omega
  unfold Mirror.upto slice
  rw [hk]
  nth_rewrite 1 [hat]
  rw [Mirror.write_append, ← List.take_add]
  congr 1
  refine List.take_eq_take_iff.mpr ?_
  rw [Nat.succ_mul]
  omega

/-- A write into block `blk`, when the blocks before it are written. -/
theorem writeBlock_spec (hbs : 0 < bs) (hw : ∀ n, F .write n = false)
    (h : Inv N bs F (mir.upto offset buf (blk * bs)) {} c) (hN : offset + buf.length ≤ N)
    (hoff : offset < (blk + 1) * bs) (hstart : blk * bs < offset + buf.length)
    (hne : 0 < buf.length)
    (hE : ∀ err t, (∃ n, F .read n = true) → Inv N bs F (mir.forget offset buf.length) {} t →
      E err t) :
    wp (writeBlock offset buf blk) c
      (fun _ t => Inv N bs F (mir.upto offset buf ((blk + 1) * bs)) {} t) E := by
  have hsucc : (blk + 1) * bs = blk * bs + bs := Nat.succ_mul blk bs
  have hnext : _ = mir.upto offset buf ((blk + 1) * bs) := Mirror.upto_next hN hstart
  -- the range written inside the block
  obtain ⟨s, hs⟩ : ∃ s, s = max offset (blk * bs) - blk * bs := ⟨_, rfl⟩
  obtain ⟨t, ht⟩ : ∃ t, t = min (offset + buf.length) (blk * bs + min bs (N - blk * bs)) -
    blk * bs := ⟨_, rfl⟩
  have hpos : 0 < min bs (N - blk * bs) := by omega
  have hst : s < t := by omega
  have htl : t ≤ min bs (N - blk * bs) := by omega
  have hforget : ∀ t, Inv N bs F (mir.upto offset buf (blk * bs)) {} t →
      Inv N bs F (mir.forget offset buf.length) {} t := fun t ht =>
    ht.mono (Mirror.forget_le_write mir offset _ (by rw [List.length_take]; omega))
  -- the write itself, once the entry leaves no gap
  have hput : ∀ e (d : CachedDevice) (tick : Nat), Inv N bs F (mir.upto offset buf (blk * bs)) {} d →
      d.map.lookup blk = some e → s ≤ e.valid.2 ∧ e.valid.1 ≤ t →
      Inv N bs F (mir.upto offset buf ((blk + 1) * bs)) {}
        (d.insert blk (e.write s t (slice buf (blk * bs + s - offset) (t - s)) tick)) := by
    intro e d tick hd hb hgap
    have hlen := ((hd.settled rfl).ok blk e hb).length
    have hsl : (slice buf (blk * bs + s - offset) (t - s)).length = t - s :=
      length_slice (by omega)
    have hcoh : Coherent _ _ _ _ (d.map.insert blk (e.write s t _ tick)) :=
      (hd.settled rfl).write hb hst (by omega) hsl hgap
    rw [← hnext]
    refine hd.of_coherent rfl rfl rfl ?_
    rw [show blk * bs + s = max offset (blk * bs) by omega] at hcoh ⊢
    rwa [show t - s = min (offset + buf.length) (blk * bs + min bs (N - blk * bs)) -
      max offset (blk * bs) by omega] at hcoh ⊢
  -- from an entry in the map: fill it if the write would leave a gap, then write
  have hgo : ∀ e (d : CachedDevice), Inv N bs F (mir.upto offset buf (blk * bs)) {} d →
      d.map.lookup blk = some e →
      wp (do
        let e ← if e.valid.2 < s ∨ t < e.valid.1 then fillEntry blk e else pure e
        let tick ← touch
        modify fun x => x.insert blk (e.write s t (slice buf (blk * bs + s - offset) (t - s)) tick))
        d (fun _ t => Inv N bs F (mir.upto offset buf ((blk + 1) * bs)) {} t) E := by
    intro e d hd hb
    have hlen := ((hd.settled rfl).ok blk e hb).length
    split <;> simp only [wp_bind, wp_modify, wp_pure]
    · refine fillEntry_spec hd hb (fun err t hf ht => hE err t hf (hforget t ht))
        fun e' d' hd' hb' hv hl => wp_touch ?_
      refine hput e' _ _ (hd'.touched (d'.tick + 1)) hb' ?_
      rw [hv]
      exact ⟨by show s ≤ e.data.length; omega, Nat.zero_le _⟩
    · exact wp_touch (hput e _ _ (hd.touched (d.tick + 1)) hb (by omega))
  unfold writeBlock
  simp only [wp_bind, wp_get, h.block, h.blockLen_eq, ← hs, ← ht]
  cases hb : c.map.lookup blk with
  | some e => exact hgo e c h hb
  | none =>
    simp only [wp_bind, wp_modify]
    refine wp_mono (makeRoom_spec hw h) (fun _ d hd => wp_touch ?_) fun _ _ he => he
    refine hgo _ _ ?_ (AList.lookup_insert _)
    exact hd.1.of_coherent rfl rfl rfl
      ((hd.1.settled rfl).insert_blank (hd.2 blk hb) (by omega) (by omega) _)

/-- `write_at` that returns is the write on the mirror; one that fails leaves its own
    bytes uncertain. -/
theorem writeAt_spec (hbs : 0 < bs) (hw : ∀ n, F .write n = false) (h : Inv N bs F mir {} c)
    (hN : offset + buf.length ≤ N)
    (hE : ∀ err t, (∃ n, F .read n = true) → Inv N bs F (mir.forget offset buf.length) {} t →
      E err t) :
    wp (writeAt offset buf) c (fun _ t => Inv N bs F (mir.write offset buf) {} t) E := by
  unfold writeAt
  simp only [wp_bind, wp_get, h.size, checkBounds, hN, if_true]
  by_cases hl : buf = []
  · rw [if_pos hl, hl, Mirror.write_nil]
    exact h
  rw [if_neg hl]
  have hne : 0 < buf.length := List.length_pos_of_ne_nil hl
  have hdiv : offset / bs ≤ (offset + buf.length - 1) / bs := Nat.div_le_div_right (by omega)
  have hlast := lt_succ_div_mul hbs (offset + buf.length - 1)
  -- written up to the first block left
  refine wp_mono (wp_forM
    (fun rest t => ∃ blk n, rest = List.range' blk n ∧
      blk + n = (offset + buf.length - 1) / bs + 1 ∧ offset < (blk + 1) * bs ∧
      Inv N bs F (mir.upto offset buf (blk * bs)) {} t) ?_ ?_) (fun _ t ht => ?_) fun _ _ he => he
  · rintro x xs s ⟨blk, n, hrest, hend, hoff, hs⟩
    obtain ⟨n, rfl⟩ : ∃ m, n = m + 1 := by
      cases n with
      | zero => simp at hrest
      | succ n => exact ⟨n, rfl⟩
    rw [List.range'_succ, List.cons.injEq] at hrest
    obtain ⟨rfl, hrest⟩ := hrest
    have hstart : x * bs < offset + buf.length := by
      have h1 : x * bs ≤ (offset + buf.length - 1) / bs * bs :=
        Nat.mul_le_mul_right bs (by omega)
      have h2 := Nat.div_mul_le_self (offset + buf.length - 1) bs
      omega
    refine wp_mono (writeBlock_spec hbs hw hs hN hoff hstart hne hE) (fun _ t ht => ?_)
      fun _ _ he => he
    refine ⟨x + 1, n, hrest, by omega, ?_, ht⟩
    rw [Nat.succ_mul]
    omega
  · refine ⟨offset / bs, (offset + buf.length - 1) / bs + 1 - offset / bs, ?_, by omega,
      lt_succ_div_mul hbs offset, ?_⟩
    · rw [CachedDevice.touched, h.block]
    · have hz : offset / bs * bs - offset = 0 := Nat.sub_eq_zero_of_le (Nat.div_mul_le_self _ _)
      rw [Mirror.upto, hz, List.take_zero, Mirror.write_nil]
      exact h
  · obtain ⟨blk, n, hnil, hend, _, ht⟩ := ht
    have hn : n = 0 := by simpa using congrArg List.length hnil.symm
    rw [hn, Nat.add_zero] at hend
    rw [hend, Mirror.upto, List.take_of_length_le (by omega)] at ht
    exact ht

end Write

/-! ## Zeroes -/

section Zeroes

variable {offset len blk : Nat}

/-- The cached copy of a block shows zeroes in the range, or is gone. -/
theorem zeroBlock_spec {rest : List Nat} (h : Inv N bs F (mir.forget offset len) {} c)
    (hoff : offset < (blk + 1) * bs) (hstart : blk * bs < offset + len)
    (hz : ∀ b e, c.map.lookup b = some e → b ∈ blk :: rest ∨ e.Zeroed bs offset len b) :
    wp (zeroBlock offset len blk) c
      (fun _ t => Inv N bs F (mir.forget offset len) {} t ∧
        ∀ b e, t.map.lookup b = some e → b ∈ rest ∨ e.Zeroed bs offset len b) E := by
  have hother : ∀ b e, b ≠ blk → c.map.lookup b = some e →
      b ∈ rest ∨ e.Zeroed bs offset len b := by
    intro b e hbb hb
    rcases hz b e hb with hm | hzb
    · rcases List.mem_cons.mp hm with rfl | hm
      · exact absurd rfl hbb
      · exact .inl hm
    · exact .inr hzb
  unfold zeroBlock
  simp only [wp_bind, wp_get, h.block]
  cases hb : c.map.lookup blk with
  | none =>
    refine ⟨h, fun b e he => hother b e ?_ he⟩
    rintro rfl
    rw [hb] at he
    cases he
  | some e =>
    have hc := h.settled rfl
    have hok := hc.ok blk e hb
    have hlen := hok.length
    have hin := hok.data_inside
    have hvl := hok.valid_length
    dsimp only
    split
    · rename_i hall
      refine ⟨h.of_coherent rfl rfl rfl (hc.erase fun i v hi hp hm => ?_), fun b e' he' => ?_⟩
      · rw [Mirror.forget_apply, if_pos (by omega)] at hm
        cases hm
      · by_cases hbb : b = blk
        · subst hbb
          cases (AList.lookup_erase b c.map).symm.trans he'
        · exact hother b e' hbb ((AList.lookup_erase_ne hbb).symm.trans he')
    · rename_i hpart
      split
      · rename_i hlt
        refine ⟨h.of_coherent rfl rfl rfl (hc.zero_entry hb (by omega) (by omega)),
          fun b e' he' => ?_⟩
        by_cases hbb : b = blk
        · subst hbb
          cases (AList.lookup_insert c.map).symm.trans he'
          refine .inr fun i h1 h2 h3 h4 => ?_
          have h1' : e.valid.1 ≤ i := h1
          have h2' : i < e.valid.2 := h2
          show (splice e.data _ _).getD i 0 = 0
          rw [getD_splice _ _ (by omega), List.length_replicate, if_pos (by omega)]
          rw [List.getD_eq_getElem?_getD, List.getElem?_replicate]
          split <;> rfl
        · exact hother b e' hbb ((AList.lookup_insert_ne hbb).symm.trans he')
      · refine ⟨h, fun b e' he' => ?_⟩
        by_cases hbb : b = blk
        · subst hbb
          rw [hb] at he'
          cases he'
          exact .inr fun i h1 h2 h3 h4 => by omega
        · exact hother b e' hbb he'

/-- `write_zeroes` that returns is the zeroing of the mirror; one that fails leaves its own
    bytes uncertain. -/
theorem writeZeroes_spec (hbs : 0 < bs) (h : Inv N bs F mir {} c) (hN : offset + len ≤ N)
    (hE : ∀ err t, (∃ n, F .zeroes n = true) → Inv N bs F (mir.forget offset len) {} t →
      E err t) :
    wp (writeZeroes offset len) c
      (fun _ t => Inv N bs F (mir.write offset (List.replicate len 0)) {} t) E := by
  unfold writeZeroes
  simp only [wp_bind, wp_get, h.size, checkBounds, hN, if_true]
  by_cases hl : len = 0
  · rw [if_pos hl, hl, List.replicate_zero, Mirror.write_nil]
    exact h
  rw [if_neg hl, wp_bind]
  have hforget := h.mono (Mirror.forget_le mir offset len)
  have hdiv : offset / bs ≤ (offset + len - 1) / bs := Nat.div_le_div_right (by omega)
  refine wp_mono (wp_forM
    (fun rest t => Inv N bs F (mir.forget offset len) {} t ∧
      (∀ b ∈ rest, offset < (b + 1) * bs ∧ b * bs < offset + len) ∧
      ∀ b e, t.map.lookup b = some e → b ∈ rest ∨ e.Zeroed bs offset len b) ?_ ?_)
    (fun _ t ht => ?_) fun _ _ he => he
  · rintro x xs s ⟨hs, hrest, hz⟩
    obtain ⟨h1, h2⟩ := hrest x List.mem_cons_self
    refine wp_mono (zeroBlock_spec hs h1 h2 hz) (fun _ t ht => ?_) fun _ _ he => he
    exact ⟨ht.1, fun b hb => hrest b (List.mem_cons_of_mem x hb), ht.2⟩
  · refine ⟨hforget, fun b hb => ?_, fun b e hb => ?_⟩
    · exact touched_meets hbs h.block (Nat.pos_of_ne_zero hl) hb
    · -- a block that is not touched holds no byte of the range
      by_cases hmem : b ∈ c.touched offset len
      · exact .inl hmem
      refine .inr fun i _ hi h1 h2 => absurd ?_ hmem
      have hok := (hforget.settled rfl).ok b e hb
      have hi' : i < bs := lt_of_lt_of_le hi (hok.valid_length.trans hok.length_le)
      have hq : (b * bs + i) / bs = b := by
        rw [Nat.add_comm, Nat.add_mul_div_right _ _ hbs, Nat.div_eq_of_lt hi', Nat.zero_add]
      have hlo : offset / bs ≤ (b * bs + i) / bs := Nat.div_le_div_right h1
      have hhi : (b * bs + i) / bs ≤ (offset + len - 1) / bs := Nat.div_le_div_right (by omega)
      rw [CachedDevice.touched, h.block, List.mem_range'_1]
      omega
  · obtain ⟨ht, _, hz⟩ := ht
    refine wp_innerWriteZeroes (by rw [ht.size]; exact hN)
      (fun hf => hE _ _ (by rwa [ht.fails] at hf) (ht.called _ _ _)) ?_
    refine ht.of_coherent rfl rfl rfl ((ht.settled rfl).zeroes fun b e hb => ?_)
    exact (hz b e hb).resolve_left List.not_mem_nil

end Zeroes

end MkfsExt4.Cache
