/-
  Sets of blocks held as runs, and bits set in ranges (`BlockRuns` and `set_bits` of
  `src/fsck.rs`).

  The `BTreeMap` of run start to run end is a list sorted by start. Proved: inserts keep the
  runs non-empty, sorted, disjoint and apart (`Ordered`), an insert adds exactly the range
  clipped to the device (`held_insert`) and returns the part of it that was held
  (`held_overlaps`), `within` is exactly the held part of a range (`held_within`), and
  `setBits` stops having set exactly a range (`testBit_setBits`, `setBits_exact`).
-/
import MkfsExt4.Lib.Bitmap
import MkfsExt4.Lib.Loop
import MkfsExt4.Lib.SortedMap
import Mathlib.Data.List.Pairwise

namespace MkfsExt4.Fsck

open Lib.Store Lib.Loop

/-- The blocks something owns, held as runs `(start, stop)`. -/
structure BlockRuns where
  runs : List (Nat × Nat) := []
  /-- Blocks at or past this are ignored, as the device has none there. -/
  len : Nat := 0
  /-- Blocks held, kept as runs merge. -/
  count : Nat := 0

namespace BlockRuns

/-- What an insert has merged so far: the run it will leave, the parts that were already
    held, and the runs left alone. -/
structure Merge where
  lo : Nat
  hi : Nat
  overlaps : List (Nat × Nat)
  rest : List (Nat × Nat)

/-- The last run that starts before `start`. -/
def lastBefore (runs : List (Nat × Nat)) (start : Nat) : Option (Nat × Nat) :=
  (runs.filter fun p => p.1 < start).getLast?

/-- Merge with the run that starts before `start`, if it reaches or touches it. -/
def mergeBefore (runs : List (Nat × Nat)) (start stop : Nat) : Merge :=
  match lastBefore runs start with
  | some (s, e) =>
    if start ≤ e then
      { lo := s, hi := max stop e, overlaps := if start < e then [(start, min e stop)] else [],
        rest := runs.filter fun p => p.1 ≠ s }
    else { lo := start, hi := stop, overlaps := [], rest := runs }
  | none => { lo := start, hi := stop, overlaps := [], rest := runs }

/-- Swallow the runs that start inside `start..=stop`. -/
def mergeInside (m : Merge) (start stop : Nat) : Merge :=
  let inside := m.rest.filter fun p => start ≤ p.1 ∧ p.1 ≤ stop
  { lo := m.lo
    hi := inside.foldl (fun hi p => max hi p.2) m.hi
    overlaps := m.overlaps ++
      (inside.filter fun p => p.1 < stop).map fun p => (p.1, min p.2 stop)
    rest := m.rest.filter fun p => ¬ (start ≤ p.1 ∧ p.1 ≤ stop) }

/-- Add `start..stop`, returning the parts that were already held. -/
def insert (r : BlockRuns) (start stop : Nat) : BlockRuns × List (Nat × Nat) :=
  let stop := min stop r.len
  if stop ≤ start then (r, [])
  else
    let m := mergeInside (mergeBefore r.runs start stop) start stop
    let held := (m.overlaps.map fun p => p.2 - p.1).sum
    ({ r with
        runs := Lib.SortedMap.insert m.lo m.hi m.rest
        count := r.count + ((stop - start) - held) },
      m.overlaps)

/-- The held parts of `start..stop`, in order. -/
def within (r : BlockRuns) (start stop : Nat) : List (Nat × Nat) :=
  let first := match lastBefore r.runs start with
    | some (s, e) => if start < e then s else start
    | none => start
  ((r.runs.filter fun p => first ≤ p.1 ∧ p.1 < max stop first).map
    fun p => (max p.1 start, min p.2 stop)).filter fun p => p.1 < p.2

/-! ## The runs as a set of blocks -/

/-- Whether a block is in one of the runs. -/
def Held (runs : List (Nat × Nat)) (b : Nat) : Prop := ∃ p ∈ runs, p.1 ≤ b ∧ b < p.2

/-- Non-empty runs, in order, no two touching. -/
structure Ordered (runs : List (Nat × Nat)) : Prop where
  apart : runs.Pairwise fun p q => p.2 < q.1
  nonempty : ∀ p ∈ runs, p.1 < p.2

theorem Ordered.filter {runs : List (Nat × Nat)} (h : Ordered runs) (f : Nat × Nat → Bool) :
    Ordered (runs.filter f) :=
  ⟨h.apart.filter f, fun p hp => h.nonempty p (List.mem_of_mem_filter hp)⟩

/-- A run of a list kept in order is the last one, or ends before the last one starts. -/
theorem Ordered.before_last {runs : List (Nat × Nat)} (h : Ordered runs) {p q : Nat × Nat}
    (hp : p ∈ runs) (hq : runs.getLast? = some q) : p = q ∨ p.2 < q.1 := by
  obtain ⟨front, hfront⟩ := List.getLast?_eq_some_iff.mp hq
  have hp' : p ∈ front ∨ p = q := by
    rw [hfront, List.mem_append, List.mem_singleton] at hp
    exact hp
  rcases hp' with hp' | hp'
  · right
    have hpair := h.apart
    rw [hfront, List.pairwise_append] at hpair
    exact hpair.2.2 p hp' q (List.mem_singleton_self q)
  · exact Or.inl hp'

/-- The last run before `start` is the only one before it that can reach it. -/
theorem Ordered.lastBefore_eq {runs : List (Nat × Nat)} (h : Ordered runs) {start : Nat}
    {p : Nat × Nat} (hp : p ∈ runs) (hs : p.1 < start) (he : start ≤ p.2) :
    lastBefore runs start = some p := by
  have hmem : p ∈ runs.filter fun q => q.1 < start := List.mem_filter.mpr ⟨hp, by simpa using hs⟩
  cases hlast : lastBefore runs start with
  | none =>
    rw [lastBefore, List.getLast?_eq_none_iff] at hlast
    rw [hlast] at hmem
    cases hmem
  | some q =>
    have hq := List.mem_of_getLast? hlast
    have hqs : q.1 < start := by simpa using (List.mem_filter.mp hq).2
    rcases (h.filter _).before_last hmem hlast with heq | hlt
    · rw [heq]
    · omega

theorem lastBefore_mem {runs : List (Nat × Nat)} {start : Nat} {p : Nat × Nat}
    (h : lastBefore runs start = some p) : p ∈ runs ∧ p.1 < start := by
  have hmem := List.mem_filter.mp (List.mem_of_getLast? h)
  exact ⟨hmem.1, by simpa using hmem.2⟩

/-- Of two runs kept in order, one ends before the other starts. -/
theorem Ordered.apart_of_ne {runs : List (Nat × Nat)} (h : Ordered runs) {p q : Nat × Nat}
    (hp : p ∈ runs) (hq : q ∈ runs) (hne : p ≠ q) : p.2 < q.1 ∨ q.2 < p.1 := by
  have hsymm : Std.Symm fun p q : Nat × Nat => p.2 < q.1 ∨ q.2 < p.1 := ⟨fun _ _ => Or.symm⟩
  have hpair : runs.Pairwise fun p q => p.2 < q.1 ∨ q.2 < p.1 := h.apart.imp Or.inl
  exact hpair.forall hp hq hne

/-! ## What an insert merges -/

/-- A run that `start..=stop` does not touch. -/
def Clear (start stop : Nat) (p : Nat × Nat) : Prop := p.2 < start ∨ stop < p.1

/-- The run an insert leaves: `start..stop` and every run it touches, and no more. -/
structure Merges (runs : List (Nat × Nat)) (start stop : Nat) (m : Merge) : Prop where
  mem_rest : ∀ p, p ∈ m.rest ↔ p ∈ runs ∧ Clear start stop p
  lo_le : m.lo ≤ start
  le_hi : stop ≤ m.hi
  covers : ∀ p ∈ runs, ¬ Clear start stop p → m.lo ≤ p.1 ∧ p.2 ≤ m.hi
  lo_eq : m.lo = start ∨ ∃ p ∈ runs, ¬ Clear start stop p ∧ p.1 = m.lo ∧ p.1 < start
  hi_eq : m.hi = stop ∨ ∃ p ∈ runs, ¬ Clear start stop p ∧ p.2 = m.hi
  sorted : m.rest.Pairwise fun p q => p.2 < q.1

/-- The largest end of some runs and `hi`. -/
theorem foldl_max_spec (l : List (Nat × Nat)) (hi : Nat) :
    hi ≤ l.foldl (fun hi p => max hi p.2) hi ∧
      (∀ p ∈ l, p.2 ≤ l.foldl (fun hi p => max hi p.2) hi) ∧
      (l.foldl (fun hi p => max hi p.2) hi = hi ∨
        ∃ p ∈ l, p.2 = l.foldl (fun hi p => max hi p.2) hi) := by
  induction l generalizing hi with
  | nil => simp
  | cons q l ih =>
    obtain ⟨hle, hall, heq⟩ := ih (max hi q.2)
    simp only [List.foldl_cons]
    refine ⟨by omega, ?_, ?_⟩
    · intro p hp
      rcases List.mem_cons.mp hp with rfl | hp
      · omega
      · exact hall p hp
    · rcases heq with heq | ⟨p, hp, heq⟩
      · rw [heq]
        rcases Nat.le_total hi q.2 with h | h
        · exact Or.inr ⟨q, List.mem_cons_self, by omega⟩
        · exact Or.inl (by omega)
      · exact Or.inr ⟨p, List.mem_cons_of_mem _ hp, heq⟩

theorem Ordered.mergeBefore_reach {runs : List (Nat × Nat)} (h : Ordered runs) {start : Nat}
    (stop : Nat) {q : Nat × Nat} (hq : q ∈ runs) (hs : q.1 < start) (he : start ≤ q.2) :
    mergeBefore runs start stop =
      { lo := q.1, hi := max stop q.2,
        overlaps := if start < q.2 then [(start, min q.2 stop)] else [],
        rest := runs.filter fun p => p.1 ≠ q.1 } := by
  simp only [mergeBefore, h.lastBefore_eq hq hs he, if_pos he]

theorem mergeBefore_none {runs : List (Nat × Nat)} {start : Nat} (stop : Nat)
    (h : ∀ p ∈ runs, ¬ (p.1 < start ∧ start ≤ p.2)) :
    mergeBefore runs start stop = { lo := start, hi := stop, overlaps := [], rest := runs } := by
  unfold mergeBefore
  split
  · next s e hlast =>
    obtain ⟨hmem, hs⟩ := lastBefore_mem hlast
    rw [if_neg fun he => h _ hmem ⟨hs, he⟩]
  · rfl

theorem Ordered.merges_reach {runs : List (Nat × Nat)} (h : Ordered runs) {start stop : Nat}
    (hss : start < stop) {q : Nat × Nat} (hq : q ∈ runs) (hs : q.1 < start) (he : start ≤ q.2) :
    Merges runs start stop (mergeInside (mergeBefore runs start stop) start stop) := by
  rw [h.mergeBefore_reach stop hq hs he]
  -- Any other run is apart from `q`: it ends before `start`, or starts after `start`.
  have hother : ∀ p ∈ runs, p ≠ q → p.2 < start ∨ start < p.1 := by
    intro p hp hne
    rcases h.apart_of_ne hp hq hne with h1 | h1 <;> omega
  have hfst : ∀ p ∈ runs, p.1 = q.1 → p = q := by
    intro p hp heq
    by_contra hne
    have hp' := h.nonempty p hp
    have hq' := h.nonempty q hq
    rcases h.apart_of_ne hp hq hne with h1 | h1 <;> omega
  have hqtouch : ¬ Clear start stop q := by
    rintro (h1 | h1) <;> omega
  have hin : ∀ p, p ∈ (runs.filter fun p => p.1 ≠ q.1).filter
      (fun p => start ≤ p.1 ∧ p.1 ≤ stop) ↔ p ∈ runs ∧ p ≠ q ∧ ¬ Clear start stop p := by
    intro p
    simp only [List.mem_filter, decide_eq_true_eq, ne_eq, Clear, Bool.decide_and,
      Bool.and_eq_true]
    constructor
    · rintro ⟨⟨hp, hne⟩, h1, h2⟩
      have := h.nonempty p hp
      exact ⟨hp, fun heq => hne (by rw [heq]), by omega⟩
    · rintro ⟨hp, hne, hc⟩
      rcases hother p hp hne with h1 | h1
      · omega
      · exact ⟨⟨hp, fun heq => hne (hfst p hp heq)⟩, by omega, by omega⟩
  obtain ⟨hhi, hall, heq⟩ := foldl_max_spec
    ((runs.filter fun p => p.1 ≠ q.1).filter fun p => start ≤ p.1 ∧ p.1 ≤ stop) (max stop q.2)
  refine ⟨?_, ?_, ?_, ?_, ?_, ?_, ?_⟩
  · intro p
    simp only [mergeInside, List.mem_filter, decide_eq_true_eq, ne_eq, Clear]
    constructor
    · rintro ⟨⟨hp, hne⟩, hout⟩
      refine ⟨hp, ?_⟩
      rcases hother p hp fun heq => hne (by rw [heq]) with h1 | h1
      · exact Or.inl h1
      · exact Or.inr (by omega)
    · rintro ⟨hp, hc⟩
      have hp' := h.nonempty p hp
      refine ⟨⟨hp, fun heq => ?_⟩, by omega⟩
      rw [hfst p hp heq] at hc
      exact hqtouch hc
  · exact Nat.le_of_lt hs
  · exact le_trans (le_max_left _ _) hhi
  · intro p hp hc
    by_cases hpq : p = q
    · rw [hpq]
      exact ⟨le_refl _, le_trans (le_max_right _ _) hhi⟩
    · refine ⟨?_, hall p ((hin p).mpr ⟨hp, hpq, hc⟩)⟩
      simp only [mergeInside, Clear] at hc ⊢
      rcases hother p hp hpq with h1 | h1 <;> omega
  · exact Or.inr ⟨q, hq, hqtouch, rfl, hs⟩
  · rcases heq with heq | ⟨p, hp, heq⟩
    · rcases Nat.le_total stop q.2 with h1 | h1
      · exact Or.inr ⟨q, hq, hqtouch, (heq.trans (Nat.max_eq_right h1)).symm⟩
      · exact Or.inl (heq.trans (Nat.max_eq_left h1))
    · obtain ⟨hp1, -, hp2⟩ := (hin p).mp hp
      exact Or.inr ⟨p, hp1, hp2, heq⟩
  · exact (h.apart.filter _).filter _

theorem Ordered.merges_none {runs : List (Nat × Nat)} (h : Ordered runs) {start stop : Nat}
    (hno : ∀ p ∈ runs, ¬ (p.1 < start ∧ start ≤ p.2)) :
    Merges runs start stop (mergeInside (mergeBefore runs start stop) start stop) := by
  rw [mergeBefore_none stop hno]
  have hin : ∀ p, p ∈ runs.filter (fun p => start ≤ p.1 ∧ p.1 ≤ stop) ↔
      p ∈ runs ∧ ¬ Clear start stop p := by
    intro p
    simp only [List.mem_filter, decide_eq_true_eq, Clear]
    refine and_congr_right fun hp => ?_
    have hp' := h.nonempty p hp
    have hn := hno p hp
    omega
  obtain ⟨hhi, hall, heq⟩ := foldl_max_spec
    (runs.filter fun p => start ≤ p.1 ∧ p.1 ≤ stop) stop
  refine ⟨?_, le_refl _, hhi, ?_, Or.inl rfl, ?_, h.apart.filter _⟩
  · intro p
    simp only [mergeInside, List.mem_filter, decide_eq_true_eq, Clear]
    refine and_congr_right fun hp => ?_
    have hp' := h.nonempty p hp
    have hn := hno p hp
    omega
  · intro p hp hc
    refine ⟨?_, hall p ((hin p).mpr ⟨hp, hc⟩)⟩
    have hn := hno p hp
    simp only [mergeInside, Clear] at hc ⊢
    omega
  · rcases heq with heq | ⟨p, hp, heq⟩
    · exact Or.inl heq
    · obtain ⟨hp1, hp2⟩ := (hin p).mp hp
      exact Or.inr ⟨p, hp1, hp2, heq⟩

theorem Ordered.merges {runs : List (Nat × Nat)} (h : Ordered runs) {start stop : Nat}
    (hss : start < stop) :
    Merges runs start stop (mergeInside (mergeBefore runs start stop) start stop) := by
  by_cases hreach : ∃ q ∈ runs, q.1 < start ∧ start ≤ q.2
  · obtain ⟨q, hq, hs, he⟩ := hreach
    exact h.merges_reach hss hq hs he
  · refine h.merges_none fun p hp hpq => hreach ⟨p, hp, hpq⟩

/-! ## Inserting -/

theorem mem_insert_of_apart {lo hi : Nat} {m : List (Nat × Nat)} (h : ∀ p ∈ m, p.1 ≠ lo)
    (p : Nat × Nat) : p ∈ Lib.SortedMap.insert lo hi m ↔ p = (lo, hi) ∨ p ∈ m := by
  induction m with
  | nil => simp [Lib.SortedMap.insert]
  | cons q m ih =>
    have hq : lo ≠ q.1 := fun heq => h q List.mem_cons_self heq.symm
    simp only [Lib.SortedMap.insert, if_neg hq]
    split_ifs
    · simp
    · simp only [List.mem_cons, ih fun p hp => h p (List.mem_cons_of_mem _ hp)]
      tauto

theorem pairwise_insert {lo hi : Nat} {m : List (Nat × Nat)}
    (hm : m.Pairwise fun p q => p.2 < q.1) (hne : ∀ p ∈ m, p.1 < p.2) (hlh : lo < hi)
    (h : ∀ p ∈ m, p.2 < lo ∨ hi < p.1) :
    (Lib.SortedMap.insert lo hi m).Pairwise fun p q => p.2 < q.1 := by
  induction m with
  | nil => simp [Lib.SortedMap.insert]
  | cons q m ih =>
    obtain ⟨hq, hm⟩ := List.pairwise_cons.mp hm
    have hq1 := hne q List.mem_cons_self
    have hq2 := h q List.mem_cons_self
    have hrest := ih hm (fun p hp => hne p (List.mem_cons_of_mem _ hp))
      fun p hp => h p (List.mem_cons_of_mem _ hp)
    simp only [Lib.SortedMap.insert]
    split_ifs with h1 h2
    · refine List.pairwise_cons.mpr ⟨?_, List.pairwise_cons.mpr ⟨hq, hm⟩⟩
      intro p hp
      rcases List.mem_cons.mp hp with rfl | hp
      · simp only
        omega
      · have := hq p hp
        simp only
        omega
    · omega
    · refine List.pairwise_cons.mpr ⟨?_, hrest⟩
      intro p hp
      rw [mem_insert_of_apart] at hp
      · rcases hp with rfl | hp
        · simp only
          omega
        · exact hq p hp
      · intro p hp
        have := hne p (List.mem_cons_of_mem _ hp)
        rcases h p (List.mem_cons_of_mem _ hp) with h3 | h3 <;> omega

variable {r : BlockRuns}

@[simp] theorem insert_len (r : BlockRuns) (start stop : Nat) :
    (r.insert start stop).1.len = r.len := by
  unfold insert
  dsimp only
  split_ifs <;> rfl

/-- The run an insert leaves is clear of the runs it left alone. -/
theorem Merges.clear {runs : List (Nat × Nat)} {start stop : Nat} {m : Merge}
    (hm : Merges runs start stop m) (h : Ordered runs) {p : Nat × Nat} (hp : p ∈ m.rest) :
    p.2 < m.lo ∨ m.hi < p.1 := by
  obtain ⟨hp, hc⟩ := (hm.mem_rest p).mp hp
  have hp' := h.nonempty p hp
  rcases hc with hc | hc
  · left
    rcases hm.lo_eq with heq | ⟨q, hq, hqc, heq, -⟩
    · omega
    · have hne : p ≠ q := fun hpq => hqc (hpq ▸ Or.inl hc)
      have := h.nonempty q hq
      rcases h.apart_of_ne hp hq hne with h1 | h1
      · omega
      · simp only [Clear] at hqc
        omega
  · right
    rcases hm.hi_eq with heq | ⟨q, hq, hqc, heq⟩
    · omega
    · have hne : p ≠ q := fun hpq => hqc (hpq ▸ Or.inr hc)
      rcases h.apart_of_ne hp hq hne with h1 | h1
      · simp only [Clear] at hqc
        omega
      · omega

theorem ordered_insert (h : Ordered r.runs) (start stop : Nat) :
    Ordered (r.insert start stop).1.runs := by
  unfold insert
  dsimp only
  split_ifs with hss
  · exact h
  · have hm := h.merges (by omega : start < min stop r.len)
    have hlo := hm.lo_le
    have hhi := hm.le_hi
    have hrest : ∀ p ∈ (mergeInside (mergeBefore r.runs start (min stop r.len)) start
        (min stop r.len)).rest, p.1 < p.2 := fun p hp => h.nonempty p ((hm.mem_rest p).mp hp).1
    refine ⟨pairwise_insert hm.sorted hrest (by omega) fun p hp => hm.clear h hp, ?_⟩
    intro p hp
    rw [mem_insert_of_apart] at hp
    · rcases hp with rfl | hp
      · simp only
        omega
      · exact hrest p hp
    · intro p hp
      have := hrest p hp
      rcases hm.clear h hp with h1 | h1 <;> omega

/-- An insert adds exactly the range, clipped to the device. -/
theorem held_insert (h : Ordered r.runs) (start stop b : Nat) :
    Held (r.insert start stop).1.runs b ↔
      Held r.runs b ∨ start ≤ b ∧ b < stop ∧ b < r.len := by
  unfold insert
  dsimp only
  split_ifs with hss
  · constructor
    · exact Or.inl
    · rintro (hb | hb)
      · exact hb
      · omega
  · have hm := h.merges (by omega : start < min stop r.len)
    have hfst : ∀ p ∈ (mergeInside (mergeBefore r.runs start (min stop r.len)) start
        (min stop r.len)).rest, p.1 ≠ (mergeInside (mergeBefore r.runs start (min stop r.len))
          start (min stop r.len)).lo := by
      intro p hp
      have := h.nonempty p ((hm.mem_rest p).mp hp).1
      have := hm.lo_le
      have := hm.le_hi
      rcases hm.clear h hp with h1 | h1 <;> omega
    simp only [Held, mem_insert_of_apart hfst]
    constructor
    · rintro ⟨p, rfl | hp, h1, h2⟩
      · by_cases hb1 : b < start
        · rcases hm.lo_eq with heq | ⟨q, hq, hqc, heq, hqs⟩
          · simp only at h1
            omega
          · simp only [Clear] at hqc h1
            exact Or.inl ⟨q, hq, by omega, by omega⟩
        · by_cases hb2 : b < min stop r.len
          · exact Or.inr (by omega)
          · rcases hm.hi_eq with heq | ⟨q, hq, hqc, heq⟩
            · simp only at h2
              omega
            · simp only [Clear] at hqc h2
              exact Or.inl ⟨q, hq, by omega, by omega⟩
      · exact Or.inl ⟨p, ((hm.mem_rest p).mp hp).1, h1, h2⟩
    · rintro (⟨p, hp, h1, h2⟩ | hb)
      · by_cases hc : Clear start (min stop r.len) p
        · exact ⟨p, Or.inr ((hm.mem_rest p).mpr ⟨hp, hc⟩), h1, h2⟩
        · have := hm.covers p hp hc
          exact ⟨_, Or.inl rfl, by simp only; omega, by simp only; omega⟩
      · have := hm.lo_le
        have := hm.le_hi
        exact ⟨_, Or.inl rfl, by simp only; omega, by simp only; omega⟩

/-- The overlaps of a merge: those it had, and those of the runs it swallows. -/
theorem held_mergeInside (m : Merge) (start stop b : Nat) :
    Held (mergeInside m start stop).overlaps b ↔ Held m.overlaps b ∨
      ∃ p ∈ m.rest, (start ≤ p.1 ∧ p.1 < stop) ∧ p.1 ≤ b ∧ b < min p.2 stop := by
  simp only [mergeInside, Held, List.mem_append, or_and_right, exists_or, List.mem_map,
    List.mem_filter, decide_eq_true_eq]
  refine or_congr_right ⟨?_, ?_⟩
  · rintro ⟨_, ⟨p, ⟨⟨hp, hin⟩, hlt⟩, rfl⟩, hb⟩
    exact ⟨p, hp, ⟨hin.1, hlt⟩, hb⟩
  · rintro ⟨p, hp, hin, hb⟩
    exact ⟨_, ⟨p, ⟨⟨hp, hin.1, Nat.le_of_lt hin.2⟩, hin.2⟩, rfl⟩, hb⟩

/-- What an insert returns is exactly the part of the range that was held. -/
theorem held_overlaps (h : Ordered r.runs) (start stop b : Nat) :
    Held (r.insert start stop).2 b ↔
      Held r.runs b ∧ start ≤ b ∧ b < stop ∧ b < r.len := by
  unfold insert
  dsimp only
  split_ifs with hss
  · simp only [Held, List.not_mem_nil, false_and, exists_false, false_iff]
    omega
  · have hclip : (start ≤ b ∧ b < stop ∧ b < r.len) ↔ start ≤ b ∧ b < min stop r.len := by omega
    rw [hclip, held_mergeInside]
    generalize min stop r.len = stop at hss ⊢
    by_cases hreach : ∃ q ∈ r.runs, q.1 < start ∧ start ≤ q.2
    · obtain ⟨q, hq, hs, he⟩ := hreach
      rw [h.mergeBefore_reach stop hq hs he]
      have hfirst : Held (if start < q.2 then [(start, min q.2 stop)] else []) b ↔
          start ≤ b ∧ b < min q.2 stop := by
        split
        · simp [Held]
        · simp only [Held, List.not_mem_nil, false_and, exists_false, false_iff]
          omega
      rw [hfirst]
      simp only [List.mem_filter, decide_eq_true_eq, ne_eq]
      constructor
      · rintro (hb | ⟨p, ⟨hp, -⟩, hin, hb⟩)
        · exact ⟨⟨q, hq, by omega⟩, by omega⟩
        · exact ⟨⟨p, hp, by omega⟩, by omega⟩
      · rintro ⟨⟨p, hp, hb⟩, hin⟩
        by_cases hpq : p = q
        · exact Or.inl (by rw [← hpq]; omega)
        · rcases h.apart_of_ne hp hq hpq with h1 | h1
          · omega
          · exact Or.inr ⟨p, ⟨hp, by omega⟩, by omega⟩
    · have hno : ∀ p ∈ r.runs, ¬ (p.1 < start ∧ start ≤ p.2) := fun p hp hpq =>
        hreach ⟨p, hp, hpq⟩
      rw [mergeBefore_none stop hno]
      constructor
      · rintro (⟨p, hp, -⟩ | ⟨p, hp, hin, hb⟩)
        · cases hp
        · exact ⟨⟨p, hp, by omega⟩, by omega⟩
      · rintro ⟨⟨p, hp, hb⟩, hin⟩
        have := hno p hp
        exact Or.inr ⟨p, hp, by omega⟩

/-- `within` is exactly the held part of a range. -/
theorem held_within (h : Ordered r.runs) (start stop b : Nat) :
    Held (r.within start stop) b ↔ Held r.runs b ∧ start ≤ b ∧ b < stop := by
  unfold within
  dsimp only
  constructor
  · rintro ⟨p, hp, h1, h2⟩
    obtain ⟨hp, -⟩ := List.mem_filter.mp hp
    obtain ⟨q, hq, rfl⟩ := List.mem_map.mp hp
    simp only at h1 h2
    exact ⟨⟨q, List.mem_of_mem_filter hq, by omega, by omega⟩, by omega, by omega⟩
  · rintro ⟨⟨p, hp, h1, h2⟩, hb1, hb2⟩
    refine ⟨(max p.1 start, min p.2 stop), List.mem_filter.mpr ⟨List.mem_map.mpr
      ⟨p, List.mem_filter.mpr ⟨hp, ?_⟩, rfl⟩, ?_⟩, by simp only; omega, by simp only; omega⟩
    · simp only [decide_eq_true_eq]
      by_cases hps : p.1 < start
      · rw [h.lastBefore_eq hp hps (by omega)]
        simp only [if_pos (by omega : start < p.2)]
        omega
      · split
        · next q e hlast =>
          have := (lastBefore_mem hlast).2
          split_ifs <;> simp only at this <;> omega
        · omega
    · simp only [decide_eq_true_eq]
      omega

end BlockRuns

/-! ## Bits in ranges -/

/-- The loop of `set_bits`: whole bytes where it can. A turn sets at least one bit. -/
def setBitsFrom (stop : Nat) : (fuel : Nat) → (bitmap : List UInt8) → (bit : Nat) → List UInt8
  | 0, bitmap, _ => bitmap
  | fuel + 1, bitmap, bit =>
    if stop ≤ bit then bitmap
    else if bit % 8 = 0 ∧ 8 ≤ stop - bit then
      let bytes := (stop - bit) / 8
      setBitsFrom stop fuel (splice bitmap (bit / 8) (List.replicate bytes 255)) (bit + bytes * 8)
    else setBitsFrom stop fuel (Lib.Bitmap.setBit bitmap bit) (bit + 1)

/-- Set bits `start..stop` of a bitmap block. -/
def setBits (bitmap : List UInt8) (start stop : Nat) : List UInt8 :=
  let stop := min stop (bitmap.length * 8)
  setBitsFrom stop (stop - start) bitmap start

theorem setBitsFrom_spec {stop fuel : Nat} {bitmap : List UInt8} {bit : Nat}
    (hf : stop - bit ≤ fuel) (hlen : stop ≤ 8 * bitmap.length) :
    (setBitsFrom stop fuel bitmap bit).length = bitmap.length ∧
      ∀ k, Lib.Bitmap.testBit (setBitsFrom stop fuel bitmap bit) k =
        (decide (bit ≤ k ∧ k < stop) || Lib.Bitmap.testBit bitmap k) := by
  induction fuel generalizing bitmap bit with
  | zero =>
    refine ⟨rfl, fun k => ?_⟩
    rw [decide_eq_false (by omega), Bool.false_or, setBitsFrom]
  | succ fuel ih =>
    simp only [setBitsFrom]
    split_ifs with h1 h2
    · refine ⟨rfl, fun k => ?_⟩
      rw [decide_eq_false (by omega), Bool.false_or]
    · have hrec := @ih (splice bitmap (bit / 8) (List.replicate ((stop - bit) / 8) 255))
        (bit + (stop - bit) / 8 * 8) (by omega) (by rw [length_splice]; exact hlen)
      refine ⟨by rw [hrec.1, length_splice], fun k => ?_⟩
      rw [hrec.2, Lib.Bitmap.testBit_splice_ones (by omega), ← Bool.or_assoc, ← Bool.decide_or]
      congr 1
      simp only [decide_eq_decide]
      omega
    · have hrec := @ih (Lib.Bitmap.setBit bitmap bit) (bit + 1) (by omega) (by simpa using hlen)
      refine ⟨by rw [hrec.1, Lib.Bitmap.length_setBit], fun k => ?_⟩
      rw [hrec.2, Lib.Bitmap.testBit_setBit (by omega), ← Bool.or_assoc, ← Bool.decide_or]
      congr 1
      simp only [decide_eq_decide]
      omega

@[simp] theorem length_setBits (bitmap : List UInt8) (start stop : Nat) :
    (setBits bitmap start stop).length = bitmap.length :=
  (setBitsFrom_spec (le_refl _) (by omega)).1

theorem testBit_setBits (bitmap : List UInt8) (start stop k : Nat) :
    Lib.Bitmap.testBit (setBits bitmap start stop) k =
      (decide (start ≤ k ∧ k < stop ∧ k < 8 * bitmap.length) || Lib.Bitmap.testBit bitmap k) := by
  have h := (@setBitsFrom_spec _ _ bitmap start
    (le_refl (min stop (bitmap.length * 8) - start)) (by omega)).2 k
  rw [setBits, h]
  congr 1
  simp only [decide_eq_decide]
  omega

example : setBits [0, 0, 0, 0, 0, 0, 0, 0] 5 29 = [224, 255, 255, 31, 0, 0, 0, 0] := by decide

/-- One turn of the loop: the bitmap and the next bit, or what the loop stops with: the bitmap,
    or nothing where an index is out of range and the code panics. -/
def setBitsTurn (stop : Nat) : List UInt8 × Nat → (List UInt8 × Nat) ⊕ Option (List UInt8)
  | (bitmap, bit) =>
    if stop ≤ bit then .inr (some bitmap)
    else if bit % 8 = 0 ∧ 8 ≤ stop - bit then
      let bytes := (stop - bit) / 8
      if bitmap.length < bit / 8 + bytes then .inr none
      else .inl (splice bitmap (bit / 8) (List.replicate bytes 255), bit + bytes * 8)
    else if bitmap.length ≤ bit / 8 then .inr none
    else .inl (Lib.Bitmap.setBit bitmap bit, bit + 1)

/-- The loop stops, and never at an index out of range: every turn comes closer to `stop`, which
    lies in the bitmap. -/
theorem setBitsFrom_ends {stop fuel : Nat} {bitmap : List UInt8} {bit : Nat}
    (hf : stop - bit ≤ fuel) (hlen : stop ≤ 8 * bitmap.length) :
    Ends (setBitsTurn stop) (bitmap, bit) (some (setBitsFrom stop fuel bitmap bit)) := by
  induction fuel generalizing bitmap bit with
  | zero =>
    apply Ends.stop
    rw [setBitsTurn, if_pos (by omega), setBitsFrom]
  | succ fuel ih =>
    simp only [setBitsFrom]
    split_ifs with h1 h2
    · apply Ends.stop
      rw [setBitsTurn, if_pos h1]
    · apply Ends.turn
      · rw [setBitsTurn, if_neg h1, if_pos h2]
        dsimp only
        rw [if_neg (by omega)]
      · exact ih (by omega) (by rw [length_splice]; exact hlen)
    · apply Ends.turn
      · rw [setBitsTurn, if_neg h1, if_neg h2, if_neg (by omega)]
      · exact ih (by omega) (by rw [Lib.Bitmap.length_setBit]; exact hlen)

/-- `set_bits` stops with the bits of the range set and every other as it was. -/
theorem setBits_exact (bitmap : List UInt8) (start stop : Nat) :
    Ends (setBitsTurn (min stop (bitmap.length * 8))) (bitmap, start)
        (some (setBits bitmap start stop)) ∧
      (setBits bitmap start stop).length = bitmap.length ∧
      ∀ k, Lib.Bitmap.testBit (setBits bitmap start stop) k =
        if start ≤ k ∧ k < min stop (8 * bitmap.length) then true
        else Lib.Bitmap.testBit bitmap k := by
  refine ⟨setBitsFrom_ends (le_refl _) (by omega), length_setBits bitmap start stop, fun k => ?_⟩
  rw [testBit_setBits]
  split_ifs with hin
  · rw [decide_eq_true (by omega), Bool.true_or]
  · rw [decide_eq_false (by omega), Bool.false_or]

end MkfsExt4.Fsck
