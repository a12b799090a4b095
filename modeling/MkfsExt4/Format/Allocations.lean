/-
  Requests to the allocator, one after another (`Allocator` in `src/format.rs`).

  `serve` answers a list of calls and goes on after one that fails. A failed `alloc` leaves the
  allocator alone; a failed `alloc_runs` keeps on record what it gathered, which by then is
  every block there was. Proved: what is handed out is handed out once, and a call fails only
  for want of free blocks (`serve_correct`).
-/
import MkfsExt4.Format.Allocator
import Mathlib.Data.Finset.Card
import Mathlib.Order.Interval.Finset.Nat

namespace MkfsExt4.Format

open Lib.Hoare Allocator

variable {a a' : Allocator}

/-! ## Nothing that fits is passed over -/

theorem firstTaken_some {len block b : Nat} (h : a.firstTaken len block = some b) :
    block ≤ b ∧ b < block + len ∧ a.taken b = true := by
  induction len generalizing block with
  | zero => cases h
  | succ len ih =>
    rw [firstTaken] at h
    split at h
    · next htaken =>
      cases h
      exact ⟨Nat.le_refl _, by omega, htaken⟩
    · obtain ⟨hlow, hhigh, htaken⟩ := ih h
      exact ⟨by omega, by omega, htaken⟩

theorem scan_bounds {len fuel block b : Nat} (h : a.scan len fuel block = some b) :
    block ≤ b ∧ b + len ≤ a.blocksCount := by
  induction fuel generalizing block with
  | zero => cases h
  | succ fuel ih =>
    rw [scan] at h
    split at h
    · next hin =>
      split at h
      · cases h
        exact ⟨Nat.le_refl _, hin⟩
      · next blocked hblocked =>
        obtain ⟨hlow, hhigh⟩ := ih h
        have := (firstTaken_some hblocked).1
        exact ⟨by omega, hhigh⟩
    · cases h

/-- A scan that fails has met a taken block in every run of `len` it could have found. -/
theorem scan_none {len fuel block t : Nat} (h : a.scan len fuel block = none)
    (hfuel : a.blocksCount < fuel + block) (ht : block ≤ t) (hend : t + len ≤ a.blocksCount) :
    ∃ b, t ≤ b ∧ b < t + len ∧ a.taken b = true := by
  induction fuel generalizing block with
  | zero => omega
  | succ fuel ih =>
    rw [scan, if_pos (by omega)] at h
    split at h
    · cases h
    · next blocked hblocked =>
      obtain ⟨hlow, hhigh, htaken⟩ := firstTaken_some hblocked
      rcases Nat.lt_or_ge blocked t with hlt | hge
      · exact ih h (by omega) hlt
      · exact ⟨blocked, hge, by omega, htaken⟩

/-- A pass stays at or past the block it starts from. -/
theorem gather_ge {fuel need block : Nat} :
    ∀ r ∈ (gather fuel a need block).1, block ≤ r.start := by
  induction fuel generalizing a need block with
  | zero => exact fun r hr => absurd hr List.not_mem_nil
  | succ fuel ih =>
    rw [gather]
    split
    · exact fun r hr => absurd hr List.not_mem_nil
    · split
      · exact fun r hr => Nat.le_of_succ_le (ih r hr)
      · intro r hr
        rcases List.mem_cons.mp hr with rfl | hr
        · exact Nat.le_refl _
        · exact Nat.le_trans (Nat.le_add_right _ _) (ih r hr)

/-- A pass that comes back with too little has taken every block there was. -/
theorem gather_exhausts {fuel need block : Nat} (hfuel : a.blocksCount < fuel + block)
    (hshort : total (gather fuel a need block).1 < need) {b : Nat} (hlow : block ≤ b)
    (hhigh : b < a.blocksCount) : (gather fuel a need block).2.taken b = true := by
  induction fuel generalizing a need block with
  | zero => omega
  | succ fuel ih =>
    rw [gather] at hshort ⊢
    split at hshort
    · next hstop => omega
    · next hgo =>
      rw [if_neg hgo]
      split at hshort
      · next htaken =>
        rw [if_pos htaken]
        rcases Nat.eq_or_lt_of_le hlow with rfl | hlt
        · exact ((gather_extends fuel a need (block + 1)).1.taken_iff block).mpr (Or.inl htaken)
        · exact ih (by omega) hshort hlt hhigh
      · next hfree =>
        rw [if_neg hfree]
        dsimp only at hshort ⊢
        have hle := a.extent_le need block
        have hext := (gather_extends fuel (a.push ⟨block, a.extent need block⟩)
          (need - a.extent need block) (block + a.extent need block)).1
        simp only [total, List.map_cons, List.sum_cons] at hshort
        rcases Nat.lt_or_ge b (block + a.extent need block) with hlt | hge
        · have hin : b ∈ blocksOf [Run.mk block (a.extent need block)] := by
            rw [blocksOf_cons, blocksOf_nil, List.append_nil, Run.mem_blocks]
            exact ⟨hlow, hlt⟩
          have hpush : Extends a (a.push ⟨block, a.extent need block⟩)
              [⟨block, a.extent need block⟩] :=
            extends_push fun b hb hb' => extent_free hb hb'
          exact (hext.taken_iff b).mpr (Or.inl ((hpush.taken_iff b).mpr (Or.inr hin)))
        · refine ih ?_ ?_ hge hhigh
          · show a.blocksCount < _
            have hpos : 0 < a.extent need block := extent_pos (by omega) (by omega)
              (Bool.eq_false_iff.mpr hfree)
            omega
          · show ((gather fuel _ _ _).1.map Run.len).sum < _
            omega

/-! ## When a request fails -/

/-- `m` comes back with an error. -/
def Refused {α : Type} (m : AllocM α) (a : Allocator) : Prop := ∃ e, (exec m a).1 = .error e

theorem not_refused {α : Type} {m : AllocM α} {x : α} (h : exec m a = (.ok x, a')) :
    ¬Refused m a := by
  rintro ⟨e, he⟩
  rw [h] at he
  cases he

theorem length_blocksOf (runs : List Run) : (blocksOf runs).length = total runs := by
  rw [blocksOf, total, List.length_flatMap]
  exact congrArg List.sum (List.map_congr_left fun r _ => List.length_range')

/-- `alloc` takes the run from `start` on, or finds none of that length in either scan. -/
theorem alloc_cases (goal len : Nat) (a : Allocator) :
    (∃ start, exec (alloc goal len) a = (.ok start, a.push ⟨start, len⟩) ∧
      min goal a.firstDataBlock ≤ start ∧ start + len ≤ a.blocksCount) ∨
    (exec (alloc goal len) a =
        (.error (.error (.deviceTooSmall a.blocksCount len a.blockSize)), a) ∧
      a.scan len (a.blocksCount + 1) a.firstDataBlock = none) := by
  rw [alloc, exec_bind_of_ok (show exec get a = (.ok a, a) from rfl)]
  split
  · next start hscan =>
    obtain ⟨hlow, hhigh⟩ := scan_bounds hscan
    exact Or.inl ⟨start, rfl, Nat.le_trans (Nat.min_le_left _ _) hlow, hhigh⟩
  · split
    · next start hscan =>
      obtain ⟨hlow, hhigh⟩ := scan_bounds hscan
      exact Or.inl ⟨start, rfl, Nat.le_trans (Nat.min_le_right _ _) hlow, hhigh⟩
    · next hnone => exact Or.inr ⟨rfl, hnone⟩

/-- `alloc` fails exactly when every run of `len` blocks has a taken one. -/
theorem alloc_refused_iff {goal len : Nat} (hgoal : a.firstDataBlock ≤ goal) :
    Refused (alloc goal len) a ↔
      ¬∃ s, a.firstDataBlock ≤ s ∧ s + len ≤ a.blocksCount ∧
        ∀ b, s ≤ b → b < s + len → a.taken b = false := by
  rcases alloc_cases goal len a with ⟨start, hok, hstart, hend⟩ | ⟨herr, hnone⟩
  · have hext := alloc_ok hok
    refine iff_of_false (not_refused hok) (not_not_intro ⟨start, ?_, hend, ?_⟩)
    · rwa [Nat.min_eq_right hgoal] at hstart
    · intro b hb hb'
      exact hext.free b (by simpa [Run.mem_blocks] using ⟨hb, hb'⟩)
  · refine iff_of_true ⟨_, by rw [herr]⟩ ?_
    rintro ⟨s, hs, hend, hfree⟩
    obtain ⟨b, hb, hb', htaken⟩ := scan_none hnone (by omega) hs hend
    rw [hfree b hb hb'] at htaken
    cases htaken

/-- Where a run of `len` blocks is free, `alloc` takes one. -/
theorem alloc_of_free {goal len s : Nat} (hgoal : a.firstDataBlock ≤ goal)
    (hs : a.firstDataBlock ≤ s) (hend : s + len ≤ a.blocksCount)
    (hfree : ∀ b, s ≤ b → b < s + len → a.taken b = false) :
    ∃ start, exec (alloc goal len) a = (.ok start, a.push ⟨start, len⟩) := by
  rcases alloc_cases goal len a with ⟨start, hok, -⟩ | ⟨herr, -⟩
  · exact ⟨start, hok⟩
  · have hrefused : Refused (alloc goal len) a := ⟨_, congrArg Prod.fst herr⟩
    exact absurd ⟨s, hs, hend, hfree⟩ ((alloc_refused_iff hgoal).mp hrefused)

/-- `alloc_runs` hands out runs of `count` blocks together, or takes every block it meets and
still has too few. -/
theorem allocRuns_cases (goal count : Nat) (a : Allocator) :
    ∃ runs a', Extends a a' runs ∧
      ((exec (allocRuns goal count) a = (.ok runs, a') ∧ total runs = count ∧
          ∀ r ∈ runs, min goal a.firstDataBlock ≤ r.start) ∨
        (exec (allocRuns goal count) a =
            (.error (.error (.deviceTooSmall a.blocksCount count a.blockSize)), a') ∧
          total runs < count ∧
          ∀ b, a.firstDataBlock ≤ b → b < a.blocksCount → a'.taken b = true)) := by
  rw [allocRuns, exec_bind_of_ok (show exec get a = (.ok a, a) from rfl)]
  obtain ⟨hext, -, hle⟩ := gather_extends (a.blocksCount + 1) a count goal
  have hlow := @gather_ge a (a.blocksCount + 1) count goal
  generalize gather (a.blocksCount + 1) a count goal = first at hext hle hlow ⊢
  obtain ⟨runs, b⟩ := first
  dsimp only at hext hle hlow ⊢
  rw [exec_bind_of_ok (show exec (set b) a = (.ok (), b) from rfl)]
  split
  · next henough =>
    refine ⟨runs, b, hext, Or.inl ⟨rfl, Nat.le_antisymm hle henough, ?_⟩⟩
    exact fun r hr => Nat.le_trans (Nat.min_le_left _ _) (hlow r hr)
  · next hshort =>
    have hcount : b.blocksCount = a.blocksCount := by rw [hext.eq]
    have hfirst : b.firstDataBlock = a.firstDataBlock := by rw [hext.eq]
    obtain ⟨hext', -, hle'⟩ := gather_extends (b.blocksCount + 1) b (count - total runs)
      b.firstDataBlock
    have hlow' := @gather_ge b (b.blocksCount + 1) (count - total runs) b.firstDataBlock
    have hall := @gather_exhausts b (b.blocksCount + 1) (count - total runs) b.firstDataBlock
      (by omega)
    generalize gather (b.blocksCount + 1) b (count - total runs) b.firstDataBlock =
      second at hext' hle' hlow' hall ⊢
    obtain ⟨more, c⟩ := second
    dsimp only at hext' hle' hlow' hall ⊢
    have htotal := total_append runs more
    have hboth := hext.trans hext'
    refine ⟨runs ++ more, c, hboth, ?_⟩
    rw [exec_bind_of_ok (show exec (set c) b = (.ok (), c) from rfl)]
    split
    · next henough =>
      refine Or.inl ⟨rfl, by omega, fun r hr => ?_⟩
      rcases List.mem_append.mp hr with hr | hr
      · exact Nat.le_trans (Nat.min_le_left _ _) (hlow r hr)
      · exact Nat.le_trans (Nat.min_le_right _ _) (hfirst ▸ hlow' r hr)
    · next hstill =>
      refine Or.inr ⟨by rw [hboth.eq]; rfl, by omega, fun x hx hx' => ?_⟩
      exact hall (by omega) (hfirst ▸ hx) (hcount ▸ hx')

/-- `alloc_runs` fails exactly when fewer than `count` blocks are free. -/
theorem allocRuns_refused_iff {goal count : Nat} (hgoal : a.firstDataBlock ≤ goal) :
    Refused (allocRuns goal count) a ↔
      ((Finset.Ico a.firstDataBlock a.blocksCount).filter fun b => a.taken b = false).card <
        count := by
  obtain ⟨runs, a', hext, ⟨hok, htotal, hlow⟩ | ⟨herr, hshort, hall⟩⟩ :=
    allocRuns_cases goal count a
  · refine iff_of_false (not_refused hok) (Nat.not_lt.mpr ?_)
    rw [← htotal, ← length_blocksOf, ← List.toFinset_card_of_nodup hext.nodup]
    refine Finset.card_le_card fun b hb => ?_
    rw [List.mem_toFinset] at hb
    obtain ⟨r, hr, hbr⟩ := mem_blocksOf.mp hb
    have hstart := hlow r hr
    rw [Nat.min_eq_right hgoal] at hstart
    rw [Finset.mem_filter, Finset.mem_Ico]
    exact ⟨⟨Nat.le_trans hstart (Run.mem_blocks.mp hbr).1, hext.lt b hb⟩, hext.free b hb⟩
  · refine iff_of_true ⟨_, by rw [herr]⟩ (Nat.lt_of_le_of_lt ?_ hshort)
    rw [← length_blocksOf, ← List.toFinset_card_of_nodup hext.nodup]
    refine Finset.card_le_card fun b hb => ?_
    rw [Finset.mem_filter, Finset.mem_Ico] at hb
    obtain ⟨⟨hb, hb'⟩, hfree⟩ := hb
    rw [List.mem_toFinset]
    refine ((hext.taken_iff b).mp (hall b hb hb')).resolve_left ?_
    rw [hfree]
    exact Bool.false_ne_true

/-! ## A sequence of calls -/

/-- A call to the allocator. -/
inductive Call where
  | alloc (goal len : Nat)
  | allocRuns (goal count : Nat)
deriving DecidableEq, Repr

namespace Call

def goal : Call → Nat
  | alloc goal _ => goal
  | allocRuns goal _ => goal

/-- The runs a call hands out. -/
def run : Call → AllocM (List Run)
  | alloc goal len => do
    let start ← Format.alloc goal len
    return [{ start, len }]
  | allocRuns goal count => Format.allocRuns goal count

end Call

/-- Calls and what they were answered. -/
abbrev Log := List (Call × Except Failure (List Run))

/-- Calls made one after another, whatever becomes of the ones before. -/
def serve : (calls : List Call) → Allocator → Log × Allocator
  | [], a => ([], a)
  | call :: calls, a =>
    let (answer, a) := exec call.run a
    let (log, a) := serve calls a
    ((call, answer) :: log, a)

/-- The runs handed out. -/
def given (log : Log) : List Run := log.flatMap fun entry =>
  match entry.2 with
  | .ok runs => runs
  | .error _ => []

/-- Some `alloc_runs` failed. -/
def RanShort (log : Log) : Prop := ∃ goal count e, (.allocRuns goal count, .error e) ∈ log

/-- What some calls did to an allocator: what they handed out is on record, and nothing else is
unless an `alloc_runs` failed, in which case no block is left. -/
structure Account (a a' : Allocator) (log : Log) (runs : List Run) : Prop where
  extends' : Extends a a' runs
  given_sublist : (given log).Sublist runs
  eq_given : ¬RanShort log → runs = given log
  exhausted : RanShort log → ∀ b, a.firstDataBlock ≤ b → b < a.blocksCount → a'.taken b = true
  ge : (∀ entry ∈ log, a.firstDataBlock ≤ entry.1.goal) →
    ∀ r ∈ given log, a.firstDataBlock ≤ r.start

theorem ranShort_append {log log' : Log} :
    RanShort (log ++ log') ↔ RanShort log ∨ RanShort log' := by
  simp only [RanShort, List.mem_append, exists_or]

theorem given_append (log log' : Log) : given (log ++ log') = given log ++ given log' :=
  List.flatMap_append

theorem Account.nil (a : Allocator) : Account a a [] [] where
  extends' := Extends.refl a
  given_sublist := List.Sublist.slnil
  eq_given := fun _ => rfl
  exhausted := fun ⟨_, _, _, hmem⟩ => nomatch hmem
  ge := fun _ => nofun

theorem Account.append {a a' a'' : Allocator} {log log' : Log} {runs runs' : List Run}
    (h : Account a a' log runs) (h' : Account a' a'' log' runs') :
    Account a a'' (log ++ log') (runs ++ runs') := by
  have hfirst : a'.firstDataBlock = a.firstDataBlock := by rw [h.extends'.eq]
  have hcount : a'.blocksCount = a.blocksCount := by rw [h.extends'.eq]
  refine ⟨h.extends'.trans h'.extends', ?_, ?_, ?_, ?_⟩
  · rw [given_append]
    exact h.given_sublist.append h'.given_sublist
  · intro hnot
    rw [ranShort_append, not_or] at hnot
    rw [given_append, h.eq_given hnot.1, h'.eq_given hnot.2]
  · intro hshort b hb hb'
    rcases ranShort_append.mp hshort with hshort | hshort
    · exact (h'.extends'.taken_iff b).mpr (Or.inl (h.exhausted hshort b hb hb'))
    · exact h'.exhausted hshort b (hfirst ▸ hb) (hcount ▸ hb')
  · intro hgoals r hr
    rw [given_append] at hr
    rcases List.mem_append.mp hr with hr | hr
    · exact h.ge (fun entry hentry => hgoals entry (List.mem_append_left _ hentry)) r hr
    · exact hfirst ▸ h'.ge
        (fun entry hentry => hfirst ▸ hgoals entry (List.mem_append_right _ hentry)) r hr

/-- A call that is answered with what it records. -/
theorem Account.of_ok {a a' : Allocator} {call : Call} {runs : List Run}
    (hext : Extends a a' runs) (hlow : ∀ r ∈ runs, min call.goal a.firstDataBlock ≤ r.start) :
    Account a a' [(call, .ok runs)] runs := by
  have hgiven : given [(call, .ok runs)] = runs := List.append_nil runs
  have hnot : ¬RanShort [(call, .ok runs)] := by simp [RanShort]
  refine ⟨hext, by rw [hgiven], fun _ => hgiven.symm, fun h => absurd h hnot, ?_⟩
  intro hgoals r hr
  rw [hgiven] at hr
  have hgoal := hgoals _ (List.mem_singleton.mpr rfl)
  exact Nat.min_eq_right hgoal ▸ hlow r hr

/-- What one call does. -/
theorem Call.account (call : Call) (a : Allocator) :
    ∃ runs, Account a (exec call.run a).2 [(call, (exec call.run a).1)] runs := by
  cases call with
  | alloc goal len =>
    rcases alloc_cases goal len a with ⟨start, hok, hstart, -⟩ | ⟨herr, -⟩
    · have hrun : exec (Call.alloc goal len).run a = (.ok [⟨start, len⟩], a.push ⟨start, len⟩) := by
        rw [Call.run, exec_bind_of_ok hok]
        rfl
      rw [hrun]
      exact ⟨_, .of_ok (alloc_ok hok) fun r hr => List.mem_singleton.mp hr ▸ hstart⟩
    · have hrun : exec (Call.alloc goal len).run a =
          (.error (.error (.deviceTooSmall a.blocksCount len a.blockSize)), a) := by
        rw [Call.run, exec_bind, herr]
      rw [hrun]
      refine ⟨[], Extends.refl a, List.Sublist.slnil, fun _ => rfl, ?_, fun _ => nofun⟩
      rintro ⟨goal', count, e, hmem⟩
      simp at hmem
  | allocRuns goal count =>
    obtain ⟨runs, a', hext, ⟨hok, -, hlow⟩ | ⟨herr, -, hall⟩⟩ := allocRuns_cases goal count a
    · rw [Call.run, hok]
      exact ⟨runs, .of_ok hext hlow⟩
    · rw [Call.run, herr]
      refine ⟨runs, hext, List.nil_sublist runs, ?_, fun _ => hall, fun _ => nofun⟩
      exact fun hnot => absurd ⟨goal, count, _, List.mem_singleton.mpr rfl⟩ hnot

/-- What a sequence of calls does. -/
theorem serve_account (calls : List Call) (a : Allocator) :
    ∃ runs, Account a (serve calls a).2 (serve calls a).1 runs := by
  induction calls generalizing a with
  | nil => exact ⟨[], Account.nil a⟩
  | cons call calls ih =>
    obtain ⟨runs, h⟩ := call.account a
    obtain ⟨more, h'⟩ := ih (exec call.run a).2
    exact ⟨runs ++ more, h.append h'⟩

theorem mem_calls_of_mem_serve {calls : List Call} {a : Allocator}
    {entry : Call × Except Failure (List Run)} (h : entry ∈ (serve calls a).1) : entry.1 ∈ calls := by
  induction calls generalizing a with
  | nil => cases h
  | cons call calls ih =>
    rcases List.mem_cons.mp h with rfl | h
    · exact List.mem_cons_self
    · exact List.mem_cons_of_mem _ (ih h)

/-- A block that is not metadata and that nobody was given. -/
def Unused (metadata : Nat → Bool) (log : Log) (b : Nat) : Prop :=
  metadata b = false ∧ b ∉ blocksOf (given log)

instance (metadata : Nat → Bool) (log : Log) : DecidablePred (Unused metadata log) :=
  fun _ => inferInstanceAs (Decidable (_ ∧ _))

theorem Account.taken_eq_false_iff {a a' : Allocator} {log : Log} {runs : List Run}
    (h : Account a a' log runs) (hruns : a.runs = []) (hnot : ¬RanShort log) (b : Nat) :
    a'.taken b = false ↔ Unused a.metadata log b := by
  have hbefore : a.taken b = a.metadata b := by
    rw [Allocator.taken, hruns, List.any_nil, Bool.or_false]
  rw [← Bool.not_eq_true, h.extends'.taken_iff, h.eq_given hnot, not_or, Bool.not_eq_true,
    hbefore, Unused]

/-- The allocator over any sequence of calls, from nothing on record: it hands out blocks that
are not metadata, each once, and as long as no `alloc_runs` has failed a call is refused only
for want of unused blocks. One that failed leaves nothing for the calls after it. -/
theorem serve_correct (blocksCount firstDataBlock blockSize : Nat) (metadata : Nat → Bool)
    (calls : List Call) :
    let (log, a) := serve calls { blocksCount, firstDataBlock, blockSize, metadata }
    (blocksOf (given log)).Nodup ∧
      (∀ b ∈ blocksOf (given log), metadata b = false ∧ b < blocksCount) ∧
      ((∀ call ∈ calls, firstDataBlock ≤ call.goal) →
        ∀ b ∈ blocksOf (given log), firstDataBlock ≤ b) ∧
      ∀ goal size, firstDataBlock ≤ goal →
        (∀ runs a', exec (allocRuns goal size) a = (.ok runs, a') → total runs = size) ∧
        (¬RanShort log →
          (Refused (alloc goal size) a ↔
            ¬∃ s, firstDataBlock ≤ s ∧ s + size ≤ blocksCount ∧
              ∀ b, s ≤ b → b < s + size → Unused metadata log b) ∧
          (Refused (allocRuns goal size) a ↔
            ((Finset.Ico firstDataBlock blocksCount).filter (Unused metadata log)).card <
              size)) ∧
        (RanShort log → 0 < size → Refused (alloc goal size) a ∧ Refused (allocRuns goal size) a) := by
  obtain ⟨runs, h⟩ := serve_account calls { blocksCount, firstDataBlock, blockSize, metadata }
  have hcalls := @mem_calls_of_mem_serve calls
    { blocksCount, firstDataBlock, blockSize, metadata }
  generalize serve calls { blocksCount, firstDataBlock, blockSize, metadata } = served at h hcalls ⊢
  obtain ⟨log, a⟩ := served
  dsimp only at h hcalls ⊢
  have hfirst : a.firstDataBlock = firstDataBlock := by rw [h.extends'.eq]
  have hcount : a.blocksCount = blocksCount := by rw [h.extends'.eq]
  have hsub : (blocksOf (given log)).Sublist (blocksOf runs) := h.given_sublist.flatMap _
  refine ⟨h.extends'.nodup.sublist hsub, fun b hb => ⟨?_, ?_⟩, fun hgoals b hb => ?_, ?_⟩
  · have hfree := h.extends'.free b (hsub.subset hb)
    rw [Allocator.taken, Bool.or_eq_false_iff] at hfree
    exact hfree.1
  · exact h.extends'.lt b (hsub.subset hb)
  · obtain ⟨r, hr, hbr⟩ := mem_blocksOf.mp hb
    have hstart := h.ge (fun entry hentry => hgoals _ (hcalls hentry)) r hr
    exact Nat.le_trans hstart (Run.mem_blocks.mp hbr).1
  · intro goal size hgoal
    rw [← hfirst] at hgoal
    have hone := @alloc_refused_iff a goal size hgoal
    have hmany := @allocRuns_refused_iff a goal size hgoal
    refine ⟨fun runs' a' hok => (allocRuns_ok hok).2.2, fun hnot => ?_, fun hshort hsize => ?_⟩
    · have hfree := h.taken_eq_false_iff rfl hnot
      simp only [hfree, hfirst, hcount] at hone hmany
      exact ⟨hone, hmany⟩
    · have hall : ∀ b, a.firstDataBlock ≤ b → b < a.blocksCount → a.taken b = true := by
        rw [hfirst, hcount]
        exact h.exhausted hshort
      refine ⟨hone.mpr ?_, hmany.mpr ?_⟩
      · rintro ⟨s, hs, hend, hfree⟩
        have htaken := hall s hs (by omega)
        rw [hfree s (Nat.le_refl s) (by omega)] at htaken
        cases htaken
      · rw [Finset.filter_eq_empty_iff.mpr, Finset.card_empty]
        · exact hsize
        · intro b hb
          rw [Finset.mem_Ico] at hb
          rw [hall b hb.1 hb.2]
          exact Bool.noConfusion

/-- Four blocks and no metadata. -/
def fourBlocks : Allocator where
  blocksCount := 4
  firstDataBlock := 0
  blockSize := 1024
  metadata := fun _ => false

/-- A request for five of four blocks fails, and after it a request for one fails too, though
nobody was given any. -/
theorem serve_strands : given (serve [.allocRuns 0 5] fourBlocks).1 = [] ∧
    Refused (alloc 0 1) (serve [.allocRuns 0 5] fourBlocks).2 ∧
    ∃ s, 0 ≤ s ∧ s + 1 ≤ 4 ∧ ∀ b, s ≤ b → b < s + 1 →
      Unused fourBlocks.metadata (serve [.allocRuns 0 5] fourBlocks).1 b := by
  refine ⟨by decide, ⟨.error (.deviceTooSmall 4 1 1024), by decide⟩, 0, by decide, by decide, ?_⟩
  intro b _ hb
  obtain rfl := Nat.lt_one_iff.mp hb
  decide

end MkfsExt4.Format
