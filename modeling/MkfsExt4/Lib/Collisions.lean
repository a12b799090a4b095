/-
  Claims made one after the other, and those that collide.

  A claim covers some things and takes them. If it is noted, those it finds taken are marked.
  `marked_iff`: marked is what two claims cover, of which the later is noted. So where all are
  noted it is what two claims cover, in whatever order they come (`not_quiet_iff`), and where
  the claims that are not noted come last they are as if they were not there
  (`quiet_append_unnoted`).
-/
import Mathlib.Data.List.Basic
import Mathlib.Data.List.Count
import Mathlib.Data.List.Induction
import Mathlib.Data.List.Pairwise

namespace Lib.Collisions

variable {α β : Type*} (covers : α → β → Bool) (noted : α → Bool)

/-- What is taken, and what is marked as taken twice. -/
structure Ledger (β : Type*) where
  taken : β → Prop
  marked : β → Prop

/-- Nothing taken. -/
def Ledger.blank : Ledger β := ⟨fun _ => False, fun _ => False⟩

/-- Take what a claim covers, and mark what was taken, if the claim is noted. -/
def Ledger.enter (l : Ledger β) (c : α) : Ledger β where
  taken b := l.taken b ∨ covers c b = true
  marked b := l.marked b ∨ noted c = true ∧ covers c b = true ∧ l.taken b

/-- No noted claim covers what an earlier one covers. -/
def Quiet (cs : List α) (b : β) : Prop :=
  cs.Pairwise fun c c' => ¬ (covers c b = true ∧ noted c' = true ∧ covers c' b = true)

/-- How many of the noted claims cover `b`. -/
def noteds (cs : List α) (b : β) : Nat := cs.countP fun c => noted c && covers c b

/-- How many of the claims that are not noted cover `b`. -/
def unnoteds (cs : List α) (b : β) : Nat := cs.countP fun c => !noted c && covers c b

variable {covers noted} {cs ds : List α} {b : β}

theorem taken_foldl (l : Ledger β) : (cs.foldl (Ledger.enter covers noted) l).taken b ↔
    l.taken b ∨ ∃ c ∈ cs, covers c b = true := by
  induction cs generalizing l with
  | nil => simp
  | cons c cs ih =>
    rw [List.foldl_cons, ih]
    simp only [Ledger.enter, List.mem_cons, exists_eq_or_imp, or_assoc]

theorem quiet_append : Quiet covers noted (cs ++ ds) b ↔
    Quiet covers noted cs b ∧ Quiet covers noted ds b ∧ ∀ c ∈ cs, ∀ d ∈ ds,
      ¬ (covers c b = true ∧ noted d = true ∧ covers d b = true) :=
  List.pairwise_append

/-- Marked is what two claims cover, the later of them noted. -/
theorem marked_iff : (cs.foldl (Ledger.enter covers noted) .blank).marked b ↔
    ¬ Quiet covers noted cs b := by
  induction cs using List.reverseRecOn with
  | nil => simp [Ledger.blank, Quiet]
  | append_singleton cs c ih =>
    rw [List.foldl_append, List.foldl_cons, List.foldl_nil, quiet_append]
    simp only [Ledger.enter, ih, taken_foldl]
    have hone : Quiet covers noted [c] b := List.pairwise_singleton _ _
    simp only [hone, true_and, List.mem_singleton, forall_eq, Ledger.blank, false_or]
    constructor
    · rintro (hq | ⟨hn, hc, d, hd, hdb⟩) ⟨hquiet, hlast⟩
      · exact hq hquiet
      · exact hlast d hd ⟨hdb, hn, hc⟩
    · intro h
      by_cases hquiet : Quiet covers noted cs b
      · by_contra hno
        refine h ⟨hquiet, fun d hd hdc => hno (Or.inr ⟨hdc.2.1, hdc.2.2, d, hd, hdc.1⟩)⟩
      · exact Or.inl hquiet

/-! ## By counts -/

/-- At most one in a list: no two of its places. -/
theorem pairwise_iff_countP_le (p : α → Bool) :
    (cs.Pairwise fun c c' => ¬ (p c = true ∧ p c' = true)) ↔ cs.countP p ≤ 1 := by
  induction cs with
  | nil => simp
  | cons c cs ih =>
    rw [List.pairwise_cons, ih, List.countP_cons]
    cases hc : p c with
    | false => simp
    | true =>
      have hzero : (∀ c' ∈ cs, ¬ (true = true ∧ p c' = true)) ↔ cs.countP p = 0 := by
        simp [List.countP_eq_zero]
      rw [hzero, if_pos rfl]
      omega

theorem noteds_append : noteds covers noted (cs ++ ds) b =
    noteds covers noted cs b + noteds covers noted ds b := List.countP_append

theorem unnoteds_append : unnoteds covers noted (cs ++ ds) b =
    unnoteds covers noted cs b + unnoteds covers noted ds b := List.countP_append

theorem noteds_perm (h : cs.Perm ds) : noteds covers noted cs b = noteds covers noted ds b :=
  h.countP_eq _

theorem unnoteds_perm (h : cs.Perm ds) :
    unnoteds covers noted cs b = unnoteds covers noted ds b := h.countP_eq _

theorem noteds_eq_zero : noteds covers noted cs b = 0 ↔
    ∀ c ∈ cs, ¬ (noted c = true ∧ covers c b = true) := by
  simp only [noteds, List.countP_eq_zero, Bool.and_eq_true]

theorem unnoteds_eq_zero_of_noted (h : ∀ c ∈ cs, noted c = true) :
    unnoteds covers noted cs b = 0 := by
  rw [unnoteds, List.countP_eq_zero]
  intro c hc
  simp [h c hc]

/-- Two noted claims collide, wherever they stand. -/
theorem Quiet.noteds_le (h : Quiet covers noted cs b) : noteds covers noted cs b ≤ 1 := by
  rw [noteds, ← pairwise_iff_countP_le]
  refine h.imp fun hcc hboth => hcc ?_
  simp only [Bool.and_eq_true] at hboth
  exact ⟨hboth.1.2, hboth.2⟩

theorem quiet_of_noteds_zero (h : noteds covers noted cs b = 0) : Quiet covers noted cs b := by
  rw [noteds_eq_zero] at h
  exact List.pairwise_of_forall_mem_list fun _ _ d hd hboth => h d hd hboth.2

theorem quiet_of_unnoteds_zero (h : unnoteds covers noted cs b = 0)
    (hle : noteds covers noted cs b ≤ 1) : Quiet covers noted cs b := by
  rw [noteds, ← pairwise_iff_countP_le] at hle
  rw [unnoteds, List.countP_eq_zero] at h
  refine List.Pairwise.imp_of_mem ?_ hle
  intro c d hc hd hno hboth
  refine hno ⟨?_, by simp [hboth.2.1, hboth.2.2]⟩
  have hnoted := h c hc
  rw [hboth.1, Bool.and_true, Bool.not_eq_true, Bool.not_eq_false'] at hnoted
  rw [hnoted, hboth.1, Bool.and_self]

/-- Where all are noted, the order is of no matter. -/
theorem not_quiet_iff (h : ∀ c ∈ cs, noted c = true) :
    ¬ Quiet covers noted cs b ↔ 2 ≤ noteds covers noted cs b := by
  constructor
  · intro hq
    by_contra hlt
    exact hq (quiet_of_unnoteds_zero (unnoteds_eq_zero_of_noted h) (by omega))
  · intro h2 hq
    have := hq.noteds_le
    omega

/-- Claims that are not noted collide with nothing before them. -/
theorem quiet_append_unnoted (h : ∀ d ∈ ds, noted d = false) :
    Quiet covers noted (cs ++ ds) b ↔ Quiet covers noted cs b := by
  rw [quiet_append]
  refine ⟨And.left, fun hcs => ⟨hcs, quiet_of_noteds_zero ?_, fun c _ d hd hboth => ?_⟩⟩
  · rw [noteds_eq_zero]
    intro d hd hboth
    rw [h d hd] at hboth
    exact absurd hboth.1 (by decide)
  · rw [h d hd] at hboth
    exact absurd hboth.2.1 (by decide)

end Lib.Collisions
