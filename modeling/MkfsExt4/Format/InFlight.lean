/-
  Groups in flight. Whatever the turns, groups that can all be built issue their operations
  between them, each exactly once, and end with one descriptor each.
-/
import MkfsExt4.Format.Write
import Mathlib.Data.List.Perm.Basic

namespace MkfsExt4.Format

open Lib.Trace

namespace InFlight

/-- What a group has left to issue. -/
def ops (t : InFlight) : List Op :=
  match t.rest with
  | .ok (ops, _) => ops
  | .error _ => []

/-- What a group ends with. -/
def ended (t : InFlight) : Option (Nat × GroupDesc) :=
  match t.rest with
  | .ok (_, desc) => some (t.group, desc)
  | .error _ => none

/-- The group can be built. -/
def Built (t : InFlight) : Prop := ∃ ops desc, t.rest = .ok (ops, desc)

theorem ops_of {t : InFlight} {o : List Op} {desc : GroupDesc} (h : t.rest = .ok (o, desc)) :
    t.ops = o := by
  rw [ops, h]

theorem ended_of {t : InFlight} {o : List Op} {desc : GroupDesc} (h : t.rest = .ok (o, desc)) :
    t.ended = some (t.group, desc) := by
  rw [ended, h]

theorem complete_of {t : InFlight} {o : List Op} {desc : GroupDesc} (h : t.rest = .ok (o, desc)) :
    complete t = { trace := o, result := .ok (t.group, desc) } := by
  have hissue := forM_emit (ε := Failure) (f := fun op : Op => op) o
  rw [List.map_id'] at hissue
  have hops : o.forM issue = { trace := o, result := .ok () } := hissue
  have hlast : (o.forM issue >>= fun _ => pure (t.group, desc) : FormatM _) =
      { trace := o, result := .ok (t.group, desc) } := by
    rw [hops, bind_of_ok rfl, trace_pure, result_pure, List.append_nil]
  have hrest : (lift t.rest : FormatM (List Op × GroupDesc)).result = .ok (o, desc) := h
  rw [complete, bind_of_ok hrest]
  dsimp only
  rw [hlast]
  rfl

theorem complete_ok {t : InFlight} {d : Nat × GroupDesc} (h : (complete t).result = .ok d) :
    t.Built := by
  obtain ⟨⟨o, desc⟩, hrest, -, -⟩ := bind_ok h
  exact ⟨o, desc, hrest⟩

end InFlight

/-! ## The queue in order -/

theorem mapM_complete {queue : List InFlight} (h : ∀ t ∈ queue, t.Built) :
    queue.mapM complete = ({
      trace := queue.flatMap InFlight.ops
      result := .ok (queue.filterMap InFlight.ended) } : FormatM _) := by
  induction queue with
  | nil => rfl
  | cons t queue ih =>
    obtain ⟨o, desc, hrest⟩ := h t List.mem_cons_self
    have ih := ih fun t' ht' => h t' (List.mem_cons_of_mem t ht')
    rw [List.mapM_cons, InFlight.complete_of hrest, bind_of_ok rfl, ih, bind_of_ok rfl]
    rw [List.flatMap_cons, List.filterMap_cons, InFlight.ops_of hrest, InFlight.ended_of hrest]
    simp only [trace_pure, result_pure, List.append_nil]

theorem mapM_complete_ok {queue : List InFlight} {done : List (Nat × GroupDesc)}
    (h : (queue.mapM complete).result = .ok done) : ∀ t ∈ queue, t.Built := by
  induction queue generalizing done with
  | nil => exact nofun
  | cons t queue ih =>
    rw [List.mapM_cons] at h
    obtain ⟨d, hd, h, -⟩ := bind_ok h
    obtain ⟨rest, hrest, -, -⟩ := bind_ok h
    intro t' ht'
    rcases List.mem_cons.mp ht' with rfl | ht'
    · exact InFlight.complete_ok hd
    · exact ih hrest t' ht'

/-! ## Turns -/

section Turns

variable {inFlight : Nat} {turn : Nat} {turns : List Nat} {queue : List InFlight}

/-- A turn goes to a group of the queue, if there is one. -/
theorem turn_lt (hpos : 0 < inFlight) (hne : queue ≠ []) :
    turn % min inFlight queue.length < queue.length := by
  have hlen := List.length_pos_iff.mpr hne
  have := Nat.mod_lt turn (Nat.lt_min.mpr ⟨hpos, hlen⟩)
  omega

/-- A turn either finds nothing in flight, or a group at its end, or one with more to do. -/
theorem drain_turn (inFlight turn : Nat) (turns : List Nat) (queue : List InFlight) :
    (queue[turn % min inFlight queue.length]? = none ∧
      drain inFlight (turn :: turns) queue = pure []) ∨
    ∃ i t, queue[i]? = some t ∧ ((∃ e, t.rest = .error e ∧
        drain inFlight (turn :: turns) queue = { trace := [], result := .error e }) ∨
      (∃ desc, t.rest = .ok ([], desc) ∧ drain inFlight (turn :: turns) queue =
        (drain inFlight turns (queue.eraseIdx i) >>= fun done => pure ((t.group, desc) :: done))) ∨
      (∃ op ops desc, t.rest = .ok (op :: ops, desc) ∧ drain inFlight (turn :: turns) queue =
        (issue op >>= fun _ =>
          drain inFlight turns (queue.set i { t with rest := .ok (ops, desc) })))) := by
  rw [drain]
  split
  · next hnone => exact Or.inl ⟨hnone, rfl⟩
  · next t ht =>
    refine Or.inr ⟨_, t, ht, ?_⟩
    cases hrest : t.rest with
    | error e =>
      refine Or.inl ⟨e, rfl, ?_⟩
      rw [bind_of_error (e := e) rfl]
      rfl
    | ok r =>
      obtain ⟨ops, desc⟩ := r
      rw [lift, ofExcept_ok_bind]
      cases ops with
      | nil => exact Or.inr (Or.inl ⟨desc, rfl, rfl⟩)
      | cons op ops => exact Or.inr (Or.inr ⟨op, ops, desc, rfl, rfl⟩)

/-- What the groups issue has `Q`, so what is issued of them has. -/
theorem issues_drain {Q : Op → Prop} (h : ∀ t ∈ queue, ∀ op ∈ t.ops, Q op) :
    Issues Q (drain inFlight turns queue) := by
  induction turns generalizing queue with
  | nil =>
    refine issues_mapM fun t ht => ?_
    refine issues_bind (issues_ofExcept _) fun ⟨ops, desc⟩ hrest => ?_
    refine issues_bind (issues_forM fun op hop => issues_emit ?_) fun _ _ => issues_pure _
    exact h t ht op (by rw [InFlight.ops_of hrest]; exact hop)
  | cons turn turns ih =>
    rcases drain_turn inFlight turn turns queue with
      ⟨-, hstop⟩ | ⟨i, t, ht, ⟨e, -, hstop⟩ | ⟨desc, hrest, hnext⟩ | ⟨op, ops, desc, hrest, hnext⟩⟩
    · rw [hstop]
      exact issues_pure _
    · rw [hstop]
      exact nofun
    · rw [hnext]
      refine issues_bind (ih fun t' ht' => ?_) fun _ _ => issues_pure _
      exact h t' (List.mem_of_mem_eraseIdx ht')
    · have hops := h t (List.mem_of_getElem? ht)
      rw [InFlight.ops_of hrest] at hops
      rw [hnext]
      refine issues_then (issues_emit (hops op List.mem_cons_self)) (ih fun t' ht' => ?_)
      rcases List.mem_or_eq_of_mem_set ht' with ht' | rfl
      · exact h t' ht'
      · exact fun op' hop' => hops op' (List.mem_cons_of_mem op hop')

/-- A queue of groups that can all be built is done with. -/
theorem drain_built (h : ∀ t ∈ queue, t.Built) :
    ∃ done, (drain inFlight turns queue).result = .ok done := by
  induction turns generalizing queue with
  | nil => exact ⟨_, congrArg Traced.result (mapM_complete h)⟩
  | cons turn turns ih =>
    rcases drain_turn inFlight turn turns queue with
      ⟨-, hstop⟩ | ⟨i, t, ht, ⟨e, hrest, -⟩ | ⟨desc, hrest, hnext⟩ | ⟨op, ops, desc, hrest, hnext⟩⟩
    · exact ⟨[], by rw [hstop]; rfl⟩
    · obtain ⟨ops, desc, hok⟩ := h t (List.mem_of_getElem? ht)
      rw [hok] at hrest
      cases hrest
    · obtain ⟨done, hdone⟩ := ih fun t' ht' => h t' (List.mem_of_mem_eraseIdx ht')
      exact ⟨_, by rw [hnext, bind_of_ok hdone]; rfl⟩
    · have hbuilt : ∀ t' ∈ queue.set i { t with rest := .ok (ops, desc) }, t'.Built := by
        intro t' ht'
        rcases List.mem_or_eq_of_mem_set ht' with ht' | rfl
        · exact h t' ht'
        · exact ⟨ops, desc, rfl⟩
      obtain ⟨done, hdone⟩ := ih hbuilt
      exact ⟨done, by rw [hnext, bind_of_ok rfl]; exact hdone⟩

/-- A queue that was done with: every group could be built, each ended once, and each of its
operations was issued once. -/
theorem drain_ok (hpos : 0 < inFlight) {done : List (Nat × GroupDesc)}
    (h : (drain inFlight turns queue).result = .ok done) :
    (∀ t ∈ queue, t.Built) ∧ done.Perm (queue.filterMap InFlight.ended) ∧
      (drain inFlight turns queue).trace.Perm (queue.flatMap InFlight.ops) := by
  induction turns generalizing queue done with
  | nil =>
    have hbuilt := mapM_complete_ok h
    have heq : drain inFlight [] queue = _ := mapM_complete hbuilt
    rw [heq] at h ⊢
    cases h
    exact ⟨hbuilt, .refl _, .refl _⟩
  | cons turn turns ih =>
    rcases drain_turn inFlight turn turns queue with
      ⟨hnone, hstop⟩ | ⟨i, t, ht, ⟨e, -, hstop⟩ | ⟨desc, hrest, hnext⟩ | ⟨op, ops, desc, hrest, hnext⟩⟩
    · obtain rfl : queue = [] := by
        by_contra hne
        rw [List.getElem?_eq_none_iff] at hnone
        exact absurd (turn_lt hpos hne) (Nat.not_lt.mpr hnone)
      rw [hstop] at h ⊢
      cases h
      exact ⟨nofun, .refl _, .refl _⟩
    · rw [hstop] at h
      cases h
    · obtain ⟨hi, rfl⟩ := List.getElem?_eq_some_iff.mp ht
      have hqueue := List.getElem_cons_eraseIdx_perm hi
      rw [hnext] at h ⊢
      obtain ⟨rest, hdone, hend, htrace⟩ := bind_ok h
      cases hend
      obtain ⟨hbuilt, hperm, hops⟩ := ih hdone
      refine ⟨fun t' ht' => ?_, ?_, ?_⟩
      · rcases List.mem_cons.mp (hqueue.mem_iff.mpr ht') with rfl | ht'
        · exact ⟨[], desc, hrest⟩
        · exact hbuilt t' ht'
      · refine ((hperm.cons _).trans ?_).trans (hqueue.filterMap _)
        rw [List.filterMap_cons, InFlight.ended_of hrest]
      · rw [htrace, trace_pure, List.append_nil]
        refine (hops.trans ?_).trans (hqueue.flatMap_right _)
        rw [List.flatMap_cons, InFlight.ops_of hrest, List.nil_append]
    · obtain ⟨hi, rfl⟩ := List.getElem?_eq_some_iff.mp ht
      have hqueue := List.getElem_cons_eraseIdx_perm hi
      have hset := List.set_perm_cons_eraseIdx hi
        ({ queue[i] with rest := .ok (ops, desc) } : InFlight)
      rw [hnext] at h ⊢
      obtain ⟨_, -, hdone, htrace⟩ := bind_ok h
      obtain ⟨hbuilt, hperm, hops⟩ := ih hdone
      refine ⟨fun t' ht' => ?_, ?_, ?_⟩
      · rcases List.mem_cons.mp (hqueue.mem_iff.mpr ht') with rfl | ht'
        · exact ⟨op :: ops, desc, hrest⟩
        · exact hbuilt t' (hset.mem_iff.mpr (List.mem_cons_of_mem _ ht'))
      · refine (hperm.trans (hset.filterMap _)).trans (.trans ?_ (hqueue.filterMap _))
        rw [List.filterMap_cons, List.filterMap_cons, InFlight.ended_of hrest]
        exact .refl _
      · rw [htrace]
        refine ((hops.trans (hset.flatMap_right _)).cons op).trans
          (.trans ?_ (hqueue.flatMap_right _))
        rw [List.flatMap_cons, List.flatMap_cons, InFlight.ops_of hrest]
        exact .refl _

end Turns

end MkfsExt4.Format
