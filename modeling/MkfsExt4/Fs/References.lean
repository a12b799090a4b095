/-
  Walks of a block map: what a walk that ended well did, and when it can be made again.

  A walk visits each block of a map before it reads it. `Again S w w'` says that once `w` ended
  well, and came to no block of a map outside `S`, `w'` is the same walk; so two filesystems that
  read the same in the blocks of a map walk it alike (`walkBlocks_again`).
-/
import MkfsExt4.Fs.BlockMap

namespace MkfsExt4

namespace Walk

variable {α β : Type}

theorem andThen_ok {w : Walk α} {f : α → Walk β} {refs : List BlockRef} {b : β}
    (h : w.andThen f = (refs, .ok b)) :
    ∃ a r1 r2, w = (r1, .ok a) ∧ f a = (r2, .ok b) ∧ refs = r1 ++ r2 := by
  obtain ⟨r1, x⟩ := w
  cases x with
  | error e => cases h
  | ok a =>
    obtain ⟨hr, hb⟩ := Prod.mk.inj h
    exact ⟨a, r1, (f a).1, rfl, Prod.ext rfl hb, hr.symm⟩

theorem reading_ok {x : Except Failure α} {refs : List BlockRef} {a : α}
    (h : Walk.reading x = (refs, .ok a)) : x = .ok a ∧ refs = [] :=
  ⟨(Prod.mk.inj h).2, (Prod.mk.inj h).1.symm⟩

theorem visit_ok {refs refs' : List BlockRef} (h : visit refs = (refs', .ok ())) : refs' = refs :=
  (Prod.mk.inj h).1.symm

/-- Walks one after another end well only if each does, and all their visits count. -/
theorem foldl_andThen_ok {ws : List (Walk Unit)} {w : Walk Unit} {refs : List BlockRef}
    (h : ws.foldl (fun w next => w.andThen fun _ => next) w = (refs, .ok ())) :
    (∃ r, w = (r, .ok ()) ∧ r ⊆ refs) ∧ ∀ v ∈ ws, ∃ r, v = (r, .ok ()) ∧ r ⊆ refs := by
  induction ws generalizing w with
  | nil => exact ⟨⟨refs, h, List.Subset.refl _⟩, by simp⟩
  | cons v ws ih =>
    obtain ⟨⟨r, hr, hsub⟩, hrest⟩ := ih h
    obtain ⟨_, r1, r2, h1, h2, rfl⟩ := andThen_ok hr
    refine ⟨⟨r1, h1, fun x hx => hsub (List.mem_append_left _ hx)⟩, fun u hu => ?_⟩
    rcases List.mem_cons.mp hu with rfl | hu
    · exact ⟨r2, h2, fun x hx => hsub (List.mem_append_right _ hx)⟩
    · exact hrest u hu

/-! ## A walk made again -/

/-- The blocks of a map among `refs` are of `S`. -/
def MapIn (S : Nat → Prop) (refs : List BlockRef) : Prop :=
  ∀ r ∈ refs, r.kind = .metadata → S r.physical

/-- If `w` ended well and came to no block of a map but those of `S`, `w'` is the same walk. -/
def Again (S : Nat → Prop) (w w' : Walk α) : Prop :=
  ∀ refs a, w = (refs, .ok a) → MapIn S refs → w' = w

variable {S : Nat → Prop}

theorem Again.refl (w : Walk α) : Again S w w := fun _ _ _ _ => rfl

theorem Again.andThen {w w' : Walk α} {f f' : α → Walk β} (hw : Again S w w')
    (hf : ∀ refs a, w = (refs, .ok a) → MapIn S refs → Again S (f a) (f' a)) :
    Again S (w.andThen f) (w'.andThen f') := by
  intro refs b h hin
  obtain ⟨a, r1, r2, h1, h2, rfl⟩ := andThen_ok h
  have hin1 : MapIn S r1 := fun r hr => hin r (List.mem_append_left _ hr)
  have hin2 : MapIn S r2 := fun r hr => hin r (List.mem_append_right _ hr)
  rw [hw r1 a h1 hin1, h1]
  show (r1 ++ (f' a).1, (f' a).2) = (r1 ++ (f a).1, (f a).2)
  rw [hf r1 a h1 hin1 r2 b h2 hin2]

/-- One walk for each of `ks`, one after another. -/
theorem Again.foldl {κ : Type} {f f' : κ → Walk Unit} {ks : List κ}
    (hf : ∀ k ∈ ks, Again S (f k) (f' k)) {w w' : Walk Unit} (hw : Again S w w') :
    Again S ((ks.map f).foldl (fun w next => w.andThen fun _ => next) w)
      ((ks.map f').foldl (fun w next => w.andThen fun _ => next) w') := by
  induction ks generalizing w w' with
  | nil => exact hw
  | cons k ks ih =>
    exact ih (fun x hx => hf x (List.mem_cons_of_mem k hx))
      (hw.andThen fun _ _ _ _ => hf k List.mem_cons_self)

end Walk

namespace Filesystem

open Walk

variable {fs fs' : Filesystem} {S : Nat → Prop} (hsize : fs'.blockSize = fs.blockSize)
  (hread : ∀ b, S b → fs'.readBlock b = fs.readBlock b)

include hread in
theorem walkEntries_again (header : ExtentHeader) (node : List UInt8) (is : List Nat) :
    Again S (fs.walkEntries header node is) (fs'.walkEntries header node is) := by
  induction is with
  | nil => exact .refl _
  | cons i is ih =>
    unfold walkEntries
    split
    · exact (Again.refl _).andThen fun _ _ _ _ => ih
    · refine (Again.refl _).andThen fun refs _ hvisit hin => ?_
      obtain rfl := visit_ok hvisit
      have hleaf : S (ExtentIdx.decode (Extent.entry node i)).leaf :=
        hin _ (List.mem_singleton_self _) rfl
      rw [hread _ hleaf]
      refine (Again.refl _).andThen fun _ _ _ _ => ?_
      exact ih.andThen fun _ _ _ _ => .refl _

include hsize hread

theorem walkNodes_again (guard : Nat) (stack : List (List UInt8 × Nat)) :
    Again S (fs.walkNodes guard stack) (fs'.walkNodes guard stack) := by
  induction guard generalizing stack with
  | zero => cases stack <;> exact .refl _
  | succ guard ih =>
    cases stack with
    | nil => exact .refl _
    | cons top stack =>
      obtain ⟨node, space⟩ := top
      unfold walkNodes
      refine (Again.refl _).andThen fun _ header _ _ => ?_
      refine (walkEntries_again hread header node _).andThen fun _ children _ _ => ?_
      rw [hsize]
      exact ih _

theorem walkIndirectLevel_again (depth : Nat) {block : Nat} (base : Nat) (hblock : S block) :
    Again S (fs.walkIndirectLevel depth block base) (fs'.walkIndirectLevel depth block base) := by
  have hper : fs'.perBlock = fs.perBlock := by rw [perBlock, hsize, perBlock]
  induction depth generalizing block base with
  | zero => exact .refl _
  | succ depth ih =>
    unfold walkIndirectLevel
    rw [hread _ hblock, hper]
    refine (Again.refl _).andThen fun _ buf _ _ => ?_
    refine (Again.refl _).andThen fun _ _ _ _ => ?_
    split
    · exact .refl _
    · -- The blocks below were visited before they are walked.
      refine (Again.refl _).andThen fun refs _ hvisit hin => ?_
      obtain rfl := visit_ok hvisit
      refine Again.foldl (fun p hp => ih _ ?_) (.refl _)
      exact hin (mapRef p.2) (List.mem_map.mpr ⟨p, List.mem_reverse.mp hp, rfl⟩) rfl

theorem walkIndirectSlot_again (pointers : List Nat) (slot depth base : Nat) :
    Again S (fs.walkIndirectSlot pointers slot depth base)
      (fs'.walkIndirectSlot pointers slot depth base) := by
  have hper : fs'.perBlock = fs.perBlock := by rw [perBlock, hsize, perBlock]
  unfold walkIndirectSlot
  dsimp only
  split
  · rw [hper]
    exact .refl _
  · refine (Again.refl _).andThen fun refs _ hvisit hin => ?_
    obtain rfl := visit_ok hvisit
    exact walkIndirectLevel_again hsize hread depth base (hin _ (List.mem_singleton_self _) rfl)

/-- The map of an inode is walked alike where its blocks read the same. -/
theorem walkBlocks_again (inode : Inode) :
    Again S (fs.walkBlocks inode) (fs'.walkBlocks inode) := by
  have hper : fs'.perBlock = fs.perBlock := by rw [perBlock, hsize, perBlock]
  unfold walkBlocks
  split
  · exact .refl _
  · split
    · exact walkNodes_again hsize hread _ _
    · unfold walkIndirect
      dsimp only
      rw [hper]
      refine (Again.refl _).andThen fun _ _ _ _ => ?_
      refine (walkIndirectSlot_again hsize hread _ _ _ _).andThen fun _ _ _ _ => ?_
      refine (walkIndirectSlot_again hsize hread _ _ _ _).andThen fun _ _ _ _ => ?_
      exact walkIndirectSlot_again hsize hread _ _ _ _

end Filesystem

end MkfsExt4
