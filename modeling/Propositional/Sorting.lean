/-
Stable sorting by insertion. The sorted list holds the same items (`sort_perm`);
it is in order whenever any two of them compare one way or the other and the
comparison is transitive on them (`sort_sorted`).
-/

namespace Propositional.Sorting

variable {α : Type u} {β : Type v}

/-- Puts an item in front of the first one that it may precede. -/
def insert (le : α → α → Bool) (x : α) : List α → List α
  | [] => [x]
  | y :: ys => if le x y then x :: y :: ys else y :: insert le x ys

def sort (le : α → α → Bool) (xs : List α) : List α := xs.foldr (insert le) []

theorem insert_perm (le : α → α → Bool) (x : α) (xs : List α) :
    (insert le x xs).Perm (x :: xs) := by
  induction xs with
  | nil => exact .refl _
  | cons y ys ih =>
    unfold insert
    split
    · exact .refl _
    · exact (List.Perm.cons y ih).trans (.swap x y ys)

theorem sort_perm (le : α → α → Bool) (xs : List α) : (sort le xs).Perm xs := by
  induction xs with
  | nil => exact .refl _
  | cons x xs ih => exact (insert_perm le x _).trans (.cons x ih)

/-- Items may as well be sorted by what they are mapped to, before they are mapped. -/
theorem insert_map (le : α → α → Bool) (f : β → α) (x : β) (xs : List β) :
    insert le (f x) (xs.map f) = (insert (fun a b => le (f a) (f b)) x xs).map f := by
  induction xs with
  | nil => rfl
  | cons y ys ih =>
    rw [List.map_cons, insert, insert]
    split
    · rfl
    · rw [ih, List.map_cons]

theorem sort_map (le : α → α → Bool) (f : β → α) (xs : List β) :
    sort le (xs.map f) = (sort (fun a b => le (f a) (f b)) xs).map f := by
  induction xs with
  | nil => rfl
  | cons x xs ih =>
    have hcons : sort le ((x :: xs).map f) = insert le (f x) (sort le (xs.map f)) := rfl
    rw [hcons, ih, insert_map]
    rfl

variable {le : α → α → Bool} {P : α → Prop}

theorem insert_sorted (total : ∀ a b, P a → P b → le a b = true ∨ le b a = true)
    (trans : ∀ a b c, P a → P b → P c → le a b = true → le b c = true → le a c = true)
    {x : α} (hx : P x) {xs : List α} (hxs : ∀ y ∈ xs, P y) (h : xs.Pairwise (le · ·)) :
    (insert le x xs).Pairwise (le · ·) := by
  induction xs with
  | nil => simp [insert]
  | cons y ys ih =>
    obtain ⟨hy, hys⟩ := List.pairwise_cons.1 h
    have hPy := hxs y List.mem_cons_self
    have hPys : ∀ z ∈ ys, P z := fun z hz => hxs z (List.mem_cons_of_mem y hz)
    unfold insert
    split
    · rename_i hxy
      refine List.pairwise_cons.2 ⟨?_, h⟩
      intro z hz
      rcases List.mem_cons.1 hz with rfl | hz
      · exact hxy
      · exact trans _ _ _ hx hPy (hPys z hz) hxy (hy z hz)
    · rename_i hxy
      refine List.pairwise_cons.2 ⟨?_, ih hPys hys⟩
      intro z hz
      rcases List.mem_cons.1 ((insert_perm le x ys).mem_iff.1 hz) with rfl | hz
      · exact (total z y hx hPy).resolve_left hxy
      · exact hy z hz

theorem sort_sorted (total : ∀ a b, P a → P b → le a b = true ∨ le b a = true)
    (trans : ∀ a b c, P a → P b → P c → le a b = true → le b c = true → le a c = true)
    {xs : List α} (hxs : ∀ x ∈ xs, P x) : (sort le xs).Pairwise (le · ·) := by
  induction xs with
  | nil => exact .nil
  | cons x xs ih =>
    have hrest : ∀ y ∈ xs, P y := fun y hy => hxs y (List.mem_cons_of_mem x hy)
    refine insert_sorted total trans (hxs x List.mem_cons_self) (fun y hy => ?_) (ih hrest)
    exact hrest y ((sort_perm le xs).mem_iff.1 hy)

end Propositional.Sorting
