import Mathlib.Algebra.BigOperators.Group.List.Basic
import Mathlib.Algebra.Order.Group.Unbundled.Basic
import Mathlib.Algebra.Order.Monoid.Defs
import Mathlib.Data.List.Flatten

/-!
# Intervals inside a window

Intervals whose end points come one after the other are disjoint, so together they are no longer
than the window they lie in. The points are of any type, with a time `f` in an ordered group.
-/

namespace Conc

variable {α β : Type*}

def endpoints (intervals : List (β × β)) : List β := intervals.flatMap fun iv => [iv.1, iv.2]

@[simp] theorem endpoints_nil : endpoints ([] : List (β × β)) = [] := rfl

@[simp] theorem endpoints_cons (iv : β × β) (intervals : List (β × β)) :
    endpoints (iv :: intervals) = iv.1 :: iv.2 :: endpoints intervals := rfl

/-- No interval runs backwards. -/
theorem le_of_endpoints [LE α] {f : β → α} {intervals : List (β × β)}
    (h : (endpoints intervals).Pairwise fun x y => f x ≤ f y) {iv : β × β}
    (hmem : iv ∈ intervals) : f iv.1 ≤ f iv.2 := by
  induction intervals with
  | nil => cases hmem
  | cons head rest ih =>
      rw [endpoints_cons, List.pairwise_cons, List.pairwise_cons] at h
      rcases List.mem_cons.mp hmem with rfl | hrest
      · exact h.1 _ List.mem_cons_self
      · exact ih h.2.2 hrest

/-- In a sequence of points that does not run backwards, nothing comes before the first point or
after the last. -/
theorem mem_window [Preorder α] {f : β → α} {l : List β}
    (h : l.Pairwise fun x y => f x ≤ f y) {first last : β} (hfirst : l.head? = some first)
    (hlast : l.getLast? = some last) {x : β} (hx : x ∈ l) :
    f first ≤ f x ∧ f x ≤ f last := by
  constructor
  · obtain ⟨rest, rfl⟩ := List.head?_eq_some_iff.mp hfirst
    rcases List.mem_cons.mp hx with rfl | hrest
    · exact le_refl _
    · exact (List.pairwise_cons.mp h).1 x hrest
  · obtain ⟨rest, rfl⟩ := List.getLast?_eq_some_iff.mp hlast
    rcases List.mem_append.mp hx with hrest | hx
    · exact (List.pairwise_append.mp h).2.2 x hrest last List.mem_cons_self
    · obtain rfl := List.mem_singleton.mp hx
      exact le_refl _

def total [AddCommGroup α] (f : β → α) (intervals : List (β × β)) : α :=
  (intervals.map fun iv => f iv.2 - f iv.1).sum

@[simp] theorem total_nil [AddCommGroup α] (f : β → α) : total f [] = 0 := rfl

@[simp] theorem total_cons [AddCommGroup α] (f : β → α) (iv : β × β) (intervals : List (β × β)) :
    total f (iv :: intervals) = f iv.2 - f iv.1 + total f intervals := by
  simp [total]

variable [AddCommGroup α] [PartialOrder α] [IsOrderedAddMonoid α] {f : β → α}

/-- Intervals that come one after the other between `first` and `last` are together no longer than
the distance from `first` to `last`. -/
theorem total_le_span {intervals : List (β × β)}
    (h : (endpoints intervals).Pairwise fun x y => f x ≤ f y) {first last : α}
    (hwindow : first ≤ last) (hfirst : ∀ x ∈ endpoints intervals, first ≤ f x)
    (hlast : ∀ x ∈ endpoints intervals, f x ≤ last) : total f intervals ≤ last - first := by
  induction intervals generalizing first with
  | nil =>
      rw [total_nil]
      exact sub_nonneg.mpr hwindow
  | cons iv rest ih =>
      rw [endpoints_cons] at h hfirst hlast
      obtain ⟨-, hrest⟩ := List.pairwise_cons.mp h
      obtain ⟨hafter, hrest⟩ := List.pairwise_cons.mp hrest
      -- what is left lies between the end of this interval and `last`
      have hstop : f iv.2 ≤ last := hlast _ (by simp)
      have htail : total f rest ≤ last - f iv.2 :=
        ih hrest hstop hafter fun x hx => hlast x (by simp [hx])
      have hstart : first ≤ f iv.1 := hfirst _ (by simp)
      rw [total_cons]
      calc f iv.2 - f iv.1 + total f rest
          ≤ f iv.2 - first + (last - f iv.2) := add_le_add (sub_le_sub_left hstart _) htail
        _ = last - first := by rw [add_comm, sub_add_sub_cancel]

/-- Intervals whose end points are points of the sequence, in its order, are together no longer
than the sequence. -/
theorem total_le_of_sublist {l : List β} (h : l.Pairwise fun x y => f x ≤ f y) {first last : β}
    (hfirst : l.head? = some first) (hlast : l.getLast? = some last) {intervals : List (β × β)}
    (hsub : (endpoints intervals).Sublist l) : total f intervals ≤ f last - f first := by
  have hwindow {x : β} (hx : x ∈ l) := mem_window h hfirst hlast hx
  apply total_le_span (h.sublist hsub)
  · exact (hwindow (List.mem_of_getLast? hlast)).1
  · exact fun x hx => (hwindow (hsub.subset hx)).1
  · exact fun x hx => (hwindow (hsub.subset hx)).2

end Conc
