import Mathlib.Data.List.TakeWhile

/-!
# Lower bound by binary search

The loop that halves a window of indices.  `below i` says that index `i` lies before the place looked
for; it is asked of indices inside the window only.  When `below` holds on an initial part of the
window and nowhere else, the search returns the end of that part.
-/

namespace Lapligence

/-- `while (low < high) { mid = low + (high - low) / 2; if (below mid) low = mid + 1; else high =
mid; }`, with at most `fuel` turns.  Every turn makes the window smaller, so its size is fuel
enough. -/
def lowerBound (below : ℕ → Bool) : ℕ → ℕ → ℕ → ℕ
  | 0, low, _ => low
  | fuel + 1, low, high =>
    if low < high then
      let mid := low + (high - low) / 2
      if below mid then lowerBound below fuel (mid + 1) high else lowerBound below fuel low mid
    else low

/-- The search finds the end `stop` of the indices that lie below. -/
lemma lowerBound_eq {below : ℕ → Bool} {fuel low high stop : ℕ} (hfuel : high - low ≤ fuel)
    (hlow : low ≤ stop) (hhigh : stop ≤ high)
    (hbelow : ∀ i, low ≤ i → i < high → (below i = true ↔ i < stop)) :
    lowerBound below fuel low high = stop := by
  induction fuel generalizing low high with
  | zero =>
    simp only [lowerBound]
    omega
  | succ fuel ih =>
    simp only [lowerBound]
    split_ifs with hlt hmid
    · have hstop := (hbelow (low + (high - low) / 2) (by omega) (by omega)).1 hmid
      exact ih (by omega) (by omega) hhigh fun i hi hih => hbelow i (by omega) hih
    · have hstop := mt (hbelow (low + (high - low) / 2) (by omega) (by omega)).2 hmid
      exact ih (by omega) hlow (by omega) fun i hi hih => hbelow i hi (by omega)
    · omega

/-! ### Lists whose elements with a property come first -/

section First

variable {α : Type*} {xs : List α} {p : α → Bool}

lemma dropWhile_eq_filter (h : xs.Pairwise fun a b => p b = true → p a = true) :
    xs.dropWhile p = xs.filter fun x => !p x := by
  induction xs with
  | nil => rfl
  | cons x xs ih =>
    obtain ⟨hx, hxs⟩ := List.pairwise_cons.1 h
    cases hpx : p x with
    | true => simp [hpx, ih hxs]
    | false =>
      have hself : xs.filter (fun x => !p x) = xs := List.filter_eq_self.2 fun y hy => by
        rw [Bool.not_eq_true', Bool.eq_false_iff]
        intro hpy
        simp [hx y hy hpy] at hpx
      simp [hpx, hself]

/-- The search counts the first elements. -/
lemma lowerBound_takeWhile (h : xs.Pairwise fun a b => p b = true → p a = true) :
    lowerBound (fun i => xs[i]?.any p) xs.length 0 xs.length = (xs.takeWhile p).length := by
  refine lowerBound_eq (by omega) (Nat.zero_le _) (List.takeWhile_sublist p).length_le ?_
  intro i _ hi
  have hget : xs[i]? = some xs[i] := List.getElem?_eq_getElem hi
  rw [hget, Option.any_some]
  induction xs generalizing i with
  | nil => simp at hi
  | cons x xs ih =>
    obtain ⟨hx, hxs⟩ := List.pairwise_cons.1 h
    cases hpx : p x with
    | false =>
      have hall : p (x :: xs)[i] = false := by
        cases i with
        | zero => exact hpx
        | succ =>
          by_contra htrue
          have := hx _ (List.getElem_mem _) (by simpa using htrue)
          simp [hpx] at this
      simp [hall, hpx]
    | true =>
      cases i with
      | zero => simp [hpx]
      | succ i =>
        have hi' : i < xs.length := by simpa using hi
        simpa [List.takeWhile_cons, hpx] using
          ih hxs i (Nat.zero_le _) hi' (List.getElem?_eq_getElem hi')

lemma drop_length_takeWhile (p : α → Bool) (xs : List α) :
    xs.drop (xs.takeWhile p).length = xs.dropWhile p := by
  induction xs with
  | nil => rfl
  | cons x xs ih =>
    cases hpx : p x with
    | false => simp [hpx]
    | true => simpa [hpx] using ih

lemma getElem?_length_takeWhile (p : α → Bool) (xs : List α) :
    xs[(xs.takeWhile p).length]? = (xs.dropWhile p).head? := by
  rw [← drop_length_takeWhile, List.head?_drop]

end First

end Lapligence
