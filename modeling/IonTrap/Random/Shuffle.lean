import IonTrap.Number.Basic
import IonTrap.Random.ChaCha

/-!
# Seeded shuffles

A shuffle goes through a list from the end and exchanges each element with one drawn from the
elements up to it. How a number is drawn from words follows the documented behaviour of the
generator's library, for lists shorter than 2³², but for one thing: the library draws words until
one is accepted, here the drawing ends after 1024 refusals. A word is refused with a probability
below one half, so no seed is expected to tell the two apart, and nothing is proved about a shuffle
but that it permutes.
-/

namespace IonTrap

namespace RandomWords

/-- Position of the highest bit of `n`, counted from 1. -/
def bitLength (n : Nat) : Nat := if n = 0 then 0 else n.log2 + 1

/-- Number of words. -/
def wordSize : Nat := 4294967296

/-- Draws a number below `range` as the high half of `v * range`. A word `v` is drawn again if the
low half exceeds the largest multiple of `range` by a power of two that fits a word. After `tries`
refused words the answer is 0, where drawing without bound would go on. -/
def below (range : Nat) : Nat → RandomWords → Nat × RandomWords
  | 0, r => (0, r)
  | tries + 1, r =>
    let (v, r) := r.next
    let product := v.toNat * range
    if product % wordSize < range * twoPow (32 - bitLength range) then (product / wordSize, r)
    else below range tries r

/-- Exchanges the elements at `k`, `k - 1`, …, `1` with drawn ones. -/
def shuffleFrom : Nat → Array Nat → RandomWords → Array Nat
  | 0, xs, _ => xs
  | k + 1, xs, r =>
    let (j, r) := below (k + 2) 1024 r
    shuffleFrom k (xs.swapIfInBounds (k + 1) j) r

end RandomWords

/-- Shuffles a list under a seed. -/
def shuffle (seed : Nat) (xs : List Nat) : List Nat :=
  (RandomWords.shuffleFrom (xs.length - 1) xs.toArray (.ofSeed seed)).toList

/-! ## A shuffle is a permutation -/

theorem RandomWords.perm_swapIfInBounds (xs : Array Nat) (i j : Nat) :
    (xs.swapIfInBounds i j).Perm xs := by
  unfold Array.swapIfInBounds
  split
  · split
    · exact Array.swap_perm _ _
    · exact .refl _
  · exact .refl _

theorem RandomWords.perm_shuffleFrom (k : Nat) (xs : Array Nat) (r : RandomWords) :
    (shuffleFrom k xs r).Perm xs := by
  induction k generalizing xs r with
  | zero => exact .refl _
  | succ k ih =>
    rw [shuffleFrom]
    generalize below (k + 2) 1024 r = drawn
    exact (ih _ _).trans (perm_swapIfInBounds _ _ _)

theorem perm_shuffle (seed : Nat) (xs : List Nat) : (shuffle seed xs).Perm xs := by
  have := RandomWords.perm_shuffleFrom (xs.length - 1) xs.toArray (.ofSeed seed)
  simpa [shuffle] using Array.perm_iff_toList_perm.1 this

end IonTrap
