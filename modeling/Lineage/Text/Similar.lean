/-!
# Similar words

Two words are similar if they share enough of their characters in long common pieces: the longest
common piece is taken first, then what is common to the left of it and what is common to the right.
-/

namespace Lineage.Text

/-- The length of what two words have in common at their fronts. -/
def commonFront : List Char → List Char → Nat
  | a :: as, b :: bs => if a == b then commonFront as bs + 1 else 0
  | _, _ => 0

/-- The longest common piece of two words, as its start in each and its length; the first one in
the first word, then in the second, if several are as long. -/
def longestCommon (as bs : List Char) : Nat × Nat × Nat :=
  (List.range as.length).foldl
    (fun best i =>
      (List.range bs.length).foldl
        (fun (bi, bj, n) j =>
          let k := commonFront (as.drop i) (bs.drop j)
          if n < k then (i, j, k) else (bi, bj, n)) best)
    (0, 0, 0)

/-- The number of characters in the common pieces of two words; `fuel` bounds how often a word is
cut. -/
def sharedWithin : Nat → List Char → List Char → Nat
  | 0, _, _ => 0
  | fuel + 1, as, bs =>
    match longestCommon as bs with
    | (_, _, 0) => 0
    | (i, j, n) =>
      n + sharedWithin fuel (as.take i) (bs.take j)
        + sharedWithin fuel (as.drop (i + n)) (bs.drop (j + n))

/-- How much two words have in common, as a fraction of all their characters: the characters in
common pieces, and the characters of both words. -/
def likeness (a b : String) : Nat × Nat :=
  let as := a.toList
  let bs := b.toList
  (2 * sharedWithin (as.length + 1) as bs, as.length + bs.length)

/-- Whether the common pieces of two words make up at least three fifths of both. -/
def similar (a b : String) : Bool :=
  let (shared, all) := likeness a b
  3 * all ≤ 5 * shared

/-- Whether `a` comes before `b` among the words that are like the given one: the liker word does,
and of two that are as like, the greater one. -/
def closerTo (word a b : String) : Bool :=
  let (sharedA, allA) := likeness a word
  let (sharedB, allB) := likeness b word
  sharedB * allA < sharedA * allB || (sharedB * allA == sharedA * allB && decide (b ≤ a))

/-- At most `count` of the known words that are similar to the given one, the closest first. -/
def closest (count : Nat) (known : List String) (word : String) : List String :=
  ((known.filter (similar · word)).mergeSort (closerTo word)).take count

end Lineage.Text
