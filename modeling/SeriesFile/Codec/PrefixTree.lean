import SeriesFile.Codec.BitSource

/-!
# Prefix codes

A prefix code gives every symbol a sequence of bits, none of which starts with another. As a tree,
a symbol sits at the end of the path that its bits describe.
-/

namespace SeriesFile.Codec

/-- A prefix code as a tree. -/
inductive PrefixTree where
  | nothing
  | symbol (n : Nat)
  | fork (zero one : PrefixTree)
  deriving DecidableEq

namespace PrefixTree

/-- Gives a symbol the path of some bits, unless it meets another symbol's. -/
def insert (n : Nat) : PrefixTree → List Bool → Option PrefixTree
  | nothing, [] => some (symbol n)
  | nothing, b :: bits =>
    (insert n nothing bits).map fun t => if b then fork nothing t else fork t nothing
  | fork zero one, b :: bits =>
    if b then (insert n one bits).map (fork zero) else (insert n zero bits).map (fork · one)
  | fork _ _, [] => none
  | symbol _, _ => none

/-- The tree of symbols with their bits. -/
def ofCodes (codes : List (Nat × List Bool)) : Option PrefixTree :=
  codes.foldlM (fun t (n, bits) => t.insert n bits) nothing

def next : PrefixTree → BitSource Nat
  | nothing => BitSource.malformed
  | symbol n => pure n
  | fork zero one => do
    if ← BitSource.bit then one.next else zero.next

/-- The symbol that stands at a place, and the place after it. -/
def at? (bit : Nat → Bool) : PrefixTree → (place : Nat) → Option (Nat × Nat)
  | nothing, _ => none
  | symbol n, place => some (n, place)
  | fork zero one, place =>
    if bit place then one.at? bit (place + 1) else zero.at? bit (place + 1)

end PrefixTree

end SeriesFile.Codec
