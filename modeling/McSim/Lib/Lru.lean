import Mathlib.Data.List.Nodup
import Mathlib.Data.List.TakeDrop

/-! Caches that lose the least recently used.
A cache of `n` is a list, the latest first. It holds the first `n` of the distinct members of the
history, in the order of their last use. -/

namespace Lru

variable {α : Type} [DecidableEq α] {n : Nat} {a b : α} {cache history : List α}

/-- The distinct members of a history, the latest use first. Histories are given the latest
first. -/
def recency : List α → List α
  | [] => []
  | a :: history => a :: (recency history).filter (· ≠ a)

def recent (n : Nat) (history : List α) : List α := (recency history).take n

/-- A use of a cache: `a` comes to the front, and if it was not there and the cache is full, the
last one goes. -/
def access (n : Nat) (a : α) (cache : List α) : List α :=
  if a ∈ cache then a :: cache.filter (· ≠ a)
  else a :: if n ≤ cache.length then cache.dropLast else cache

def misses (n : Nat) : List α → Nat
  | [] => 0
  | a :: history => misses n history + if a ∈ recent n history then 0 else 1

end Lru
