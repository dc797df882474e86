import McSim.Lib.Contract
import Mathlib.Data.Nat.Bitwise
import Mathlib.Data.Finset.Max
import Mathlib.Data.Finset.Sort

/-! Messages, event types and coherence states shared by every component.
A component pointer is an element of a linearly ordered type `C`; the order is the
address order that `std::set<Component *>` iterates in. -/

namespace McSim

open Contract (Meets)

inductive ComponentType
  | core | o3core | cachel1d | cachel1i | cachel2 | directory | crossbar
  | memoryController | tlbl1d | tlbl1i | tlbl2
deriving DecidableEq, Repr

inductive EventType
  | read | write | writeNd | evict | evictNd | dirEvict
  | eToM | eToI | eToS | eToSNd | mToS | mToM | mToI | sToS | sToSNd | mToE
  | dirRd | dirRdNd | eRd | sRd | nack | invalidate | invalidateNd | sRdWr | rdBypass
  | tlbRd | iToE | rdDirInfoReq | rdDirInfoRep | nop
deriving DecidableEq, Repr

inductive CoherenceState
  | invalid | shared | exclusive | modified
  | trToI | trToS | trToM | trToE | mToS
deriving DecidableEq, Repr

/-- `LocalQueueElement`. The head of `path` is the top of the stack `from`.
`serial` is ghost: the call that brought the element in, `none` for one that the
component built itself. -/
structure Lqe (C : Type) where
  path : List C
  type : EventType
  address : Nat
  thId : Nat := 0
  dummy : Bool := false
  robEntry : Int := -1
  serial : Option Nat := none
deriving DecidableEq, Repr

def Lqe.new {C : Type} (comp : C) (type : EventType) (address thId : Nat) : Lqe C :=
  { path := [comp], type, address, thId }

/-- Why a run of the simulator stops: a `LOG(FATAL)`, one of those that check
`sharedl1.size()`, or a step C++ gives no meaning to. -/
inductive Abort
  | fatal
  | fatalSize
  | undefined
deriving DecidableEq, Repr

namespace Lqe
variable {C : Type}

def top (lqe : Lqe C) : Except Abort C :=
  match lqe.path with
  | [] => .error .undefined
  | c :: _ => .ok c

def pop (lqe : Lqe C) : Except Abort (Lqe C) :=
  match lqe.path with
  | [] => .error .undefined
  | _ :: path => .ok { lqe with path }

def push (comp : C) (lqe : Lqe C) : Lqe C := { lqe with path := comp :: lqe.path }

theorem top_ok {lqe : Lqe C} {c : C} {path : List C} (h : lqe.path = c :: path) :
    lqe.top = .ok c := by
  rw [top, h]

theorem pop_ok {lqe : Lqe C} {c : C} {path : List C} (h : lqe.path = c :: path) :
    lqe.pop = .ok { lqe with path } := by
  rw [pop, h]

theorem meets_top {allowed : Abort → Prop} {post : C → Prop} {lqe : Lqe C} :
    Meets allowed post lqe.top ↔
      (lqe.path = [] → allowed .undefined) ∧ ∀ c path, lqe.path = c :: path → post c := by
  unfold top
  cases lqe.path <;> simp

theorem meets_pop {allowed : Abort → Prop} {post : Lqe C → Prop} {lqe : Lqe C} :
    Meets allowed post lqe.pop ↔ (lqe.path = [] → allowed .undefined) ∧
      ∀ c path, lqe.path = c :: path → post { lqe with path } := by
  unfold pop
  cases lqe.path <;> simp

end Lqe

inductive CallKind
  | req | crq | rep
deriving DecidableEq, Repr

/-- A call of `add_req_event`, `add_crq_event` or `add_rep_event` on a neighbour, with
`num_flits` where the multi-flit form is meant. -/
structure Call (C : Type) where
  callee : C
  kind : CallKind
  time : Nat
  lqe : Lqe C
  flits : Option Nat := none
deriving DecidableEq, Repr

def evictions {C : Type} (calls : List (Call C)) : List Nat :=
  (calls.filter fun call => call.lqe.type = .evict ∨ call.lqe.type = .evictNd).map (·.lqe.address)

theorem mem_evictions {C : Type} {calls : List (Call C)} {address : Nat} :
    address ∈ evictions calls ↔
    ∃ call ∈ calls, (call.lqe.type = .evict ∨ call.lqe.type = .evictNd) ∧
      call.lqe.address = address := by
  simp [evictions, and_assoc]

@[simp] theorem evictions_append {C : Type} (a b : List (Call C)) :
    evictions (a ++ b) = evictions a ++ evictions b := by
  simp [evictions]

theorem address_parts {lsb n set : Nat} (tag : Nat) (hset : set < n) :
    ((tag * n + set) <<< lsb) >>> lsb % n = set ∧ ((tag * n + set) <<< lsb) >>> lsb / n = tag ∧
      ((tag * n + set) <<< lsb) % 2 ^ lsb = 0 := by
  rw [Nat.shiftLeft_shiftRight, Nat.shiftLeft_eq, Nat.mul_mod_left]
  rw [Nat.mul_comm, Nat.mul_add_mod, Nat.mod_eq_of_lt hset, Nat.mul_add_div (by omega),
    Nat.div_eq_of_lt hset, Nat.add_zero]
  exact ⟨rfl, rfl, rfl⟩

def ceilByY (x y : Nat) : Nat := (x + y - 1) / y * y

theorem le_ceilByY {x y : Nat} (hy : 0 < y) : x ≤ ceilByY x y := by
  unfold ceilByY
  have h := Nat.div_add_mod (x + y - 1) y
  have hm := Nat.mod_lt (x + y - 1) hy
  rw [Nat.mul_comm] at h
  omega

theorem dvd_ceilByY (x y : Nat) : y ∣ ceilByY x y := Nat.dvd_mul_left _ _

section Sets
variable {C : Type} [LinearOrder C]

/-- `*s.begin()` of a `std::set<Component *>` -/
def first (s : Finset C) : Option C := if h : s.Nonempty then some (s.min' h) else none

theorem first_mem {s : Finset C} {c : C} (h : first s = some c) : c ∈ s := by
  unfold first at h
  split at h
  · cases h
    exact Finset.min'_mem _ _
  · cases h

theorem first_eq_none {s : Finset C} : first s = none ↔ s = ∅ := by
  unfold first
  split
  · rename_i h
    simp [h.ne_empty]
  · rename_i h
    simp [Finset.not_nonempty_iff_eq_empty.mp h]

/-- The members in the order in which a `std::set<Component *>` is traversed. -/
def inOrder (s : Finset C) : List C := s.sort

@[simp] theorem mem_inOrder {s : Finset C} {c : C} : c ∈ inOrder s ↔ c ∈ s := Finset.mem_sort _

@[simp] theorem inOrder_empty : inOrder (∅ : Finset C) = [] := Finset.sort_empty _

@[simp] theorem inOrder_singleton (c : C) : inOrder {c} = [c] := Finset.sort_singleton _ _

@[simp] theorem first_singleton (c : C) : first {c} = some c := by
  simp [first]

end Sets

def whichMc (interleaveBaseBit interleaveXorBaseBit numMcs address : Nat) : Nat :=
  ((address >>> interleaveBaseBit) ^^^ (address >>> interleaveXorBaseBit)) % numMcs

end McSim
