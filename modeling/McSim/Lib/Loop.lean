import Mathlib.Data.List.Range

/-! Counting loops over vectors.
A loop stops at the first index that fails. A vector that a loop goes over is given as the table of
a function; to change one entry is to change the function at one place, if the index is in range. -/

namespace Loop

variable {ε S α : Type} {n i k : Nat} {s s' : S} {step : Nat → S → Except ε S}

/-- `for (i = 0; i < n; i++) step(i)` -/
def loop (n : Nat) (step : Nat → S → Except ε S) (s : S) : Except ε S :=
  (List.range n).foldlM (fun s i => step i s) s

@[simp] theorem loop_zero : loop 0 step s = .ok s := rfl

theorem loop_succ : loop (n + 1) step s = (loop n step s).bind (step n) := by
  unfold loop
  simp only [List.range_succ, List.foldlM_append, List.foldlM_cons, List.foldlM_nil, bind_pure]
  rfl

theorem loop_eq {states : Nat → S} (h : ∀ i < n, step i (states i) = .ok (states (i + 1))) :
    loop n step (states 0) = .ok (states n) := by
  induction n with
  | zero => rfl
  | succ n ih =>
    rw [loop_succ, ih fun i hi => h i (Nat.lt_succ_of_lt hi)]
    exact h n (Nat.lt_succ_self n)

theorem loop_error {e : ε} (before : loop i step s = .ok s') (here : step i s' = .error e)
    (hi : i < n) : loop n step s = .error e := by
  induction n with
  | zero => exact absurd hi (Nat.not_lt_zero i)
  | succ n ih =>
    rw [loop_succ]
    obtain earlier | rfl := Nat.lt_succ_iff_lt_or_eq.mp hi
    · rw [ih earlier]
      rfl
    · rw [before]
      exact here

def table (n : Nat) (f : Nat → α) : List α := (List.range n).map f

@[simp] theorem length_table (f : Nat → α) : (table n f).length = n := by
  rw [table, List.length_map, List.length_range]

theorem mem_table {f : Nat → α} {a : α} : a ∈ table n f ↔ ∃ i < n, f i = a := by
  simp [table]

theorem get_table {f : Nat → α} (h : i < n) : (table n f)[i]? = some (f i) := by
  simp [table, h]

theorem getElem?_table {f : Nat → α} : (table n f)[i]? = if i < n then some (f i) else none := by
  split
  · rename_i inside
    exact get_table inside
  · rename_i out
    exact List.getElem?_eq_none (by rw [length_table]; exact not_lt.mp out)

def modify (e : ε) (i : Nat) (f : α → α) (xs : List α) : Except ε (List α) :=
  match xs[i]? with
  | none => .error e
  | some a => .ok (xs.set i (f a))

theorem modify_table {e : ε} {f : Nat → α} {g : α → α} (h : i < n) :
    modify e i g (table n f) = .ok (table n fun j => if j = i then g (f j) else f j) := by
  unfold modify
  rw [get_table h]
  refine congrArg Except.ok (List.ext_getElem? fun j => ?_)
  rw [List.getElem?_set]
  by_cases here : i = j
  · subst here
    rw [get_table h, if_pos rfl, if_pos (by rwa [length_table]), get_table h, if_pos rfl]
  · rw [if_neg here, table, table, List.getElem?_map, List.getElem?_map]
    by_cases inside : j < n
    · rw [List.getElem?_range inside, Option.map_some, Option.map_some, if_neg (Ne.symm here)]
    · rw [List.getElem?_eq_none (by rw [List.length_range]; exact not_lt.mp inside)]
      rfl

theorem table_congr {f g : Nat → α} (h : ∀ i < n, f i = g i) : table n f = table n g :=
  List.map_congr_left fun i hi => h i (List.mem_range.mp hi)

theorem map_table {β : Type} {f : Nat → α} {g : α → β} :
    (table n f).map g = table n fun i => g (f i) :=
  List.map_map

theorem replicate_eq_table (a : α) : List.replicate n a = table n fun _ => a := by
  rw [table, List.map_const', List.length_range]

/-- A loop has come as far as `i`: new values below it, old ones from it on. -/
def upto (i : Nat) (new old : Nat → α) (j : Nat) : α := if j < i then new j else old j

theorem table_upto_zero {new old : Nat → α} : table n (upto 0 new old) = table n old :=
  table_congr fun j _ => if_neg (Nat.not_lt_zero j)

theorem table_upto_all {new old : Nat → α} : table n (upto n new old) = table n new :=
  table_congr fun _ hj => if_pos hj

theorem modify_to {e : ε} {f f' : Nat → α} {g : α → α} (h : i < n)
    (next : ∀ j, f' j = if j = i then g (f j) else f j) :
    modify e i g (table n f) = .ok (table n f') := by
  rw [modify_table h, funext next]

theorem modify_upto {e : ε} {g : α → α} {new old : Nat → α} (h : i < n) (here : g (old i) = new i) :
    modify e i g (table n (upto i new old)) = .ok (table n (upto (i + 1) new old)) := by
  refine modify_to h fun j => ?_
  unfold upto
  by_cases same : j = i
  · subst same
    rw [if_pos rfl, if_neg (lt_irrefl j), if_pos (Nat.lt_succ_self j), here]
  · rw [if_neg same]
    by_cases below : j < i
    · rw [if_pos below, if_pos (Nat.lt_succ_of_lt below)]
    · rw [if_neg below, if_neg fun lt => (Nat.lt_succ_iff_lt_or_eq.mp lt).elim below same]

end Loop
