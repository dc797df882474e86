import McSim.Lib.LastWrite
import McSim.Lib.OrderedMap
import McSim.Pthread.Sim

/-! Thread-local storage.
A key is a number that every thread has a table entry for. The set of keys is kept once, with their
destructors, and again in the table of each thread; key 0 can be set without being created. -/

namespace McSim.Pthread

open OrderedMap

/-- `PthreadTLS`; `NULL` is 0. -/
structure PthreadTLS where
  tls : List (Nat × Nat) := []
deriving DecidableEq, Repr

namespace PthreadTLS

def addKey (x : PthreadTLS) (key : Nat) : Except Stop PthreadTLS :=
  if find key x.tls = none then return { x with tls := assign key 0 x.tls }
  else if key = 0 then return x
  else .error .assertion

def removeKey (x : PthreadTLS) (key : Nat) : PthreadTLS × Bool :=
  if find key x.tls = none then (x, false) else ({ x with tls := erase key x.tls }, true)

def setData (x : PthreadTLS) (key data : Nat) : PthreadTLS × Nat :=
  if find key x.tls = none ∧ key ≠ 0 then (x, einval)
  else ({ x with tls := assign key data x.tls }, 0)

def getData (x : PthreadTLS) (key : Nat) : Nat := (find key x.tls).getD 0

/-- There is an entry, perhaps with `NULL`. -/
def has (x : PthreadTLS) (key : Nat) : Prop := (find key x.tls).isSome

variable {x x' : PthreadTLS} {k key data error : Nat}

theorem has_iff : x.has k ↔ find k x.tls ≠ none := Option.isSome_iff_ne_none

def withKey (key : Nat) (x : PthreadTLS) : PthreadTLS :=
  if find key x.tls = none then { x with tls := assign key 0 x.tls } else x

theorem addKey_ok (step : x.addKey key = .ok x') :
    x' = x.withKey key ∧ (key = 0 ∨ ¬ x.has key) := by
  unfold addKey at step
  unfold withKey
  split at step
  · rename_i absent
    exact ⟨(Except.ok.inj step).symm.trans (if_pos absent).symm, .inr fun h => has_iff.mp h absent⟩
  · rename_i present
    split at step
    · rename_i zero
      exact ⟨(Except.ok.inj step).symm.trans (if_neg present).symm, .inl zero⟩
    · cases step

theorem has_withKey : (x.withKey key).has k ↔ x.has k ∨ k = key := by
  unfold withKey
  split
  · rw [has, find_assign]
    by_cases same : k = key
    · simp [same]
    · simp [same, has]
  · rename_i present
    refine ⟨.inl, ?_⟩
    rintro (h | rfl)
    · exact h
    · exact has_iff.mpr present

theorem getData_withKey : (x.withKey key).getData k = x.getData k := by
  unfold withKey
  split
  · rename_i absent
    rw [getData, getData, find_assign]
    split
    · rename_i same
      rw [same, absent]
      rfl
    · rfl
  · rfl

theorem has_removeKey : (x.removeKey key).1.has k ↔ x.has k ∧ k ≠ key := by
  unfold removeKey
  split
  · rename_i absent
    refine ⟨fun h => ⟨h, ?_⟩, And.left⟩
    rintro rfl
    exact has_iff.mp h absent
  · rw [has, find_erase]
    by_cases same : k = key
    · simp [same]
    · simp [same, has]

theorem removeKey_of_not_has (h : ¬ x.has key) : (x.removeKey key).1 = x := by
  rw [removeKey, if_pos (not_not.mp (mt has_iff.mpr h))]

theorem removeKey_success : (x.removeKey key).2 = true ↔ x.has key := by
  unfold removeKey
  split
  · rename_i absent
    exact iff_of_false Bool.false_ne_true fun h => has_iff.mp h absent
  · rename_i present
    exact iff_of_true rfl (has_iff.mpr present)

theorem setData_ok (h : x.has key ∨ key = 0) :
    x.setData key data = ({ x with tls := assign key data x.tls }, 0) := by
  refine if_neg fun bad => ?_
  rcases h with h | zero
  · exact has_iff.mp h bad.1
  · exact bad.2 zero

theorem setData_error (h : ¬ (x.has key ∨ key = 0)) : x.setData key data = (x, einval) := by
  obtain ⟨absent, other⟩ := not_or.mp h
  exact if_pos ⟨not_not.mp (mt has_iff.mpr absent), other⟩

theorem has_assign : ({ x with tls := assign key data x.tls } : PthreadTLS).has k ↔
    x.has k ∨ k = key := by
  rw [has, find_assign]
  by_cases same : k = key
  · simp [same]
  · simp [same, has]

end PthreadTLS

/-- `PTHREAD_KEYS_MAX` of the C library -/
def pthreadKeysMax : Nat := 1024

def eagain : Nat := 11

/-- `PthreadTLSManager`; a destructor is its address. -/
structure PthreadTLSManager where
  newkey : Nat := 1
  tls : List (Nat × PthreadTLS) := []
  destr : List (Nat × Nat) := []
deriving DecidableEq, Repr

namespace PthreadTLSManager

def getTLS (s : PthreadTLSManager) (t : Nat) : Except Stop PthreadTLS :=
  match find t s.tls with
  | none => .error .assertion
  | some x => return x

def addThread (s : PthreadTLSManager) (t : Nat) : Except Stop PthreadTLSManager :=
  if (find t s.tls).isSome then .error .assertion
  else do
    let x ← s.destr.foldlM (fun x entry => x.addKey entry.1) ({} : PthreadTLS)
    return { s with tls := assign t x s.tls }

/-- `PthreadTLSManager::KillThread`, with the destructors that it calls and what on -/
def killThread (s : PthreadTLSManager) (t : Nat) :
    Except Stop (PthreadTLSManager × List (Nat × Nat)) := do
  let x ← s.getTLS t
  let run := s.destr.filterMap fun entry =>
    if t ≠ 0 ∧ entry.2 ≠ 0 then some (entry.2, x.getData entry.1) else none
  return ({ s with tls := erase t s.tls }, run)

/-- `PthreadTLSManager::AddKey`, with the number stored to `*key`, and the error -/
def addKey (s : PthreadTLSManager) (key func : Nat) : Except Stop (PthreadTLSManager × Nat × Nat) :=
  if key = 0 then .error .assertion
  else
    let new := s.newkey
    let s := { s with newkey := (s.newkey + 1) % 2 ^ 32 }
    if pthreadKeysMax ≤ s.tls.length then return (s, new, eagain)
    else do
      let tls ← s.tls.mapM fun entry => do
        let x ← entry.2.addKey new
        return (entry.1, x)
      if (find new s.destr).isSome then .error .assertion
      else return ({ s with tls, destr := assign new func s.destr }, new, 0)

def removeKey (s : PthreadTLSManager) (key : Nat) : PthreadTLSManager × Nat :=
  let success := s.tls.all (fun entry => (entry.2.removeKey key).2) && (find key s.destr).isSome
  ({ s with
      tls := mapValues (fun x => (x.removeKey key).1) s.tls
      destr := erase key s.destr },
    if success then 0 else einval)

def setData (s : PthreadTLSManager) (t key data : Nat) : Except Stop (PthreadTLSManager × Nat) := do
  let x ← s.getTLS t
  let r := x.setData key data
  return ({ s with tls := assign t r.1 s.tls }, r.2)

def getData (s : PthreadTLSManager) (t key : Nat) : Except Stop Nat := do
  let x ← s.getTLS t
  return x.getData key

end PthreadTLSManager

/-- A call of the manager that came back, with what it gave back -/
inductive KeyEvent
  | addThread (t : Nat)
  | killThread (t : Nat)
  | addKey (key error : Nat)
  | removeKey (key error : Nat)
  | setData (t key data error : Nat)
deriving DecidableEq, Repr

namespace KeyEvent

def life (k : Nat) : KeyEvent → Option (Option Unit)
  | addKey key error => if key = k ∧ error = 0 then some (some ()) else none
  | removeKey key error => if key = k ∧ error = 0 then some none else none
  | _ => none

def write (t k : Nat) : KeyEvent → Option (Option Nat)
  | addThread u => if u = t then some none else none
  | addKey key error => if key = k ∧ error = 0 then some none else none
  | setData u key data error => if u = t ∧ key = k ∧ error = 0 then some (some data) else none
  | _ => none

variable {t k v : Nat} {e : KeyEvent}

end KeyEvent

namespace PthreadTLSManager

inductive Call : PthreadTLSManager → KeyEvent → PthreadTLSManager → Prop
  | addThread {s s' t} (step : s.addThread t = .ok s') : Call s (.addThread t) s'
  | killThread {s s' t run} (step : s.killThread t = .ok (s', run)) : Call s (.killThread t) s'
  | addKey {s s' key func new error} (step : s.addKey key func = .ok (s', new, error)) :
    Call s (.addKey new error) s'
  | removeKey {s key} : Call s (.removeKey key (s.removeKey key).2) (s.removeKey key).1
  | setData {s s' t key data error} (step : s.setData t key data = .ok (s', error)) :
    Call s (.setData t key data error) s'

inductive Run : List KeyEvent → PthreadTLSManager → Prop
  | start : Run [] {}
  | call {events s e s'} (run : Run events s) (step : Call s e s') : Run (events ++ [e]) s'

variable {s s' : PthreadTLSManager} {t u k key func new error data : Nat} {x x' : PthreadTLS}
  {e : KeyEvent} {events : List KeyEvent}

def live (s : PthreadTLSManager) (key : Nat) : Prop := (find key s.destr).isSome

theorem foldlM_addKey {entries : List (Nat × Nat)}
    (run : entries.foldlM (fun x entry => x.addKey entry.1) x = .ok x') :
    (∀ k, x'.has k ↔ x.has k ∨ k ∈ entries.map (·.1)) ∧ ∀ k, x'.getData k = x.getData k := by
  induction entries generalizing x with
  | nil =>
    obtain rfl := Except.ok.inj run
    exact ⟨fun k => by simp, fun k => rfl⟩
  | cons entry entries ih =>
    rw [List.foldlM_cons] at run
    cases step : x.addKey entry.1 with
    | error stop => rw [step] at run; cases run
    | ok y =>
      rw [step] at run
      obtain ⟨rfl, -⟩ := PthreadTLS.addKey_ok step
      obtain ⟨has, data⟩ := ih run
      refine ⟨fun k => ?_, fun k => by rw [data, PthreadTLS.getData_withKey]⟩
      rw [has, PthreadTLS.has_withKey, List.map_cons, List.mem_cons, or_assoc]

theorem addThread_ok (step : s.addThread t = .ok s') :
    find t s.tls = none ∧ ∃ x : PthreadTLS, (∀ k, x.has k ↔ s.live k) ∧ (∀ k, x.getData k = 0) ∧
      s' = { s with tls := assign t x s.tls } := by
  unfold addThread at step
  split at step
  · cases step
  · rename_i new
    cases run : s.destr.foldlM (fun x entry => x.addKey entry.1) ({} : PthreadTLS) with
    | error stop => rw [run] at step; cases step
    | ok x =>
      rw [run] at step
      obtain ⟨has, data⟩ := foldlM_addKey run
      refine ⟨Option.not_isSome_iff_eq_none.mp new, x, fun k => ?_, data, (Except.ok.inj step).symm⟩
      rw [has, live, find_isSome]
      exact or_iff_right Bool.false_ne_true

theorem getTLS_ok (step : s.getTLS t = .ok x) : find t s.tls = some x := by
  unfold getTLS at step
  split at step
  · cases step
  · rename_i y found
    rw [found, Except.ok.inj step]

theorem killThread_ok {run : List (Nat × Nat)} (step : s.killThread t = .ok (s', run)) :
    s' = { s with tls := erase t s.tls } := by
  unfold killThread at step
  cases found : s.getTLS t with
  | error stop => rw [found] at step; cases step
  | ok x =>
    rw [found] at step
    exact (congrArg Prod.fst (Except.ok.inj step)).symm

theorem mapM_addKey {m m' : List (Nat × PthreadTLS)}
    (run : m.mapM (fun entry => do
      let x ← entry.2.addKey new
      return (entry.1, x)) = Except.ok m') :
    m' = mapValues (PthreadTLS.withKey new) m ∧ ∀ entry ∈ m, new = 0 ∨ ¬ entry.2.has new := by
  induction m generalizing m' with
  | nil =>
    rw [List.mapM_nil] at run
    obtain rfl := Except.ok.inj run
    exact ⟨rfl, List.forall_mem_nil _⟩
  | cons entry m ih =>
    rw [List.mapM_cons] at run
    cases step : entry.2.addKey new with
    | error stop => rw [step] at run; cases run
    | ok x =>
      rw [step] at run
      obtain ⟨rfl, fresh⟩ := PthreadTLS.addKey_ok step
      cases rest : m.mapM (fun entry => do
          let x ← entry.2.addKey new
          return (entry.1, x)) with
      | error stop => rw [rest] at run; cases run
      | ok m'' =>
        rw [rest] at run
        obtain ⟨rfl, all⟩ := ih rest
        exact ⟨(Except.ok.inj run).symm, List.forall_mem_cons.mpr ⟨fresh, all⟩⟩

theorem addKey_ok (step : s.addKey key func = .ok (s', new, error)) :
    new = s.newkey ∧
      (error = eagain ∧ pthreadKeysMax ≤ s.tls.length ∧
          s' = { s with newkey := (s.newkey + 1) % 2 ^ 32 } ∨
        error = 0 ∧ s.tls.length < pthreadKeysMax ∧ ¬ s.live new ∧
          (∀ entry ∈ s.tls, new = 0 ∨ ¬ entry.2.has new) ∧
          s' = { newkey := (s.newkey + 1) % 2 ^ 32
                 tls := mapValues (PthreadTLS.withKey new) s.tls
                 destr := assign new func s.destr }) := by
  unfold addKey at step
  split at step
  · cases step
  · dsimp only at step
    split at step
    · rename_i full
      have same := Except.ok.inj step
      exact ⟨(congrArg (·.2.1) same).symm, .inl ⟨(congrArg (·.2.2) same).symm, full,
        (congrArg (·.1) same).symm⟩⟩
    · rename_i room
      cases run : s.tls.mapM (fun entry => do
          let x ← entry.2.addKey s.newkey
          return (entry.1, x)) with
      | error stop => rw [run] at step; cases step
      | ok tls =>
        rw [run] at step
        obtain ⟨rfl, fresh⟩ := mapM_addKey run
        by_cases known : (find s.newkey s.destr).isSome = true
        · simp only [bind, Except.bind, known, if_true] at step
          cases step
        · simp only [bind, Except.bind, known, Bool.false_eq_true, if_false] at step
          have same := Except.ok.inj step
          obtain rfl : s.newkey = new := congrArg (·.2.1) same
          exact ⟨rfl, .inr ⟨(congrArg (·.2.2) same).symm, not_le.mp room, known, fresh,
            (congrArg (·.1) same).symm⟩⟩

theorem setData_ok (step : s.setData t key data = .ok (s', error)) :
    ∃ x, find t s.tls = some x ∧ s' = { s with tls := assign t (x.setData key data).1 s.tls } ∧
      error = (x.setData key data).2 := by
  unfold setData at step
  cases found : s.getTLS t with
  | error stop => rw [found] at step; cases step
  | ok x =>
    rw [found] at step
    have same := Except.ok.inj step
    exact ⟨x, getTLS_ok found, (congrArg Prod.fst same).symm, (congrArg Prod.snd same).symm⟩

theorem einval_ne_zero : einval ≠ 0 := by decide

theorem eagain_ne_zero : eagain ≠ 0 := by decide

structure Shared (s : PthreadTLSManager) : Prop where
  ordered : Ordered s.destr
  above : ∀ entry ∈ s.tls, ∀ k, s.live k → entry.2.has k
  below : ∀ entry ∈ s.tls, ∀ k, entry.2.has k → s.live k ∨ k = 0

theorem Shared.replace (h : Shared s) (above : ∀ k, s.live k → x.has k)
    (below : ∀ k, x.has k → s.live k ∨ k = 0) : Shared { s with tls := assign t x s.tls } where
  ordered := h.ordered
  above entry mem := by
    obtain rfl | mem := of_mem_assign mem
    · exact above
    · exact h.above entry mem
  below entry mem := by
    obtain rfl | mem := of_mem_assign mem
    · exact below
    · exact h.below entry mem

theorem live_assign {tls : List (Nat × PthreadTLS)} {newkey : Nat} :
    live { newkey, tls, destr := assign new func s.destr } k ↔ s.live k ∨ k = new := by
  rw [live, find_assign]
  by_cases same : k = new
  · simp [same]
  · simp [same, live]

theorem live_removeKey : (s.removeKey key).1.live k ↔ s.live k ∧ k ≠ key := by
  show (find k (erase key s.destr)).isSome ↔ _
  rw [find_erase]
  by_cases same : k = key
  · simp [same]
  · simp [same, live]

theorem Shared.removeKey_ok (h : Shared s) : (s.removeKey key).2 = 0 ↔ s.live key := by
  have flag : (s.tls.all (fun entry => (entry.2.removeKey key).2) && (find key s.destr).isSome) =
    true ↔
      s.live key := by
    rw [Bool.and_eq_true, List.all_eq_true]
    refine ⟨And.right, fun live => ⟨fun entry mem => ?_, live⟩⟩
    exact PthreadTLS.removeKey_success.mpr (h.above entry mem key live)
  show (if (_ && _) = true then 0 else einval) = 0 ↔ _
  rw [← flag]
  split
  · rename_i success
    exact iff_of_true rfl success
  · rename_i failure
    exact iff_of_false einval_ne_zero failure

theorem Shared.call (h : Shared s) (step : Call s e s') : Shared s' := by
  cases step with
  | addThread step =>
    obtain ⟨-, x, has, -, rfl⟩ := addThread_ok step
    exact h.replace (fun k => (has k).mpr) fun k hk => .inl ((has k).mp hk)
  | killThread step =>
    obtain rfl := killThread_ok step
    exact {
      ordered := h.ordered
      above entry mem := h.above entry (mem_erase.mp mem).1
      below entry mem := h.below entry (mem_erase.mp mem).1 }
  | addKey step =>
    obtain ⟨-, ⟨-, -, rfl⟩ | ⟨-, -, -, -, rfl⟩⟩ := addKey_ok step
    · exact ⟨h.ordered, h.above, h.below⟩
    · refine ⟨assign_ordered h.ordered, ?_, ?_⟩
      · intro entry mem k live
        obtain ⟨old, here, rfl⟩ := List.mem_map.mp mem
        exact PthreadTLS.has_withKey.mpr ((live_assign.mp live).imp_left (h.above old here k))
      · intro entry mem k has
        obtain ⟨old, here, rfl⟩ := List.mem_map.mp mem
        obtain has | new := PthreadTLS.has_withKey.mp has
        · exact (h.below old here k has).imp_left fun live => live_assign.mpr (.inl live)
        · exact .inl (live_assign.mpr (.inr new))
  | removeKey =>
    refine ⟨erase_ordered h.ordered, ?_, ?_⟩
    · intro entry mem k live
      obtain ⟨old, here, rfl⟩ := List.mem_map.mp mem
      obtain ⟨live, ne⟩ := live_removeKey.mp live
      exact PthreadTLS.has_removeKey.mpr ⟨h.above old here k live, ne⟩
    · intro entry mem k has
      obtain ⟨old, here, rfl⟩ := List.mem_map.mp mem
      obtain ⟨has, ne⟩ := PthreadTLS.has_removeKey.mp has
      exact (h.below old here k has).imp_left fun live => live_removeKey.mpr ⟨live, ne⟩
  | @setData _ t key data error step =>
    obtain ⟨x, found, rfl, -⟩ := setData_ok step
    have mem := mem_of_find found
    by_cases allowed : x.has key ∨ key = 0
    · rw [PthreadTLS.setData_ok allowed]
      refine h.replace (fun k live => PthreadTLS.has_assign.mpr (.inl (h.above _ mem k live))) ?_
      intro k has
      obtain has | rfl := PthreadTLS.has_assign.mp has
      · exact h.below _ mem k has
      · exact allowed.elim (h.below _ mem k) .inr
    · rw [PthreadTLS.setData_error allowed]
      exact h.replace (h.above _ mem) (h.below _ mem)

theorem Run.shared (run : Run events s) : Shared s := by
  induction run with
  | start => exact ⟨ordered_nil, List.forall_mem_nil _, List.forall_mem_nil _⟩
  | call run step ih => exact ih.call step

theorem Run.live_iff (run : Run events s) (k : Nat) :
    s.live k ↔ LastWrite.value (KeyEvent.life k) events = some () := by
  induction run with
  | start => exact iff_of_false Bool.false_ne_true (Option.some_ne_none ()).symm
  | @call events s e s' run step ih =>
    rw [LastWrite.value_concat]
    cases step with
    | addThread step =>
      obtain ⟨-, x, -, -, rfl⟩ := addThread_ok step
      exact ih
    | killThread step =>
      obtain rfl := killThread_ok step
      exact ih
    | @addKey _ key func new error step =>
      obtain ⟨-, ⟨rfl, -, rfl⟩ | ⟨rfl, -, -, -, rfl⟩⟩ := addKey_ok step
      · rw [KeyEvent.life, if_neg fun both => eagain_ne_zero both.2]
        exact ih
      · rw [live_assign, KeyEvent.life]
        by_cases same : new = k
        · rw [if_pos ⟨same, rfl⟩]
          exact iff_of_true (.inr same.symm) rfl
        · rw [if_neg fun both => same both.1]
          exact (or_iff_left (Ne.symm same)).trans ih
    | @removeKey key =>
      have ok : (s.removeKey key).2 = 0 ↔ s.live key := run.shared.removeKey_ok
      rw [live_removeKey, KeyEvent.life]
      by_cases same : key = k
      · subst same
        by_cases live : s.live key
        · rw [if_pos ⟨rfl, ok.mpr live⟩]
          exact iff_of_false (fun h => h.2 rfl) (Option.some_ne_none ()).symm
        · rw [if_neg fun both => live (ok.mp both.2)]
          exact iff_of_false (fun h => live h.1) (mt ih.mpr live)
      · rw [if_neg fun both => same both.1]
        exact (and_iff_left (Ne.symm same)).trans ih
    | setData step =>
      obtain ⟨x, -, rfl, -⟩ := setData_ok step
      exact ih

end PthreadTLSManager

end McSim.Pthread
