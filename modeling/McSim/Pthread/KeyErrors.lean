import McSim.Pthread.Key
import Mathlib.Data.Finset.Dedup
import Mathlib.Data.Finset.Card

/-! Errors of thread-local storage.
A key is refused when there are too many threads, and the refusal uses its number up; a removal of
key 0 fails and still takes the data that was set under it. -/

namespace McSim.Pthread.PthreadTLSManager

open OrderedMap

variable {s s' : PthreadTLSManager} {t k key func new error data : Nat} {x : PthreadTLS}
  {e : KeyEvent} {events : List KeyEvent} {keys : Finset Nat}

def Created (events : List KeyEvent) (k : Nat) : Prop :=
  ∃ before after, events = before ++ .addKey k 0 :: after ∧ .removeKey k 0 ∉ after

theorem life_eq_some : e.life k = some (some ()) ↔ e = .addKey k 0 := by
  cases e with
  | addKey key error => simp [KeyEvent.life]
  | addThread | killThread | removeKey | setData => simp [KeyEvent.life]

theorem life_eq_none_of (h : e.life k ≠ some none) :
    e.life k = none ∨ e.life k = some (some ()) := by
  cases life : e.life k with
  | none => exact .inl rfl
  | some now =>
    cases now with
    | none => exact absurd life h
    | some here => exact .inr rfl

theorem life_removes : e.life k = some none ↔ e = .removeKey k 0 := by
  cases e with
  | addKey key error => simp [KeyEvent.life]
  | addThread | killThread | removeKey | setData => simp [KeyEvent.life]

theorem created_iff : Created events k ↔ LastWrite.value (KeyEvent.life k) events = some () := by
  constructor
  · rintro ⟨before, after, rfl, kept⟩
    rw [List.append_cons]
    induction after using List.reverseRecOn with
    | nil => rw [List.append_nil, LastWrite.value_concat, life_eq_some.mpr rfl]; rfl
    | append_singleton after e ih =>
      obtain ⟨rest, last⟩ := not_or.mp (mt List.mem_append.mpr kept)
      have stays : e.life k ≠ some none := by
        rw [Ne, life_removes]
        rintro rfl
        exact last (List.mem_singleton_self _)
      rw [← List.append_assoc, LastWrite.value_concat, ih rest]
      obtain quiet | again := life_eq_none_of stays
      · rw [quiet]; rfl
      · rw [again]; rfl
  · intro alive
    obtain ⟨before, e, after, rfl, made, quiet⟩ := LastWrite.value_eq_some.mp alive
    obtain rfl := life_eq_some.mp made
    refine ⟨before, after, rfl, fun removed => ?_⟩
    have gone : (KeyEvent.removeKey k 0).life k = some none := life_removes.mpr rfl
    rw [quiet _ removed] at gone
    cases gone

theorem Run.created_iff_live (run : Run events s) : Created events k ↔ s.live k :=
  created_iff.trans (run.live_iff k).symm

theorem Run.threads_ordered (run : Run events s) : Ordered s.tls := by
  induction run with
  | start => exact ordered_nil
  | call run step ih =>
    cases step with
    | addThread step =>
      obtain ⟨-, x, -, -, rfl⟩ := addThread_ok step
      exact assign_ordered ih
    | killThread step =>
      obtain rfl := killThread_ok step
      exact erase_ordered ih
    | addKey step =>
      obtain ⟨-, ⟨-, -, rfl⟩ | ⟨-, -, -, -, rfl⟩⟩ := addKey_ok step
      · exact ih
      · exact mapValues_ordered ih
    | @removeKey key =>
      show Ordered (mapValues (fun x : PthreadTLS => (x.removeKey key).1) _)
      exact mapValues_ordered ih
    | setData step =>
      obtain ⟨x, -, rfl, -⟩ := setData_ok step
      exact assign_ordered ih

/-- `AddKey` is refused for want of keys only, and then does nothing. -/
def AddKeyCorrect (s : PthreadTLSManager) (keys : Finset Nat) : Prop :=
  ∀ key func, key ≠ 0 →
    ((∃ s' new, s.addKey key func = .ok (s', new, eagain)) ↔ pthreadKeysMax ≤ keys.card) ∧
    ∀ s' new error, s.addKey key func = .ok (s', new, error) → error ≠ 0 → s' = s

/-- `RemoveKey` fails for a key that is not there only, and then does nothing. -/
def RemoveKeyCorrect (s : PthreadTLSManager) (keys : Finset Nat) (key : Nat) : Prop :=
  ((s.removeKey key).2 = einval ↔ key ∉ keys) ∧
    ((s.removeKey key).2 ≠ 0 → (s.removeKey key).1 = s)

def SetDataCorrect (s : PthreadTLSManager) : Prop :=
  ∀ t key data s' error, s.setData t key data = .ok (s', error) → error ≠ 0 → s' = s

theorem addKey_refused (null : key ≠ 0) (full : pthreadKeysMax ≤ s.tls.length) :
    s.addKey key func = .ok ({ s with newkey := (s.newkey + 1) % 2 ^ 32 }, s.newkey, eagain) := by
  rw [addKey, if_neg null]
  dsimp only
  rw [if_pos full]
  rfl

theorem addKey_error (step : s.addKey key func = .ok (s', new, error)) (failed : error ≠ 0) :
    error = eagain ∧ pthreadKeysMax ≤ s.tls.length := by
  obtain ⟨-, ⟨refused, full, -⟩ | ⟨made, -⟩⟩ := addKey_ok step
  · exact ⟨refused, full⟩
  · exact absurd made failed

theorem succ_mod_ne (n : Nat) : (n + 1) % 2 ^ 32 ≠ n := by omega

theorem addKey_correct_iff :
    AddKeyCorrect s keys ↔ s.tls.length < pthreadKeysMax ∧ keys.card < pthreadKeysMax := by
  have refused : ∀ key func, key ≠ 0 →
      ((∃ s' new, s.addKey key func = .ok (s', new, eagain)) ↔ pthreadKeysMax ≤ s.tls.length) := by
    intro key func null
    refine ⟨?_, fun full => ⟨_, _, addKey_refused null full⟩⟩
    rintro ⟨s', new, step⟩
    exact (addKey_error step eagain_ne_zero).2
  constructor
  · intro correct
    have room : s.tls.length < pthreadKeysMax := by
      by_contra full
      have same := (correct 8 0 (by decide)).2 _ _ _
        (addKey_refused (by decide) (not_lt.mp full)) eagain_ne_zero
      exact succ_mod_ne s.newkey (congrArg newkey same)
    refine ⟨room, not_le.mp fun many => ?_⟩
    have full := (refused 8 0 (by decide)).mp ((correct 8 0 (by decide)).1.mpr many)
    exact absurd full (not_le.mpr room)
  · rintro ⟨room, few⟩ key func null
    refine ⟨?_, fun s' new error step failed => ?_⟩
    · rw [refused key func null]
      exact iff_of_false (not_le.mpr room) (not_le.mpr few)
    · exact absurd (addKey_error step failed).2 (not_le.mpr room)

theorem removeKey_einval (h : Shared s) : (s.removeKey key).2 = einval ↔ ¬ s.live key := by
  rw [← h.removeKey_ok]
  show (if _ then 0 else einval) = einval ↔ ¬ (if _ then 0 else einval) = 0
  split
  · exact iff_of_false einval_ne_zero.symm (not_not.mpr rfl)
  · exact iff_of_true rfl einval_ne_zero

theorem removeKey_unchanged (dead : ¬ s.live key) :
    (s.removeKey key).1 = s ↔ ∀ entry ∈ s.tls, ¬ entry.2.has key := by
  have gone : erase key s.destr = s.destr := erase_of_absent (Option.not_isSome_iff_eq_none.mp dead)
  constructor
  · intro same entry mem has
    rw [← same] at mem
    obtain ⟨old, -, rfl⟩ := List.mem_map.mp mem
    exact (PthreadTLS.has_removeKey.mp has).2 rfl
  · intro none
    show { s with tls := mapValues _ s.tls, destr := erase key s.destr } = s
    rw [gone, mapValues_eq_self fun entry mem => PthreadTLS.removeKey_of_not_has (none entry mem)]

theorem Run.removeKey_iff (run : Run events s) (created : ∀ k, k ∈ keys ↔ Created events k)
    (key : Nat) :
    RemoveKeyCorrect s keys key ↔
      key ≠ 0 ∨ 0 ∈ keys ∨ ∀ t x, find t s.tls = some x → ¬ x.has 0 := by
  have live : key ∈ keys ↔ s.live key := (created key).trans run.created_iff_live
  unfold RemoveKeyCorrect
  rw [removeKey_einval run.shared, live, and_iff_right Iff.rfl, Ne, run.shared.removeKey_ok]
  by_cases here : s.live key
  · refine iff_of_true (absurd here) ?_
    by_cases zero : key = 0
    · exact .inr (.inl (zero ▸ live.mpr here))
    · exact .inl zero
  · rw [forall_prop_of_true here, removeKey_unchanged here]
    by_cases zero : key = 0
    · subst zero
      rw [or_iff_right (not_not.mpr rfl), or_iff_right (mt live.mp here)]
      exact ⟨fun none t x found => none _ (mem_of_find found),
        fun none entry mem => none _ _ (find_of_mem run.threads_ordered mem)⟩
    · refine iff_of_true (fun entry mem has => ?_) (.inl zero)
      exact (run.shared.below entry mem key has).elim here zero

theorem Run.setData_correct (run : Run events s) : SetDataCorrect s := by
  intro t key data s' error step failed
  obtain ⟨x, found, rfl, rfl⟩ := setData_ok step
  have refused : ¬ (x.has key ∨ key = 0) := by
    intro allowed
    rw [PthreadTLS.setData_ok allowed] at failed
    exact failed rfl
  rw [PthreadTLS.setData_error refused, assign_of_find run.threads_ordered found]

/-- Exactly when the calls on keys fail as they should -/
theorem errors_correct_iff (events : List KeyEvent) (s : PthreadTLSManager) (run : Run events s)
    (keys : Finset Nat) (created : ∀ k, k ∈ keys ↔ Created events k) :
    (AddKeyCorrect s keys ↔ s.tls.length < pthreadKeysMax ∧ keys.card < pthreadKeysMax) ∧
    (∀ key, RemoveKeyCorrect s keys key ↔
      key ≠ 0 ∨ 0 ∈ keys ∨ ∀ t x, find t s.tls = some x → ¬ x.has 0) ∧
    SetDataCorrect s :=
  ⟨addKey_correct_iff, run.removeKey_iff created, run.setData_correct⟩

/-- One thread, one key, and no data under key 0 -/
theorem errors_correct_of_one_key : ∃ s, Run [.addThread 5, .addKey 1 0] s ∧
    AddKeyCorrect s {1} ∧ ∀ key, RemoveKeyCorrect s {1} key := by
  have run : Run [.addThread 5, .addKey 1 0]
      { newkey := 2, tls := [(5, ⟨[(1, 0)]⟩)], destr := [(1, 0)] } :=
    .call (.call .start (.addThread rfl)) (@Call.addKey _ _ 8 0 _ _ rfl)
  have created : ∀ k, k ∈ ({1} : Finset Nat) ↔ Created [.addThread 5, .addKey 1 0] k := by
    intro k
    rw [run.created_iff_live, live, find_isSome]
    simp
  have exactly := errors_correct_iff _ _ run {1} created
  refine ⟨_, run, exactly.1.mpr (by decide), fun key => (exactly.2.1 key).mpr ?_⟩
  refine .inr (.inr fun t x found => ?_)
  obtain ⟨-, rfl⟩ := Prod.mk.inj (List.mem_singleton.mp (mem_of_find found))
  exact Bool.false_ne_true

theorem run_threads (n : Nat) : ∃ s, Run ((List.range n).map .addThread) s ∧ s.tls.length = n ∧
    s.destr = [] ∧ ∀ entry ∈ s.tls, entry.1 < n := by
  induction n with
  | zero => exact ⟨{}, .start, rfl, rfl, List.forall_mem_nil _⟩
  | succ n ih =>
    obtain ⟨s, run, length, destr, below⟩ := ih
    have new : find n s.tls = none := find_eq_none.mpr fun entry mem => (below entry mem).ne
    have step : s.addThread n = .ok { s with tls := assign n {} s.tls } := by
      rw [addThread, new, destr]
      rfl
    refine ⟨{ s with tls := assign n {} s.tls }, ?_, ?_, destr, ?_⟩
    · rw [List.range_succ, List.map_append]
      exact .call run (.addThread step)
    · show (assign n {} s.tls).length = n + 1
      rw [← insert_eq_assign new, length_insert_of_absent new, length]
    · intro entry mem
      obtain rfl | mem := of_mem_assign mem
      · exact Nat.lt_succ_self n
      · exact (below entry mem).trans (Nat.lt_succ_self n)

/-- Many threads refuse the first key, and key 0 is removed with an error. -/
theorem errors_of_threads_and_key_zero :
    (∃ s, Run ((List.range 1024).map .addThread) s ∧
      (∀ k, ¬ Created ((List.range 1024).map .addThread) k) ∧ ¬ AddKeyCorrect s ∅) ∧
    ∃ s, Run [.addThread 0, .setData 0 0 7 0] s ∧
      (∀ k, ¬ Created [.addThread 0, .setData 0 0 7 0] k) ∧ ¬ RemoveKeyCorrect s ∅ 0 := by
  constructor
  · obtain ⟨s, run, length, destr, -⟩ := run_threads 1024
    refine ⟨s, run, fun k => ?_, ?_⟩
    · rw [run.created_iff_live, live, destr]
      exact Bool.false_ne_true
    · rw [addKey_correct_iff, length]
      exact fun room => lt_irrefl _ room.1
  · have run : Run [.addThread 0, .setData 0 0 7 0] { tls := [(0, ⟨[(0, 7)]⟩)] } :=
      .call (.call .start (.addThread rfl)) (.setData rfl)
    have none : ∀ k, ¬ Created [.addThread 0, .setData 0 0 7 0] k := by
      intro k
      rw [run.created_iff_live]
      exact Bool.false_ne_true
    refine ⟨_, run, none, ?_⟩
    rw [run.removeKey_iff fun k => iff_of_false (Finset.notMem_empty k) (none k)]
    rintro (other | made | clean)
    · exact other rfl
    · exact Finset.notMem_empty 0 made
    · exact clean 0 ⟨[(0, 7)]⟩ rfl rfl

end McSim.Pthread.PthreadTLSManager
