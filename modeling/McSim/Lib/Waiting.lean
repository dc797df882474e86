import Mathlib.Algebra.Group.Pi.Basic
import Mathlib.Algebra.Group.Nat.Defs
import Mathlib.Algebra.GroupWithZero.Nat
import Mathlib.Data.Finset.Card
import Mathlib.Logic.Relation

/-! Threads that wait at places.
A thread that is not active is kept at one place, from where it is woken, or moved to another one.
`strict` forbids that a thread ends while it waits, or leaves its place without being woken. -/

/-- The threads that ever entered, the live and the active ones, the number of these as it is
counted, and how often a thread is kept at a place -/
structure Waiting (T P N : Type) where
  born : Finset T
  live : Finset T
  active : T → Bool
  nactive : N
  held : T → P → Nat

namespace Waiting

variable {T P N : Type} [DecidableEq T] [DecidableEq P] [AddCommGroup N] [One N]
  {strict : Prop} {q q' : Waiting T P N} {t : T} {p : P}

def place (t : T) (p : P) : T → P → Nat := Pi.single t (Pi.single p 1)

inductive Step (strict : Prop) : Waiting T P N → Waiting T P N → Prop
  | enter (q : Waiting T P N) (t : T) (fresh : t ∉ q.born) : Step strict q { q with
      born := insert t q.born, live := insert t q.live, active := Function.update q.active t true
      nactive := q.nactive + 1 }
  | leave (q : Waiting T P N) (t : T) (live : t ∈ q.live) (awake : strict → q.active t = true) :
    Step strict q { q with live := q.live.erase t, nactive := q.nactive - 1 }
  | block (q : Waiting T P N) (t : T) (p : P) (live : t ∈ q.live) (awake : q.active t = true) :
    Step strict q { q with
      active := Function.update q.active t false, nactive := q.nactive - 1
      held := q.held + place t p }
  | wake (q : Waiting T P N) (t : T) (p : P) (held : T → P → Nat) (live : t ∈ q.live)
    (asleep : q.active t = false) (kept : q.held = held + place t p) : Step strict q { q with
      active := Function.update q.active t true, nactive := q.nactive + 1, held }
  | move (q : Waiting T P N) (t : T) (p p' : P) (held : T → P → Nat)
      (kept : q.held = held + place t p) :
    Step strict q { q with held := held + place t p' }
  | drop (q : Waiting T P N) (t : T) (p : P) (held : T → P → Nat) (kept : q.held = held + place t p)
    (loose : ¬ strict) : Step strict q { q with held }

abbrev Steps (strict : Prop) : Waiting T P N → Waiting T P N → Prop :=
  Relation.ReflTransGen (Step strict)

def Once (f : P → Nat) : Prop := f = 0 ∨ ∃ p, f = Pi.single p 1

omit [AddCommGroup N] [One N] [DecidableEq T] in
theorem Once.le_one {f : P → Nat} (h : Once f) (p : P) : f p ≤ 1 := by
  rcases h with rfl | ⟨p', rfl⟩
  · exact Nat.zero_le 1
  · by_cases same : p = p'
    · subst same
      exact (Pi.single_eq_same p 1).le
    · rw [Pi.single_eq_of_ne same]
      exact Nat.zero_le 1

/-- A thread is at one place at most, and at none while it is active, or before it enters. -/
structure Apart (q : Waiting T P N) : Prop where
  known : ∀ t ∈ q.live, t ∈ q.born
  unborn : ∀ t, t ∉ q.born → q.held t = 0
  once : ∀ t, Once (q.held t)
  free : ∀ t ∈ q.live, q.active t = true → q.held t = 0

def awake (q : Waiting T P N) : Finset T := q.live.filter fun t => q.active t = true

structure Sound (q : Waiting T P N) : Prop where
  known : ∀ t ∈ q.live, t ∈ q.born
  kept : ∀ t ∈ q.live, q.active t = false → ∃ p, q.held t = Pi.single p 1
  free : ∀ t, (t ∈ q.live → q.active t = true) → q.held t = 0
  count : q.nactive = q.awake.card • (1 : N)

theorem Sound.apart (h : q.Sound) : q.Apart where
  known := h.known
  unborn t new := h.free t fun live => absurd (h.known t live) new
  once t := by
    by_cases awake : t ∈ q.live → q.active t = true
    · exact .inl (h.free t awake)
    · rw [Classical.not_imp, Bool.not_eq_true] at awake
      exact .inr (h.kept t awake.1 awake.2)
  free t _ awake := h.free t fun _ => awake

section

omit [AddCommGroup N] [One N]

theorem add_place_self (held : T → P → Nat) (t : T) (p : P) :
    (held + place t p) t = held t + Pi.single p 1 := by
  rw [Pi.add_apply, place, Pi.single_eq_same]

theorem add_place_of_ne (held : T → P → Nat) {u t : T} (ne : u ≠ t) (p : P) :
    (held + place t p) u = held u := by
  rw [Pi.add_apply, place, Pi.single_eq_of_ne ne, add_zero]

theorem eq_add_place {f g : T → P → Nat} (here : ∀ u, f u p = g u p + if u = t then 1 else 0)
    (there : ∀ u p', p' ≠ p → f u p' = g u p') : f = g + place t p := by
  funext u p'
  by_cases same : p' = p
  · subst same
    rw [here, Pi.add_apply, Pi.add_apply]
    by_cases ne : u = t
    · subst ne
      simp [place]
    · simp [place, ne]
  · rw [there u p' same, Pi.add_apply, Pi.add_apply]
    by_cases ne : u = t
    · subst ne
      simp [place, same]
    · simp [place, ne]

theorem eq_zero_of_add_single {f : P → Nat} {p p' : P} (h : f + Pi.single p 1 = Pi.single p' 1) :
    f = 0 := by
  have here := congrFun h p
  rw [Pi.add_apply, Pi.single_eq_same] at here
  have same : p = p' := by
    by_contra ne
    rw [Pi.single_eq_of_ne ne] at here
    omega
  subst same
  funext r
  have there := congrFun h r
  rw [Pi.add_apply] at there
  exact Nat.add_right_cancel (there.trans (Nat.zero_add _).symm)

theorem add_single_ne_zero (f : P → Nat) (p : P) : f + Pi.single p 1 ≠ 0 := fun none => by
  have here := congrFun none p
  rw [Pi.add_apply, Pi.single_eq_same] at here
  exact absurd here (Nat.succ_ne_zero _)

theorem kept_ne_zero {held : T → P → Nat} (kept : q.held = held + place t p) :
    q.held t ≠ 0 := fun none => by
  rw [kept, add_place_self] at none
  exact add_single_ne_zero _ _ none

theorem Apart.rest (h : q.Apart) {held : T → P → Nat} (kept : q.held = held + place t p) :
    held t = 0 := by
  have here : q.held t = held t + Pi.single p 1 := kept ▸ add_place_self held t p
  rcases h.once t with none | ⟨p', one⟩
  · exact absurd none (kept_ne_zero kept)
  · exact eq_zero_of_add_single (here.symm.trans one)

theorem held_other {held : T → P → Nat} (kept : q.held = held + place t p) {u : T} (ne : u ≠ t) :
    q.held u = held u := kept ▸ add_place_of_ne held ne p

theorem Apart.released (h : q.Apart) {held : T → P → Nat}
    (kept : q.held = held + place t p) (u : T) :
    Once (held u) := by
  by_cases same : u = t
  · exact .inl (same ▸ h.rest kept)
  · exact held_other kept same ▸ h.once u

end

theorem step_apart (h : q.Apart) (step : Step strict q q') : q'.Apart := by
  cases step with
  | enter t fresh =>
    refine ⟨fun u hu => ?_, fun u new => ?_, h.once, fun u hu awake => ?_⟩
    · rcases Finset.mem_insert.mp hu with rfl | old
      · exact Finset.mem_insert_self u q.born
      · exact Finset.mem_insert_of_mem (h.known u old)
    · exact h.unborn u fun old => new (Finset.mem_insert_of_mem old)
    · by_cases same : u = t
      · exact same ▸ h.unborn t fresh
      · have old := (Function.update_of_ne same true q.active).symm.trans awake
        exact h.free u (Finset.mem_of_mem_insert_of_ne hu same) old
  | leave t live awake =>
    exact ⟨fun u hu => h.known u (Finset.mem_of_mem_erase hu), h.unborn, h.once,
      fun u hu => h.free u (Finset.mem_of_mem_erase hu)⟩
  | block t p live awake =>
    refine ⟨h.known, fun u new => ?_, fun u => ?_, fun u hu awake' => ?_⟩
    · have ne : u ≠ t := fun same => new (h.known u (same ▸ live))
      exact (add_place_of_ne q.held ne p).trans (h.unborn u new)
    · by_cases same : u = t
      · subst same
        refine .inr ⟨p, (add_place_self q.held u p).trans ?_⟩
        rw [h.free u live awake, zero_add]
      · show Once ((q.held + place t p) u)
        rw [add_place_of_ne q.held same p]
        exact h.once u
    · by_cases same : u = t
      · subst same
        exact nomatch (Function.update_self u false q.active).symm.trans awake'
      · have old := (Function.update_of_ne same false q.active).symm.trans awake'
        exact (add_place_of_ne q.held same p).trans (h.free u hu old)
  | wake t p held live asleep kept =>
    refine ⟨h.known, fun u new => ?_, h.released kept, fun u hu awake => ?_⟩
    · have ne : u ≠ t := fun same => new (h.known u (same ▸ live))
      exact (held_other kept ne).symm.trans (h.unborn u new)
    · by_cases same : u = t
      · subst same
        exact h.rest kept
      · have old := (Function.update_of_ne same true q.active).symm.trans awake
        exact (held_other kept same).symm.trans (h.free u hu old)
  | move t p p' held kept =>
    refine ⟨h.known, fun u new => ?_, fun u => ?_, fun u hu awake => ?_⟩
    · have ne : u ≠ t := fun same => kept_ne_zero kept (same ▸ h.unborn u new)
      exact (add_place_of_ne held ne p').trans ((held_other kept ne).symm.trans (h.unborn u new))
    · by_cases same : u = t
      · subst same
        refine .inr ⟨p', (add_place_self held u p').trans ?_⟩
        rw [h.rest kept, zero_add]
      · show Once ((held + place t p') u)
        rw [add_place_of_ne held same p', ← held_other kept same]
        exact h.once u
    · have ne : u ≠ t := fun same => kept_ne_zero kept (same ▸ h.free u hu awake)
      exact (add_place_of_ne held ne p').trans ((held_other kept ne).symm.trans (h.free u hu awake))
  | drop t p held kept loose =>
    have gone (u : T) (none : q.held u = 0) : held u = 0 :=
      (held_other kept fun same => kept_ne_zero kept (same ▸ none)).symm.trans none
    exact ⟨h.known, fun u new => gone u (h.unborn u new), h.released kept,
      fun u hu awake => gone u (h.free u hu awake)⟩

theorem steps_apart (h : q.Apart) (steps : Steps strict q q') : q'.Apart := by
  induction steps with
  | refl => exact h
  | tail steps step ih => exact step_apart ih step

section

omit [DecidableEq P]

theorem count_insert (h : q.nactive = q.awake.card • (1 : N)) (asleep : t ∉ q.awake)
    (more : q'.awake = insert t q.awake) : q.nactive + 1 = q'.awake.card • (1 : N) := by
  rw [more, Finset.card_insert_of_notMem asleep, succ_nsmul, h]

theorem count_erase (h : q.nactive = q.awake.card • (1 : N)) (mem : t ∈ q.awake)
    (less : q'.awake = q.awake.erase t) : q.nactive - 1 = q'.awake.card • (1 : N) := by
  rw [less, h, ← Finset.card_erase_add_one mem, succ_nsmul, add_sub_cancel_right]

end

section

omit [DecidableEq P] [AddCommGroup N] [One N]

omit [DecidableEq T] in
theorem mem_awake : t ∈ q.awake ↔ t ∈ q.live ∧ q.active t = true := Finset.mem_filter

theorem awake_update_true (live : t ∈ q'.live) (same : ∀ u ≠ t, u ∈ q'.live ↔ u ∈ q.live)
    (active : q'.active = Function.update q.active t true) : q'.awake = insert t q.awake := by
  ext u
  rw [mem_awake, Finset.mem_insert, mem_awake, active]
  by_cases ne : u = t
  · subst ne
    simp [live]
  · simp [ne, same u ne]

theorem awake_erase (same : ∀ u ≠ t, (u ∈ q'.live ∧ q'.active u = true) ↔
    (u ∈ q.live ∧ q.active u = true))
    (gone : ¬ (t ∈ q'.live ∧ q'.active t = true)) : q'.awake = q.awake.erase t := by
  ext u
  rw [mem_awake, Finset.mem_erase, mem_awake]
  by_cases ne : u = t
  · subst ne
    simp [gone]
  · simp [ne, same u ne]

end

theorem step_sound (h : q.Sound) (step : Step True q q') : q'.Sound := by
  have known := (step_apart h.apart step).known
  cases step with
  | enter t fresh =>
    have asleep : t ∉ q.awake := fun mem => fresh (h.known t (mem_awake.mp mem).1)
    refine ⟨known, fun u hu waits => ?_, fun u awake => ?_, count_insert h.count asleep ?_⟩
    · by_cases same : u = t
      · subst same
        exact nomatch (Function.update_self u true q.active).symm.trans waits
      · have old := (Function.update_of_ne same true q.active).symm.trans waits
        exact h.kept u (Finset.mem_of_mem_insert_of_ne hu same) old
    · by_cases same : u = t
      · exact same ▸ h.apart.unborn t fresh
      · refine h.free u fun live => ?_
        exact (Function.update_of_ne same true q.active).symm.trans
          (awake (Finset.mem_insert_of_mem live))
    · refine awake_update_true (Finset.mem_insert_self t q.live) (fun u ne => ?_) rfl
      exact ⟨fun hu => Finset.mem_of_mem_insert_of_ne hu ne, Finset.mem_insert_of_mem⟩
  | leave t live strictly =>
    have active := strictly trivial
    refine ⟨known, fun u hu => h.kept u (Finset.mem_of_mem_erase hu), fun u awake => ?_,
      count_erase h.count (mem_awake.mpr ⟨live, active⟩) ?_⟩
    · by_cases same : u = t
      · exact same ▸ h.free t fun _ => active
      · exact h.free u fun hu => awake (Finset.mem_erase.mpr ⟨same, hu⟩)
    · refine awake_erase (fun u ne => ?_) fun here => Finset.notMem_erase t q.live here.1
      simp [ne]
  | block t p live active =>
    refine ⟨known, fun u hu waits => ?_, fun u awake => ?_,
      count_erase h.count (mem_awake.mpr ⟨live, active⟩) ?_⟩
    · by_cases same : u = t
      · subst same
        refine ⟨p, (add_place_self q.held u p).trans ?_⟩
        rw [h.free u fun _ => active, zero_add]
      · have old := (Function.update_of_ne same false q.active).symm.trans waits
        obtain ⟨p', one⟩ := h.kept u hu old
        exact ⟨p', (add_place_of_ne q.held same p).trans one⟩
    · by_cases same : u = t
      · subst same
        exact nomatch (Function.update_self u false q.active).symm.trans (awake live)
      · refine (add_place_of_ne q.held same p).trans (h.free u fun hu => ?_)
        exact (Function.update_of_ne same false q.active).symm.trans (awake hu)
    · refine awake_erase (fun u ne => ?_) fun here => ?_
      · simp [ne]
      · exact nomatch (Function.update_self t false q.active).symm.trans here.2
  | wake t p held live asleep kept =>
    have dozing : t ∉ q.awake := fun mem => nomatch asleep.symm.trans (mem_awake.mp mem).2
    refine ⟨known, fun u hu waits => ?_, fun u awake => ?_, count_insert h.count dozing ?_⟩
    · by_cases same : u = t
      · subst same
        exact nomatch (Function.update_self u true q.active).symm.trans waits
      · have old := (Function.update_of_ne same true q.active).symm.trans waits
        obtain ⟨p', one⟩ := h.kept u hu old
        exact ⟨p', (held_other kept same).symm.trans one⟩
    · by_cases same : u = t
      · subst same
        exact h.apart.rest kept
      · refine (held_other kept same).symm.trans (h.free u fun hu => ?_)
        exact (Function.update_of_ne same true q.active).symm.trans (awake hu)
    · exact awake_update_true live (fun u ne => Iff.rfl) rfl
  | move t p p' held kept =>
    refine ⟨known, fun u hu waits => ?_, fun u awake => ?_, h.count⟩
    · by_cases same : u = t
      · subst same
        refine ⟨p', (add_place_self held u p').trans ?_⟩
        rw [h.apart.rest kept, zero_add]
      · obtain ⟨r, one⟩ := h.kept u hu waits
        exact ⟨r, ((add_place_of_ne held same p').trans (held_other kept same).symm).trans one⟩
    · have ne : u ≠ t := fun same => kept_ne_zero kept (same ▸ h.free u awake)
      exact (add_place_of_ne held ne p').trans ((held_other kept ne).symm.trans (h.free u awake))
  | drop t p held kept loose => exact absurd trivial loose

theorem steps_sound (h : q.Sound) (steps : Steps True q q') : q'.Sound := by
  induction steps with
  | refl => exact h
  | tail steps step ih => exact step_sound ih step

structure Gone (q : Waiting T P N) (t : T) : Prop where
  born : t ∈ q.born
  dead : t ∉ q.live
  unkept : q.held t = 0

theorem step_gone {u : T} (h : q.Gone u) (step : Step strict q q') : q'.Gone u := by
  cases step with
  | enter t fresh =>
    have ne : u ≠ t := fun same => fresh (same ▸ h.born)
    exact ⟨Finset.mem_insert_of_mem h.born, fun hu => h.dead (Finset.mem_of_mem_insert_of_ne hu ne),
      h.unkept⟩
  | leave t live awake => exact ⟨h.born, fun hu => h.dead (Finset.mem_of_mem_erase hu), h.unkept⟩
  | block t p live awake =>
    have ne : u ≠ t := fun same => h.dead (same ▸ live)
    exact ⟨h.born, h.dead, (add_place_of_ne q.held ne p).trans h.unkept⟩
  | wake t p held live asleep kept =>
    have ne : u ≠ t := fun same => h.dead (same ▸ live)
    exact ⟨h.born, h.dead, (held_other kept ne).symm.trans h.unkept⟩
  | move t p p' held kept =>
    have ne : u ≠ t := fun same => kept_ne_zero kept (same ▸ h.unkept)
    exact ⟨h.born, h.dead, (add_place_of_ne held ne p').trans
      ((held_other kept ne).symm.trans h.unkept)⟩
  | drop t p held kept loose =>
    have ne : u ≠ t := fun same => kept_ne_zero kept (same ▸ h.unkept)
    exact ⟨h.born, h.dead, (held_other kept ne).symm.trans h.unkept⟩

theorem steps_gone {u : T} (h : q.Gone u) (steps : Steps strict q q') : q'.Gone u := by
  induction steps with
  | refl => exact h
  | tail steps step ih => exact step_gone ih step

end Waiting
