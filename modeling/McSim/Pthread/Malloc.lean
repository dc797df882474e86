import McSim.Pthread.Pts
import Mathlib.Algebra.GroupWithZero.Nat
import Mathlib.Data.List.Infix
import Mathlib.Data.UInt

/-! The guard around memory allocation.
No thread is switched while a routine that allocates is on the call stack. The guard does not keep
the stack: it counts the frames from the outermost such routine up. -/

namespace McSim.Pthread

section Stacks
variable {α : Type} (p : α → Bool) {a : α} {stack : List α}

/-- The frames from the outermost one that satisfies `p` up to the innermost one -/
def guarded : List α → Nat
  | [] => 0
  | a :: stack => if guarded stack ≠ 0 then guarded stack + 1 else if p a then 1 else 0

variable {p}

theorem guarded_above (h : guarded p stack ≠ 0) : guarded p (a :: stack) = guarded p stack + 1 :=
  if_pos h

theorem guarded_first (h : guarded p stack = 0) : guarded p (a :: stack) = if p a then 1 else 0 :=
  if_neg (not_not.mpr h)

theorem guarded_ne_zero : guarded p stack ≠ 0 ↔ ∃ a ∈ stack, p a = true := by
  induction stack with
  | nil => simp [guarded]
  | cons a stack ih =>
    by_cases h : guarded p stack = 0
    · have none : ¬ ∃ a ∈ stack, p a = true := fun some => ih.mpr some h
      rw [guarded_first h]
      simp only [List.mem_cons, exists_eq_or_imp, none, or_false]
      cases p a <;> simp
    · obtain ⟨b, mem, hb⟩ := ih.mp h
      rw [guarded_above h]
      exact iff_of_true (Nat.succ_ne_zero _) ⟨b, List.mem_cons_of_mem a mem, hb⟩

theorem guarded_pop (h : guarded p (a :: stack) ≠ 0) :
    guarded p (a :: stack) = guarded p stack + 1 := by
  by_cases below : guarded p stack = 0
  · rw [guarded_first below] at h ⊢
    rw [below]
    split at h
    · rename_i here
      exact if_pos here
    · exact absurd rfl h
  · exact guarded_above below

theorem guarded_tail (h : guarded p (a :: stack) = 0) : guarded p stack = 0 := by
  by_contra below
  rw [guarded_above below] at h
  exact Nat.succ_ne_zero _ h

theorem guarded_cons_le : guarded p (a :: stack) ≤ guarded p stack + 1 := by
  by_cases below : guarded p stack = 0
  · rw [guarded_first below]
    split <;> omega
  · exact (guarded_above below).le

theorem le_guarded_cons : guarded p stack ≤ guarded p (a :: stack) := by
  by_cases below : guarded p stack = 0
  · omega
  · rw [guarded_above below]
    exact Nat.le_succ _

end Stacks

/-- `rtn_name->find(part) != string::npos` -/
def found (rtnName part : String) : Bool := decide (part.toList <:+: rtnName.toList)

def isMalloc (rtnName : String) : Bool :=
  (["__libc_malloc", "_int_malloc", "calloc", "realloc", "__cfree", "_int_free",
    "istream", "ostream",
      "fstream", "printf", "malloc", "mmap"].any (found rtnName)) &&
    !found rtnName "g_" && !found rtnName "iostream"

/-- `PthreadMalloc`, where the constructor leaves `current` open -/
structure PthreadMalloc where
  enablecontextswitch : Bool := true
  depth : UInt32 := 0
  current : Nat := 0
deriving DecidableEq, Repr

/-- What the instrumentation reports with the name of a routine: a call of it, a jump into it from
another routine, and a return from it -/
inductive RtnEvent
  | call (rtnName : String)
  | tailcall (rtnName : String)
  | ret (rtnName : String)
deriving DecidableEq, Repr

def RtnEvent.rtnName : RtnEvent → String
  | call rtnName | tailcall rtnName | ret rtnName => rtnName

namespace PthreadMalloc

def analyze (isMalloc : String → Bool) (s : PthreadMalloc) (t : Nat) (iscall istailcall : Bool)
    (rtnName : String) : Except Stop PthreadMalloc :=
  if s.enablecontextswitch then
    if s.depth ≠ 0 then .error .assertion
    else if iscall ∧ isMalloc rtnName then
      return { enablecontextswitch := false, depth := s.depth + 1, current := t }
    else return s
  else if found rtnName "pthread" = false ∨ found rtnName "_pthread" then
    if s.depth = 0 then .error .assertion
    else if s.current ≠ t then .error .assertion
    else if iscall ∧ ¬ istailcall then return { s with depth := s.depth + 1 }
    else if istailcall ∧ s.depth = 1 ∧ ¬ isMalloc rtnName ∨ ¬ iscall then
      let s := { s with depth := s.depth - 1 }
      return if s.depth = 0 then { s with enablecontextswitch := true } else s
    else return s
  else return s

def canSwitchThreads (s : PthreadMalloc) : Bool := s.enablecontextswitch

/-- `ProcessCall` and `ProcessReturn` -/
def report (isMalloc : String → Bool) (t : Nat) (s : PthreadMalloc) :
    RtnEvent → Except Stop PthreadMalloc
  | .call rtnName => analyze isMalloc s t true false rtnName
  | .tailcall rtnName => analyze isMalloc s t true true rtnName
  | .ret rtnName => analyze isMalloc s t false false rtnName

def reports (isMalloc : String → Bool) (t : Nat) (trace : List RtnEvent) :
    Except Stop PthreadMalloc :=
  trace.foldlM (report isMalloc t) {}

/-- A jump replaces the routine of the innermost frame, and a return leaves that frame, whatever the
name it is reported under. -/
def nest : List String → RtnEvent → Option (List String)
  | stack, .call rtnName => some (rtnName :: stack)
  | _ :: stack, .tailcall rtnName => some (rtnName :: stack)
  | _ :: stack, .ret _ => some stack
  | [], _ => none

/-- The call stack after a trace that starts with no frame, if the trace is well nested -/
def stackOf (trace : List RtnEvent) : Option (List String) := trace.foldlM nest []

def Plain (trace : List RtnEvent) : Prop := ∀ e ∈ trace, found e.rtnName "pthread" = false

/-- After every event the guard is down exactly while some frame runs a routine that allocates. -/
def Exact (isMalloc : String → Bool) (t : Nat) (trace : List RtnEvent) : Prop :=
  ∀ seen, seen <+: trace → ∀ stack, stackOf seen = some stack →
    ∃ s, reports isMalloc t seen = .ok s ∧
      (s.canSwitchThreads = false ↔ ∃ rtnName ∈ stack, isMalloc rtnName = true)

/-- Before every event the guarded frames are few enough for `depth`. -/
def Shallow (isMalloc : String → Bool) (trace : List RtnEvent) : Prop :=
  ∀ seen e, seen ++ [e] <+: trace → ∀ stack, stackOf seen = some stack →
    guarded isMalloc stack < 2 ^ 32

variable {isMalloc : String → Bool} {t n : Nat} {s : PthreadMalloc} {e : RtnEvent}
  {trace seen : List RtnEvent} {stack stack' : List String}

structure Counts (t n : Nat) (s : PthreadMalloc) : Prop where
  enabled : s.enablecontextswitch = true ↔ n = 0
  depth : s.depth = UInt32.ofNat n
  current : n ≠ 0 → s.current = t

theorem analyze_enabled {iscall istailcall : Bool} {rtnName : String}
    (enabled : s.enablecontextswitch = true) (depth : s.depth = 0) :
    analyze isMalloc s t iscall istailcall rtnName = .ok
      (if iscall ∧ isMalloc rtnName then ⟨false, s.depth + 1, t⟩ else s) := by
  unfold analyze
  rw [if_pos enabled, if_neg (not_not.mpr depth)]
  split <;> rfl

theorem analyze_disabled (iscall istailcall : Bool) {rtnName : String}
    (plain : found rtnName "pthread" = false) (disabled : s.enablecontextswitch = false)
    (depth : s.depth ≠ 0) (current : s.current = t) :
    analyze isMalloc s t iscall istailcall rtnName = .ok
      (if iscall ∧ ¬ istailcall then { s with depth := s.depth + 1 }
      else if istailcall ∧ s.depth = 1 ∧ ¬ isMalloc rtnName ∨ ¬ iscall then
        ⟨decide (s.depth - 1 = 0), s.depth - 1, s.current⟩
      else s) := by
  unfold analyze
  rw [if_neg (by rw [disabled]; decide), if_pos (.inl plain), if_neg depth,
    if_neg (not_not.mpr current)]
  split
  · rfl
  · split
    · by_cases last : s.depth - 1 = 0
      · rw [decide_eq_true last]
        simp only [last, if_pos]
        rfl
      · rw [decide_eq_false last]
        simp only [last, if_false, disabled]
        rfl
    · rfl

theorem analyze_overflow {iscall istailcall : Bool} {rtnName : String}
    (plain : found rtnName "pthread" = false) (disabled : s.enablecontextswitch = false)
    (depth : s.depth = 0) : analyze isMalloc s t iscall istailcall rtnName = .error .assertion := by
  unfold analyze
  rw [if_neg (by rw [disabled]; decide), if_pos (.inl plain), if_pos depth]

theorem ofNat_eq_zero (few : n < 2 ^ 32) : UInt32.ofNat n = 0 ↔ n = 0 := by
  rw [← UInt32.toNat_inj, UInt32.toNat_ofNat_of_lt' few]
  rfl

theorem ofNat_eq_one (few : n < 2 ^ 32) : UInt32.ofNat n = 1 ↔ n = 1 := by
  rw [← UInt32.toNat_inj, UInt32.toNat_ofNat_of_lt' few]
  rfl

theorem ofNat_pred : UInt32.ofNat (n + 1) - 1 = UInt32.ofNat n := by
  rw [UInt32.ofNat_add]
  exact add_sub_cancel_right _ _

theorem Counts.disabled (h : Counts t n s) (inside : n ≠ 0) : s.enablecontextswitch = false :=
  Bool.eq_false_iff.mpr fun enabled => inside (h.enabled.mp enabled)

theorem Counts.depth_ne_zero (h : Counts t n s) (inside : n ≠ 0) (few : n < 2 ^ 32) :
    s.depth ≠ 0 := by
  rw [h.depth, Ne, ofNat_eq_zero few]
  exact inside

theorem Counts.enter {guards : Prop} [Decidable guards] (h : Counts t 0 s) :
    Counts t (if guards then 1 else 0) (if guards then ⟨false, s.depth + 1, t⟩ else s) := by
  by_cases here : guards
  · rw [if_pos here, if_pos here]
    exact {
      enabled := ⟨fun enabled => absurd enabled Bool.false_ne_true,
        fun one => absurd one Nat.one_ne_zero⟩
      depth := by rw [h.depth]; rfl
      current _ := rfl }
  · rw [if_neg here, if_neg here]
    exact h

theorem Counts.deeper (h : Counts t n s) (inside : n ≠ 0) :
    Counts t (n + 1) { s with depth := s.depth + 1 } where
  enabled := by
    rw [h.disabled inside]
    exact ⟨fun enabled => absurd enabled Bool.false_ne_true,
      fun none => absurd none (Nat.succ_ne_zero n)⟩
  depth := by rw [h.depth, UInt32.ofNat_add]; rfl
  current _ := h.current inside

theorem Counts.leave (h : Counts t (n + 1) s) (few : n + 1 < 2 ^ 32) :
    Counts t n ⟨decide (s.depth - 1 = 0), s.depth - 1, s.current⟩ where
  enabled := by
    show decide _ = true ↔ _
    rw [decide_eq_true_iff, h.depth, ofNat_pred, ofNat_eq_zero (Nat.lt_of_succ_lt few)]
  depth := by
    show s.depth - 1 = _
    rw [h.depth, ofNat_pred]
  current _ := h.current (Nat.succ_ne_zero n)

theorem Counts.report_outside (h : Counts t (guarded isMalloc stack) s)
    (outside : guarded isMalloc stack = 0) (nested : nest stack e = some stack') :
    ∃ s', report isMalloc t s e = .ok s' ∧ Counts t (guarded isMalloc stack') s' := by
  rw [outside] at h
  have enabled : s.enablecontextswitch = true := h.enabled.mpr rfl
  have enters : ∀ {below : List String} {istailcall : Bool} (rtnName : String),
      guarded isMalloc below = 0 →
      ∃ s', analyze isMalloc s t true istailcall rtnName = .ok s' ∧
        Counts t (guarded isMalloc (rtnName :: below)) s' := by
    intro below istailcall rtnName outside
    refine ⟨_, analyze_enabled enabled h.depth, ?_⟩
    rw [guarded_first outside]
    have enter : Counts t (if isMalloc rtnName = true then 1 else 0)
        (if isMalloc rtnName = true then ⟨false, s.depth + 1, t⟩ else s) := h.enter
    simpa only [true_and] using enter
  cases e with
  | call rtnName =>
    obtain rfl : rtnName :: stack = stack' := Option.some.inj nested
    exact enters rtnName outside
  | tailcall rtnName =>
    cases stack with
    | nil => cases nested
    | cons top below =>
      obtain rfl : rtnName :: below = stack' := Option.some.inj nested
      exact enters rtnName (guarded_tail outside)
  | ret rtnName =>
    cases stack with
    | nil => cases nested
    | cons top below =>
      obtain rfl : below = stack' := Option.some.inj nested
      refine ⟨_, analyze_enabled enabled h.depth, ?_⟩
      rw [guarded_tail outside, if_neg (fun call => Bool.false_ne_true call.1)]
      exact h

theorem Counts.report_inside (h : Counts t (guarded isMalloc stack) s)
    (inside : guarded isMalloc stack ≠ 0) (few : guarded isMalloc stack < 2 ^ 32)
    (plain : found e.rtnName "pthread" = false) (nested : nest stack e = some stack') :
    ∃ s', report isMalloc t s e = .ok s' ∧ Counts t (guarded isMalloc stack') s' := by
  have disabled : s.enablecontextswitch = false := h.disabled inside
  have depth : s.depth ≠ 0 := h.depth_ne_zero inside few
  have current : s.current = t := h.current inside
  cases e with
  | call rtnName =>
    obtain rfl : rtnName :: stack = stack' := Option.some.inj nested
    refine ⟨_, analyze_disabled true false plain disabled depth current, ?_⟩
    rw [guarded_above inside, if_pos ⟨rfl, Bool.false_ne_true⟩]
    exact h.deeper inside
  | tailcall rtnName =>
    cases stack with
    | nil => cases nested
    | cons top below =>
      obtain rfl : rtnName :: below = stack' := Option.some.inj nested
      refine ⟨_, analyze_disabled true true plain disabled depth current, ?_⟩
      rw [guarded_pop inside] at h few
      have alone : s.depth = 1 ↔ guarded isMalloc below + 1 = 1 := by rw [h.depth, ofNat_eq_one few]
      rw [if_neg (fun call => call.2 rfl)]
      by_cases first : guarded isMalloc below = 0
      · -- the jump is out of the outermost guarded routine
        rw [guarded_first first]
        rw [first] at h few alone
        by_cases allocates : isMalloc rtnName = true
        · rw [if_pos allocates, if_neg]
          · exact h
          · rintro (out | ret)
            · exact out.2.2 allocates
            · exact ret rfl
        · rw [if_neg allocates, if_pos (.inl ⟨rfl, alone.mpr rfl, allocates⟩)]
          exact h.leave few
      · rw [guarded_above first, if_neg]
        · exact h
        · rintro (out | ret)
          · exact first (Nat.succ.inj (alone.mp out.2.1))
          · exact ret rfl
  | ret rtnName =>
    cases stack with
    | nil => cases nested
    | cons top below =>
      obtain rfl : below = stack' := Option.some.inj nested
      refine ⟨_, analyze_disabled false false plain disabled depth current, ?_⟩
      rw [guarded_pop inside] at h few
      rw [if_neg (fun call => Bool.false_ne_true call.1), if_pos (.inr Bool.false_ne_true)]
      exact h.leave few

theorem Counts.report (h : Counts t (guarded isMalloc stack) s)
    (few : guarded isMalloc stack < 2 ^ 32) (plain : found e.rtnName "pthread" = false)
    (nested : nest stack e = some stack') :
    ∃ s', report isMalloc t s e = .ok s' ∧ Counts t (guarded isMalloc stack') s' := by
  by_cases outside : guarded isMalloc stack = 0
  · exact h.report_outside outside nested
  · exact h.report_inside outside few plain nested

theorem Counts.report_full (h : Counts t (guarded isMalloc stack) s)
    (full : guarded isMalloc stack = 2 ^ 32) (plain : found e.rtnName "pthread" = false) :
    PthreadMalloc.report isMalloc t s e = .error .assertion := by
  have disabled := h.disabled (by rw [full]; exact NeZero.ne _)
  have depth : s.depth = 0 := by
    rw [h.depth, full]
    rfl
  cases e with
  | call rtnName => exact analyze_overflow plain disabled depth
  | tailcall rtnName => exact analyze_overflow plain disabled depth
  | ret rtnName => exact analyze_overflow plain disabled depth

theorem stackOf_concat : stackOf (seen ++ [e]) = (stackOf seen).bind (nest · e) := by
  unfold stackOf
  simp only [List.foldlM_append, List.foldlM_cons, List.foldlM_nil, bind_pure]
  rfl

theorem reports_concat :
    reports isMalloc t (seen ++ [e]) = (reports isMalloc t seen).bind (report isMalloc t · e) := by
  unfold reports
  simp only [List.foldlM_append, List.foldlM_cons, List.foldlM_nil, bind_pure]
  rfl

theorem nested_of_part (h : seen <+: trace) (nested : (stackOf trace).isSome) :
    (stackOf seen).isSome := by
  obtain ⟨rest, rfl⟩ := h
  unfold stackOf at nested ⊢
  rw [List.foldlM_append] at nested
  cases start : List.foldlM nest [] seen with
  | none => rw [start] at nested; cases nested
  | some stack => rfl

theorem Shallow.of_part (h : Shallow isMalloc trace) (part : seen <+: trace) :
    Shallow isMalloc seen :=
  fun before e hb => h before e (hb.trans part)

theorem Plain.of_part (h : Plain trace) (part : seen <+: trace) : Plain seen :=
  fun e mem => h e (part.subset mem)

theorem Shallow.counts (shallow : Shallow isMalloc trace) (plain : Plain trace)
    (nested : stackOf trace = some stack) :
    ∃ s, reports isMalloc t trace = .ok s ∧ Counts t (guarded isMalloc stack) s := by
  induction trace using List.reverseRecOn generalizing stack with
  | nil =>
    obtain rfl : [] = stack := Option.some.inj nested
    exact ⟨{}, rfl, ⟨⟨fun _ => rfl, fun _ => rfl⟩, rfl, fun some => absurd rfl some⟩⟩
  | append_singleton trace e ih =>
    have part : trace <+: trace ++ [e] := List.prefix_append trace [e]
    rw [stackOf_concat] at nested
    obtain ⟨below, before, now⟩ := Option.bind_eq_some_iff.mp nested
    obtain ⟨s, run, counts⟩ := ih (shallow.of_part part) (plain.of_part part) before
    obtain ⟨s', step, counts'⟩ := counts.report (shallow trace e (List.prefix_refl _) below before)
      (plain e (List.mem_append_right trace (List.mem_singleton_self e))) now
    exact ⟨s', by rw [reports_concat, run]; exact step, counts'⟩

theorem guarded_nest (nested : nest stack e = some stack') :
    guarded isMalloc stack' ≤ guarded isMalloc stack + 1 := by
  cases e with
  | call rtnName =>
    obtain rfl : rtnName :: stack = stack' := Option.some.inj nested
    exact guarded_cons_le
  | tailcall rtnName =>
    cases stack with
    | nil => cases nested
    | cons top below =>
      obtain rfl : rtnName :: below = stack' := Option.some.inj nested
      exact guarded_cons_le.trans (Nat.succ_le_succ le_guarded_cons)
  | ret rtnName =>
    cases stack with
    | nil => cases nested
    | cons top below =>
      obtain rfl : below = stack' := Option.some.inj nested
      exact le_guarded_cons.trans (Nat.le_succ _)

theorem Shallow.guarded_le (shallow : Shallow isMalloc trace)
    (nested : stackOf trace = some stack) :
    guarded isMalloc stack ≤ 2 ^ 32 := by
  obtain rfl | ⟨seen, e, rfl⟩ := trace.eq_nil_or_concat'
  · obtain rfl : [] = stack := Option.some.inj nested
    exact Nat.zero_le _
  · rw [stackOf_concat] at nested
    obtain ⟨below, before, now⟩ := Option.bind_eq_some_iff.mp nested
    exact (guarded_nest now).trans (shallow seen e (List.prefix_refl _) below before)

theorem guarded_le_length (nested : stackOf trace = some stack) :
    guarded isMalloc stack ≤ trace.length := by
  induction trace using List.reverseRecOn generalizing stack with
  | nil =>
    obtain rfl : [] = stack := Option.some.inj nested
    exact Nat.zero_le _
  | append_singleton trace e ih =>
    rw [stackOf_concat] at nested
    obtain ⟨below, before, now⟩ := Option.bind_eq_some_iff.mp nested
    rw [List.length_append, List.length_singleton]
    exact (guarded_nest now).trans (Nat.succ_le_succ (ih before))

theorem shallow_of_length (few : trace.length ≤ 2 ^ 32) : Shallow isMalloc trace := by
  intro seen e part stack nested
  have shorter := part.length_le
  rw [List.length_append, List.length_singleton] at shorter
  exact (guarded_le_length nested).trans_lt (shorter.trans few)

theorem Exact.next (exact' : Exact isMalloc t trace) (plain : Plain trace)
    (nested : (stackOf trace).isSome) (part : seen ++ [e] <+: trace)
    (shallow : Shallow isMalloc seen) (hs : stackOf seen = some stack) :
      guarded isMalloc stack < 2 ^ 32 := by
  refine lt_of_le_of_ne (shallow.guarded_le hs) fun full => ?_
  have part' : seen <+: trace := (List.prefix_append seen [e]).trans part
  obtain ⟨s, run, counts⟩ := shallow.counts (t := t) (plain.of_part part') hs
  have fails := counts.report_full (e := e) full
    (plain e (part.subset (List.mem_append_right seen (List.mem_singleton_self e))))
  obtain ⟨stack', hs'⟩ := Option.isSome_iff_exists.mp (nested_of_part part nested)
  obtain ⟨s', run', -⟩ := exact' _ part stack' hs'
  rw [reports_concat, run] at run'
  cases fails.symm.trans run'

theorem Exact.shallow (exact' : Exact isMalloc t trace) (plain : Plain trace)
    (nested : (stackOf trace).isSome) : Shallow isMalloc trace := by
  suffices all : ∀ seen, seen <+: trace →
    Shallow isMalloc seen from all trace (List.prefix_refl trace)
  intro seen
  induction seen using List.reverseRecOn with
  | nil =>
    intro _ before e hb
    exact absurd (List.prefix_nil.mp hb)
      (List.append_ne_nil_of_right_ne_nil _ (List.cons_ne_nil e []))
  | append_singleton seen e ih =>
    intro part
    have shallow := ih ((List.prefix_append seen [e]).trans part)
    intro before e' hb stack hs
    obtain same | earlier := List.prefix_concat_iff.mp hb
    · obtain ⟨rfl, last⟩ := List.append_inj' same rfl
      exact exact'.next plain nested part shallow hs
    · exact shallow before e' earlier stack hs

theorem Shallow.exact (shallow : Shallow isMalloc trace) (plain : Plain trace) :
    Exact isMalloc t trace := by
  intro seen part stack hs
  obtain ⟨s, run, counts⟩ := (shallow.of_part part).counts (t := t) (plain.of_part part) hs
  refine ⟨s, run, ?_⟩
  rw [← guarded_ne_zero, Ne, ← counts.enabled, canSwitchThreads, Bool.not_eq_true]

/-- The guard is exact for the traces that never stack `2 ^ 32` guarded frames before an event. -/
theorem exact_iff_shallow (isMalloc : String → Bool) (t : Nat) (trace : List RtnEvent)
    (nested : (stackOf trace).isSome) (plain : Plain trace) :
    Exact isMalloc t trace ↔ Shallow isMalloc trace :=
  ⟨fun h => h.shallow plain nested, fun h => h.exact plain⟩

/-- `malloc` jumps into a safe routine, which ends the guard, and that one calls `calloc`. -/
theorem exact_malloc_tail :
    Exact Pthread.isMalloc 0 [.call "main", .call "malloc", .tailcall "memset", .call "calloc"] :=
  (exact_iff_shallow Pthread.isMalloc 0
    [.call "main", .call "malloc", .tailcall "memset", .call "calloc"] (by decide)
    (by unfold Plain; decide)).mpr (shallow_of_length (by decide))

theorem stackOf_calls {rtnName : String} :
    stackOf (List.replicate n (.call rtnName)) = some (List.replicate n rtnName) := by
  induction n with
  | zero => rfl
  | succ n ih =>
    rw [List.replicate_succ', stackOf_concat, ih]
    rfl

theorem guarded_replicate {rtnName : String} (h : isMalloc rtnName = true) :
    guarded isMalloc (List.replicate n rtnName) = n := by
  induction n with
  | zero => rfl
  | succ n ih =>
    rw [List.replicate_succ]
    obtain rfl | inside := Nat.eq_zero_or_pos n
    · exact if_pos h
    · rw [guarded_above (by rw [ih]; exact inside.ne'), ih]

/-- The guard fails when `malloc` calls itself `2 ^ 32` times. -/
theorem deep_calls_not_exact :
    let trace := List.replicate (2 ^ 32 + 1) (RtnEvent.call "malloc")
    (stackOf trace).isSome ∧ Plain trace ∧ ¬ Exact Pthread.isMalloc 0 trace := by
  intro trace
  have nested : (stackOf trace).isSome := by
    show (stackOf (List.replicate _ _)).isSome = true
    rw [stackOf_calls]
    rfl
  have plain : Plain trace := by
    intro e mem
    rw [List.eq_of_mem_replicate mem]
    decide
  refine ⟨nested, plain, fun exact' => ?_⟩
  have part : List.replicate (2 ^ 32) (RtnEvent.call "malloc") ++ [.call "malloc"] <+: trace := by
    rw [← List.replicate_succ']
  have few := exact'.shallow plain nested _ _ part _ stackOf_calls
  rw [guarded_replicate (by decide)] at few
  exact few.false

end PthreadMalloc
end McSim.Pthread
