import McSim.DirectoryCache
import McSim.Traffic

/-! What a directory does with the elements it takes. A request goes to the memory controller under
the name of the directory, waits in the entry of its line, or goes back to its second-level
cache. -/

namespace McSim.Directory

open Contract Weighing

variable {C : Type} {w : Weight C} {part : C → Part C} {cfg : DirConfig C} {t n : Nat}
  {lqe : Lqe C} {e : DirEntry C} {st : DirStats} {found : Option (DirEntry C)}

structure Placed (w : Weight C) (part : C → Part C) (cfg : DirConfig C) : Prop where
  push : ∀ path serial, w.of (cfg.self :: path) serial ≤ w.of path serial
  memory : (part cfg.memoryController).isMc
  crossbar : (part cfg.crossbar).isCache = false

/-- What a handler does for an element and an entry that weigh `n` -/
def Handles (w : Weight C) (part : C → Part C) (n : Nat) (o : Outcome C) : Prop :=
  ∃ k, Sends w part k o.calls ∧ k + w.held o.entry ≤ n

theorem Handles.of_sends {o : Outcome C} {k : Nat} (h : Sends w part k o.calls)
    (hn : k + w.held o.entry ≤ n) : Handles w part n o := ⟨k, h, hn⟩

theorem Handles.beside {o : Outcome C} {k m : Nat} (h : Sends w part k o.calls) (hk : k ≤ n)
    (he : w.held o.entry ≤ m) : Handles w part (m + n) o := ⟨k, h, by omega⟩

theorem Handles.still {o : Outcome C} (hc : o.calls = []) (hn : w.held o.entry ≤ n) :
    Handles w part n o := by
  refine ⟨0, ?_, by rwa [Nat.zero_add]⟩
  rw [hc]
  exact .nil

theorem held_of_none (h : e.pending = none) : w.held (some e) = 0 := by
  rw [Weight.held]
  simp [h]

theorem held_of_some {pending : Lqe C} (h : e.pending = some pending) :
    w.held (some e) = w.whole pending := by
  rw [Weight.held]
  simp [h]

theorem held_congr {e' : DirEntry C} (h : e'.pending = e.pending) :
    w.held (some e') = w.held (some e) := by
  simp [Weight.held, h]

theorem toMc_sends (h : Placed w part cfg) (hn : w.load lqe ≤ n) :
    Sends w part n [toMc cfg t lqe] := by
  refine Sends.one ?_ fun _ => trivial
  show (if (part cfg.memoryController).isMc then w.load lqe else w.whole lqe) ≤ n
  rw [if_pos h.memory]
  exact hn

theorem toMc_push (h : Placed w part cfg) (type : EventType) :
    Sends w part (w.whole lqe) [toMc cfg t { lqe.push cfg.self with type }] :=
  toMc_sends h ((w.load_le_whole _).trans (h.push _ _))

theorem toMc_new (h : Placed w part cfg) (type : EventType) (address thId : Nat) :
    Sends w part 0 [toMc cfg t (Lqe.new cfg.self type address thId)] := by
  refine toMc_sends h ((w.load_le_whole _).trans ((h.push [] none).trans ?_))
  rw [w.empty]

section Handlers
variable [LinearOrder C]

theorem addEventToUL_sends (w : Weight C) (part : C → Part C) (isData : Bool) :
    Meets (fun _ => True) (fun call => Sends w part (w.load lqe) [call])
      (addEventToUL cfg t lqe isData) := by
  unfold addEventToUL
  rw [meets_bind, Lqe.meets_top]
  refine ⟨fun _ => trivial, fun top path hp => ?_⟩
  show Sends w part _ [if top = cfg.cachel2 then toL2 cfg t lqe else _]
  split
  · rename_i here
    refine Sends.one le_rfl (routed_of_head rfl ?_)
    show lqe.path.head? = some cfg.cachel2
    rw [hp, ← here]
    rfl
  · refine Sends.one le_rfl fun _ => ?_
    show some top = lqe.path.head?
    rw [hp]
    rfl

theorem addEventToULpp_sends (h : Placed w part cfg) (isData : Bool) :
    Meets (fun _ => True) (fun call => Sends w part (w.load lqe) [call])
      (addEventToULpp cfg t lqe isData) := by
  unfold addEventToULpp
  rw [meets_bind, Lqe.meets_top]
  refine ⟨fun _ => trivial, fun top path hp => ?_⟩
  show Sends w part _ [if top = cfg.cachel2 then toL2 cfg t lqe else _]
  split
  · rename_i here
    refine Sends.one le_rfl (routed_of_head rfl ?_)
    show lqe.path.head? = some cfg.cachel2
    rw [hp, ← here]
    rfl
  · refine Sends.one le_rfl fun _ hc => ?_
    cases h.crossbar.symm.trans hc

theorem addEventToComp_free (w : Weight C) (part : C → Part C) (c : C)
    (h : cargo lqe.type = .nothing) :
    Sends w part 0 [addEventToComp cfg t c lqe] := by
  have noNack : lqe.type ≠ .nack := fun hn => by
    rw [hn] at h
    cases h
  unfold addEventToComp
  split
  · exact Sends.one (w.load_nothing _ h).le (routed_of_type noNack)
  · refine Sends.one ?_ (routed_of_type noNack)
    exact (w.load_nothing ({ lqe.push c with path := (lqe.push c).path.tail }) h).le

theorem repEvict_handles (h : Placed w part cfg) (type : cargo lqe.type = .nothing) :
    Meets (fun _ => True) (Handles w part (w.held (some e))) (repEvict cfg t e lqe st) := by
  have write : Sends w part 0 [toMc cfg t (lqe.push cfg.self)] :=
    toMc_sends h (w.load_nothing (lqe.push cfg.self) type).le
  unfold repEvict
  dsimp only
  split
  · split
    · trivial
    · refine Meets.after fun top => ?_
      split
      · exact .still rfl le_rfl
      · exact .of_sends write (Nat.zero_le _)
  · split
    · trivial
    · refine Meets.after fun top => ?_
      split
      · exact .still rfl le_rfl
      · split
        · exact .of_sends write (Nat.zero_le _)
        · exact .of_sends write (Nat.zero_add _).le
  · exact Meets.after fun top => .still rfl le_rfl
  · exact .still rfl le_rfl
  · refine Meets.after fun top => ?_
    split
    · exact .still rfl (Nat.zero_le _)
    · exact .still rfl le_rfl

omit [LinearOrder C] in
theorem repEToX_handles :
    Meets (fun _ => True) (Handles w part (w.held found)) (repEToX found lqe st) := by
  unfold repEToX
  split
  · exact .still rfl (Nat.zero_le _)
  · split
    · trivial
    · split
      · exact .still rfl (Nat.zero_le _)
      · exact .still rfl ((held_of_none rfl).le.trans (Nat.zero_le _))

theorem resume_handles (h : Placed w part cfg) (pending : Lqe C) :
    Meets (fun _ => True) (Handles w part (w.whole pending)) (resume cfg t e pending lqe st) := by
  unfold resume
  refine Meets.after fun top => ?_
  dsimp only
  split
  · rw [meets_bind]
    refine (addEventToUL_sends w part true).mono (fun grant hg => .of_sends hg ?_) fun _ h => h
    rw [held_of_none rfl]
    exact w.load_le_whole pending
  · refine .of_sends (toMc_push h .eRd) ?_
    rw [held_of_none rfl]
    exact le_rfl

theorem repInvalidate_handles (h : Placed w part cfg) :
    Meets (fun _ => True) (Handles w part (w.held found)) (repInvalidate cfg t found lqe st) := by
  unfold repInvalidate
  split
  · exact .still rfl (Nat.zero_le _)
  · rename_i e
    split
    · trivial
    · refine Meets.after fun popped => Meets.after fun top => ?_
      dsimp only
      split
      · trivial
      · rename_i pending hp
        rw [held_of_some hp]
        split
        · exact resume_handles h pending
        · exact .still rfl (held_of_some hp).le

theorem repNd_handles (h : Placed w part cfg) :
    Meets (fun _ => True) (Handles w part (w.held found)) (repNd cfg t found lqe st) := by
  unfold repNd
  split
  · trivial
  · rename_i e
    split
    · trivial
    · split
      · trivial
      · rename_i pending hp
        rw [held_of_some hp]
        dsimp only
        rw [meets_bind]
        refine (addEventToULpp_sends h false).mono (fun nack hn => ?_) fun _ h => h
        have light := w.load_le_whole { pending with type := .nack }
        split
        · exact .of_sends hn light
        · refine .of_sends hn ?_
          rw [held_of_none rfl]
          exact light

omit [LinearOrder C] in
theorem writeBack_free (h : Placed w part cfg) : Sends w part 0 (writeBack cfg t lqe) := by
  unfold writeBack
  split
  · exact toMc_new h _ _ _
  · exact .nil

theorem repData_handles (h : Placed w part cfg) :
    Meets (fun _ => True) (Handles w part (w.held found)) (repData cfg t found lqe st) := by
  unfold repData
  split
  · trivial
  · rename_i e
    split
    · trivial
    · split
      · trivial
      · rename_i pending hp
        rw [held_of_some hp]
        refine Meets.after fun top => ?_
        rw [meets_bind]
        refine (addEventToUL_sends w part true).mono (fun grant hg => ?_) fun _ h => h
        refine .of_sends ((writeBack_free h).append hg) ?_
        rw [held_of_none rfl, Nat.zero_add]
        exact w.load_le_whole { pending with type := .sRd }

theorem repFromMc_handles (h : Placed w part cfg) :
    Meets (fun _ => True) (Handles w part (w.held found + w.load lqe))
      (repFromMc cfg t found lqe st) := by
  unfold repFromMc
  dsimp only
  rw [meets_bind, Lqe.meets_pop]
  refine ⟨fun _ => trivial, fun c path hp => ?_⟩
  have popped := w.load_pop hp
  split
  · rw [meets_bind]
    exact (addEventToULpp_sends h true).mono (fun call hc => .beside hc popped le_rfl) fun _ h => h
  · rename_i e he
    obtain ⟨rfl, hf⟩ := Option.filter_eq_some_iff.mp he
    split
    · rw [meets_bind]
      exact (addEventToULpp_sends h true).mono
        (fun call hc => .beside hc popped (held_congr rfl).le)
        fun _ h => h
    · rw [meets_bind]
      refine (addEventToULpp_sends h true).mono (fun call hc => .beside hc ?_ (held_congr rfl).le)
        fun _ h => h
      have type : lqe.type = .eRd := by
        simp only [decide_eq_true_eq] at hf
        exact hf.1
      have write : w.load { lqe with path, type := .write } = w.load { lqe with path } := by
        rw [w.load_stack _ rfl, w.load_stack { lqe with path } (congrArg cargo type)]
        rfl
      exact write.trans_le popped

theorem reply_handles (h : Placed w part cfg) :
    Meets (fun _ => True) (Handles w part (w.held found + w.load lqe))
      (reply cfg t found lqe st) := by
  have more : ∀ {x : Except Abort (Outcome C)}, Meets (fun _ => True)
    (Handles w part (w.held found)) x →
      Meets (fun _ => True) (Handles w part (w.held found + w.load lqe)) x := fun hx =>
    hx.mono (fun o turn => by
      obtain ⟨k, sends, hk⟩ := turn
      exact ⟨k, sends, by omega⟩) fun _ h => h
  unfold reply
  split
  · rename_i type
    cases found with
    | none => exact more (.still rfl (Nat.zero_le _))
    | some e => exact more (repEvict_handles h (congrArg cargo type))
  · rename_i type
    cases found with
    | none => exact more (.still rfl (Nat.zero_le _))
    | some e => exact more (repEvict_handles h (congrArg cargo type))
  · exact more repEToX_handles
  · exact more repEToX_handles
  · exact more (repInvalidate_handles h)
  · exact more (repInvalidate_handles h)
  · exact more (repNd_handles h)
  · exact more (repNd_handles h)
  · exact more (repNd_handles h)
  · exact more (repData_handles h)
  · exact more (repData_handles h)
  · exact more (repData_handles h)
  · exact repFromMc_handles h

theorem nack_handles (h : Placed w part cfg) :
    Meets (fun _ => True) (Handles w part (w.held (some e) + w.whole lqe))
      (nack cfg t e lqe st) := by
  unfold nack
  rw [meets_bind]
  exact (addEventToULpp_sends h false).mono (fun call hc => .beside hc le_rfl le_rfl) fun _ h => h

omit [LinearOrder C] in
theorem hold_handles {o : Outcome C} {e' : DirEntry C} (h : Sends w part 0 o.calls)
    (ho : o.entry = some e') (hp : e'.pending = some lqe) :
    Handles w part (w.held (some e) + w.whole lqe) o := by
  refine .of_sends h ?_
  rw [ho, held_of_some hp]
  omega

theorem askOwner_handles (type : CoherenceState) {etype : EventType} (owner : C)
    (h : cargo etype = .nothing) :
    Handles w part (w.held (some e) + w.whole lqe) (askOwner cfg t e lqe type etype owner st) :=
  hold_handles (addEventToComp_free w part owner h) rfl rfl

theorem reqRead_handles (h : Placed w part cfg) :
    Meets (fun _ => True) (Handles w part (w.held (some e) + w.whole lqe))
      (reqRead cfg t e lqe st) := by
  refine Meets.after fun top => ?_
  split
  · exact nack_handles h
  · split
    · split
      · trivial
      · split
        · trivial
        · split
          · exact askOwner_handles _ _ rfl
          · exact askOwner_handles _ _ rfl
    · split
      · split
        · trivial
        · exact askOwner_handles _ _ rfl
      · trivial

theorem invalidations_free :
    Sends w part 0 (invalidations cfg t e lqe) := by
  have one : ∀ c, ∀ type ∈ [EventType.invalidate, .invalidateNd, .nop],
      Sends w part 0 [invalidation cfg t lqe c type] := fun c type ht =>
    addEventToComp_free w part c (by
      simp only [List.mem_cons, List.not_mem_nil, or_false] at ht
      rcases ht with rfl | rfl | rfl <;> rfl)
  have all : ∀ (cs : List C) (type : C → EventType),
      (∀ c, type c ∈ [EventType.invalidate, .invalidateNd, .nop]) →
      Sends w part 0 (cs.map fun c => invalidation cfg t lqe c (type c)) := fun cs type ht => by
    induction cs with
    | nil => exact .nil
    | cons c cs ih => exact (one c _ (ht c)).cons ih
  unfold invalidations
  split
  · refine all _ _ fun c => ?_
    split
    · simp
    · split <;> simp
  · refine all _ _ fun c => ?_
    split <;> simp

theorem reqWrite_handles (h : Placed w part cfg) :
    Meets (fun _ => True) (Handles w part (w.held (some e) + w.whole lqe))
      (reqWrite cfg t e lqe st) := by
  unfold reqWrite
  split
  · split
    · trivial
    · refine Meets.after fun top => ?_
      split
      · rw [meets_bind]
        exact (addEventToULpp_sends h false).mono
          (fun call hc => .beside hc le_rfl (held_congr rfl).le)
          fun _ h => h
      · split
        · trivial
        · exact hold_handles (addEventToComp_free w part _ rfl) rfl rfl
  · split
    · trivial
    · exact hold_handles invalidations_free rfl rfl
  · split
    · trivial
    · refine Meets.after fun top => ?_
      split
      · rw [meets_bind]
        exact (addEventToUL_sends w part false).mono (fun call hc => .beside hc le_rfl le_rfl)
          fun _ h => h
      · split
        · trivial
        · exact hold_handles (addEventToComp_free w part _ rfl) rfl rfl
  · trivial

theorem request_handles (h : Placed w part cfg) :
    Meets (fun _ => True) (Handles w part (w.held found + w.whole lqe))
      (request cfg t found lqe st) := by
  unfold request
  split
  · refine Meets.after fun top => .of_sends (toMc_push h .eRd) ?_
    rw [held_of_none rfl]
    omega
  · split
    · exact nack_handles h
    · split
      · exact reqRead_handles h
      · split
        · exact reqWrite_handles h
        · trivial

end Handlers

/-- What waits in the directory, and an element that weighs `n`, are sent, or still wait with one
that weighs `n'`. -/
def Turns (w : Weight C) (part : C → Part C) (n n' : Nat) (s s' : Directory C)
    (calls : List (Call C)) :
    Prop :=
  ∃ k, Sends w part k calls ∧ ∃ near : Finset Nat, ∀ lines, near ⊆ lines →
    w.inDirectory lines s' + k + n' ≤ w.inDirectory lines s + n

variable {s s' s'' : Directory C} {calls calls' : List (Call C)} {n' n'' : Nat}

theorem Turns.trans (h : Turns w part n n' s s' calls) (h' : Turns w part n' n'' s' s'' calls') :
    Turns w part n n'' s s'' (calls ++ calls') := by
  obtain ⟨k, sends, near, less⟩ := h
  obtain ⟨k', sends', near', less'⟩ := h'
  refine ⟨k + k', sends.append sends', near ∪ near', fun lines sub => ?_⟩
  have first := less lines (Finset.union_subset_left sub)
  have second := less' lines (Finset.union_subset_right sub)
  omega

theorem Turns.of_same {k : Nat} (h : Sends w part k calls)
    (same : ∀ lines, w.inDirectory lines s' = w.inDirectory lines s) (hn : k + n' ≤ n) :
    Turns w part n n' s s' calls :=
  ⟨k, h, ∅, fun lines _ => by
    rw [same]
    omega⟩

theorem inDirectory_setEntry {lines : Finset Nat} {line : Nat} (h : line ∈ lines)
    (entry : Option (DirEntry C)) :
    w.inDirectory lines (s.setEntry line entry) + w.held (s.dir line) =
      w.inDirectory lines s + w.held entry := by
  have one := sum_update s.dir (fun _ => w.held) h entry
  simp only [Weight.inDirectory, setEntry]
  omega

theorem Turns.setEntry {k line : Nat} {entry : Option (DirEntry C)} (h : Sends w part k calls)
    (same : ∀ lines, w.inDirectory lines s' = w.inDirectory lines s)
    (hd : w.held (s'.dir line) = w.held (s.dir line))
    (hn : k + w.held entry + n' ≤ w.held (s.dir line) + n) :
    Turns w part n n' s (s'.setEntry line entry) calls := by
  refine ⟨k, h, {line}, fun lines sub => ?_⟩
  have change := inDirectory_setEntry (w := w) (s := s') (Finset.singleton_subset_iff.mp sub) entry
  rw [hd, same] at change
  omega

theorem inDirectory_apply (lines : Finset Nat) (line : Nat) (o : Outcome C) :
    w.inDirectory lines (s.apply cfg line o) = w.inDirectory lines (s.setEntry line o.entry) := by
  unfold apply
  dsimp only
  split <;> rfl

theorem Turns.apply {line : Nat} {o : Outcome C}
    (h : Handles w part (w.held (s.dir line) + n) o) :
    Turns w part n 0 s (s.apply cfg line o) o.calls := by
  obtain ⟨k, sends, hk⟩ := h
  have turns : Turns w part n 0 s (s.setEntry line o.entry) o.calls :=
    Turns.setEntry sends (fun _ => rfl) rfl hk
  obtain ⟨k', sends', near, less⟩ := turns
  exact ⟨k', sends', near, fun lines sub => by
    rw [inDirectory_apply]
    exact less lines sub⟩

theorem scanVictim_held (dir : Nat → Option (DirEntry C)) (keys : List Nat) (key : Nat) :
    w.held ((scanVictim dir keys).1 key) = w.held (dir key) := by
  induction keys generalizing dir with
  | nil => rfl
  | cons head keys ih =>
    have same : w.held (Function.update dir head (some ((dir head).getD {})) key) =
      w.held (dir key) := by
      by_cases hk : key = head
      · subst hk
        rw [Function.update_self]
        cases dir key with
        | none => rfl
        | some e => rfl
      · rw [Function.update_of_ne hk]
    unfold scanVictim
    dsimp only
    split
    · exact (ih _).trans same
    · exact same

theorem scan_held {keys : List Nat} {dir : Nat → Option (DirEntry C)} {v : Option Nat}
    (h : scanVictim s.dir keys = (dir, v)) (key : Nat) : w.held (dir key) = w.held (s.dir key) := by
  rw [← scanVictim_held s.dir keys key, h]

theorem inDirectory_scan {keys : List Nat} {dir : Nat → Option (DirEntry C)} {v : Option Nat}
    (h : scanVictim s.dir keys = (dir, v)) (lines : Finset Nat) :
    w.inDirectory lines { s with dir } = w.inDirectory lines s := by
  simp only [Weight.inDirectory, scan_held h]

/-- A message that is dealt with, or goes on; an element that goes on weighs `f`. -/
def Stage.Turns (w : Weight C) (part : C → Part C) (f : Lqe C → Nat) (n : Nat) (s : Directory C) :
    Stage C → Prop
  | .stop s' effects => Directory.Turns w part n 0 s s' effects.calls
  | .go s' lqe calls _ => Directory.Turns w part n (f lqe) s s' calls

theorem infoMessage_sends (h : Placed w part cfg) (type : EventType) (address : Nat) :
    Sends w part 0 [infoMessage cfg t type address] :=
  toMc_new h type address 0

theorem inDirectory_addReq (lines : Finset Nat) :
    w.inDirectory lines (s.addReqEvent cfg t lqe) = w.inDirectory lines s + w.whole lqe := by
  simp only [Weight.inDirectory, addReqEvent, weigh_insert]
  omega

theorem inDirectory_addRep (lines : Finset Nat) :
    w.inDirectory lines (s.addRepEvent cfg t lqe) = w.inDirectory lines s + w.load lqe := by
  unfold addRepEvent
  split
  · rename_i type
    rw [inDirectory_addReq, w.load_stack lqe (congrArg cargo type)]
  · simp only [Weight.inDirectory, weigh_insert]
    omega

theorem retry_turns (same : ∀ lines, w.inDirectory lines s' = w.inDirectory lines s) :
    Stage.Turns w part w.load (w.load lqe) s (retry cfg s' t lqe) := by
  refine ⟨0, .nil, ∅, fun lines _ => ?_⟩
  rw [inDirectory_addRep, same]
  exact le_rfl

theorem cacheOnReply_turns (h : Placed w part cfg) (he : s.dir (cfg.lineOf lqe.address) = some e) :
    Stage.Turns w part w.load (w.load lqe) s (cacheOnReply cfg t s e lqe) := by
  have kept : ∀ (entry : DirEntry C), entry.pending = e.pending → ∀ n', n' ≤ w.load lqe →
      0 + w.held (some entry) + n' ≤ w.held (s.dir (cfg.lineOf lqe.address)) + w.load lqe :=
    fun entry hp n' hn => by
      rw [he, held_congr hp]
      omega
  unfold cacheOnReply
  dsimp only
  split
  · exact Turns.of_same (.nil (n := 0)) (fun _ => rfl) (Nat.zero_add _).le
  · split
    · split
      · exact Turns.setEntry .nil (fun _ => rfl) rfl (kept _ rfl 0 (Nat.zero_le _))
      · split
        · exact retry_turns fun _ => rfl
        · exact Turns.of_same (.nil (n := 0)) (fun _ => rfl) (Nat.zero_add _).le
    · have info := infoMessage_sends (t := t) h .rdDirInfoRep lqe.address
      split
      · split
        · rename_i dir scanned
          exact retry_turns (inDirectory_scan scanned)
        · rename_i dir v scanned
          exact Turns.setEntry ((infoMessage_sends h .dirEvict lqe.address).cons info)
            (inDirectory_scan scanned) (scan_held scanned _) (kept _ rfl _ le_rfl)
      · exact Turns.setEntry info (fun _ => rfl) rfl (kept _ rfl _ le_rfl)

section Process
variable [LinearOrder C]

theorem refuse_turns (h : Placed w part cfg)
    (same : ∀ lines, w.inDirectory lines s' = w.inDirectory lines s) :
    Meets (fun _ => True) (Stage.Turns w part w.whole (w.whole lqe) s) (refuse cfg t s' lqe) := by
  unfold refuse
  rw [meets_bind]
  exact (addEventToULpp_sends h false).mono (fun call hc => Turns.of_same hc same le_rfl)
    fun _ h => h

theorem cacheOnNew_turns (h : Placed w part cfg) :
    Meets (fun _ => True) (Stage.Turns w part w.whole (w.whole lqe) s)
      (cacheOnNew cfg t s lqe) := by
  unfold cacheOnNew
  dsimp only
  split
  · exact Turns.of_same (.nil (n := 0)) (fun _ => rfl) (Nat.zero_add _).le
  · split
    · split
      · rename_i dir scanned
        exact refuse_turns h (inDirectory_scan scanned)
      · rename_i dir v scanned
        exact Turns.of_same (infoMessage_sends h .dirEvict lqe.address) (inDirectory_scan scanned)
          (Nat.zero_add _).le
    · exact Turns.of_same (.nil (n := 0)) (fun _ => rfl) (Nat.zero_add _).le

theorem cacheOnFound_turns (h : Placed w part cfg) (he : s.dir (cfg.lineOf lqe.address) = some e) :
    Meets (fun _ => True) (Stage.Turns w part w.whole (w.whole lqe) s)
      (cacheOnFound cfg t s e lqe) := by
  unfold cacheOnFound
  dsimp only
  split
  · exact Turns.of_same (.nil (n := 0)) (fun _ => rfl) (Nat.zero_add _).le
  · split
    · split
      · split
        · trivial
        · rename_i pending hp
          refine Turns.setEntry (.nil (n := 0)) (fun _ => rfl) rfl ?_
          rw [held_of_none rfl, he, held_of_some hp]
          omega
      · split
        · exact refuse_turns h fun _ => rfl
        · exact Turns.of_same (.nil (n := 0)) (fun _ => rfl) (Nat.zero_add _).le
    · have info := infoMessage_sends (t := t) h .rdDirInfoReq lqe.address
      have waits : 0 + w.held (some { e with pending := some lqe, notInDc := true }) + 0 ≤
          w.held (s.dir (cfg.lineOf lqe.address)) + w.whole lqe := by
        rw [held_of_some rfl]
        omega
      split
      · trivial
      · split
        · split
          · rename_i dir scanned
            exact refuse_turns h (inDirectory_scan scanned)
          · rename_i dir v scanned
            exact Turns.setEntry ((infoMessage_sends h .evict lqe.address).cons info)
              (inDirectory_scan scanned) (scan_held scanned _) waits
        · exact Turns.setEntry info (fun _ => rfl) rfl waits

theorem cacheOnRequest_turns (h : Placed w part cfg) :
    Meets (fun _ => True) (Stage.Turns w part w.whole (w.whole lqe) s)
      (cacheOnRequest cfg t s lqe) := by
  unfold cacheOnRequest
  split
  · exact cacheOnNew_turns h
  · rename_i e he
    exact cacheOnFound_turns h he

theorem serveReply_turns (h : Placed w part cfg) (before : Turns w part n (w.load lqe) s s' calls) :
    Meets (fun _ => True) (fun r => Turns w part n 0 s r.1 r.2.calls)
      (serveReply cfg t s' lqe calls) := by
  unfold serveReply
  rw [meets_bind]
  exact (reply_handles h).mono (fun o ho => before.trans (Turns.apply ho)) fun _ h => h

theorem serveRequest_turns (h : Placed w part cfg) (deleted : List (Lqe C))
    (before : Turns w part n (w.whole lqe) s s' calls) :
    Meets (fun _ => True) (fun r => Turns w part n 0 s r.1 r.2.calls)
      (serveRequest cfg t s' lqe calls deleted) :=
  serveRequest_meets ((request_handles h).mono (fun _ ho => before.trans (Turns.apply ho))
    fun _ h => h)

theorem processReply_turns (h : Placed w part cfg) :
    Meets (fun _ => True) (fun r => Turns w part (w.load lqe) 0 s r.1 r.2.calls)
      (processReply cfg t s lqe) := by
  have plain : Turns w part (w.load lqe) (w.load lqe) s s [] :=
    Turns.of_same (.nil (n := 0)) (fun _ => rfl) (Nat.zero_add _).le
  unfold processReply
  split
  · exact serveReply_turns h plain
  · rename_i e he
    split
    · have stage := cacheOnReply_turns (t := t) h he
      split
      · rename_i heq
        rw [heq] at stage
        exact stage
      · rename_i heq
        rw [heq] at stage
        exact serveReply_turns h stage
    · exact serveReply_turns h plain

theorem processRequest_turns (h : Placed w part cfg) :
    Meets (fun _ => True) (fun r => Turns w part (w.whole lqe) 0 s r.1 r.2.calls)
      (processRequest cfg t s lqe) := by
  unfold processRequest
  rw [meets_bind]
  refine (cacheOnRequest_turns h).mono (fun stage turns => ?_) fun _ h => h
  cases stage with
  | stop s' effects => exact turns
  | go s' lqe' calls deleted => exact serveRequest_turns h deleted turns

omit [LinearOrder C] in
theorem inDirectory_takeEvents (lines : Finset Nat) (t : Nat) (s : Directory C) :
    w.inDirectory lines (s.takeEvents t) = w.inDirectory lines s := by
  have reqs := weigh_front (f := w.whole) t s.reqEvent
  have reps := weigh_front (f := w.load) t s.repEvent
  simp only [Weight.inDirectory, takeEvents, weigh_append]
  omega

theorem serve_turns (h : Placed w part cfg) :
    Meets (fun _ => True) (fun r => Turns w part 0 0 s r.1 r.2.calls) (serve cfg t s) := by
  unfold serve
  dsimp only
  split
  · rename_i lqe repQ hq
    have taken : Turns w part 0 (w.load lqe) s { s with repQ } [] := by
      refine ⟨0, .nil, ∅, fun lines _ => ?_⟩
      simp only [Weight.inDirectory, hq, weigh_cons]
      omega
    rw [meets_bind]
    refine (processReply_turns h).mono (fun r turns => ?_) fun _ h => h
    have turned := taken.trans turns
    split
    · exact turned
    · exact turned
  · rename_i lqe reqQ hq hq'
    have taken : Turns w part 0 (w.whole lqe) s { s with reqQ } [] := by
      refine ⟨0, .nil, ∅, fun lines _ => ?_⟩
      simp only [Weight.inDirectory, hq', weigh_cons]
      omega
    rw [meets_bind]
    refine (processRequest_turns h).mono (fun r turns => ?_) fun _ h => h
    have turned := taken.trans turns
    split
    · exact turned
    · exact turned
  · trivial

theorem processEvent_turns (h : Placed w part cfg) :
    Meets (fun _ => True) (fun r => Turns w part 0 0 s r.1 r.2.calls) (processEvent cfg t s) := by
  refine (serve_turns h).mono
    (fun r ⟨k, sends, near, less⟩ => ⟨k, sends, near, fun lines sub => ?_⟩)
    fun _ h => h
  rw [← inDirectory_takeEvents lines t s]
  exact less lines sub

end Process
end McSim.Directory
