import McSim.DirectoryCopies

/-! The trails of the modified copies when a handler is done.
The message it has taken is off its trail, and its calls are at the ends of others. -/

namespace McSim

namespace Net

open Directory Contract

variable {C : Type} [LinearOrder C] {cfg : DirConfig C} {s s₀ : Net C} {dir : Directory C}
    {line : Nat}
  {o : Outcome C} {own : List (Lqe C)} {lqe : Lqe C} {c : C}

def sentDown (cfg : DirConfig C) (calls : List (Call C)) (c : C) : List (Lqe C) :=
  calls.flatMap fun call => toL2Of cfg call c

theorem mem_sentDown {calls : List (Call C)} :
    lqe ∈ sentDown cfg calls c ↔ ∃ call ∈ calls, route cfg call = .l2 c lqe := by
  simp only [sentDown, List.mem_flatMap, toL2Of]
  refine exists_congr fun call => and_congr_right fun _ => ?_
  cases route cfg call with
  | l2 c' lqe' =>
    by_cases hc : c' = c
    · subst hc
      simp [eq_comm]
    · simp [hc]
  | memory lqe' => simp
  | nowhere => simp

theorem mem_toMcOf {call : Call C} :
    lqe ∈ toMcOf cfg call ↔ route cfg call = .memory lqe ∧ lqe.type = .eRd := by
  unfold toMcOf
  cases route cfg call with
  | l2 c' lqe' => simp
  | memory lqe' =>
    dsimp only
    split
    · rename_i ht
      simp only [List.mem_singleton, Route.memory.injEq]
      exact ⟨fun h => ⟨h.symm, h ▸ ht⟩, fun h => h.1.symm⟩
    · rename_i ht
      simp only [List.not_mem_nil, Route.memory.injEq, false_iff, not_and]
      exact fun h => h ▸ ht
  | nowhere => simp

theorem send_rest (cfg : DirConfig C) (s : Net C) (call : Call C) :
    (send cfg s call).modified = s.modified ∧ (send cfg s call).senders = s.senders ∧
      (send cfg s call).written = s.written ++ writesOf cfg call := by
  unfold send writesOf
  cases route cfg call with
  | l2 c lqe => simp
  | memory lqe =>
    by_cases ht : lqe.type = .eRd
    · simp [ht]
    · by_cases hi : isInfo lqe.type = true <;> simp [ht, hi]
  | nowhere => simp

theorem sendAll_sent (calls : List (Call C)) :
    (sendAll cfg s calls).dir = s.dir ∧ (sendAll cfg s calls).todo = s.todo ∧
      (sendAll cfg s calls).repUp = s.repUp ∧ (sendAll cfg s calls).modified = s.modified ∧
      (sendAll cfg s calls).senders = s.senders ∧
      (∀ c, (sendAll cfg s calls).down c = s.down c ++ sentDown cfg calls c) ∧
      (sendAll cfg s calls).mc = s.mc ++ calls.flatMap (toMcOf cfg) ∧
      (sendAll cfg s calls).written = s.written ++ calls.flatMap (writesOf cfg) := by
  induction calls generalizing s with
  | nil => simp [sendAll, sentDown]
  | cons call calls ih =>
    obtain ⟨hdir, htodo, -, hrep, -⟩ := send_fixed cfg s call
    obtain ⟨hmod, hsenders, hwritten⟩ := send_rest cfg s call
    obtain ⟨hdir', htodo', hrep', hmod', hsenders', hdown', hmc', hwritten'⟩ :=
      @ih (send cfg s call)
    refine ⟨hdir'.trans hdir, htodo'.trans htodo, hrep'.trans hrep, hmod'.trans hmod,
      hsenders'.trans hsenders, fun c => (hdown' c).trans ?_, hmc'.trans ?_, hwritten'.trans ?_⟩
    · rw [send_down, List.append_assoc]
      rfl
    · rw [send_mc, List.append_assoc]
      rfl
    · rw [hwritten, List.append_assoc]
      rfl

theorem trail_sendAll (calls : List (Call C)) (line : Nat) (c : C) :
    trail cfg (sendAll cfg s calls) line c =
      trail cfg s line c ++ (sentDown cfg calls c).filterMap (downMark cfg line) := by
  obtain ⟨hdir, htodo, hrep, hmod, -, hdown, -⟩ := @sendAll_sent _ _ cfg s calls
  have hup : (sendAll cfg s calls).up c = s.up c := up_congr hdir (congrFun hrep c)
  simp only [trail, htodo, hup, hmod, hdown, List.filterMap_append, List.append_assoc]

theorem mem_mc_sendAll {calls : List (Call C)} (h : lqe ∈ (sendAll cfg s calls).mc) :
    lqe ∈ s.mc ∨ ∃ call ∈ calls, route cfg call = .memory lqe ∧ lqe.type = .eRd := by
  obtain ⟨-, -, -, -, -, -, hmc, -⟩ := @sendAll_sent _ _ cfg s calls
  rw [hmc, List.mem_append, List.mem_flatMap] at h
  refine h.imp_right fun h => ?_
  obtain ⟨call, hcall, h⟩ := h
  exact ⟨call, hcall, mem_toMcOf.mp h⟩

theorem mem_below_sendAll {calls : List (Call C)}
    (h : lqe ∈ (sendAll cfg s calls).todo c ++ (sendAll cfg s calls).down c) :
    lqe ∈ s.todo c ++ s.down c ∨ ∃ call ∈ calls, route cfg call = .l2 c lqe := by
  obtain ⟨-, htodo, -, -, -, hdown, -⟩ := @sendAll_sent _ _ cfg s calls
  rw [htodo, hdown, ← List.append_assoc, List.mem_append] at h
  exact h.imp_right mem_sentDown.mp

/-- An entry that an L2 or the memory has yet to answer about keeps its sharers. -/
def Settles (cfg : DirConfig C) (s : Net C) (line : Nat) (o : Outcome C) : Prop :=
  ∀ e', o.entry = some e' → (1 ≤ reads cfg s line ∨ ∃ a, 1 ≤ load cfg s line .upgrade a) →
    ∃ e, s.dir.dir line = some e ∧ e'.sharedL2 = e.sharedL2

/-- A handler ends: `dir` is the directory with the entry it leaves, and its calls are not yet
sent. -/
structure Ended (cfg : DirConfig C) (s : Net C) (dir : Directory C) (line : Nat) (o : Outcome C)
    (own : List (Lqe C)) : Prop where
  wellFormed : WellFormed cfg s
  harmless : Harmless s
  tracked : ∀ line, Tracked cfg s line
  entry : dir.dir = Function.update s.dir.dir line o.entry
  repEvent : dir.repEvent = s.dir.repEvent
  continues : Continues cfg line (load cfg s line) (reads cfg s line) o
  carries : Carries cfg (fun a => Mark.copy ∈ trail cfg s line a) own o
  settles : Settles cfg s line o

namespace Ended

abbrev after (cfg : DirConfig C) (s : Net C) (dir : Directory C) (o : Outcome C) : Net C :=
  sendAll cfg { s with dir } o.calls

theorem dir_after (h : Ended cfg s dir line o own) :
    (after cfg s dir o).dir.dir line = o.entry := by
  rw [sendAll_dir]
  exact (congrFun h.entry line).trans (Function.update_self ..)

theorem reads_after (h : Ended cfg s dir line o own) (line' : Nat) :
    reads cfg (after cfg s dir o) line' =
      reads cfg s line' + if line' = line then readsSent cfg o.calls else 0 := by
  have wf : WellFormed cfg { s with dir } :=
    ⟨h.wellFormed.1, h.wellFormed.2, h.wellFormed.3, h.wellFormed.4, h.wellFormed.5⟩
  obtain ⟨-, -, hlines⟩ := sendAll_spec wf h.continues.proper
  exact (hlines line').2

theorem trail_after (h : Ended cfg s dir line o own) (line' : Nat) (a : C) :
    trail cfg (after cfg s dir o) line' a =
      trail cfg s line' a ++ (sentDown cfg o.calls a).filterMap (downMark cfg line') := by
  have same : trail cfg { s with dir } line' a = trail cfg s line' a := by
    refine trail_congr ?_ rfl rfl rfl
    simp only [up, putBack, h.repEvent]
  rw [trail_sendAll, same]

theorem granted {a : C} (hm : Mark.copy ∈ (sentDown cfg o.calls a).filterMap (downMark cfg line)) :
    ∃ call ∈ o.calls, ∃ m, route cfg call = .l2 a m ∧ m.type = .write := by
  obtain ⟨m, hm, hmark⟩ := List.mem_filterMap.mp hm
  obtain ⟨call, hcall, hr⟩ := mem_sentDown.mp hm
  exact ⟨call, hcall, m, hr, (downMark_eq_copy.mp hmark).2⟩

theorem was_copy (h : Ended cfg s dir line o own) {a b : C} {m : Lqe C} (hm : m ∈ s.owed a)
    (hl : cfg.lineOf m.address = line) (hd : demandOf m.type ≠ none)
    (hb : Mark.copy ∈ trail cfg (after cfg s dir o) line b) : Mark.copy ∈ trail cfg s line b := by
  rw [h.trail_after, List.mem_append] at hb
  refine hb.resolve_right fun hb => ?_
  obtain ⟨call, hcall, m', hr, hw⟩ := granted hb
  exact hd (demandOf_of_load (h.continues.of_grant h.carries hcall hr hw).1 hm hl)

theorem leads (h : Ended cfg s dir line o own) (a : C) :
    Leads (trail cfg (after cfg s dir o) line a) := by
  rw [h.trail_after]
  by_cases hg : Mark.copy ∈ (sentDown cfg o.calls a).filterMap (downMark cfg line)
  · obtain ⟨call, hcall, m, hr, hw⟩ := granted hg
    obtain ⟨one, none, -⟩ := h.carries.grant call hcall a m hr hw
    rw [trail_of_load h.harmless (h.continues.of_grant h.carries hcall hr hw).1 (none a),
      List.nil_append]
    have sent : sentDown cfg o.calls a = [m] := by simp [one, sentDown, toL2Of, hr]
    rw [sent, List.filterMap_cons, List.filterMap_nil]
    split <;> simp [Leads]
  · exact ((h.tracked line).leads a).append hg

theorem owner (h : Ended cfg s dir line o own) {a : C}
    (hm : Mark.copy ∈ trail cfg (after cfg s dir o) line a) :
      reads cfg (after cfg s dir o) line = 0 ∧
      ∃ e, (after cfg s dir o).dir.dir line = some e ∧ e.sharedL2 = {a} ∧ Lent e.type := by
  rw [h.reads_after, if_pos rfl, h.dir_after]
  rw [h.trail_after, List.mem_append] at hm
  rcases hm with hm | hm
  · obtain ⟨sent, he⟩ := h.carries.owner a hm
    exact ⟨by rw [((h.tracked line).owner a hm).1, sent], he⟩
  · obtain ⟨call, hcall, m, hr, hw⟩ := granted hm
    obtain ⟨-, hr0, hs0⟩ := h.continues.of_grant h.carries hcall hr hw
    obtain ⟨-, -, e, he, hs, ht⟩ := h.carries.grant call hcall a m hr hw
    exact ⟨by omega, e, he, hs, .inl ht⟩

theorem dataless (h : Ended cfg s dir line o own) {a : C} {m : Lqe C}
    (hm : m ∈ (after cfg s dir o).todo a ++ (after cfg s dir o).down a)
    (hl : cfg.lineOf m.address = line) (ht : Dataless m.type) :
      Mark.copy ∉ trail cfg (after cfg s dir o) line a := by
  intro hcopy
  rcases mem_below_sendAll hm with hm | ⟨call, hcall, hr⟩
  · have hm : m ∈ s.todo a ++ s.down a := hm
    have owed : m ∈ s.owed a := by
      rw [List.mem_append] at hm
      rcases hm with hm | hm <;> simp [Net.owed, hm]
    refine (h.tracked line).dataless a m hm hl ht (h.was_copy owed hl (fun none => ?_) hcopy)
    simp [Dataless, none] at ht
  · have none := h.carries.dataless call hcall a m hr ht
    rw [h.trail_after, List.mem_append] at hcopy
    rcases hcopy with hcopy | hcopy
    · exact none a hcopy
    · obtain ⟨call', hcall', m', hr', hw'⟩ := granted hcopy
      obtain ⟨one, -⟩ := h.carries.grant call' hcall' a m' hr' hw'
      rw [one, List.mem_singleton] at hcall
      subst hcall
      obtain ⟨-, rfl⟩ := Route.l2.inj (hr.symm.trans hr')
      simp [hw', Dataless, demandOf] at ht

theorem upgrader (h : Ended cfg s dir line o own) {a : C} {m : Lqe C}
    (hm : m ∈ (after cfg s dir o).owed a) (hab : about cfg line .upgrade m = true) {e : DirEntry C}
    (he : o.entry = some e) : e.sharedL2 = {a} := by
  have old : m ∈ s.owed a → e.sharedL2 = {a} := fun hm => by
    have waits : 1 ≤ load cfg s line .upgrade a := List.countP_pos_iff.mpr ⟨m, hm, hab⟩
    obtain ⟨e', he', hs⟩ := h.settles e he (.inr ⟨a, waits⟩)
    rw [hs]
    exact (h.tracked line).upgrader a m hm hab e' he'
  have place : m ∈ (after cfg s dir o).todo a ++ (after cfg s dir o).down a ∨
      m ∈ (after cfg s dir o).repUp a := by
    simp only [owed, List.mem_append] at hm ⊢
    exact hm.imp_left Or.symm
  rcases place with hm | hm
  · rcases mem_below_sendAll hm with hm | ⟨call, hcall, hr⟩
    · have hm : m ∈ s.todo a ++ s.down a := hm
      refine old ?_
      simp only [owed, List.mem_append] at hm ⊢
      exact .inl hm.symm
    · exact h.carries.upgrade call hcall a m hr (of_decide_eq_true hab).1 e he
  · obtain ⟨-, -, hrep, -⟩ := @sendAll_sent _ _ cfg { s with dir } o.calls
    rw [hrep] at hm
    exact old (by simp [owed, show m ∈ s.repUp a from hm])

theorem reader (h : Ended cfg s dir line o own) {m : Lqe C} (hm : m ∈ (after cfg s dir o).mc)
    (hl : cfg.lineOf m.address = line) {e : DirEntry C} (he : o.entry = some e) :
    ∃ c c' path, m.path = c :: c' :: path ∧ e.sharedL2 = {c'} := by
  rcases mem_mc_sendAll hm with hm | ⟨call, hcall, hr, ht⟩
  · have hm : m ∈ s.mc := hm
    have waits : 1 ≤ reads cfg s line := List.countP_pos_iff.mpr ⟨m, hm, by simpa using hl⟩
    obtain ⟨e', he', hs⟩ := h.settles e he (.inl waits)
    rw [hs]
    exact (h.tracked line).reader m hm hl e' he'
  · exact h.carries.read call hcall m hr ht e he

theorem tracked_line (h : Ended cfg s dir line o own) : Tracked cfg (after cfg s dir o) line := by
  refine ⟨h.leads, fun a hm => h.owner hm, fun a m hm hl ht => h.dataless hm hl ht,
    fun a m hm hl ht hcopy => ?_, fun a m hm hab e he => h.upgrader hm hab (h.dir_after ▸ he),
    fun m hm hl e he => h.reader hm hl (h.dir_after ▸ he)⟩
  obtain ⟨-, -, hrep, -⟩ := @sendAll_sent _ _ cfg { s with dir } o.calls
  rw [hrep] at hm
  have hm : m ∈ s.repUp a := hm
  have waits : m ∈ s.owed a := by simp [owed, hm]
  refine (h.tracked line).declined a m hm hl ht (h.was_copy waits hl ?_ hcopy)
  simp [ht, demandOf]

theorem about_line (h : Ended cfg s dir line o own) {call : Call C} {m : Lqe C}
    (hcall : call ∈ o.calls) (hr : route cfg call = .memory m ∨ ∃ c, route cfg call = .l2 c m) :
      cfg.lineOf m.address = line := by
  have proper := h.continues.proper call hcall
  rcases hr with hr | ⟨c, hr⟩ <;> rw [hr] at proper <;> exact proper.1

theorem tracked_all (h : Ended cfg s dir line o own) (line' : Nat) :
    Tracked cfg (after cfg s dir o) line' := by
  by_cases hline : line' = line
  · subst hline
    exact h.tracked_line
  · obtain ⟨hdir, -, hrep, -⟩ := @sendAll_sent _ _ cfg { s with dir } o.calls
    refine (h.tracked line').moved ?_ ?_ (fun m hm hl => ?_) (fun a => ?_) (fun a m hm hl => ?_)
      fun a m hm _ => ?_
    · rw [hdir]
      exact (congrFun h.entry line').trans (Function.update_of_ne hline ..)
    · rw [h.reads_after, if_neg hline, add_zero]
    · rcases mem_mc_sendAll hm with hm | ⟨call, hcall, hr, -⟩
      · exact hm
      · exact absurd (hl.symm.trans (h.about_line hcall (.inl hr))) hline
    · have passed : (sentDown cfg o.calls a).filterMap (downMark cfg line') = [] := by
        refine List.filterMap_eq_nil_iff.mpr fun m hm => downMark_other fun hl => ?_
        obtain ⟨call, hcall, hr⟩ := mem_sentDown.mp hm
        exact hline (hl.symm.trans (h.about_line hcall (.inr ⟨_, hr⟩)))
      rw [h.trail_after, passed, List.append_nil]
    · rcases mem_below_sendAll hm with hm | ⟨call, hcall, hr⟩
      · exact hm
      · exact absurd (hl.symm.trans (h.about_line hcall (.inr ⟨_, hr⟩))) hline
    · rw [hrep] at hm
      exact .inl hm

end Ended

end Net
end McSim
