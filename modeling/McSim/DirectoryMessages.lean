import McSim.DirectoryStages

/-! The messages between a directory and its L2s.
The phase of every line fits what is in flight about it, and what the L2s do on their own, or the
memory, keeps it so. -/

namespace McSim

namespace Net

open Directory

variable {C : Type} [LinearOrder C]

/-- What an L2 has been told and has not been heard about. -/
def owed (s : Net C) (c : C) : List (Lqe C) := s.down c ++ s.todo c ++ s.repUp c

def about (cfg : DirConfig C) (line : Nat) (d : Demand) (lqe : Lqe C) : Bool :=
  demandOf lqe.type = some d ∧ cfg.lineOf lqe.address = line

def load (cfg : DirConfig C) (s : Net C) (line : Nat) : Demand → C → Nat :=
  fun d c => (s.owed c).countP (about cfg line d)

def reads (cfg : DirConfig C) (s : Net C) (line : Nat) : Nat :=
  s.mc.countP fun lqe => cfg.lineOf lqe.address = line

def IsReply (c : C) (lqe : Lqe C) : Prop :=
  (lqe.type = .evict ∧ lqe.path.head? = some c) ∨
    ((demandOf lqe.type).isSome = true ∧ lqe.type ≠ .writeNd)

/-- Every message in flight is one that its receiver can read. -/
structure WellFormed (cfg : DirConfig C) (s : Net C) : Prop where
  invals : ∀ c, ∀ lqe ∈ s.owed c, demandOf lqe.type = some .inval → lqe.path = [cfg.self, c]
  requests : ∀ c, ∀ lqe ∈ s.reqUp c, c ∈ cfg.l2s ∧ lqe.path.head? = some c ∧
    (lqe.type = .read ∨ lqe.type = .write)
  replies : ∀ c, ∀ lqe ∈ s.repUp c, IsReply c lqe
  demands : ∀ c, ∀ lqe ∈ s.todo c, (demandOf lqe.type).isSome = true
  memory : ∀ lqe ∈ s.mc, lqe.type = .eRd ∧ ∃ c c' path, lqe.path = c :: c' :: path

structure LineInv (cfg : DirConfig C) (s : Net C) (line : Nat) : Prop where
  phase : Phase cfg.hasDirectoryCache (load cfg s line) (reads cfg s line) (s.dir.dir line)
  named : ∀ e, s.dir.dir line = some e → Named cfg line e

structure Inv (cfg : DirConfig C) (s : Net C) : Prop where
  wellFormed : WellFormed cfg s
  lines : ∀ line, LineInv cfg s line

def Informs (cfg : DirConfig C) (lqe : Lqe C) : Prop :=
  isInfo lqe.type = true ∧ lqe.path = [cfg.self] ∧ lqe.serial = none

/-- What the directory cache may put back: the `et_evict` of an L2, or information for an
eviction. -/
def Passes (cfg : DirConfig C) (lqe : Lqe C) : Prop :=
  lqe.type = .evict ∧ (∃ c, lqe.path.head? = some c) ∨ lqe.type = .rdDirInfoRep ∧ Informs cfg lqe

/-- The directory cache and the messages that there are because of it -/
structure CacheKept (cfg : DirConfig C) (s : Net C) : Prop where
  inv : cfg.hasDirectoryCache = true → CacheInv cfg s.dir
  off : cfg.hasDirectoryCache = false → s.infos = [] ∧ s.dir.repEvent = []
  putBack : ∀ x ∈ s.dir.repEvent, Passes cfg x.2
  infos : ∀ m ∈ s.infos, Informs cfg m

variable {cfg : DirConfig C} {s : Net C} {line : Nat}

theorem inv_init : Inv cfg ({} : Net C) where
  wellFormed := by
    refine ⟨fun c lqe h => ?_, fun c lqe h => ?_, fun c lqe h => ?_, fun c lqe h => ?_,
      fun lqe h => ?_⟩ <;> cases h
  lines line := ⟨.absent rfl rfl, fun e h => by cases h⟩

omit [LinearOrder C] in
theorem cacheKept_init : CacheKept cfg ({} : Net C) where
  inv _ := cacheInv_init
  off _ := ⟨rfl, rfl⟩
  putBack _ h := by cases h
  infos _ h := by cases h

theorem send_fixed (cfg : DirConfig C) (s : Net C) (call : Call C) :
    (send cfg s call).dir = s.dir ∧ (send cfg s call).todo = s.todo ∧
      (send cfg s call).reqUp = s.reqUp ∧ (send cfg s call).repUp = s.repUp ∧
      (send cfg s call).holds = s.holds ∧ (send cfg s call).mayEvict = s.mayEvict := by
  unfold send
  split
  · simp
  · split
    · simp
    · split <;> simp
  · simp

def toL2Of (cfg : DirConfig C) (call : Call C) (c : C) : List (Lqe C) :=
  match route cfg call with
  | .l2 c' lqe => if c' = c then [lqe] else []
  | _ => []

def toMcOf (cfg : DirConfig C) (call : Call C) : List (Lqe C) :=
  match route cfg call with
  | .memory lqe => if lqe.type = .eRd then [lqe] else []
  | _ => []

theorem send_down (call : Call C) (c : C) :
    (send cfg s call).down c = s.down c ++ toL2Of cfg call c := by
  unfold send toL2Of
  cases route cfg call with
  | l2 c' lqe =>
    by_cases hc : c' = c
    · subst hc
      simp
    · simp [hc, Function.update_of_ne (Ne.symm hc)]
  | memory lqe =>
    dsimp only
    split
    · simp
    · split <;> simp
  | nowhere => simp

theorem send_mc (call : Call C) : (send cfg s call).mc = s.mc ++ toMcOf cfg call := by
  unfold send toMcOf
  cases route cfg call with
  | l2 c lqe => simp
  | memory lqe =>
    dsimp only
    split
    · simp
    · split <;> simp
  | nowhere => simp

theorem load_send {call : Call C} (hp : Proper cfg line (route cfg call)) (line' : Nat) :
    load cfg (send cfg s call) line' =
      load cfg s line' + if line' = line then sentTo cfg [call] else 0 := by
  obtain ⟨-, htodo, -, hrep, -⟩ := send_fixed cfg s call
  funext d c
  have sent : (toL2Of cfg call c).countP (about cfg line' d) =
      (if line' = line then sentTo cfg [call] else 0) d c := by
    unfold toL2Of
    cases h : route cfg call with
    | l2 c' lqe =>
      rw [h] at hp
      obtain ⟨hl, -⟩ := hp
      rcases eq_or_ne line' line with rfl | hline
      · by_cases hc : c' = c <;> simp [hc, sentTo, h, about, hl, List.countP_cons]
      · by_cases hc : c' = c <;> simp [hc, hline, about, hl, hline.symm]
    | memory lqe => by_cases hline : line' = line <;> simp [hline, sentTo, h]
    | nowhere => by_cases hline : line' = line <;> simp [hline, sentTo, h]
  simp only [load, owed, htodo, hrep, send_down, List.countP_append, Pi.add_apply, sent]
  omega

theorem reads_send {call : Call C} (hp : Proper cfg line (route cfg call)) (line' : Nat) :
    reads cfg (send cfg s call) line' =
      reads cfg s line' + if line' = line then readsSent cfg [call] else 0 := by
  have sent : (toMcOf cfg call).countP (fun lqe => cfg.lineOf lqe.address = line') =
      if line' = line then readsSent cfg [call] else 0 := by
    unfold toMcOf
    cases h : route cfg call with
    | memory lqe =>
      rw [h] at hp
      obtain ⟨hl, -⟩ := hp
      rcases eq_or_ne line' line with rfl | hline
      · by_cases ht : lqe.type = .eRd <;> simp [ht, readsSent, h, hl]
      · by_cases ht : lqe.type = .eRd <;> simp [ht, hline, hl, hline.symm]
    | l2 c lqe => by_cases hline : line' = line <;> simp [hline, readsSent, h]
    | nowhere => by_cases hline : line' = line <;> simp [hline, readsSent, h]
  simp only [reads, send_mc, List.countP_append, sent]

theorem wellFormed_send {call : Call C} (h : WellFormed cfg s)
    (hp : Proper cfg line (route cfg call)) :
    WellFormed cfg (send cfg s call) := by
  obtain ⟨-, htodo, hreq, hrep, -⟩ := send_fixed cfg s call
  refine ⟨fun c lqe hmem ht => ?_, by rw [hreq]; exact h.requests, by rw [hrep]; exact h.replies,
    by rw [htodo]; exact h.demands, fun lqe hmem => ?_⟩
  · simp only [owed, htodo, hrep, send_down, List.mem_append] at hmem
    have new : lqe ∈ toL2Of cfg call c → lqe.path = [cfg.self, c] := by
      unfold toL2Of
      intro hmem
      split at hmem
      · rename_i c' lqe' hr
        rw [hr] at hp
        split at hmem
        · rename_i hc
          rw [List.mem_singleton] at hmem
          subst hmem hc
          exact hp.2 ht
        · cases hmem
      · cases hmem
    rcases hmem with ((hmem | hmem) | hmem) | hmem
    · exact h.invals c lqe (by simp [owed, hmem]) ht
    · exact new hmem
    · exact h.invals c lqe (by simp [owed, hmem]) ht
    · exact h.invals c lqe (by simp [owed, hmem]) ht
  · rw [send_mc, List.mem_append] at hmem
    rcases hmem with hmem | hmem
    · exact h.memory lqe hmem
    · unfold toMcOf at hmem
      split at hmem
      · rename_i lqe' hr
        rw [hr] at hp
        split at hmem
        · rename_i ht
          rw [List.mem_singleton] at hmem
          subst hmem
          exact ⟨ht, hp.2.1 ht⟩
        · cases hmem
      · cases hmem

theorem sentTo_cons (call : Call C) (calls : List (Call C)) :
    sentTo cfg (call :: calls) = sentTo cfg [call] + sentTo cfg calls := by
  funext d c
  simp only [sentTo, List.countP_cons, List.countP_nil, Pi.add_apply]
  omega

theorem readsSent_cons (call : Call C) (calls : List (Call C)) :
    readsSent cfg (call :: calls) = readsSent cfg [call] + readsSent cfg calls := by
  simp only [readsSent, List.countP_cons, List.countP_nil]
  omega

theorem sendAll_spec {calls : List (Call C)} (h : WellFormed cfg s)
    (hp : ∀ call ∈ calls, Proper cfg line (route cfg call)) :
    WellFormed cfg (sendAll cfg s calls) ∧ (sendAll cfg s calls).dir = s.dir ∧
      ∀ line', load cfg (sendAll cfg s calls) line' =
          load cfg s line' + (if line' = line then sentTo cfg calls else 0) ∧
        reads cfg (sendAll cfg s calls) line' =
          reads cfg s line' + if line' = line then readsSent cfg calls else 0 := by
  induction calls generalizing s with
  | nil =>
    refine ⟨h, rfl, fun line' => ?_⟩
    simp [sendAll]
  | cons call calls ih =>
    have hcall := hp call List.mem_cons_self
    obtain ⟨wf, hdir, hlines⟩ :=
      ih (wellFormed_send h hcall) fun a ha => hp a (List.mem_cons_of_mem _ ha)
    refine ⟨wf, hdir.trans (send_fixed cfg s call).1, fun line' => ?_⟩
    obtain ⟨hload, hreads⟩ := hlines line'
    simp only [sendAll, List.foldl_cons] at hload hreads ⊢
    rw [hload, hreads, load_send hcall, reads_send hcall, sentTo_cons call calls,
      readsSent_cons call calls]
    by_cases hline : line' = line
    · simp only [if_pos hline, add_assoc, and_self]
    · simp only [if_neg hline, add_zero, and_self]

theorem sendAll_infos {calls : List (Call C)}
    (hp : ∀ call ∈ calls, Proper cfg line (route cfg call)) :
    (sendAll cfg s calls).infos = s.infos := by
  induction calls generalizing s with
  | nil => rfl
  | cons call calls ih =>
    refine (ih fun a ha => hp a (List.mem_cons_of_mem _ ha)).trans ?_
    have proper := hp call List.mem_cons_self
    unfold send
    cases hr : route cfg call with
    | l2 c lqe => rfl
    | nowhere => rfl
    | memory lqe =>
      rw [hr] at proper
      have plain : ¬ isInfo lqe.type = true := by simp [proper.2.2]
      dsimp only
      rw [if_neg plain]
      split <;> rfl

theorem sendAll_aside {calls : List (Call C)} (h : ∀ call ∈ calls, Aside cfg line call) :
    ∃ infos written, sendAll cfg s calls =
        { s with infos := s.infos ++ infos, written := s.written ++ written } ∧
      (∀ m ∈ infos, Informs cfg m) ∧ ∀ m ∈ written, m.serial = none := by
  induction calls generalizing s with
  | nil => exact ⟨[], [], by simp [sendAll], by simp, by simp⟩
  | cons call calls ih =>
    obtain ⟨t, type, address, rfl, -, ht⟩ := h call List.mem_cons_self
    have sent : send cfg s (infoMessage cfg t type address) =
        if isInfo type then { s with infos := s.infos ++ [Lqe.new cfg.self type address 0] }
        else { s with written := s.written ++ [Lqe.new cfg.self type address 0] } := if_neg ht
    obtain ⟨infos, written, hs, hi, hw⟩ := @ih (send cfg s (infoMessage cfg t type address))
      fun a ha => h a (List.mem_cons_of_mem _ ha)
    have all : sendAll cfg s (infoMessage cfg t type address :: calls) =
        sendAll cfg (send cfg s (infoMessage cfg t type address)) calls := rfl
    rw [all, hs, sent]
    by_cases hinfo : isInfo type = true
    · refine ⟨Lqe.new cfg.self type address 0 :: infos, written, by simp [hinfo], ?_, hw⟩
      exact List.forall_mem_cons.mpr ⟨⟨hinfo, rfl, rfl⟩, hi⟩
    · refine ⟨infos, Lqe.new cfg.self type address 0 :: written, by simp [hinfo], hi, ?_⟩
      exact List.forall_mem_cons.mpr ⟨rfl, hw⟩

theorem sendAll_append (calls more : List (Call C)) :
    sendAll cfg s (calls ++ more) = sendAll cfg (sendAll cfg s calls) more := List.foldl_append

theorem sendAll_dir (s : Net C) (calls : List (Call C)) : (sendAll cfg s calls).dir = s.dir := by
  induction calls generalizing s with
  | nil => rfl
  | cons call calls ih => exact (ih (send cfg s call)).trans (send_fixed cfg s call).1

theorem Inv.handled {o : Outcome C} {dir : Directory C} (wf : WellFormed cfg s)
    (others : ∀ line', line' ≠ line → LineInv cfg s line')
    (hdir : dir.dir = Function.update s.dir.dir line o.entry)
    (h : Continues cfg line (load cfg s line) (reads cfg s line) o) :
    Inv cfg (sendAll cfg { s with dir } o.calls) := by
  have wf' : WellFormed cfg { s with dir } := ⟨wf.1, wf.2, wf.3, wf.4, wf.5⟩
  obtain ⟨wellFormed, hdir', hlines⟩ := sendAll_spec wf' h.proper
  refine ⟨wellFormed, fun line' => ?_⟩
  obtain ⟨hload, hreads⟩ := hlines line'
  have entry : (sendAll cfg { s with dir } o.calls).dir.dir line' =
      Function.update s.dir.dir line o.entry line' := by
    rw [hdir', hdir]
  by_cases hline : line' = line
  · subst hline
    rw [Function.update_self] at entry
    rw [if_pos rfl] at hload hreads
    refine ⟨?_, by rw [entry]; exact h.named⟩
    rw [entry, hload, hreads]
    exact h.phase
  · rw [Function.update_of_ne hline] at entry
    rw [if_neg hline, add_zero] at hload hreads
    refine ⟨?_, by rw [entry]; exact (others line' hline).named⟩
    rw [entry, hload, hreads]
    exact (others line' hline).phase

theorem Inv.quiet {s' : Net C} (h : Inv cfg s) (hdir : s'.dir = s.dir) (hmc : s'.mc = s.mc)
    (hload : ∀ line, load cfg s' line = load cfg s line) (wf : WellFormed cfg s') : Inv cfg s' := by
  refine ⟨wf, fun line => ?_⟩
  have hreads : reads cfg s' line = reads cfg s line := by rw [reads, hmc, reads]
  refine ⟨?_, by rw [hdir]; exact (h.lines line).named⟩
  rw [hdir, hload, hreads]
  exact (h.lines line).phase

omit [LinearOrder C] in
theorem load_congr {s' : Net C} (h : ∀ c d line, (s'.owed c).countP (about cfg line d) =
    (s.owed c).countP (about cfg line d)) (line : Nat) : load cfg s' line = load cfg s line := by
  funext d c
  exact h c d line

theorem inv_request (h : Inv cfg s) {c : C} {lqe : Lqe C} (hc : c ∈ cfg.l2s)
    (hpath : lqe.path.head? = some c) (ht : lqe.type = .read ∨ lqe.type = .write) :
    Inv cfg { s with reqUp := Function.update s.reqUp c (s.reqUp c ++ [lqe]) } := by
  refine h.quiet rfl rfl (fun line => rfl)
    ⟨h.wellFormed.invals, fun a lqe' hmem => ?_, h.wellFormed.replies, h.wellFormed.demands,
      h.wellFormed.memory⟩
  rcases eq_or_ne a c with rfl | ha
  · simp only [Function.update_self, List.mem_append, List.mem_singleton] at hmem
    rcases hmem with hmem | rfl
    · exact h.wellFormed.requests a lqe' hmem
    · exact ⟨hc, hpath, ht⟩
  · simp only [Function.update_of_ne ha] at hmem
    exact h.wellFormed.requests a lqe' hmem

theorem inv_evict (h : Inv cfg s) {c : C} {lqe : Lqe C} (hpath : lqe.path.head? = some c)
    (ht : lqe.type = .evict) : Inv cfg (s.evict cfg c lqe) := by
  have up : ∃ serial, (s.evict cfg c lqe).repUp =
      Function.update s.repUp c (s.repUp c ++ [{ lqe with serial }]) := ⟨_, rfl⟩
  obtain ⟨serial, up⟩ := up
  have fixed : (s.evict cfg c lqe).down = s.down ∧ (s.evict cfg c lqe).todo = s.todo := ⟨rfl, rfl⟩
  have harmless : ∀ d line, about cfg line d { lqe with serial } = false := by
    simp [about, ht, demandOf]
  refine h.quiet rfl rfl (load_congr fun a d line => ?_) ⟨fun a lqe' hmem ht' => ?_,
    h.wellFormed.requests, fun a lqe' hmem => ?_, h.wellFormed.demands, h.wellFormed.memory⟩
  · simp only [owed, up, fixed]
    rcases eq_or_ne a c with rfl | ha
    · simp [harmless]
    · simp [Function.update_of_ne ha]
  · simp only [owed, up, fixed] at hmem
    rcases eq_or_ne a c with rfl | ha
    · simp only [Function.update_self, List.mem_append, List.mem_singleton] at hmem
      rcases hmem with hmem | hmem | rfl
      · exact h.wellFormed.invals a lqe' (by simp [owed, or_assoc.mp (.inl hmem)]) ht'
      · exact h.wellFormed.invals a lqe' (by simp [owed, hmem]) ht'
      · simp [ht, demandOf] at ht'
    · simp only [Function.update_of_ne ha] at hmem
      exact h.wellFormed.invals a lqe' (by simpa only [owed] using hmem) ht'
  · rw [up] at hmem
    rcases eq_or_ne a c with rfl | ha
    · simp only [Function.update_self, List.mem_append, List.mem_singleton] at hmem
      rcases hmem with hmem | rfl
      · exact h.wellFormed.replies a lqe' hmem
      · exact .inl ⟨ht, hpath⟩
    · simp only [Function.update_of_ne ha] at hmem
      exact h.wellFormed.replies a lqe' hmem

theorem demandOf_of_isGrant {type : EventType} (h : isGrant type = true) :
    demandOf type = none := by
  cases type <;> first | rfl | cases h

theorem receive_fixed (cfg : DirConfig C) (s : Net C) (c : C) (lqe : Lqe C) (rest : List (Lqe C)) :
    (s.receive cfg c lqe rest).dir = s.dir ∧ (s.receive cfg c lqe rest).mc = s.mc ∧
      (s.receive cfg c lqe rest).reqUp = s.reqUp ∧ (s.receive cfg c lqe rest).repUp = s.repUp ∧
      (s.receive cfg c lqe rest).down = Function.update s.down c rest ∧
      (s.receive cfg c lqe rest).todo = if (demandOf lqe.type).isSome then
        Function.update s.todo c (s.todo c ++ [lqe]) else s.todo := by
  unfold receive
  dsimp only
  split
  · rename_i hg
    simp [demandOf_of_isGrant hg]
  · split <;> simp

theorem receive_infos (cfg : DirConfig C) (s : Net C) (c : C) (lqe : Lqe C) (rest : List (Lqe C)) :
    (s.receive cfg c lqe rest).infos = s.infos := by
  unfold receive
  dsimp only
  split
  · rfl
  · split <;> rfl

theorem inv_receive (h : Inv cfg s) {c : C} {lqe : Lqe C} {rest : List (Lqe C)}
    (hdown : s.down c = lqe :: rest) : Inv cfg (s.receive cfg c lqe rest) := by
  obtain ⟨hdir, hmc, hreq, hrep, hdown', htodo⟩ := receive_fixed cfg s c lqe rest
  have kept : ∀ a, ∀ lqe' ∈ (s.receive cfg c lqe rest).owed a, lqe' ∈ s.owed a := by
    intro a lqe' hmem
    rcases eq_or_ne a c with rfl | ha
    · simp only [owed, hdown', htodo, hrep, hdown, Function.update_self, List.mem_append,
        List.mem_cons] at hmem ⊢
      split at hmem
      · simp only [Function.update_self, List.mem_append, List.mem_singleton] at hmem
        grind
      · grind
    · simp only [owed, hdown', htodo, hrep, Function.update_of_ne ha] at hmem ⊢
      split at hmem
      · simpa [Function.update_of_ne ha] using hmem
      · exact hmem
  refine h.quiet hdir hmc (load_congr fun a d line => ?_) ⟨fun a lqe' hmem ht => ?_,
    hreq ▸ h.wellFormed.requests, hrep ▸ h.wellFormed.replies, fun a lqe' hmem => ?_,
    hmc ▸ h.wellFormed.memory⟩
  · rcases eq_or_ne a c with rfl | ha
    · simp only [owed, hdown', htodo, hrep, hdown, Function.update_self, List.countP_append,
        List.countP_cons]
      split
      · simp only [Function.update_self, List.countP_append, List.countP_cons, List.countP_nil]
        omega
      · rename_i hd
        have harmless : about cfg line d lqe = false := by
          simp only [Option.not_isSome_iff_eq_none] at hd
          simp [about, hd]
        simp [harmless]
    · simp only [owed, hdown', htodo, hrep, Function.update_of_ne ha]
      split
      · simp [Function.update_of_ne ha]
      · rfl
  · exact h.wellFormed.invals a lqe' (kept a lqe' hmem) ht
  · rw [htodo] at hmem
    split at hmem
    · rename_i hd
      rcases eq_or_ne a c with rfl | ha
      · simp only [Function.update_self, List.mem_append, List.mem_singleton] at hmem
        rcases hmem with hmem | rfl
        · exact h.wellFormed.demands a lqe' hmem
        · exact hd
      · simp only [Function.update_of_ne ha] at hmem
        exact h.wellFormed.demands a lqe' hmem
    · exact h.wellFormed.demands a lqe' hmem

omit [LinearOrder C] in
theorem demandOf_answerOf (c : C) (holds : Bool) (lqe : Lqe C) :
    demandOf (answerOf c holds lqe).type = demandOf lqe.type := by
  unfold answerOf
  split <;> simp_all [demandOf, Lqe.new] <;> cases holds <;> rfl

omit [LinearOrder C] in
theorem answerOf_fixed (c : C) (holds : Bool) (lqe : Lqe C) :
    (answerOf c holds lqe).address = lqe.address ∧ (answerOf c holds lqe).type ≠ .writeNd ∧
      (demandOf lqe.type = some .inval → (answerOf c holds lqe).path = lqe.path) := by
  unfold answerOf
  split <;> simp_all [demandOf, Lqe.new] <;> cases holds <;> simp

theorem inv_answer (h : Inv cfg s) {c : C} {i : Nat} {lqe : Lqe C}
    (hi : (s.todo c)[i]? = some lqe) :
    Inv cfg (s.answer cfg c i lqe) := by
  obtain ⟨hlt, hget⟩ := List.getElem?_eq_some_iff.mp hi
  have taken : (lqe :: (s.todo c).eraseIdx i).Perm (s.todo c) := by
    rw [← hget]
    exact List.getElem_cons_eraseIdx_perm hlt
  have hmem : lqe ∈ s.todo c := taken.subset List.mem_cons_self
  have left : ∀ lqe' ∈ (s.todo c).eraseIdx i, lqe' ∈ s.todo c := fun lqe' h =>
    taken.subset (List.mem_cons_of_mem _ h)
  let reply := answerOf c (s.holds c (cfg.lineOf lqe.address)) lqe
  obtain ⟨haddress, hnotWrite, hpath⟩ := answerOf_fixed c (s.holds c (cfg.lineOf lqe.address)) lqe
  have htype := demandOf_answerOf c (s.holds c (cfg.lineOf lqe.address)) lqe
  refine h.quiet rfl rfl (load_congr fun a d line => ?_) ⟨fun a lqe' hmem' ht => ?_,
    h.wellFormed.requests, fun a lqe' hmem' => ?_, fun a lqe' hmem' => ?_, h.wellFormed.memory⟩
  · rcases eq_or_ne a c with rfl | ha
    · have same : about cfg line d reply = about cfg line d lqe := by
        simp only [about, reply, htype, haddress]
      have count := taken.countP_eq (about cfg line d)
      rw [List.countP_cons] at count
      simp only [owed, answer, Function.update_self, List.countP_append, List.countP_cons,
        List.countP_nil]
      rw [show about cfg line d (answerOf a (s.holds a (cfg.lineOf lqe.address)) lqe) =
        about cfg line d lqe from same]
      omega
    · simp [owed, answer, Function.update_of_ne ha]
  · rcases eq_or_ne a c with rfl | ha
    · simp only [owed, answer, Function.update_self, List.mem_append, List.mem_singleton] at hmem'
      rcases hmem' with (hmem' | hmem') | hmem' | rfl
      · exact h.wellFormed.invals a lqe' (by simp [owed, hmem']) ht
      · exact h.wellFormed.invals a lqe' (by simp [owed, left lqe' hmem']) ht
      · exact h.wellFormed.invals a lqe' (by simp [owed, hmem']) ht
      · rw [htype] at ht
        exact (hpath ht).trans (h.wellFormed.invals a lqe (by simp [owed, hmem]) ht)
    · simp only [owed, answer, Function.update_of_ne ha] at hmem'
      exact h.wellFormed.invals a lqe' hmem' ht
  · rcases eq_or_ne a c with rfl | ha
    · simp only [answer, Function.update_self, List.mem_append, List.mem_singleton] at hmem'
      rcases hmem' with hmem' | rfl
      · exact h.wellFormed.replies a lqe' hmem'
      · exact .inr ⟨htype ▸ h.wellFormed.demands a lqe hmem, hnotWrite⟩
    · simp only [answer, Function.update_of_ne ha] at hmem'
      exact h.wellFormed.replies a lqe' hmem'
  · rcases eq_or_ne a c with rfl | ha
    · simp only [answer, Function.update_self] at hmem'
      exact h.wellFormed.demands a lqe' (left lqe' hmem')
    · simp only [answer, Function.update_of_ne ha] at hmem'
      exact h.wellFormed.demands a lqe' hmem'

end Net
end McSim
