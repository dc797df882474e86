import McSim.ReturnPath

/-! How long messages take.
Where every link takes time, whatever a component sends while it is processed is for a later tick.
Only the answer of a first-level cache to its core may come at once. -/

namespace McSim

open Contract

variable {C : Type} {t : Nat}

def Ahead (t : Nat) (calls : List (Call C)) : Prop := ∀ call ∈ calls, t < call.time

section
variable {call : Call C} {a b : List (Call C)}

theorem Ahead.nil : Ahead t ([] : List (Call C)) := fun _ h => by cases h

theorem Ahead.one (h : t < call.time) : Ahead t [call] := fun _ hc => List.mem_singleton.mp hc ▸ h

theorem Ahead.append (ha : Ahead t a) (hb : Ahead t b) : Ahead t (a ++ b) :=
  fun call hc => (List.mem_append.mp hc).elim (ha call) (hb call)

theorem Ahead.cons (h : Ahead t [call]) (ha : Ahead t a) : Ahead t (call :: a) := h.append ha

theorem Ahead.map {α : Type} {f : α → Call C} (h : ∀ x, t < (f x).time) (xs : List α) :
    Ahead t (xs.map f) := by
  intro call hc
  obtain ⟨x, -, rfl⟩ := List.mem_map.mp hc
  exact h x

theorem later {d : Nat} (h : 0 < d) : t < t + d := Nat.lt_add_of_pos_right h

end

structure L1Config.Paced (cfg : L1Config C) : Prop where
  l1ToL2T : 0 < cfg.l1ToL2T
  processInterval : 0 < cfg.processInterval

structure L2Config.Paced (cfg : L2Config C) : Prop where
  l2ToL1T : 0 < cfg.l2ToL1T
  l2ToDirT : 0 < cfg.l2ToDirT
  l2ToXbarT : 0 < cfg.l2ToXbarT
  processInterval : 0 < cfg.processInterval

structure DirConfig.Paced (cfg : DirConfig C) : Prop where
  dirToMcT : 0 < cfg.dirToMcT
  dirToL2T : 0 < cfg.dirToL2T
  dirToXbarT : 0 < cfg.dirToXbarT
  processInterval : 0 < cfg.processInterval

def Part.Paced : Part C → Prop
  | core => True
  | cachel1 cfg _ => cfg.Paced
  | cachel2 cfg _ => cfg.Paced
  | directory cfg => cfg.Paced
  | crossbar cfg => 0 < cfg.xbarToDirT
  | memoryController cfg => 0 < cfg.mcToDirT

namespace CacheL2

variable {cfg : L2Config C} {set : Nat} {lqe : Lqe C} {e : L2Entry C} {st : L2Stats}
    {calls : List (Call C)}

section Handlers
variable (paced : cfg.Paced)
include paced

theorem toL1_ahead (c : C) (lqe : Lqe C) : Ahead t [toL1 cfg t c lqe] := .one (later paced.l2ToL1T)

theorem viaDirectory_ahead (lqe : Lqe C) : Ahead t [viaDirectory cfg t lqe] :=
  .one (later paced.l2ToDirT)

theorem viaCrossbar_ahead (lqe : Lqe C) (isData : Bool) : Ahead t [viaCrossbar cfg t lqe isData] :=
  .one (later paced.l2ToXbarT)

theorem addEventToLL_ahead (lqe : Lqe C) (isData : Bool) :
    Ahead t [addEventToLL cfg t lqe isData] := by
  unfold addEventToLL
  split
  · exact viaDirectory_ahead paced lqe
  · exact viaCrossbar_ahead paced lqe isData

theorem evictVictim_ahead (address thId : Nat) (victim : L2Entry C) :
    Ahead t (evictVictim cfg t address thId victim) := by
  unfold evictVictim
  split
  · exact .nil
  · exact addEventToLL_ahead paced _ _

theorem nackRequester_ahead : Ends (Ahead t) (nackRequester cfg t lqe) := by
  unfold nackRequester
  split
  · exact Meets.after fun top => toL1_ahead paced top _
  · exact Ahead.nil

variable [LinearOrder C]

theorem addEventToLLTop_ahead (isData : Bool) :
    Ends (fun call => Ahead t [call]) (addEventToLLTop cfg t lqe isData) := by
  refine Meets.after fun top => ?_
  show Ahead t [if top = cfg.directory then viaDirectory cfg t lqe
    else viaCrossbar cfg t lqe isData]
  split
  · exact viaDirectory_ahead paced lqe
  · exact viaCrossbar_ahead paced lqe isData

theorem reqL1Evict_ahead (address : Nat) (always : Bool) :
    Ends (Ahead t) (reqL1Evict cfg t e address lqe always) := by
  unfold reqL1Evict
  split
  · exact .map (fun _ => later paced.l2ToL1T) _
  · split
    · exact Ahead.nil
    · exact Meets.after fun top => .map (fun _ => later paced.l2ToL1T) _

theorem returnPending_ahead : Ends (Ahead t) (returnPending cfg t e) := by
  unfold returnPending
  split
  · exact Ahead.nil
  · exact (addEventToLLTop_ahead paced true).bind fun call one => one

theorem turnAway_ahead : Ends (fun p => Ahead t p.1) (turnAway cfg t set e lqe) := by
  unfold turnAway
  dsimp only
  split
  · exact Ahead.nil
  · exact Meets.after fun top => toL1_ahead paced top _
  · exact Meets.after fun top => (reqL1Evict_ahead paced _ _).bind fun evicts sent =>
      (toL1_ahead paced top _).cons sent

theorem repWriteNd_ahead {found : Option (L2Entry C)} :
    Ends (fun o => Ahead t o.calls) (repWriteNd cfg t set found lqe st) := by
  refine Meets.after fun lqe => ?_
  split
  · exact Meets.after fun top => (toL1_ahead paced top _).cons (addEventToLL_ahead paced _ _)
  · refine (reqL1Evict_ahead paced _ _).bind fun evicts sent => Meets.after fun top => ?_
    exact sent.append ((toL1_ahead paced top _).cons (addEventToLL_ahead paced _ _))

theorem install_ahead {etype : EventType} (shared : Bool) (sent : Ahead t calls) :
    Ends (fun o => Ahead t o.calls) (install cfg t etype shared e lqe calls st) := by
  unfold install
  dsimp only
  split
  · exact Meets.after fun top => sent.append (toL1_ahead paced top _)
  · exact sent

theorem fillVictim_ahead {etype : EventType} {victim : L2Entry C} :
    Ends (fun o => Ahead t o.calls) (fillVictim cfg t set etype victim lqe st) := by
  unfold fillVictim
  split
  · exact (nackRequester_ahead paced).bind fun nack sent =>
      sent.append (addEventToLL_ahead paced _ _)
  · split
    · exact install_ahead paced _ .nil
    · refine (reqL1Evict_ahead paced _ _).bind fun evicts sent => ?_
      exact install_ahead paced _ (sent.append (evictVictim_ahead paced _ _ _))

theorem fillFound_ahead {etype : EventType} :
    Ends (fun o => Ahead t o.calls) (fillFound cfg t set etype e lqe st) := by
  unfold fillFound
  split
  · exact (reqL1Evict_ahead paced _ _).bind fun evicts sent => install_ahead paced _ sent
  · split
    · dsimp only
      split
      · exact Meets.after fun top => toL1_ahead paced top _
      · exact Ahead.nil
    · exact install_ahead paced _ .nil

theorem repFill_ahead {found : Option (L2Entry C)} {victim : L2Entry C} :
    Ends (fun o => Ahead t o.calls) (repFill cfg t set found victim lqe st) := by
  refine Meets.after fun lqe => ?_
  cases found with
  | none => exact fillVictim_ahead paced
  | some e => exact fillFound_ahead paced

theorem repMToX_ahead {found : Option (L2Entry C)} :
    Ends (fun o => Ahead t o.calls) (repMToX cfg t set found lqe st) := by
  refine Meets.after fun lqe => ?_
  cases found with
  | none => trivial
  | some e =>
    dsimp only
    split
    · refine (turnAway_ahead paced).bind fun p turned => ?_
      exact (returnPending_ahead paced).bind fun back sent => turned.append sent
    · split
      · refine Meets.after fun top => (returnPending_ahead paced).bind fun back sent => ?_
        exact (toL1_ahead paced top _).cons sent
      · trivial

theorem repEvict_ahead {found : Option (L2Entry C)} :
    Ends (fun o => Ahead t o.calls) (repEvict cfg t found lqe st) := by
  unfold repEvict
  dsimp only
  split
  · split
    · split
      · trivial
      · exact (addEventToLLTop_ahead paced true).bind fun back one => Meets.after fun top => one
    · exact Meets.after fun top => Ahead.nil
  · split
    · exact (addEventToLLTop_ahead paced true).bind fun back one => one
    · exact Ahead.nil

theorem repDirRd_ahead {found : Option (L2Entry C)} :
    Ends (fun o => Ahead t o.calls) (repDirRd cfg t set found lqe st) := by
  unfold repDirRd
  dsimp only
  split
  · exact addEventToLL_ahead paced _ _
  · split
    · trivial
    · split
      · exact (addEventToLLTop_ahead paced true).bind fun back one => one
      · exact (addEventToLLTop_ahead paced true).bind fun back one => one
      · exact (addEventToLLTop_ahead paced true).bind fun back one => one
      · split
        · trivial
        · split
          · trivial
          · exact toL1_ahead paced _ _
      · split
        · trivial
        · exact Ahead.nil
      · split
        · trivial
        · exact Ahead.nil
      · trivial

omit [LinearOrder C] in
theorem repNack_ahead : Ends (fun o => Ahead t o.calls) (repNack cfg t lqe st) := by
  refine Meets.after fun lqe => ?_
  split
  · exact Meets.after fun top => toL1_ahead paced top _
  · exact Ahead.nil

theorem repToS_ahead {found : Option (L2Entry C)} :
    Ends (fun o => Ahead t o.calls) (repToS cfg t found lqe st) := by
  unfold repToS
  dsimp only
  split
  · split
    · trivial
    · exact (addEventToLLTop_ahead paced true).bind fun back one => one
  · exact addEventToLL_ahead paced _ _

theorem repInvalidate_ahead {found : Option (L2Entry C)} :
    Ends (fun o => Ahead t o.calls) (repInvalidate cfg t set found lqe st) := by
  unfold repInvalidate
  dsimp only
  split
  · exact (addEventToLLTop_ahead paced false).bind fun back one => one
  · split
    · trivial
    · split
      · split
        · trivial
        · split
          · trivial
          · exact toL1_ahead paced _ _
      · split
        · split
          · trivial
          · exact Ahead.nil
        · refine (reqL1Evict_ahead paced _ _).bind fun evicts sent => ?_
          exact (addEventToLLTop_ahead paced _).bind fun back one => sent.append one

theorem reply_ahead {found : Option (L2Entry C)} {victim : L2Entry C} :
    Ends (fun o => Ahead t o.calls) (reply cfg t set found victim lqe st) := by
  unfold reply
  split
  · exact repWriteNd_ahead paced
  · exact repFill_ahead paced
  · exact repFill_ahead paced
  · exact repFill_ahead paced
  · exact repMToX_ahead paced
  · exact repMToX_ahead paced
  · exact repEvict_ahead paced
  · exact repEvict_ahead paced
  · exact repDirRd_ahead paced
  · exact repNack_ahead paced
  · exact repToS_ahead paced
  · exact repToS_ahead paced
  · exact repInvalidate_ahead paced
  · exact repInvalidate_ahead paced
  · exact Ahead.nil
  · trivial

theorem readFound_ahead : Ends (fun o => Ahead t o.calls) (readFound cfg t e lqe) := by
  unfold readFound
  dsimp only
  split
  · exact Meets.after fun top => Ahead.nil
  · split
    · exact Meets.after fun top => Ahead.nil
    · split
      · exact Meets.after fun top => Ahead.nil
      · split
        · split
          · trivial
          · split
            · rename_i owner _
              refine Meets.after fun top => ?_
              split
              · exact toL1_ahead paced owner _
              · exact Ahead.nil
            · exact Meets.after fun top => Ahead.nil
        · split
          · exact Ahead.nil
          · trivial

theorem writeUpgrade_ahead : Ends (fun o => Ahead t o.calls) (writeUpgrade cfg t set e lqe) := by
  refine Meets.after fun sole => ?_
  split
  · exact Ahead.nil
  · exact (reqL1Evict_ahead paced _ _).bind fun evicts sent => sent

omit paced in
theorem own_ahead (sent : Ahead t calls) : Ends (fun o => Ahead t o.calls) (own t e lqe calls) :=
  Meets.after fun _ => sent

theorem writeFound_ahead : Ends (fun o => Ahead t o.calls) (writeFound cfg t set e lqe) := by
  unfold writeFound
  dsimp only
  split
  · exact own_ahead .nil
  · split
    · split
      · trivial
      · split
        · trivial
        · rename_i owner _
          refine Meets.after fun top => ?_
          split
          · exact toL1_ahead paced owner _
          · exact own_ahead .nil
    · split
      · split
        · trivial
        · split
          · exact own_ahead .nil
          · rename_i other _
            refine Meets.after fun top => ?_
            split
            · exact own_ahead (toL1_ahead paced other _)
            · exact own_ahead .nil
      · split
        · exact (reqL1Evict_ahead paced _ _).bind fun evicts sent => own_ahead sent
        · split
          · exact Ahead.nil
          · trivial

omit [LinearOrder C] in
theorem miss_ahead (lqe : Lqe C) : Ahead t [miss cfg t lqe] := by
  unfold miss
  dsimp only
  split
  · exact .one (later paced.l2ToDirT)
  · exact .one (later paced.l2ToXbarT)

omit [LinearOrder C] in
theorem dispose_ahead {etype : EventType} {o : ReqOutcome C} (sent : Ahead t o.calls) :
    Ends (fun o => Ahead t o.calls) (dispose cfg t etype o st) := by
  unfold dispose
  split
  · exact sent
  · split
    · exact sent.append (miss_ahead paced _)
    · split
      · exact Meets.after fun top => sent.append (toL1_ahead paced top _)
      · exact sent

theorem request_ahead {found : Option (L2Entry C)} :
    Ends (fun o => Ahead t o.calls) (request cfg t set found lqe st) := by
  have read : Ends (fun o => Ahead t o.calls) (readRequest cfg t found lqe) := by
    unfold readRequest
    split
    · exact Ahead.nil
    · split
      · exact Ahead.nil
      · exact readFound_ahead paced
  have write : Ends (fun o => Ahead t o.calls) (writeRequest cfg t set found lqe) := by
    unfold writeRequest
    split
    · exact Ahead.nil
    · split
      · exact writeUpgrade_ahead paced
      · exact writeFound_ahead paced
  unfold request
  split
  · exact read.bind fun o sent => dispose_ahead paced sent
  · exact write.bind fun o sent => dispose_ahead paced sent

theorem processRequests_ahead {s : CacheL2 C} (requests : List (Lqe C)) :
    Ends (fun p => Ahead t p.2.calls) (processRequests cfg t s requests) := by
  induction requests generalizing s with
  | nil => exact Ahead.nil
  | cons lqe rest ih =>
    have one : Ends (fun p => Ahead t p.2.calls) (processRequest cfg t s lqe) :=
      (request_ahead paced).bind fun o sent => sent
    exact one.bind fun p first => ih.bind fun q others => first.append others

theorem processEvent_ahead (s : CacheL2 C) :
    Ends (fun p => Ahead t p.2.1.calls) (processEvent cfg t s) := by
  have served : Ends (fun p => Ahead t p.2.calls) (serve cfg t (s.takeEvents cfg t)) := by
    unfold serve
    split
    · unfold processReply
      dsimp only
      split
      · trivial
      · exact (reply_ahead paced).bind fun o sent => sent
    · split
      · trivial
      · exact processRequests_ahead paced _
  exact served.bind fun p sent => sent

end Handlers
end CacheL2

namespace Directory

variable {cfg : DirConfig C} {lqe : Lqe C} {e : DirEntry C} {st : DirStats} {s : Directory C}

section Handlers
variable (paced : cfg.Paced)
include paced

theorem toMc_ahead (lqe : Lqe C) : Ahead t [toMc cfg t lqe] := .one (later paced.dirToMcT)

theorem writeBack_ahead (lqe : Lqe C) : Ahead t (writeBack cfg t lqe) := by
  unfold writeBack
  split
  · exact toMc_ahead paced _
  · exact .nil

variable [LinearOrder C]

theorem addEventToUL_ahead (isData : Bool) :
    CacheL2.Ends (fun call => Ahead t [call]) (addEventToUL cfg t lqe isData) := by
  unfold addEventToUL
  refine Meets.after fun top => Ahead.one ?_
  split
  · exact later paced.dirToL2T
  · exact later paced.dirToXbarT

theorem addEventToULpp_ahead (isData : Bool) :
    CacheL2.Ends (fun call => Ahead t [call]) (addEventToULpp cfg t lqe isData) := by
  unfold addEventToULpp
  refine Meets.after fun top => Ahead.one ?_
  split
  · exact later paced.dirToL2T
  · exact later paced.dirToXbarT

theorem addEventToComp_later (comp : C) (lqe : Lqe C) :
    t < (addEventToComp cfg t comp lqe).time := by
  unfold addEventToComp
  split
  · exact later paced.dirToL2T
  · exact later paced.dirToXbarT

theorem repEvict_ahead : CacheL2.Ends (fun o => Ahead t o.calls) (repEvict cfg t e lqe st) := by
  unfold repEvict
  dsimp only
  split
  · split
    · trivial
    · refine Meets.after fun top => ?_
      split
      · exact Ahead.nil
      · exact toMc_ahead paced _
  · split
    · trivial
    · refine Meets.after fun top => ?_
      split
      · exact Ahead.nil
      · split
        · exact toMc_ahead paced _
        · exact toMc_ahead paced _
  · exact Meets.after fun top => Ahead.nil
  · exact Ahead.nil
  · refine Meets.after fun top => ?_
    split
    · exact Ahead.nil
    · exact Ahead.nil

theorem resume_ahead {pending : Lqe C} :
    CacheL2.Ends (fun o => Ahead t o.calls) (resume cfg t e pending lqe st) := by
  refine Meets.after fun top => ?_
  dsimp only
  split
  · exact (addEventToUL_ahead paced true).bind fun grant one => one
  · exact toMc_ahead paced _

omit paced [LinearOrder C] in
theorem repEToX_ahead {found : Option (DirEntry C)} :
    CacheL2.Ends (fun o => Ahead t o.calls) (repEToX found lqe st) := by
  unfold repEToX
  split
  · exact Ahead.nil
  · split
    · trivial
    · split
      · exact Ahead.nil
      · exact Ahead.nil

theorem repInvalidate_ahead {found : Option (DirEntry C)} :
    CacheL2.Ends (fun o => Ahead t o.calls) (repInvalidate cfg t found lqe st) := by
  unfold repInvalidate
  split
  · exact Ahead.nil
  · split
    · trivial
    · refine Meets.after fun popped => Meets.after fun top => ?_
      dsimp only
      split
      · trivial
      · split
        · exact resume_ahead paced
        · exact Ahead.nil

theorem repNd_ahead {found : Option (DirEntry C)} :
    CacheL2.Ends (fun o => Ahead t o.calls) (repNd cfg t found lqe st) := by
  unfold repNd
  split
  · trivial
  · split
    · trivial
    · split
      · trivial
      · refine (addEventToULpp_ahead paced false).bind fun nack one => ?_
        split
        · exact one
        · exact one

theorem repData_ahead {found : Option (DirEntry C)} :
    CacheL2.Ends (fun o => Ahead t o.calls) (repData cfg t found lqe st) := by
  unfold repData
  split
  · trivial
  · split
    · trivial
    · split
      · trivial
      · refine Meets.after fun top => (addEventToUL_ahead paced true).bind fun grant one => ?_
        exact (writeBack_ahead paced lqe).append one

theorem repFromMc_ahead {found : Option (DirEntry C)} :
    CacheL2.Ends (fun o => Ahead t o.calls) (repFromMc cfg t found lqe st) := by
  refine Meets.after fun popped => ?_
  dsimp only
  split
  · exact (addEventToULpp_ahead paced true).bind fun call one => one
  · split
    · exact (addEventToULpp_ahead paced true).bind fun call one => one
    · exact (addEventToULpp_ahead paced true).bind fun call one => one

theorem reply_ahead {found : Option (DirEntry C)} :
    CacheL2.Ends (fun o => Ahead t o.calls) (reply cfg t found lqe st) := by
  unfold reply
  split
  · split
    · exact Ahead.nil
    · exact repEvict_ahead paced
  · split
    · exact Ahead.nil
    · exact repEvict_ahead paced
  · exact repEToX_ahead
  · exact repEToX_ahead
  · exact repInvalidate_ahead paced
  · exact repInvalidate_ahead paced
  · exact repNd_ahead paced
  · exact repNd_ahead paced
  · exact repNd_ahead paced
  · exact repData_ahead paced
  · exact repData_ahead paced
  · exact repData_ahead paced
  · exact repFromMc_ahead paced

omit [LinearOrder C] in
theorem reqNew_ahead : CacheL2.Ends (fun o => Ahead t o.calls) (reqNew cfg t lqe st) :=
  Meets.after fun _ => toMc_ahead paced _

theorem nack_ahead : CacheL2.Ends (fun o => Ahead t o.calls) (nack cfg t e lqe st) :=
  (addEventToULpp_ahead paced false).bind fun _ one => one

theorem askOwner_ahead (type : CoherenceState) (etype : EventType) (owner : C) :
    Ahead t (askOwner cfg t e lqe type etype owner st).calls :=
  .one (addEventToComp_later paced _ _)

theorem reqRead_ahead : CacheL2.Ends (fun o => Ahead t o.calls) (reqRead cfg t e lqe st) := by
  refine Meets.after fun top => ?_
  split
  · exact nack_ahead paced
  · split
    · split
      · trivial
      · split
        · trivial
        · split
          · exact askOwner_ahead paced _ _ _
          · exact askOwner_ahead paced _ _ _
    · split
      · split
        · trivial
        · exact askOwner_ahead paced _ _ _
      · trivial

theorem invalidations_ahead : Ahead t (invalidations cfg t e lqe) := by
  unfold invalidations
  split
  · exact .map (fun _ => addEventToComp_later paced _ _) _
  · exact .map (fun _ => addEventToComp_later paced _ _) _

theorem reqWrite_ahead : CacheL2.Ends (fun o => Ahead t o.calls) (reqWrite cfg t e lqe st) := by
  unfold reqWrite
  split
  · split
    · trivial
    · refine Meets.after fun top => ?_
      split
      · exact (addEventToULpp_ahead paced false).bind fun call one => one
      · split
        · trivial
        · exact .one (addEventToComp_later paced _ _)
  · split
    · trivial
    · exact invalidations_ahead paced
  · split
    · trivial
    · refine Meets.after fun top => ?_
      split
      · exact (addEventToUL_ahead paced false).bind fun call one => one
      · split
        · trivial
        · exact .one (addEventToComp_later paced _ _)
  · trivial

theorem request_ahead {found : Option (DirEntry C)} :
    CacheL2.Ends (fun o => Ahead t o.calls) (request cfg t found lqe st) := by
  unfold request
  split
  · exact reqNew_ahead paced
  · split
    · exact nack_ahead paced
    · split
      · exact reqRead_ahead paced
      · split
        · exact reqWrite_ahead paced
        · trivial

omit paced [LinearOrder C] in
def Stage.Ahead (t : Nat) : Stage C → Prop
  | .stop _ effects => McSim.Ahead t effects.calls
  | .go _ _ calls _ => McSim.Ahead t calls

omit [LinearOrder C] in
theorem infoMessage_ahead (type : EventType) (address : Nat) :
    Ahead t [infoMessage cfg t type address] :=
  toMc_ahead paced _

omit [LinearOrder C] in
theorem cacheOnReply_ahead : (cacheOnReply cfg t s e lqe).Ahead t := by
  unfold cacheOnReply
  dsimp only
  split
  · exact Ahead.nil
  · split
    · split
      · exact Ahead.nil
      · split
        · exact Ahead.nil
        · exact Ahead.nil
    · split
      · split
        · exact Ahead.nil
        · exact (infoMessage_ahead paced _ _).cons (infoMessage_ahead paced _ _)
      · exact infoMessage_ahead paced _ _

theorem refuse_ahead : CacheL2.Ends (Stage.Ahead t) (refuse cfg t s lqe) :=
  (addEventToULpp_ahead paced false).bind fun _ one => one

theorem cacheOnNew_ahead : CacheL2.Ends (Stage.Ahead t) (cacheOnNew cfg t s lqe) := by
  unfold cacheOnNew
  dsimp only
  split
  · exact Ahead.nil
  · split
    · split
      · exact refuse_ahead paced
      · exact infoMessage_ahead paced _ _
    · exact Ahead.nil

theorem cacheOnFound_ahead : CacheL2.Ends (Stage.Ahead t) (cacheOnFound cfg t s e lqe) := by
  unfold cacheOnFound
  dsimp only
  split
  · exact Ahead.nil
  · split
    · split
      · split
        · trivial
        · exact Ahead.nil
      · split
        · exact refuse_ahead paced
        · exact Ahead.nil
    · split
      · trivial
      · split
        · split
          · exact refuse_ahead paced
          · exact (infoMessage_ahead paced _ _).cons (infoMessage_ahead paced _ _)
        · exact infoMessage_ahead paced _ _

theorem serveReply_ahead {calls : List (Call C)} (sent : Ahead t calls) :
    CacheL2.Ends (fun p => Ahead t p.2.calls) (serveReply cfg t s lqe calls) :=
  (reply_ahead paced).bind fun _ more => sent.append more

theorem processReply_ahead :
    CacheL2.Ends (fun p => Ahead t p.2.calls) (processReply cfg t s lqe) := by
  unfold processReply
  split
  · exact serveReply_ahead paced .nil
  · rename_i e _
    split
    · have stage : (cacheOnReply cfg t s e lqe).Ahead t := cacheOnReply_ahead paced
      split
      · rename_i stopped
        rw [stopped] at stage
        exact stage
      · rename_i went
        rw [went] at stage
        exact serveReply_ahead paced stage
    · exact serveReply_ahead paced .nil

theorem processRequest_ahead :
    CacheL2.Ends (fun p => Ahead t p.2.calls) (processRequest cfg t s lqe) := by
  have staged : CacheL2.Ends (Stage.Ahead t) (cacheOnRequest cfg t s lqe) := by
    unfold cacheOnRequest
    split
    · exact cacheOnNew_ahead paced
    · exact cacheOnFound_ahead paced
  refine staged.bind fun stage sent => ?_
  cases stage with
  | stop s effects => exact sent
  | go s lqe calls deleted =>
    exact serveRequest_meets (Meets.mono (request_ahead paced) (fun o more => sent.append more)
      fun _ h => h)

theorem processEvent_ahead (s : Directory C) :
    CacheL2.Ends (fun p => Ahead t p.2.calls) (processEvent cfg t s) := by
  unfold processEvent serve
  dsimp only
  split
  · refine (processReply_ahead paced).bind fun p sent => ?_
    split
    · exact sent
    · exact sent
  · refine (processRequest_ahead paced).bind fun p sent => ?_
    split
    · exact sent
    · exact sent
  · trivial

end Handlers
end Directory

theorem Crossbar.handed_ahead {cfg : CrossbarConfig C} (paced : 0 < cfg.xbarToDirT)
    (served : List (Flit C)) :
    Ahead t (handed cfg t served) := by
  intro call hc
  obtain ⟨d, hd, rfl⟩ := List.mem_map.mp hc
  obtain ⟨f, -, hf⟩ := List.mem_filterMap.mp hd
  unfold Flit.delivery at hf
  split at hf
  · cases hf
  · cases hf
    exact later paced

namespace MemoryController

variable {cfg : McConfig C} (paced : 0 < cfg.mcToDirT)
include paced

theorem reply_ahead {u : Nat} (h : t ≤ u) (lqe : Lqe C) : Ahead t [reply cfg u lqe] :=
  .one (h.trans_lt (later paced))

theorem addReqEvent_ahead (s : MemoryController C) (lqe : Lqe C) :
    Ahead t (s.addReqEvent cfg t lqe).2.calls := by
  have round : t ≤ ceilByY t cfg.processInterval := le_ceilByY cfg.processInterval_pos
  unfold addReqEvent
  dsimp only
  split
  · split
    · exact .nil
    · exact reply_ahead paced round _
  · split
    · split
      · exact .nil
      · refine reply_ahead paced ?_ _
        split
        · exact round
        · omega
    · exact .nil

theorem answer_ahead (e : McCommand × Lqe C) : Ahead t (answer cfg (t, e)) := by
  obtain ⟨command, lqe⟩ := e
  cases command with
  | activate | precharge => exact .nil
  | column rank bank page isWrite auto =>
    show Ahead t (if isEvict lqe.type then [] else [reply cfg t (replied lqe)])
    split
    · exact .nil
    · exact reply_ahead paced le_rfl _

end MemoryController

namespace Part

open Routes

variable {r : Routes C} {c : C} {p : Part C} {s : p.State}

theorem process_later [LinearOrder C] (laid : r.Laid) (hp : r.part c = p) (paced : p.Paced)
    (h : p.Orderly r c s) : Meets (fun _ => True)
      (fun q => ∀ call ∈ q.calls, r.part call.callee = .core ∨ t < call.time) (p.process t s) := by
  have all : ∀ {calls : List (Call C)}, Ahead t calls →
      ∀ call ∈ calls, r.part call.callee = .core ∨ t < call.time :=
        fun ahead call hc => .inr (ahead call hc)
  cases p with
  | core => exact all .nil
  | cachel1 cfg n =>
    show Meets _ _ (CacheL1.processEvent cfg t s >>= _)
    rw [meets_bind]
    refine (CacheL1.processEvent_posted laid hp h).mono (fun q sent call hc => ?_) fun _ h => h
    exact (sent.2 call hc).2.imp_right fun time => (later paced.l1ToL2T).trans_eq time.symm
  | cachel2 cfg n =>
    show Meets _ _ (CacheL2.processEvent cfg t s >>= _)
    rw [meets_bind]
    exact Meets.mono (CacheL2.processEvent_ahead paced s) (fun q sent => all sent)
      fun _ _ => trivial
  | directory cfg =>
    show Meets _ _ (Directory.processEvent cfg t s >>= _)
    rw [meets_bind]
    exact Meets.mono (Directory.processEvent_ahead paced s) (fun q sent => all sent)
      fun _ _ => trivial
  | crossbar cfg =>
    exact Meets.after fun q => all (Crossbar.handed_ahead paced q.served)
  | memoryController cfg =>
    show Meets _ _ (MemoryController.processEvent cfg t s >>= _)
    rw [meets_bind]
    refine MemoryController.processEvent_processed.mono (fun q processed => ?_) fun _ _ => trivial
    obtain ⟨s₁, done, -, does, calls, -⟩ := processed.does
    have ahead : Ahead t q.2.calls := by
      rw [calls, (McSystem.moves_does does).calls]
      intro call hc
      obtain ⟨e, he, mem⟩ := List.mem_flatMap.mp hc
      obtain ⟨command, -, rfl⟩ := Option.map_eq_some_iff.mp (Option.mem_toList.mp he)
      exact MemoryController.answer_ahead paced command call mem
    exact all ahead

theorem add_later (call : Call C) (source : C) (paced : p.Paced) : Meets (fun _ => True)
    (fun q => ∀ answer ∈ q.calls, p.isMc ∧ call.time < answer.time) (p.add source call s) := by
  obtain ⟨callee, kind, time, lqe, flits⟩ := call
  have none : ∀ {p : Part C}, ∀ answer ∈ ([] : List (Call C)), p.isMc ∧ time < answer.time :=
    fun answer mem => by cases mem
  cases p with
  | core | crossbar => exact none
  | cachel1 | cachel2 | directory =>
    cases kind with
    | req | rep => exact none
    | crq => trivial
  | memoryController cfg =>
    cases kind with
    | req | rep =>
      exact fun answer mem => ⟨rfl, MemoryController.addReqEvent_ahead paced s lqe answer mem⟩
    | crq => trivial

end Part
end McSim
