import McSim.DirectoryCache

/-! What leaves the directory cache.
The messages that displace a key from a full set do not name the line that leaves: their address is
that of the message at hand. -/

namespace McSim.Directory

open Contract

variable {C : Type} [LinearOrder C] {cfg : DirConfig C} {s s' : Directory C} {t line : Nat}
    {e : DirEntry C} {lqe : Lqe C} {st : DirStats}

def Silent (call : Call C) : Prop :=
  call.kind = .req → call.lqe.type ≠ .dirEvict ∧ call.lqe.type ≠ .rdDirInfoReq

theorem addEventToUL_silent (isData : Bool) :
    Meets (fun _ => True) Silent (addEventToUL cfg t lqe isData) := by
  refine Meets.after fun top => ?_
  split <;> exact fun h => by cases h

theorem addEventToULpp_silent (isData : Bool) :
    Meets (fun _ => True) Silent (addEventToULpp cfg t lqe isData) := by
  refine Meets.after fun top => ?_
  split <;> exact fun h => by cases h

theorem addEventToComp_silent (c : C) : Silent (addEventToComp cfg t c lqe) := by
  unfold addEventToComp
  split <;> exact fun h => by cases h

omit [LinearOrder C] in
theorem none_silent : ∀ call ∈ ([] : List (Call C)), Silent call :=
  fun _ h => absurd h List.not_mem_nil

omit [LinearOrder C] in
theorem one_silent {call : Call C} (h : Silent call) : ∀ a ∈ [call], Silent a := fun a ha => by
  cases List.mem_singleton.mp ha
  exact h

omit [LinearOrder C] in
theorem repEToX_silent {found : Option (DirEntry C)} :
    Meets (fun _ => True) (fun o => ∀ call ∈ o.calls, Silent call) (repEToX found lqe st) := by
  unfold repEToX
  split
  · exact none_silent
  · split
    · trivial
    · split
      · exact none_silent
      · exact none_silent

theorem repEvict_silent (hl : lqe.type ≠ .dirEvict ∧ lqe.type ≠ .rdDirInfoReq) :
    Meets (fun _ => True) (fun o => ∀ call ∈ o.calls, Silent call) (repEvict cfg t e lqe st) := by
  have write : ∀ call ∈ [toMc cfg t (lqe.push cfg.self)], Silent call := one_silent fun _ => hl
  unfold repEvict
  dsimp only
  split
  · split
    · trivial
    · refine Meets.after fun top => ?_
      split
      · exact none_silent
      · exact write
  · split
    · trivial
    · refine Meets.after fun top => ?_
      split
      · exact none_silent
      · split
        · exact write
        · exact write
  · exact Meets.after fun top => none_silent
  · exact none_silent
  · refine Meets.after fun top => ?_
    split
    · exact none_silent
    · exact none_silent

theorem repInvalidate_silent {found : Option (DirEntry C)} :
    Meets (fun _ => True) (fun o => ∀ call ∈ o.calls, Silent call)
      (repInvalidate cfg t found lqe st) := by
  unfold repInvalidate
  split
  · exact none_silent
  · split
    · trivial
    · refine Meets.after fun lqe => Meets.after fun top => ?_
      dsimp only
      split
      · trivial
      · split
        · refine Meets.after fun top => ?_
          dsimp only
          split
          · simp only [meets_bind, meets_pure]
            exact (addEventToUL_silent _).mono (fun _ => one_silent) fun _ h => h
          · exact one_silent fun _ => by simp [toMc]
        · exact none_silent

theorem repNd_silent {found : Option (DirEntry C)} :
    Meets (fun _ => True) (fun o => ∀ call ∈ o.calls, Silent call) (repNd cfg t found lqe st) := by
  unfold repNd
  split
  · trivial
  · split
    · trivial
    · split
      · trivial
      · simp only [meets_bind]
        refine (addEventToULpp_silent _).mono (fun call h => ?_) fun _ h => h
        split
        · exact one_silent h
        · exact one_silent h

theorem repData_silent {found : Option (DirEntry C)} :
    Meets (fun _ => True) (fun o => ∀ call ∈ o.calls, Silent call)
      (repData cfg t found lqe st) := by
  have back : ∀ call ∈ writeBack cfg t lqe, Silent call := by
    unfold writeBack
    split
    · exact one_silent fun _ => by simp [toMc, Lqe.new]
    · exact none_silent
  unfold repData
  split
  · trivial
  · split
    · trivial
    · split
      · trivial
      · refine Meets.after fun top => ?_
        simp only [meets_bind, meets_pure]
        refine (addEventToUL_silent _).mono (fun call h a ha => ?_) fun _ h => h
        rcases List.mem_append.mp ha with ha | ha
        · exact back a ha
        · exact one_silent h a ha

theorem repFromMc_silent {found : Option (DirEntry C)} :
    Meets (fun _ => True) (fun o => ∀ call ∈ o.calls, Silent call)
      (repFromMc cfg t found lqe st) := by
  refine Meets.after fun lqe => ?_
  dsimp only
  split
  · simp only [meets_bind, meets_pure]
    exact (addEventToULpp_silent _).mono (fun _ => one_silent) fun _ h => h
  · split
    · simp only [meets_bind, meets_pure]
      exact (addEventToULpp_silent _).mono (fun _ => one_silent) fun _ h => h
    · simp only [meets_bind, meets_pure]
      exact (addEventToULpp_silent _).mono (fun _ => one_silent) fun _ h => h

theorem reply_silent {found : Option (DirEntry C)} :
    Meets (fun _ => True) (fun o => ∀ call ∈ o.calls, Silent call) (reply cfg t found lqe st) := by
  unfold reply
  split
  · rename_i type
    cases found with
    | none => exact none_silent
    | some e => exact repEvict_silent (by rw [type]; decide)
  · rename_i type
    cases found with
    | none => exact none_silent
    | some e => exact repEvict_silent (by rw [type]; decide)
  · exact repEToX_silent
  · exact repEToX_silent
  · exact repInvalidate_silent
  · exact repInvalidate_silent
  · exact repNd_silent
  · exact repNd_silent
  · exact repNd_silent
  · exact repData_silent
  · exact repData_silent
  · exact repData_silent
  · exact repFromMc_silent

theorem nack_silent :
    Meets (fun _ => True) (fun o => ∀ call ∈ o.calls, Silent call) (nack cfg t e lqe st) := by
  unfold nack
  simp only [meets_bind, meets_pure]
  exact (addEventToULpp_silent _).mono (fun _ => one_silent) fun _ h => h

theorem askOwner_silent (type : CoherenceState) (etype : EventType) (owner : C) :
    ∀ call ∈ (askOwner cfg t e lqe type etype owner st).calls, Silent call :=
  one_silent (addEventToComp_silent owner)

theorem reqRead_silent :
    Meets (fun _ => True) (fun o => ∀ call ∈ o.calls, Silent call) (reqRead cfg t e lqe st) := by
  refine Meets.after fun top => ?_
  split
  · exact nack_silent
  · split
    · split
      · trivial
      · split
        · trivial
        · split
          · exact askOwner_silent _ _ _
          · exact askOwner_silent _ _ _
    · split
      · split
        · trivial
        · exact askOwner_silent _ _ _
      · trivial

theorem invalidation_silent (c : C) (type : EventType) : Silent (invalidation cfg t lqe c type) :=
  addEventToComp_silent c

theorem invalidations_silent : ∀ call ∈ invalidations cfg t e lqe, Silent call := by
  unfold invalidations
  split
  · intro call h
    obtain ⟨c, -, rfl⟩ := List.mem_map.mp h
    exact invalidation_silent c _
  · intro call h
    obtain ⟨c, -, rfl⟩ := List.mem_map.mp h
    exact invalidation_silent c _

theorem reqWrite_silent :
    Meets (fun _ => True) (fun o => ∀ call ∈ o.calls, Silent call) (reqWrite cfg t e lqe st) := by
  unfold reqWrite
  split
  · split
    · trivial
    · refine Meets.after fun top => ?_
      split
      · simp only [meets_bind, meets_pure]
        exact (addEventToULpp_silent _).mono (fun _ => one_silent) fun _ h => h
      · split
        · trivial
        · exact one_silent (invalidation_silent _ _)
  · split
    · trivial
    · exact invalidations_silent
  · split
    · trivial
    · refine Meets.after fun top => ?_
      split
      · simp only [meets_bind, meets_pure]
        exact (addEventToUL_silent _).mono (fun _ => one_silent) fun _ h => h
      · split
        · trivial
        · exact one_silent (invalidation_silent _ _)
  · trivial

theorem request_silent {found : Option (DirEntry C)} :
    Meets (fun _ => True) (fun o => ∀ call ∈ o.calls, Silent call)
      (request cfg t found lqe st) := by
  unfold request
  split
  · exact Meets.after fun top => one_silent fun _ => by simp [toMc]
  · split
    · exact nack_silent
    · split
      · exact reqRead_silent
      · split
        · exact reqWrite_silent
        · trivial

/-- What leaves for the memory as `et_dir_evict` has the address of the message at hand. -/
def Incoming (lqe : Lqe C) (call : Call C) : Prop :=
  call.kind = .req → call.lqe.type = .dirEvict → call.lqe.address = lqe.address

def Stage.calls : Stage C → List (Call C)
  | .stop _ effects => effects.calls
  | .go _ _ calls _ => calls

omit [LinearOrder C] in
theorem infoMessage_incoming (type : EventType) :
    Incoming lqe (infoMessage cfg t type lqe.address) :=
  fun _ _ => rfl

omit [LinearOrder C] in
theorem cacheOnReply_incoming :
    ∀ call ∈ (cacheOnReply cfg t s e lqe).calls, Incoming lqe call := by
  have none : ∀ call ∈ ([] : List (Call C)), Incoming lqe call :=
    fun _ h => absurd h List.not_mem_nil
  unfold cacheOnReply
  dsimp only
  split
  · exact none
  · split
    · split
      · exact none
      · split
        · exact none
        · exact none
    · split
      · split
        · exact none
        · intro call h
          rcases List.mem_pair.mp h with rfl | rfl <;> exact infoMessage_incoming _
      · intro call h
        cases List.mem_singleton.mp h
        exact infoMessage_incoming _

theorem refuse_incoming :
    Meets (fun _ => True) (fun stage => ∀ call ∈ stage.calls, Incoming lqe call)
      (refuse cfg t s lqe) := by
  unfold refuse
  simp only [meets_bind, meets_pure]
  refine (addEventToULpp_silent _).mono (fun call h a ha => ?_) fun _ h => h
  cases List.mem_singleton.mp ha
  exact fun hk ht => absurd ht (h hk).1

theorem cacheOnRequest_incoming :
    Meets (fun _ => True) (fun stage => ∀ call ∈ stage.calls, Incoming lqe call)
      (cacheOnRequest cfg t s lqe) := by
  have none : ∀ call ∈ ([] : List (Call C)), Incoming lqe call :=
    fun _ h => absurd h List.not_mem_nil
  have one : ∀ type, ∀ call ∈ [infoMessage cfg t type lqe.address], Incoming lqe call :=
    fun type call h => by
      cases List.mem_singleton.mp h
      exact infoMessage_incoming type
  unfold cacheOnRequest
  split
  · unfold cacheOnNew
    dsimp only
    split
    · exact none
    · split
      · split
        · exact refuse_incoming
        · exact one _
      · exact none
  · unfold cacheOnFound
    dsimp only
    split
    · exact none
    · split
      · split
        · split
          · trivial
          · exact none
        · split
          · exact refuse_incoming
          · exact none
      · split
        · trivial
        · split
          · split
            · exact refuse_incoming
            · intro call h
              rcases List.mem_pair.mp h with rfl | rfl <;> exact infoMessage_incoming _
          · exact one _

omit [LinearOrder C] in
theorem append_incoming {calls more : List (Call C)} (h : ∀ call ∈ calls, Incoming lqe call)
    (hm : ∀ call ∈ more, Silent call) : ∀ call ∈ calls ++ more, Incoming lqe call :=
  fun call hc => by
  rcases List.mem_append.mp hc with hc | hc
  · exact h call hc
  · exact fun hk ht => absurd ht (hm call hc hk).1

theorem serveReply_incoming {lqe' : Lqe C} {calls : List (Call C)}
    (h : ∀ call ∈ calls, Incoming lqe' call) :
    Meets (fun _ => True) (fun r => ∀ call ∈ r.2.calls, Incoming lqe' call)
      (serveReply cfg t s lqe calls) := by
  unfold serveReply
  simp only [meets_bind, meets_pure]
  exact reply_silent.mono (fun o ho => append_incoming h ho) fun _ h => h

theorem process_incoming (isReply : Bool) :
    Meets (fun _ => True) (fun r => ∀ call ∈ r.2.calls, Incoming lqe call)
      (process cfg t s isReply lqe) := by
  have none : ∀ call ∈ ([] : List (Call C)), Incoming lqe call :=
    fun _ h => absurd h List.not_mem_nil
  unfold process
  split
  · unfold processReply
    split
    · exact serveReply_incoming none
    · rename_i e he
      split
      · have stage : ∀ call ∈ (cacheOnReply cfg t s e lqe).calls, Incoming lqe call :=
          cacheOnReply_incoming
        split
        · rename_i heq
          rw [heq] at stage
          exact stage
        · rename_i heq
          rw [heq] at stage
          exact serveReply_incoming stage
      · exact serveReply_incoming none
  · unfold processRequest
    simp only [meets_bind]
    refine cacheOnRequest_incoming.mono (fun stage hs => ?_) fun _ h => h
    cases stage with
    | stop s' effects => exact hs
    | go s' lqe' calls deleted =>
      exact serveRequest_meets
        (request_silent.mono (fun o ho => append_incoming hs ho) fun _ h => h)

end McSim.Directory
