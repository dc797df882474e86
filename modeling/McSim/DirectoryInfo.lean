import McSim.DirectoryVictims
import Mathlib.Data.List.Nodup

/-! Directory information in the memory.
An entry that is not in the directory cache is fetched before a request is served, and the request
is held meanwhile; an eviction is fetched for as well, but goes on at once. A fetch answers for a
line, so it may come back to another entry than the one it was made for. -/

namespace McSim

variable {C : Type}

namespace Directory

open Contract

variable [LinearOrder C] {cfg : DirConfig C} {s s' : Directory C} {t line : Nat} {e : DirEntry C}
  {lqe : Lqe C} {st : DirStats}

structure Frame (line : Nat) (lqe : Lqe C) (s s' : Directory C) : Prop where
  elsewhere : ∀ key, key ≠ line → s'.dir key = s.dir key
  reqEvent : s'.reqEvent = s.reqEvent
  reqQ : s'.reqQ = s.reqQ
  repQ : s'.repQ = s.repQ
  repEvent : ∀ x ∈ s'.repEvent, x ∈ s.repEvent ∨ x.2 = lqe ∧ lqe.type ≠ .rdDirInfoReq

omit [LinearOrder C] in
theorem Frame.refl (s : Directory C) : Frame line lqe s s :=
  ⟨fun _ _ => rfl, rfl, rfl, rfl, fun _ => .inl⟩

omit [LinearOrder C] in
theorem Frame.trans {s₁ s₂ : Directory C} (h : Frame line lqe s s₁) (h' : Frame line lqe s₁ s₂) :
    Frame line lqe s s₂ where
  elsewhere key hk := (h'.elsewhere key hk).trans (h.elsewhere key hk)
  reqEvent := h'.reqEvent.trans h.reqEvent
  reqQ := h'.reqQ.trans h.reqQ
  repQ := h'.repQ.trans h.repQ
  repEvent x hx := (h'.repEvent x hx).elim (h.repEvent x) .inr

omit [LinearOrder C] in
theorem setEntry_frame (e : Option (DirEntry C)) : Frame line lqe s (s.setEntry line e) :=
  ⟨fun _ hk => setEntry_of_ne e hk, rfl, rfl, rfl, fun _ => .inl⟩

omit [LinearOrder C] in
theorem Frame.congr {s₁ : Directory C} (h : Frame line lqe s s₁) (hd : s'.dir = s₁.dir)
    (hreqE : s'.reqEvent = s₁.reqEvent) (hreqQ : s'.reqQ = s₁.reqQ) (hrepQ : s'.repQ = s₁.repQ)
    (hrepE : s'.repEvent = s₁.repEvent) : Frame line lqe s s' where
  elsewhere := by
    rw [hd]
    exact h.elsewhere
  reqEvent := hreqE.trans h.reqEvent
  reqQ := hreqQ.trans h.reqQ
  repQ := hrepQ.trans h.repQ
  repEvent := by
    rw [hrepE]
    exact h.repEvent

omit [LinearOrder C] in
theorem apply_frame (o : Outcome C) : Frame line lqe s (s.apply cfg line o) := by
  unfold apply
  dsimp only
  split
  · exact (setEntry_frame o.entry).congr rfl rfl rfl rfl rfl
  · exact (setEntry_frame o.entry).congr rfl rfl rfl rfl rfl

def Stage.state : Stage C → Directory C
  | .stop s _ => s
  | .go s _ _ _ => s

omit [LinearOrder C] in
theorem retry_frame (hl : lqe.type ≠ .rdDirInfoReq) :
    Frame line lqe s (retry cfg s t lqe).state := by
  show Frame line lqe s (s.addRepEvent cfg t lqe)
  unfold addRepEvent
  rw [if_neg hl]
  exact ⟨fun _ _ => rfl, rfl, rfl, rfl, fun x hx =>
    (Multimap.mem_insert.mp hx).elim (fun h => .inr ⟨h ▸ rfl, hl⟩) .inl⟩

omit [LinearOrder C] in
theorem cacheOnReply_frame (h : CacheInv cfg s) (hl : lqe.type ≠ .rdDirInfoReq) :
    Frame (cfg.lineOf lqe.address) lqe s (cacheOnReply cfg t s e lqe).state := by
  unfold cacheOnReply
  dsimp only
  split
  · exact Frame.refl s
  · split
    · split
      · exact ⟨fun _ hk => setEntry_of_ne _ hk, rfl, rfl, rfl, fun _ => .inl⟩
      · split
        · refine Frame.trans ?_ (retry_frame hl)
          exact ⟨fun _ _ => rfl, rfl, rfl, rfl, fun _ => .inl⟩
        · exact ⟨fun _ _ => rfl, rfl, rfl, rfl, fun _ => .inl⟩
    · split
      · split
        · rename_i dir scanned
          obtain ⟨rfl, -⟩ := h.scan _ scanned
          refine Frame.trans ?_ (retry_frame hl)
          exact ⟨fun _ _ => rfl, rfl, rfl, rfl, fun _ => .inl⟩
        · rename_i dir v scanned
          obtain ⟨rfl, -⟩ := h.scan _ scanned
          exact ⟨fun _ hk => setEntry_of_ne _ hk, rfl, rfl, rfl, fun _ => .inl⟩
      · exact ⟨fun _ hk => setEntry_of_ne _ hk, rfl, rfl, rfl, fun _ => .inl⟩

theorem refuse_frame {s₁ : Directory C} (h : Frame line lqe s s₁) :
    Meets (fun _ => True) (fun stage => Frame line lqe s stage.state) (refuse cfg t s₁ lqe) :=
  Meets.after fun _ => h.congr rfl rfl rfl rfl rfl

theorem cacheOnRequest_frame (h : CacheInv cfg s) :
    Meets (fun _ => True) (fun stage => Frame (cfg.lineOf lqe.address) lqe s stage.state)
      (cacheOnRequest cfg t s lqe) := by
  unfold cacheOnRequest
  split
  · unfold cacheOnNew
    dsimp only
    split
    · exact Frame.refl s
    · split
      · split
        · rename_i dir scanned
          obtain ⟨rfl, -⟩ := h.scan _ scanned
          exact refuse_frame ⟨fun _ _ => rfl, rfl, rfl, rfl, fun _ => .inl⟩
        · rename_i dir v scanned
          obtain ⟨rfl, -⟩ := h.scan _ scanned
          exact (Frame.refl s).congr rfl rfl rfl rfl rfl
      · exact (Frame.refl s).congr rfl rfl rfl rfl rfl
  · unfold cacheOnFound
    dsimp only
    split
    · exact Frame.refl s
    · split
      · split
        · split
          · trivial
          · show Frame _ _ _ _
            exact ⟨fun _ hk => setEntry_of_ne _ hk, rfl, rfl, rfl, fun _ => .inl⟩
        · split
          · exact refuse_frame ⟨fun _ _ => rfl, rfl, rfl, rfl, fun _ => .inl⟩
          · exact (Frame.refl s).congr rfl rfl rfl rfl rfl
      · split
        · trivial
        · split
          · split
            · rename_i dir scanned
              obtain ⟨rfl, -⟩ := h.scan _ scanned
              exact refuse_frame ⟨fun _ _ => rfl, rfl, rfl, rfl, fun _ => .inl⟩
            · rename_i dir v scanned
              obtain ⟨rfl, -⟩ := h.scan _ scanned
              show Frame _ _ _ _
              exact ⟨fun _ hk => setEntry_of_ne _ hk, rfl, rfl, rfl, fun _ => .inl⟩
          · show Frame _ _ _ _
            exact ⟨fun _ hk => setEntry_of_ne _ hk, rfl, rfl, rfl, fun _ => .inl⟩

theorem process_frame (h : CacheInv cfg s) (on : cfg.hasDirectoryCache = true) (isReply : Bool)
    (hl : isReply = true → lqe.type ≠ .rdDirInfoReq) :
    Meets (fun _ => True) (fun r => Frame (cfg.lineOf lqe.address) lqe s r.1)
      (process cfg t s isReply lqe) := by
  cases isReply with
  | true =>
    have plain : Meets (fun _ => True) (fun r => Frame (cfg.lineOf lqe.address) lqe s r.1)
        (serveReply cfg t s lqe []) := Meets.after fun o => apply_frame o
    show Meets _ _ (processReply cfg t s lqe)
    unfold processReply
    split
    · exact plain
    · rename_i e he
      split
      · have frame := cacheOnReply_frame (t := t) (e := e) h (hl rfl)
        have sound := cacheOnReply_sound (t := t) h on he
        split
        · rename_i heq
          rw [heq] at frame
          exact frame
        · rename_i s₁ lqe' calls deleted heq
          rw [heq] at frame sound
          refine Meets.after fun o => frame.trans ?_
          rw [← sound.2]
          exact apply_frame o
      · exact plain
  | false =>
    show Meets _ _ (processRequest cfg t s lqe)
    unfold processRequest
    have framed : Meets (fun _ => True)
        (fun stage => Frame (cfg.lineOf lqe.address) lqe s stage.state)
        (cacheOnRequest cfg t s lqe) :=
      cacheOnRequest_frame h
    have sound : Meets (fun _ => True) (Stage.Sound cfg (cfg.lineOf lqe.address))
        (cacheOnRequest cfg t s lqe) := cacheOnRequest_sound h on
    cases hc : cacheOnRequest cfg t s lqe with
    | error err => trivial
    | ok stage =>
      rw [hc] at framed sound
      cases stage with
      | stop s₁ effects => exact framed
      | go s₁ lqe' calls deleted =>
        have frame : Frame (cfg.lineOf lqe.address) lqe s s₁ := framed
        have line : cfg.lineOf lqe'.address = cfg.lineOf lqe.address := sound.2
        show Meets _ _ (serveRequest cfg t s₁ lqe' calls deleted)
        refine serveRequest_meets (Meets.of_forall fun o => frame.trans ?_)
        rw [← line]
        exact apply_frame o

def Ends (e : DirEntry C) (lqe : Lqe C) : Prop :=
  ∃ c ∈ lqe.path.head?,
    (e.type = .modified ∧ c ∈ e.sharedL2) ∨ (e.type ≠ .modified ∧ e.sharedL2.erase c = ∅)

/-- A handler leaves an entry that nothing is under way for as it is, but for its sharers. -/
def Stays (e : DirEntry C) (o : Outcome C) : Prop :=
  ∀ e', o.entry = some e' → e'.type = e.type ∧ e'.pending = e.pending ∧ e'.notInDc = e.notInDc

omit [LinearOrder C] in
theorem stays_self {o : Outcome C} (h : o.entry = some e) : Stays e o := fun e' he => by
  cases h.symm.trans he
  exact ⟨rfl, rfl, rfl⟩

omit [LinearOrder C] in
theorem stays_none {o : Outcome C} (h : o.entry = none) : Stays e o := fun e' he => by
  cases h.symm.trans he

theorem repEvict_stays (ht : transient e.type = false) :
    Meets (fun _ => True) (fun o => Stays e o ∧ (o.entry = none → Ends e lqe))
      (repEvict cfg t e lqe st) := by
  have kept : ∀ {o : Outcome C} {e' : DirEntry C}, o.entry = some e' → Stays e o →
      Stays e o ∧ (o.entry = none → Ends e lqe) :=
        fun h hs => ⟨hs, fun hn => by cases h.symm.trans hn⟩
  unfold repEvict
  dsimp only
  split
  · rename_i modified
    split
    · trivial
    · rw [meets_bind]
      refine Lqe.meets_top.mpr ⟨fun _ => trivial, fun c path hp => ?_⟩
      split
      · exact kept rfl (stays_self rfl)
      · rename_i mem
        exact ⟨stays_none rfl, fun _ => ⟨c, by rw [hp]; rfl, .inl ⟨modified, not_not.mp mem⟩⟩⟩
  · rename_i mToS
    rw [mToS] at ht
    cases ht
  · rename_i trToS
    rw [trToS] at ht
    cases ht
  · exact kept rfl (stays_self rfl)
  · rename_i notModified _ _ _
    rw [meets_bind]
    refine Lqe.meets_top.mpr ⟨fun _ => trivial, fun c path hp => ?_⟩
    split
    · rename_i empty
      exact ⟨stays_none rfl, fun _ => ⟨c, by rw [hp]; rfl, .inr ⟨notModified, empty⟩⟩⟩
    · refine kept rfl fun e' he => ?_
      cases he
      exact ⟨rfl, rfl, rfl⟩

theorem reply_stays (ht : transient e.type = false) :
    Meets (fun _ => True)
      (fun o => Stays e o ∧ (o.entry = none → throughCache lqe.type = true ∧ Ends e lqe))
      (reply cfg t (some e) lqe st) := by
  have busy : ∀ {type : CoherenceState}, transient type = true → ¬ e.type = type := fun hb he => by
    rw [he, hb] at ht
    cases ht
  have stuck : ∀ {post : Outcome C → Prop} {err : Abort} {x : Except Abort (Outcome C)} {P : Prop}
      [Decidable P], P → Meets (fun _ => True) post (if P then .error err else x) := fun hP => by
    rw [if_pos hP]
    trivial
  have evict : throughCache lqe.type = true → Meets (fun _ => True)
      (fun o => Stays e o ∧ (o.entry = none → throughCache lqe.type = true ∧ Ends e lqe))
      (repEvict cfg t e lqe st) := fun hl =>
    (repEvict_stays ht).mono (fun o ho => ⟨ho.1, fun hn => ⟨hl, ho.2 hn⟩⟩) fun _ h => h
  unfold reply
  split
  · rename_i hl
    exact evict (by rw [hl]; rfl)
  · rename_i hl
    exact evict (by rw [hl]; rfl)
  · exact stuck (busy rfl)
  · exact stuck (busy rfl)
  · exact stuck (busy rfl)
  · exact stuck (busy rfl)
  · exact stuck ⟨busy rfl, busy rfl⟩
  · exact stuck ⟨busy rfl, busy rfl⟩
  · exact stuck ⟨busy rfl, busy rfl⟩
  · exact stuck ⟨busy rfl, busy rfl⟩
  · exact stuck ⟨busy rfl, busy rfl⟩
  · exact stuck ⟨busy rfl, busy rfl⟩
  · refine Meets.after fun lqe => ?_
    have none : ((some e).filter fun e => lqe.type = .eRd ∧ (e.type = .trToE ∨ e.type = .trToM)) =
      none :=
      Option.filter_eq_none_iff.mpr fun e' he hp => by
        cases he
        rcases (decide_eq_true_iff.mp hp).2 with h | h
        · exact busy rfl h
        · exact busy rfl h
    rw [none]
    exact Meets.after fun call => ⟨stays_self rfl, fun hn => by cases hn⟩

structure Held (s : Directory C) (line : Nat) (p : Lqe C) (e : DirEntry C) : Prop where
  entry : s.dir line = some e
  pending : e.pending = some p
  idle : transient e.type = false

omit [LinearOrder C] in
theorem Held.congr {p : Lqe C} (h : Held s line p e) (hd : s'.dir line = s.dir line) :
    Held s' line p e :=
  ⟨hd.trans h.entry, h.pending, h.idle⟩

theorem processReply_held (h : CacheInv cfg s) (on : cfg.hasDirectoryCache = true) {p : Lqe C}
    (held : Held s (cfg.lineOf lqe.address) p e)
    (spares : lqe.type = .evict → e.notInDc = false → ¬ Ends e lqe) :
    Meets (fun _ => True) (fun r => ∃ e', Held r.1 (cfg.lineOf lqe.address) p e')
      (processReply cfg t s lqe) := by
  have served : ∀ calls s₁, s₁.dir (cfg.lineOf lqe.address) = some e →
      ¬ (throughCache lqe.type = true ∧ Ends e lqe) →
      Meets (fun _ => True) (fun r => ∃ e', Held r.1 (cfg.lineOf lqe.address) p e')
        (serveReply cfg t s₁ lqe calls) := fun calls s₁ hs hn => by
    unfold serveReply
    simp only [meets_bind, meets_pure, hs]
    refine (reply_stays held.idle).mono (fun o turn => ?_) fun _ h => h
    obtain ⟨stays, ends⟩ := turn
    cases ho : o.entry with
    | none => exact absurd (ends ho) hn
    | some e' =>
      obtain ⟨type, pending, -⟩ := stays e' ho
      refine ⟨e', ?_, pending.trans held.pending, by rw [type]; exact held.idle⟩
      unfold apply
      dsimp only
      rw [ho, if_neg (by simp)]
      exact setEntry_self _ _
  have listed : cfg.lineOf lqe.address ∈ s.dirCache (cfg.lineOf lqe.address % cfg.numSets) :=
    h.kept _ e trivial held.entry (by simp [pinned, held.pending])
  unfold processReply
  rw [held.entry]
  dsimp only
  split
  · rename_i through
    unfold cacheOnReply
    dsimp only
    rw [if_neg (by simp [on]), if_pos listed]
    by_cases info : lqe.type = .rdDirInfoRep
    · rw [if_pos info]
      exact ⟨_, setEntry_self _ _, held.pending, held.idle⟩
    · have evict : lqe.type = .evict := by
        revert through info
        cases lqe.type <;> simp [throughCache]
      rw [if_neg info]
      by_cases fetched : e.notInDc = true
      · rw [if_pos fetched]
        refine ⟨e, ?_, held.pending, held.idle⟩
        show (addRepEvent cfg _ _ _).dir _ = _
        unfold addRepEvent
        rw [if_neg (by rw [evict]; decide)]
        exact held.entry
      · rw [if_neg fetched]
        exact served [] _ held.entry fun hn => spares evict (Bool.not_eq_true _ ▸ fetched) hn.2
  · rename_i plain
    exact served [] s held.entry fun hn => plain hn.1

def arrived (cfg : DirConfig C) (s : Directory C) (line : Nat) (e : DirEntry C) : Directory C :=
  (s.setCache (line % cfg.numSets) (line :: (s.dirCache (line % cfg.numSets)).erase line)).setEntry
    line
    (some { e with pending := none, notInDc := false })

theorem processRequest_info (h : CacheInv cfg s) (on : cfg.hasDirectoryCache = true) {p : Lqe C}
    (held : Held s (cfg.lineOf lqe.address) p e) (hl : lqe.type = .rdDirInfoReq) :
    processRequest cfg t s lqe =
      serveRequest cfg t (arrived cfg s (cfg.lineOf lqe.address) e) p [] [lqe] := by
  have listed : cfg.lineOf lqe.address ∈ s.dirCache (cfg.lineOf lqe.address % cfg.numSets) :=
    h.kept _ e trivial held.entry (by simp [pinned, held.pending])
  unfold processRequest cacheOnRequest
  rw [held.entry]
  dsimp only
  unfold cacheOnFound
  dsimp only
  rw [if_neg (by simp [on]), if_pos listed, if_pos hl, held.pending]
  rfl

theorem processRequest_held (h : CacheInv cfg s) (on : cfg.hasDirectoryCache = true) {p : Lqe C}
    (held : Held s (cfg.lineOf lqe.address) p e) (hl : lqe.type ≠ .rdDirInfoReq) :
    Meets (fun _ => True) (fun r => Held r.1 (cfg.lineOf lqe.address) p e)
      (processRequest cfg t s lqe) := by
  have listed : cfg.lineOf lqe.address ∈ s.dirCache (cfg.lineOf lqe.address % cfg.numSets) :=
    h.kept _ e trivial held.entry (by simp [pinned, held.pending])
  unfold processRequest cacheOnRequest
  rw [held.entry]
  dsimp only
  unfold cacheOnFound
  dsimp only
  rw [if_neg (by simp [on]), if_pos listed, if_neg hl, if_pos (by simp [held.pending])]
  unfold refuse
  rw [bind_assoc]
  exact Meets.after fun _ => ⟨held.entry, held.pending, held.idle⟩

def asks (calls : List (Call C)) : List (Lqe C) :=
  (calls.filter fun call => call.kind = .req ∧ call.lqe.type = .rdDirInfoReq).map (·.lqe)

omit [LinearOrder C] in
theorem asks_nil {calls : List (Call C)}
    (h : ∀ call ∈ calls, call.kind = .req → call.lqe.type ≠ .rdDirInfoReq) : asks calls = [] := by
  unfold asks
  rw [List.map_eq_nil_iff, List.filter_eq_nil_iff]
  intro call hc hp
  obtain ⟨hk, ht⟩ := decide_eq_true_iff.mp hp
  exact h call hc hk ht

omit [LinearOrder C] in
theorem asks_append (a b : List (Call C)) : asks (a ++ b) = asks a ++ asks b := by
  unfold asks
  rw [List.filter_append, List.map_append]

omit [LinearOrder C] in
theorem asks_silent {calls : List (Call C)} (h : ∀ call ∈ calls, Silent call) : asks calls = [] :=
  asks_nil fun call hc hk => (h call hc hk).2

omit [LinearOrder C] in
theorem cacheOnReply_asks : asks (cacheOnReply cfg t s e lqe).calls = [] := by
  unfold cacheOnReply
  dsimp only
  split
  · rfl
  · split
    · split
      · rfl
      · split <;> rfl
    · split
      · split <;> rfl
      · rfl

theorem processReply_asks :
    Meets (fun _ => True) (fun r => asks r.2.calls = []) (processReply cfg t s lqe) := by
  have served : ∀ calls s₁ lqe', asks calls = [] →
      Meets (fun _ => True) (fun r => asks r.2.calls = []) (serveReply cfg t s₁ lqe' calls) :=
    fun calls s₁ lqe' hc => by
      unfold serveReply
      simp only [meets_bind, meets_pure]
      refine reply_silent.mono (fun o ho => ?_) fun _ h => h
      rw [asks_append, hc, asks_silent ho]
      rfl
  unfold processReply
  split
  · exact served [] s lqe rfl
  · rename_i e he
    split
    · have stage : asks (cacheOnReply cfg t s e lqe).calls = [] := cacheOnReply_asks
      split
      · rename_i heq
        rw [heq] at stage
        exact stage
      · rename_i heq
        rw [heq] at stage
        exact served _ _ _ stage
    · exact served [] s lqe rfl

/-- A request makes the directory ask for information only where it is held for it. -/
structure Asked (cfg : DirConfig C) (s : Directory C) (lqe : Lqe C) (s' : Directory C)
    (calls : List (Call C)) : Prop where
  request : lqe.type ≠ .rdDirInfoReq
  calls : asks calls = [Lqe.new cfg.self .rdDirInfoReq lqe.address 0]
  held : ∃ e e', s.dir (cfg.lineOf lqe.address) = some e ∧ pinned e = false ∧
    Held s' (cfg.lineOf lqe.address) lqe e'

theorem processRequest_asks (h : CacheInv cfg s) (on : cfg.hasDirectoryCache = true) :
    Meets (fun _ => True) (fun r => asks r.2.calls = [] ∨ Asked cfg s lqe r.1 r.2.calls)
      (processRequest cfg t s lqe) := by
  have served : ∀ calls s₁ lqe' deleted, asks calls = [] →
      Meets (fun _ => True) (fun r => asks r.2.calls = [] ∨ Asked cfg s lqe r.1 r.2.calls)
        (serveRequest cfg t s₁ lqe' calls deleted) := fun calls s₁ lqe' deleted hc => by
    refine serveRequest_meets (request_silent.mono (fun o ho => .inl ?_) fun _ h => h)
    rw [asks_append, hc, asks_silent ho]
    rfl
  have refused : ∀ s₁, Meets (fun _ => True)
      (fun r => asks r.2.calls = [] ∨ Asked cfg s lqe r.1 r.2.calls)
      (refuse cfg t s₁ lqe >>= fun stage => match stage with
        | .stop s effects => return (s, effects)
        | .go s lqe calls deleted => serveRequest cfg t s lqe calls deleted) := fun s₁ => by
    unfold refuse
    simp only [meets_bind, meets_pure]
    refine (addEventToULpp_silent _).mono (fun call hc => .inl ?_) fun _ h => h
    exact asks_silent (one_silent hc)
  unfold processRequest cacheOnRequest
  split
  · unfold cacheOnNew
    dsimp only
    rw [if_neg (by simp [on])]
    split
    · split
      · exact refused _
      · exact served _ _ _ _ rfl
    · exact served _ _ _ _ rfl
  · rename_i e he
    unfold cacheOnFound
    dsimp only
    rw [if_neg (by simp [on])]
    split
    · split
      · split
        · trivial
        · exact served _ _ _ _ rfl
      · split
        · exact refused _
        · exact served _ _ _ _ rfl
    · rename_i absent
      have free : pinned e = false := by
        cases hp : pinned e
        · rfl
        · exact absurd (h.kept _ e trivial he hp) absent
      have idle : transient e.type = false := by
        simp only [pinned, Bool.or_eq_false_iff] at free
        exact free.1.1
      split
      · trivial
      · rename_i plain
        split
        · split
          · exact refused _
          · exact .inr ⟨plain, rfl, e, _, he, free, setEntry_self _ _, rfl, idle⟩
        · exact .inr ⟨plain, rfl, e, _, he, free, setEntry_self _ _, rfl, idle⟩

def Returns (p : Lqe C) (call : Call C) : Prop :=
  ∃ type, (type = .nack ∨ type = .writeNd) ∧
    (call.lqe = { p with type } ∨ ∃ c, call.lqe = ({ p with type } : Lqe C).push c)

def isDemand : EventType → Bool
  | .eToS | .sToS | .dirRd | .invalidate | .invalidateNd | .nop => true
  | _ => false

/-- A request is answered, or waits in its entry for an L2. -/
inductive Disposed (p : Lqe C) : Option (DirEntry C) → List (Call C) → Prop
  | back {e : DirEntry C} {call : Call C} (pending : e.pending = none) (returns : Returns p call) :
      Disposed p (some e) [call]
  | waits {e : DirEntry C} {calls : List (Call C)} (pending : e.pending = some p)
      (busy : transient e.type = true) (demands : ∀ call ∈ calls, isDemand call.lqe.type = true) :
      Disposed p (some e) calls

theorem addEventToUL_returns {p : Lqe C} {type : EventType} (h : type = .nack ∨ type = .writeNd)
    (isData : Bool) :
    Meets (fun _ => True) (Returns p) (addEventToUL cfg t { p with type } isData) := by
  refine Meets.after fun top => ?_
  show Returns _ _
  split
  · exact ⟨type, h, .inl rfl⟩
  · exact ⟨type, h, .inr ⟨_, rfl⟩⟩

theorem addEventToULpp_returns {p : Lqe C} {type : EventType} (h : type = .nack ∨ type = .writeNd)
    (isData : Bool) :
    Meets (fun _ => True) (Returns p) (addEventToULpp cfg t { p with type } isData) := by
  refine Meets.after fun top => ?_
  show Returns _ _
  split
  · exact ⟨type, h, .inl rfl⟩
  · exact ⟨type, h, .inl rfl⟩

theorem addEventToComp_type (c : C) : (addEventToComp cfg t c lqe).lqe.type = lqe.type := by
  unfold addEventToComp
  split <;> rfl

theorem nack_disposes {p : Lqe C} (hp : e.pending = none) :
    Meets (fun _ => True) (fun o => Disposed p o.entry o.calls ∧ o.deleted = [])
      (nack cfg t e p st) := by
  unfold nack
  simp only [meets_bind, meets_pure]
  exact (addEventToULpp_returns (.inl rfl) _).mono (fun call h => ⟨.back hp h, trivial⟩)
    fun _ h => h

theorem reqRead_disposes {p : Lqe C} (hp : e.pending = none) :
    Meets (fun _ => True) (fun o => Disposed p o.entry o.calls ∧ o.deleted = [])
      (reqRead cfg t e p st) := by
  have asked : ∀ {type etype owner st}, transient type = true → isDemand etype = true →
      Disposed p (askOwner cfg t e p type etype owner st).entry
        (askOwner cfg t e p type etype owner st).calls ∧
        (askOwner cfg t e p type etype owner st).deleted = [] := fun hb hd => by
    refine ⟨.waits rfl hb fun call hc => ?_, rfl⟩
    cases List.mem_singleton.mp hc
    rw [addEventToComp_type]
    exact hd
  refine Meets.after fun top => ?_
  split
  · exact nack_disposes hp
  · split
    · split
      · trivial
      · split
        · trivial
        · split
          · exact asked rfl rfl
          · exact asked rfl rfl
    · split
      · split
        · trivial
        · exact asked rfl rfl
      · trivial

theorem reqWrite_disposes {p : Lqe C} (hp : e.pending = none) :
    Meets (fun _ => True) (fun o => Disposed p o.entry o.calls ∧ o.deleted = [])
      (reqWrite cfg t e p st) := by
  have demand : ∀ {c type}, isDemand type = true →
      isDemand (invalidation cfg t p c type).lqe.type = true := fun hd => by
    unfold invalidation
    rw [addEventToComp_type]
    exact hd
  have one : ∀ {owner}, ∀ call ∈ [invalidation cfg t p owner .invalidate],
      isDemand call.lqe.type = true := fun call hc => by
    cases List.mem_singleton.mp hc
    exact demand rfl
  have all : ∀ call ∈ invalidations cfg t e p, isDemand call.lqe.type = true := by
    unfold invalidations
    split
    · intro call hc
      obtain ⟨c, -, rfl⟩ := List.mem_map.mp hc
      refine demand ?_
      split
      · rfl
      · split <;> rfl
    · intro call hc
      obtain ⟨c, -, rfl⟩ := List.mem_map.mp hc
      refine demand ?_
      split <;> rfl
  unfold reqWrite
  split
  · split
    · trivial
    · refine Meets.after fun top => ?_
      split
      · simp only [meets_bind, meets_pure]
        exact (addEventToULpp_returns (.inr rfl) _).mono (fun call h => ⟨.back hp h, trivial⟩)
          fun _ h => h
      · split
        · trivial
        · exact ⟨.waits rfl rfl one, rfl⟩
  · split
    · trivial
    · exact ⟨.waits rfl rfl all, rfl⟩
  · split
    · trivial
    · refine Meets.after fun top => ?_
      split
      · simp only [meets_bind, meets_pure]
        exact (addEventToUL_returns (.inl rfl) _).mono (fun call h => ⟨.back hp h, trivial⟩)
          fun _ h => h
      · split
        · trivial
        · exact ⟨.waits rfl rfl one, rfl⟩
  · trivial

theorem request_disposes {p : Lqe C} (ht : transient e.type = false) (hp : e.pending = none) :
    Meets (fun _ => True) (fun o => Disposed p o.entry o.calls ∧ o.deleted = [])
      (request cfg t (some e) p st) := by
  unfold request
  dsimp only
  rw [if_neg (by simp [ht])]
  split
  · exact reqRead_disposes hp
  · split
    · exact reqWrite_disposes hp
    · trivial

section Address
variable {p : Lqe C}

def Owned (e : DirEntry C) :
    Prop := (e.type = .exclusive ∨ e.type = .modified) ∧ e.sharedL2.card = 1

def Foreign (e : DirEntry C) (p : Lqe C) : Prop := ∃ c ∈ p.path.head?, c ∉ e.sharedL2

def AsksL2 (e : DirEntry C) (p : Lqe C) : Prop :=
  Foreign e p ∧ (p.type = .read ∧ (Owned e ∨ e.type = .shared) ∨ p.type = .write ∧ Owned e) ∨
    p.type = .write ∧ e.type = .shared ∧ e.sharedL2 ≠ ∅

/-- The handler of a request gives `address` away, or has no L2 to send it to, where an L2 is
asked. -/
def Reads (e : DirEntry C) (p : Lqe C) (x : Except Abort (Outcome C)) : Prop :=
  Meets (fun a => a = .undefined ↔ AsksL2 e p) (fun o => o.readsAddress = true ↔ AsksL2 e p) x

omit [LinearOrder C] in
theorem foreign_iff {c : C} {path : List C} (hpath : p.path = c :: path) :
    Foreign e p ↔ c ∉ e.sharedL2 := by
  simp [Foreign, hpath]

theorem owned_first (h : Owned e) : ∃ owner, first e.sharedL2 = some owner := by
  obtain ⟨owner, single⟩ := Finset.card_eq_one.mp h.2
  exact ⟨owner, by rw [single, first_singleton]⟩

theorem nack_reads {c : C} {path : List C} (hpath : p.path = c :: path) (no : ¬ AsksL2 e p) :
    Reads e p (nack cfg t e p st) := by
  have top : Lqe.top { p with type := .nack } = .ok c := Lqe.top_ok hpath
  unfold nack addEventToULpp
  rw [top]
  exact iff_of_false Bool.false_ne_true no

theorem reqRead_reads {c : C} {path : List C} (hpath : p.path = c :: path) (type : p.type = .read) :
    Reads e p (reqRead cfg t e p st) := by
  have asks : AsksL2 e p ↔ c ∉ e.sharedL2 ∧ (Owned e ∨ e.type = .shared) := by
    simp [AsksL2, type, foreign_iff hpath]
  unfold reqRead
  rw [Lqe.top_ok hpath]
  show Reads e p (if _ then _ else _)
  split
  · rename_i sharer
    exact nack_reads hpath fun h => (asks.mp h).1 sharer
  · rename_i foreign
    split
    · rename_i owning
      split
      · rename_i several
        refine iff_of_false (by decide) fun h => ?_
        rcases (asks.mp h).2 with owned | shared
        · exact several owned.2
        · rcases owning with h | h <;> cases h.symm.trans shared
      · rename_i one
        have owned : Owned e := ⟨owning, not_not.mp one⟩
        obtain ⟨owner, howner⟩ := owned_first owned
        rw [howner]
        dsimp only
        split <;> exact iff_of_true rfl (asks.mpr ⟨foreign, .inl owned⟩)
    · rename_i other
      split
      · rename_i shared
        split
        · exact iff_of_true rfl (asks.mpr ⟨foreign, .inr shared⟩)
        · exact iff_of_true rfl (asks.mpr ⟨foreign, .inr shared⟩)
      · rename_i unshared
        refine iff_of_false (by decide) fun h => ?_
        rcases (asks.mp h).2 with owned | shared
        · exact other owned.1
        · exact unshared shared

theorem reqWrite_reads {c : C} {path : List C} (hpath : p.path = c :: path) (type : p.type = .write)
    (idle : e.pending = none) : Reads e p (reqWrite cfg t e p st) := by
  have asks : AsksL2 e p ↔ c ∉ e.sharedL2 ∧ Owned e ∨ e.type = .shared ∧ e.sharedL2 ≠ ∅ := by
    simp [AsksL2, type, foreign_iff hpath]
  unfold reqWrite
  split
  · rename_i exclusive
    have asks : AsksL2 e p ↔ c ∉ e.sharedL2 ∧ e.sharedL2.card = 1 := by
      rw [asks]
      simp [Owned, exclusive]
    split
    · rename_i several
      exact iff_of_false (by decide) fun h => several (asks.mp h).2
    · rename_i one
      obtain ⟨owner, howner⟩ := owned_first ⟨.inl exclusive, not_not.mp one⟩
      rw [Lqe.top_ok hpath]
      show Reads e p (if _ then _ else _)
      split
      · rename_i sharer
        have top : Lqe.top { p with type := .writeNd } = .ok c := Lqe.top_ok hpath
        unfold addEventToULpp
        rw [top]
        exact iff_of_false Bool.false_ne_true fun h => (asks.mp h).1 sharer
      · rename_i foreign
        rw [howner]
        exact iff_of_true rfl (asks.mpr ⟨foreign, not_not.mp one⟩)
  · rename_i shared
    have asks : AsksL2 e p ↔ e.sharedL2 ≠ ∅ := by
      rw [asks]
      simp [Owned, shared]
    split
    · rename_i empty
      exact iff_of_false (by decide) fun h => asks.mp h empty
    · rename_i some
      exact iff_of_true rfl (asks.mpr some)
  · rename_i modified
    have asks : AsksL2 e p ↔ c ∉ e.sharedL2 ∧ e.sharedL2.card = 1 := by
      rw [asks]
      simp [Owned, modified]
    split
    · rename_i stuck
      refine iff_of_false (by decide) fun h => ?_
      rcases stuck with pending | several
      · exact pending idle
      · exact several (asks.mp h).2
    · rename_i free
      have one : e.sharedL2.card = 1 := not_not.mp fun h => free (.inr h)
      obtain ⟨owner, howner⟩ := owned_first ⟨.inr modified, one⟩
      rw [Lqe.top_ok hpath]
      show Reads e p (if _ then _ else _)
      split
      · rename_i sharer
        have top : Lqe.top { p with type := .nack } = .ok c := Lqe.top_ok hpath
        unfold addEventToUL
        rw [top]
        exact iff_of_false Bool.false_ne_true fun h => (asks.mp h).1 sharer
      · rename_i foreign
        rw [howner]
        exact iff_of_true rfl (asks.mpr ⟨foreign, one⟩)
  · rename_i exclusive shared modified
    refine iff_of_false (by decide) fun h => ?_
    rcases asks.mp h with ⟨-, h | h, -⟩ | h
    · exact exclusive h
    · exact modified h
    · exact shared h.1

theorem request_reads {c : C} {path : List C} (hpath : p.path = c :: path)
    (ht : transient e.type = false) (idle : e.pending = none) :
      Reads e p (request cfg t (some e) p st) := by
  unfold request
  dsimp only
  rw [if_neg (by simp [ht])]
  split
  · rename_i type
    exact reqRead_reads hpath type
  · rename_i noRead
    split
    · rename_i type
      exact reqWrite_reads hpath type idle
    · rename_i noWrite
      refine iff_of_false (by decide) fun h => ?_
      rcases h with ⟨-, h | h⟩ | h
      · exact noRead h.1
      · exact noWrite h.1
      · exact noWrite h.1

end Address

omit [LinearOrder C] in
theorem apply_entry (o : Outcome C) : (s.apply cfg line o).dir line = o.entry := by
  unfold apply
  dsimp only
  split <;> exact setEntry_self _ _

theorem processRequest_info_disposes (h : CacheInv cfg s) (on : cfg.hasDirectoryCache = true)
    {p : Lqe C} (held : Held s (cfg.lineOf lqe.address) p e) (hl : lqe.type = .rdDirInfoReq) :
    Meets (fun _ => True) (fun r => Disposed p (r.1.dir (cfg.lineOf lqe.address)) r.2.calls ∧
      r.2.deleted = [lqe]) (processRequest cfg t s lqe) := by
  have line : cfg.lineOf p.address = cfg.lineOf lqe.address :=
    h.aimed _ e p trivial held.entry held.pending
  rw [processRequest_info h on held hl]
  refine serveRequest_meets ?_
  rw [line]
  have found : (arrived cfg s (cfg.lineOf lqe.address) e).dir (cfg.lineOf lqe.address) =
      some { e with pending := none, notInDc := false } := setEntry_self _ _
  rw [found]
  refine (request_disposes (by exact held.idle) rfl).mono (fun o ho => ⟨?_, ?_⟩) fun _ h => h
  · rw [apply_entry]
    exact ho.1
  · rw [ho.2]
    rfl

theorem processRequest_info_undefined (h : CacheInv cfg s)
    (on : cfg.hasDirectoryCache = true) {p : Lqe C} (held : Held s (cfg.lineOf lqe.address) p e)
    (hl : lqe.type = .rdDirInfoReq) {c : C} {path : List C} (hpath : p.path = c :: path) :
      processRequest cfg t s lqe = .error .undefined ↔ AsksL2 e p := by
  have line : cfg.lineOf p.address = cfg.lineOf lqe.address :=
    h.aimed _ e p trivial held.entry held.pending
  have found : (arrived cfg s (cfg.lineOf lqe.address) e).dir (cfg.lineOf p.address) =
      some { e with pending := none, notInDc := false } := by
    rw [line]
    exact setEntry_self _ _
  have reads : Reads { e with pending := none, notInDc := false } p (request cfg t
      (some { e with pending := none, notInDc := false }) p
      (arrived cfg s (cfg.lineOf lqe.address) e).stats) := request_reads hpath held.idle rfl
  rw [processRequest_info h on held hl]
  unfold serveRequest
  rw [found]
  cases hr : request cfg t (some { e with pending := none, notInDc := false }) p
      (arrived cfg s (cfg.lineOf lqe.address) e).stats with
  | error a =>
    rw [hr] at reads
    exact Iff.trans ⟨fun h => by cases h; rfl, fun h => by rw [h]; rfl⟩ reads
  | ok o =>
    rw [hr] at reads
    refine Iff.trans ?_ reads
    simp only [bind, Except.bind, List.isEmpty_cons, Bool.not_false, Bool.true_and]
    constructor
    · intro undefined
      by_contra no
      rw [if_neg no] at undefined
      cases undefined
    · exact fun yes => if_pos yes

section Queues
omit [LinearOrder C]

def replies (s : Directory C) : List (Lqe C) := s.repEvent.map (·.2) ++ s.repQ

def requests (s : Directory C) : List (Lqe C) := s.reqEvent.map (·.2) ++ s.reqQ

theorem taken_queues {isReply : Bool} (h : next t s = some (isReply, lqe)) :
    (if isReply then lqe :: (taken t s).replies else (taken t s).replies).Perm s.replies ∧
      (if isReply then (taken t s).requests else lqe :: (taken t s).requests).Perm s.requests := by
  have reps := Multimap.front_perm t s.repEvent s.repQ
  have reqs := Multimap.front_perm t s.reqEvent s.reqQ
  have shown : (s.takeEvents t).replies.Perm s.replies ∧
    (s.takeEvents t).requests.Perm s.requests :=
    ⟨reps, reqs⟩
  cases hr : (s.takeEvents t).repQ with
  | cons first repQ =>
    obtain ⟨hn, ht⟩ := taken_reply hr
    cases hn.symm.trans h
    rw [ht]
    refine ⟨?_, shown.2⟩
    refine List.Perm.trans ?_ shown.1
    unfold replies
    rw [hr]
    exact List.perm_middle.symm
  | nil =>
    cases hq : (s.takeEvents t).reqQ with
    | nil => simp [next, hr, hq] at h
    | cons first reqQ =>
      obtain ⟨hn, ht⟩ := taken_request hr hq
      cases hn.symm.trans h
      rw [ht]
      refine ⟨shown.1, ?_⟩
      refine List.Perm.trans ?_ shown.2
      unfold requests
      rw [hq]
      exact List.perm_middle.symm

end Queues

end Directory

end McSim
