import McSim.DirectoryInfo

/-! Runs of a directory with the reads of directory information that the memory answers.
Whether a request that is held gets its information, and what an eviction from the directory cache
sends, are questions about such runs. -/

namespace McSim

variable {C : Type}

abbrev PlainLqe (C : Type) := { lqe : Lqe C // isInfo lqe.type = false }

/-- A directory, the reads of directory information that the memory has yet to answer, and for each
line the request that the last one was made for. -/
structure Station (C : Type) where
  dir : Directory C := {}
  reads : List (Lqe C) := []
  asked : Nat → Option (Lqe C) := fun _ => none

/-- What happens to a directory: a message arrives, the memory answers a read, or a tick. -/
inductive Feed (C : Type)
  | request (t : Nat) (lqe : PlainLqe C)
  | reply (t : Nat) (lqe : PlainLqe C)
  | answer (t i : Nat)
  | tick (t : Nat)

namespace Station

open Contract Directory

def infoReads (calls : List (Call C)) : List (Lqe C) :=
  (calls.filter fun call => call.kind = .req ∧ isInfo call.lqe.type).map (·.lqe)

section
variable [LinearOrder C]

def tick (cfg : DirConfig C) (s : Station C) (t : Nat) : Except Abort (Station C) := do
  let (dir, effects) ← s.dir.processEvent cfg t
  let new := infoReads effects.calls
  let asked := match next t s.dir with
    | some (false, lqe) =>
      if new.any (·.type = .rdDirInfoReq) then
        Function.update s.asked (cfg.lineOf lqe.address) (some lqe)
      else s.asked
    | _ => s.asked
  return { dir, reads := s.reads ++ new, asked }

def step (cfg : DirConfig C) (s : Station C) : Feed C → Except Abort (Station C)
  | .request t lqe => return { s with dir := s.dir.addReqEvent cfg t lqe }
  | .reply t lqe => return { s with dir := s.dir.addRepEvent cfg t lqe }
  | .answer t i =>
    match s.reads[i]? with
    | none => .error .undefined
    | some lqe => return { s with dir := s.dir.addRepEvent cfg t lqe, reads := s.reads.eraseIdx i }
  | .tick t => s.tick cfg t

def run (cfg : DirConfig C) (s : Station C) (feeds : List (Feed C)) : Except Abort (Station C) :=
  feeds.foldlM (step cfg) s

/-- `ok` holds of every message that is processed, in the state before. -/
def Meeting (cfg : DirConfig C) (ok : Station C → Lqe C → Prop) (s : Station C) :
    List (Feed C) → Prop
  | [] => True
  | feed :: feeds =>
    (∀ t isReply lqe, feed = .tick t → next t s.dir = some (isReply, lqe) → ok s lqe) ∧
      ∀ s', s.step cfg feed = .ok s' → Meeting cfg ok s' feeds

end

def waiting (s : Station C) : List (Lqe C) := s.reads ++ s.dir.requests

def Awaits (cfg : DirConfig C) (s : Station C) (line : Nat) : Prop :=
  ∃ r ∈ s.waiting, r.type = .rdDirInfoReq ∧ cfg.lineOf r.address = line

section
variable [LinearOrder C]

/-- No `et_evict` of the only sharer meets an entry that holds a request for its directory
information but has lost `not_in_dc`. -/
def SparesHeld (cfg : DirConfig C) (s : Station C) (lqe : Lqe C) : Prop :=
  lqe.type = .evict → s.Awaits cfg (cfg.lineOf lqe.address) →
    ∀ e, s.dir.dir (cfg.lineOf lqe.address) = some e → e.notInDc = false → ¬ Ends e lqe

end

/-- Information that was read for an eviction meets no entry, or one that is in the directory cache
or cannot be put there. -/
def FindsListed (cfg : DirConfig C) (s : Station C) (lqe : Lqe C) : Prop :=
  lqe.type = .rdDirInfoRep → ∀ e, s.dir.dir (cfg.lineOf lqe.address) = some e →
    cfg.lineOf lqe.address ∈ s.dir.dirCache (cfg.lineOf lqe.address % cfg.numSets) ∨
      (s.dir.dirCache (cfg.lineOf lqe.address % cfg.numSets)).length = cfg.numWays ∧
        (scanVictim s.dir.dir (s.dir.dirCache (cfg.lineOf lqe.address % cfg.numSets))).2 = none

/-- The request that the information has come for is served without a message to an L2 that has the
line. -/
def SparesAddress (cfg : DirConfig C) (s : Station C) (lqe : Lqe C) : Prop :=
  lqe.type = .rdDirInfoReq → ∀ e ∈ s.dir.dir (cfg.lineOf lqe.address), ∀ p ∈ e.pending, ¬ AsksL2 e p

section
variable [LinearOrder C] {cfg : DirConfig C} {s s' : Station C} {t : Nat} {lqe : Lqe C}

def heldReads (lqes : List (Lqe C)) :
    List (Lqe C) := lqes.filter fun lqe => lqe.type = .rdDirInfoReq

/-- There is one read for a request that is held, and none without one. -/
structure InfoInv (cfg : DirConfig C) (s : Station C) : Prop where
  cache : CacheInv cfg s.dir
  plain : ∀ lqe ∈ s.dir.replies, lqe.type ≠ .rdDirInfoReq
  held : ∀ r ∈ heldReads s.waiting, ∃ p e, Held s.dir (cfg.lineOf r.address) p e ∧
    s.asked (cfg.lineOf r.address) = some p
  once : ((heldReads s.waiting).map fun r => cfg.lineOf r.address).Nodup

omit [LinearOrder C] in
theorem mem_held {lqes : List (Lqe C)} :
    lqe ∈ heldReads lqes ↔ lqe ∈ lqes ∧ lqe.type = .rdDirInfoReq := by
  unfold heldReads
  rw [List.mem_filter, decide_eq_true_iff]

omit [LinearOrder C] in
theorem held_perm {a b : List (Lqe C)} (h : a.Perm b) :
    (heldReads a).Perm (heldReads b) := h.filter _

omit [LinearOrder C] in
theorem InfoInv.of_perm (h : InfoInv cfg s) (hd : s'.dir.dir = s.dir.dir)
    (hc : s'.dir.dirCache = s.dir.dirCache) (ha : s'.asked = s.asked)
    (hp : ∀ lqe ∈ s'.dir.replies, lqe.type ≠ .rdDirInfoReq)
    (hw : (heldReads s'.waiting).Perm (heldReads s.waiting)) : InfoInv cfg s' where
  cache := h.cache.congr hd hc
  plain := hp
  held r hr := by
    obtain ⟨p, e, he, asked⟩ := h.held r (hw.mem_iff.mp hr)
    exact ⟨p, e, ⟨by rw [hd]; exact he.entry, he.pending, he.idle⟩, by rw [ha]; exact asked⟩
  once := (hw.map _).nodup_iff.mpr h.once

omit [LinearOrder C] in
theorem held_cons_plain (h : lqe.type ≠ .rdDirInfoReq) (lqes : List (Lqe C)) :
    heldReads (lqe :: lqes) = heldReads lqes := by
  unfold heldReads
  rw [List.filter_cons_of_neg (by simp [h])]

omit [LinearOrder C] in
theorem held_cons_info (h : lqe.type = .rdDirInfoReq) (lqes : List (Lqe C)) :
    heldReads (lqe :: lqes) = lqe :: heldReads lqes := by
  unfold heldReads
  rw [List.filter_cons_of_pos (by simp [h])]

omit [LinearOrder C] in
theorem plain_ne {lqe : PlainLqe C} : lqe.1.type ≠ .rdDirInfoReq := fun h => by
  have := lqe.2
  rw [h] at this
  cases this

omit [LinearOrder C] in
theorem addReqEvent_waiting (cfg : DirConfig C) (reads : List (Lqe C)) (dir : Directory C) (t : Nat)
    (lqe : Lqe C) (asked : Nat → Option (Lqe C)) :
    (waiting { dir := dir.addReqEvent cfg t lqe, reads, asked }).Perm
      (lqe :: waiting { dir, reads, asked }) := by
  have inserted : ((dir.addReqEvent cfg t lqe).reqEvent.map (·.2)).Perm
      (lqe :: dir.reqEvent.map (·.2)) := (Multimap.insert_perm _ _ _).map _
  exact ((inserted.append_right dir.reqQ).append_left reads).trans List.perm_middle

omit [LinearOrder C] in
theorem infoInv_request (h : InfoInv cfg s) (t : Nat) (lqe : PlainLqe C) :
    InfoInv cfg { s with dir := s.dir.addReqEvent cfg t lqe } := by
  refine h.of_perm rfl rfl rfl h.plain ?_
  have more := held_perm (addReqEvent_waiting cfg s.reads s.dir t lqe s.asked)
  rwa [held_cons_plain plain_ne] at more

omit [LinearOrder C] in
theorem infoInv_reply (h : InfoInv cfg s) (t : Nat) {lqe : Lqe C} (hl : lqe.type ≠ .rdDirInfoReq)
    {reads : List (Lqe C)} (hr : (heldReads reads).Perm (heldReads s.reads)) :
    InfoInv cfg { s with dir := s.dir.addRepEvent cfg t lqe, reads } := by
  have added : s.dir.addRepEvent cfg t lqe =
      { s.dir with repEvent := Multimap.insert (ceilByY t cfg.processInterval) lqe s.dir.repEvent } :=
    if_neg hl
  rw [added]
  refine h.of_perm rfl rfl rfl (fun r hr => ?_) ?_
  · rcases List.mem_append.mp hr with hr | hr
    · obtain ⟨x, hx, rfl⟩ := List.mem_map.mp hr
      rcases Multimap.mem_insert.mp hx with rfl | hx
      · exact hl
      · exact h.plain _ (List.mem_append_left _ (List.mem_map_of_mem hx))
    · exact h.plain r (List.mem_append_right _ hr)
  · unfold waiting heldReads
    simp only [List.filter_append]
    exact hr.append_right _

omit [LinearOrder C] in
theorem infoInv_answer (h : InfoInv cfg s) (t : Nat) {i : Nat} (hi : s.reads[i]? = some lqe) :
    InfoInv cfg { s with dir := s.dir.addRepEvent cfg t lqe, reads := s.reads.eraseIdx i } := by
  have moved : (lqe :: s.reads.eraseIdx i).Perm s.reads := by
    obtain ⟨hlt, rfl⟩ := List.getElem?_eq_some_iff.mp hi
    exact List.getElem_cons_eraseIdx_perm hlt
  by_cases hl : lqe.type = .rdDirInfoReq
  · have added : s.dir.addRepEvent cfg t lqe = s.dir.addReqEvent cfg t lqe := if_pos hl
    rw [added]
    refine h.of_perm rfl rfl rfl h.plain (held_perm ?_)
    refine (addReqEvent_waiting _ _ _ t lqe s.asked).trans ?_
    exact moved.append_right _
  · refine infoInv_reply h t hl ?_
    have same := held_perm moved
    rwa [held_cons_plain hl] at same

omit [LinearOrder C] in
theorem heldReads_append (a b : List (Lqe C)) : heldReads (a ++ b) = heldReads a ++ heldReads b :=
  List.filter_append a b

omit [LinearOrder C] in
theorem heldReads_infoReads (calls : List (Call C)) : heldReads (infoReads calls) = asks calls := by
  unfold heldReads infoReads asks
  rw [List.filter_map, List.filter_filter]
  congr 2
  funext call
  cases h : call.lqe.type <;> simp [isInfo, h]

structure Ticked (cfg : DirConfig C) (t : Nat) (s s' : Station C) (isReply : Bool) (lqe : Lqe C)
    (effects : Effects C) : Prop where
  next : next t s.dir = some (isReply, lqe)
  processed : process cfg t (taken t s.dir) isReply lqe = .ok (s'.dir, effects)
  reads : s'.reads = s.reads ++ infoReads effects.calls
  asked : s'.asked = if isReply = false ∧ asks effects.calls ≠ [] then
    Function.update s.asked (cfg.lineOf lqe.address) (some lqe) else s.asked

theorem tick_cases (h : s.tick cfg t = .ok s') :
    ∃ isReply lqe effects, Ticked cfg t s s' isReply lqe effects := by
  unfold tick at h
  cases hp : s.dir.processEvent cfg t with
  | error e => simp [hp, bind, Except.bind] at h
  | ok r =>
    obtain ⟨dir, effects⟩ := r
    obtain ⟨isReply, lqe, r', hn, hr, hd, hc, -⟩ := processEvent_cases hp
    simp only [hp, bind, Except.bind, pure, Except.pure, Except.ok.injEq, hn] at h
    refine ⟨isReply, lqe, r'.2, hn, ?_, ?_, ?_⟩
    · rw [hr, ← h]
      exact congrArg _ (Prod.ext hd.symm rfl)
    · rw [← h, hc]
    · have any : (infoReads effects.calls).any (·.type = .rdDirInfoReq) = true ↔
        asks r'.2.calls ≠ [] := by
        rw [← heldReads_infoReads, ← hc, List.any_eq_true]
        unfold heldReads
        rw [Ne, List.filter_eq_nil_iff]
        push Not
        rfl
      rw [← h]
      cases isReply with
      | true => rfl
      | false =>
        by_cases new : asks r'.2.calls ≠ []
        · simp [any.mpr new, new]
        · have none := mt any.mp new
          simp [none, new]

theorem Ticked.frame {isReply : Bool} {effects : Effects C} (h : InfoInv cfg s)
    (on : cfg.hasDirectoryCache = true) (tk : Ticked cfg t s s' isReply lqe effects) :
    Frame (cfg.lineOf lqe.address) lqe (taken t s.dir) s'.dir := by
  refine (process_frame (h.cache.congr taken_dir taken_dirCache) on isReply fun hr => ?_).of_ok
    tk.processed
  have queues := (taken_queues tk.next).1
  rw [if_pos hr] at queues
  exact h.plain _ (queues.subset List.mem_cons_self)

theorem Ticked.waiting {isReply : Bool} {effects : Effects C} (h : InfoInv cfg s)
    (on : cfg.hasDirectoryCache = true) (tk : Ticked cfg t s s' isReply lqe effects) :
    (heldReads (if isReply then s'.waiting else lqe :: s'.waiting)).Perm
      (asks effects.calls ++ heldReads s.waiting) := by
  have frame := tk.frame h on
  have same : s'.dir.requests = (taken t s.dir).requests := by
    unfold requests
    rw [frame.reqEvent, frame.reqQ]
  have queues := (taken_queues tk.next).2
  have all : s'.waiting = s.reads ++ (infoReads effects.calls ++ (taken t s.dir).requests) := by
    unfold Station.waiting
    rw [tk.reads, same, List.append_assoc]
  have asked : ∀ {more : List (Lqe C)}, more.Perm s.dir.requests →
      (heldReads (s.reads ++ (infoReads effects.calls ++ more))).Perm
        (asks effects.calls ++ heldReads s.waiting) := fun hm => by
    rw [heldReads_append, heldReads_append, heldReads_infoReads]
    refine (List.perm_append_comm_assoc _ _ _).trans (List.Perm.append_left _ ?_)
    unfold Station.waiting
    rw [heldReads_append]
    exact (held_perm hm).append_left _
  cases isReply with
  | true =>
    rw [if_pos rfl] at queues ⊢
    rw [all]
    exact asked queues
  | false =>
    rw [if_neg (by simp)] at queues ⊢
    refine List.Perm.trans (held_perm ?_) (asked queues)
    rw [all]
    refine List.perm_middle.symm.trans (List.Perm.append_left _ ?_)
    exact List.perm_middle.symm

theorem Ticked.elsewhere {isReply : Bool} {effects : Effects C} (h : InfoInv cfg s)
    (on : cfg.hasDirectoryCache = true) (tk : Ticked cfg t s s' isReply lqe effects) {line : Nat}
    (hl : line ≠ cfg.lineOf lqe.address) :
    s'.dir.dir line = s.dir.dir line ∧ s'.asked line = s.asked line := by
  constructor
  · rw [(tk.frame h on).elsewhere line hl, taken_dir]
  · rw [tk.asked]
    split
    · exact Function.update_of_ne hl _ _
    · rfl

theorem Ticked.plain {isReply : Bool} {effects : Effects C} (h : InfoInv cfg s)
    (on : cfg.hasDirectoryCache = true) (tk : Ticked cfg t s s' isReply lqe effects) :
    ∀ lqe ∈ s'.dir.replies, lqe.type ≠ .rdDirInfoReq := by
  have frame := tk.frame h on
  have queues := (taken_queues tk.next).1
  have before : ∀ r ∈ (taken t s.dir).replies, r.type ≠ .rdDirInfoReq := fun r hr => by
    refine h.plain r (queues.subset ?_)
    cases isReply with
    | true => exact List.mem_cons_of_mem _ hr
    | false => exact hr
  intro r hr
  rcases List.mem_append.mp hr with hr | hr
  · obtain ⟨x, hx, rfl⟩ := List.mem_map.mp hr
    rcases frame.repEvent x hx with hx | ⟨hx, plain⟩
    · exact before _ (List.mem_append_left _ (List.mem_map_of_mem hx))
    · rw [hx]
      exact plain
  · rw [frame.repQ] at hr
    exact before r (List.mem_append_right _ hr)

theorem infoInv_tick_reply {effects : Effects C} (h : InfoInv cfg s)
    (on : cfg.hasDirectoryCache = true) (spares : s.SparesHeld cfg lqe)
    (tk : Ticked cfg t s s' true lqe effects) : InfoInv cfg s' := by
  have cache : CacheInv cfg (taken t s.dir) := h.cache.congr taken_dir taken_dirCache
  have none : asks effects.calls = [] := processReply_asks.of_ok tk.processed
  have waiting := tk.waiting h on
  rw [none, if_pos rfl] at waiting
  have asked : s'.asked = s.asked := tk.asked
  refine ⟨(process_inv cache on true).of_ok tk.processed, tk.plain h on, fun r hr => ?_,
    (waiting.map _).nodup_iff.mpr h.once⟩
  have mem := waiting.mem_iff.mp hr
  obtain ⟨p, e, he, hp⟩ := h.held r mem
  by_cases hl : cfg.lineOf r.address = cfg.lineOf lqe.address
  · rw [hl] at he hp ⊢
    have spared : lqe.type = .evict → e.notInDc = false → ¬ Ends e lqe := fun hev hn =>
      spares hev ⟨r, (mem_held.mp mem).1, (mem_held.mp mem).2, hl⟩ e he.entry hn
    obtain ⟨e', he'⟩ := (processReply_held cache on (he.congr (by rw [taken_dir])) spared).of_ok
      tk.processed
    exact ⟨p, e', he', by rw [asked]; exact hp⟩
  · exact ⟨p, e, he.congr (tk.elsewhere h on hl).1, by rw [asked]; exact hp⟩

theorem infoInv_tick_request {effects : Effects C} (h : InfoInv cfg s)
    (on : cfg.hasDirectoryCache = true) (tk : Ticked cfg t s s' false lqe effects) :
    InfoInv cfg s' := by
  have cache : CacheInv cfg (taken t s.dir) := h.cache.congr taken_dir taken_dirCache
  have waiting := tk.waiting h on
  rw [if_neg (by simp)] at waiting
  have inv := (process_inv cache on false).of_ok tk.processed
  have others : ∀ r ∈ heldReads s.waiting, cfg.lineOf r.address ≠ cfg.lineOf lqe.address →
      ∃ p e, Held s'.dir (cfg.lineOf r.address) p e ∧ s'.asked (cfg.lineOf r.address) = some p :=
    fun r hr hl => by
      obtain ⟨p, e, he, hp⟩ := h.held r hr
      obtain ⟨hd, ha⟩ := tk.elsewhere h on hl
      exact ⟨p, e, he.congr hd, ha.trans hp⟩
  by_cases info : lqe.type = .rdDirInfoReq
  · have none : asks effects.calls = [] := by
      rcases (processRequest_asks cache on).of_ok tk.processed with hn | asked
      · exact hn
      · exact absurd info asked.request
    rw [none, held_cons_info info] at waiting
    have once := (waiting.map fun r => cfg.lineOf r.address).nodup_iff.mpr h.once
    rw [List.map_cons, List.nodup_cons] at once
    refine ⟨inv, tk.plain h on, fun r hr => ?_, once.2⟩
    refine others r (waiting.subset (List.mem_cons_of_mem _ hr)) fun hl => once.1 ?_
    rw [← hl]
    exact List.mem_map_of_mem hr
  · rw [held_cons_plain info] at waiting
    rcases (processRequest_asks cache on).of_ok tk.processed with none | asked
    · rw [none] at waiting
      refine ⟨inv, tk.plain h on, fun r hr => ?_, (waiting.map _).nodup_iff.mpr h.once⟩
      have mem := waiting.mem_iff.mp hr
      by_cases hl : cfg.lineOf r.address = cfg.lineOf lqe.address
      · obtain ⟨p, e, he, hp⟩ := h.held r mem
        rw [hl] at he hp ⊢
        refine ⟨p, e, (processRequest_held cache on (he.congr (by rw [taken_dir])) info).of_ok
          tk.processed, ?_⟩
        rw [tk.asked, if_neg (fun hn => hn.2 none)]
        exact hp
      · exact others r mem hl
    · obtain ⟨e, e', he, free, held⟩ := asked.held
      rw [taken_dir] at he
      have fresh : ∀ r ∈ heldReads s.waiting, cfg.lineOf r.address ≠ cfg.lineOf lqe.address :=
        fun r hr hl => by
          obtain ⟨p, e₁, he₁, -⟩ := h.held r hr
          rw [hl] at he₁
          cases he.symm.trans he₁.entry
          simp [pinned, he₁.pending] at free
      rw [asked.calls] at waiting
      refine ⟨inv, tk.plain h on, fun r hr => ?_, ?_⟩
      · rcases List.mem_cons.mp (waiting.mem_iff.mp hr) with rfl | mem
        · refine ⟨lqe, e', held, ?_⟩
          rw [tk.asked, if_pos ⟨rfl, by rw [asked.calls]; simp⟩]
          exact Function.update_self _ _ _
        · exact others r mem (fresh r mem)
      · refine (waiting.map _).nodup_iff.mpr ?_
        rw [List.singleton_append, List.map_cons, List.nodup_cons]
        refine ⟨fun mem => ?_, h.once⟩
        obtain ⟨r, hr, hl⟩ := List.mem_map.mp mem
        exact fresh r hr hl

theorem infoInv_tick (h : InfoInv cfg s) (on : cfg.hasDirectoryCache = true)
    (spares : ∀ isReply lqe, next t s.dir = some (isReply, lqe) → s.SparesHeld cfg lqe)
    (ht : s.tick cfg t = .ok s') : InfoInv cfg s' := by
  obtain ⟨isReply, lqe, effects, tk⟩ := tick_cases ht
  cases isReply with
  | true => exact infoInv_tick_reply h on (spares true lqe tk.next) tk
  | false => exact infoInv_tick_request h on tk

theorem infoInv_step (h : InfoInv cfg s) (on : cfg.hasDirectoryCache = true) {feed : Feed C}
    (spares : ∀ t isReply lqe, feed = .tick t → next t s.dir = some (isReply, lqe) →
      s.SparesHeld cfg lqe)
    (hs : s.step cfg feed = .ok s') : InfoInv cfg s' := by
  cases feed with
  | request t lqe =>
    cases hs
    exact infoInv_request h t lqe
  | reply t lqe =>
    cases hs
    exact infoInv_reply h t plain_ne (List.Perm.refl _)
  | answer t i =>
    unfold step at hs
    cases hi : s.reads[i]? with
    | none => simp [hi] at hs
    | some lqe =>
      simp only [hi] at hs
      cases hs
      exact infoInv_answer h t hi
  | tick t => exact infoInv_tick h on (fun isReply lqe => spares t isReply lqe rfl) hs

theorem run_cons (feed : Feed C) (feeds : List (Feed C)) :
    s.run cfg (feed :: feeds) = s.step cfg feed >>= fun s' => s'.run cfg feeds := rfl

theorem infoInv_run {ok : Station C → Lqe C → Prop} (on : cfg.hasDirectoryCache = true)
    (spares : ∀ s lqe, ok s lqe → s.SparesHeld cfg lqe) {feeds : List (Feed C)} (h : InfoInv cfg s)
    (hm : s.Meeting cfg ok feeds) (hr : s.run cfg feeds = .ok s') : InfoInv cfg s' := by
  induction feeds generalizing s with
  | nil =>
    cases hr
    exact h
  | cons feed feeds ih =>
    rw [run_cons] at hr
    cases hs : s.step cfg feed with
    | error e => simp [hs, bind, Except.bind] at hr
    | ok s₁ =>
      rw [hs] at hr
      refine ih (infoInv_step h on (fun t isReply lqe ht hn => ?_) hs) (hm.2 s₁ hs) hr
      exact spares s lqe (hm.1 t isReply lqe ht hn)

theorem meeting_append {ok : Station C → Lqe C → Prop} {feeds more : List (Feed C)} :
    s.Meeting cfg ok (feeds ++ more) ↔
      s.Meeting cfg ok feeds ∧ ∀ s', s.run cfg feeds = .ok s' → s'.Meeting cfg ok more := by
  induction feeds generalizing s with
  | nil => exact ⟨fun h => ⟨trivial, fun s' hs => by cases hs; exact h⟩, fun h => h.2 s rfl⟩
  | cons feed feeds ih =>
    rw [run_cons]
    constructor
    · intro h
      refine ⟨⟨h.1, fun s₁ h₁ => (ih.mp (h.2 s₁ h₁)).1⟩, fun s' hs => ?_⟩
      cases h₁ : s.step cfg feed with
      | error e => simp [h₁, bind, Except.bind] at hs
      | ok s₁ =>
        rw [h₁] at hs
        exact (ih.mp (h.2 s₁ h₁)).2 s' hs
    · intro h
      refine ⟨h.1.1, fun s₁ h₁ => ih.mpr ⟨h.1.2 s₁ h₁, fun s' hs => h.2 s' ?_⟩⟩
      rw [h₁]
      exact hs

omit [LinearOrder C] in
theorem infoInv_init : InfoInv cfg ({} : Station C) where
  cache := {
    bounded := fun _ => Nat.zero_le _
    nodup := fun _ => List.nodup_nil
    home := fun _ _ h => absurd h List.not_mem_nil
    known := fun _ _ h => absurd h List.not_mem_nil
    kept := fun _ _ _ h => by cases h
    aimed := fun _ _ _ _ h => by cases h }
  plain _ h := by cases h
  held _ h := by cases h
  once := List.nodup_nil

/-- The directory cache and the entries agree. -/
structure Structured (cfg : DirConfig C) (s : Station C) : Prop where
  bounded : ∀ set, (s.dir.dirCache set).length ≤ cfg.numWays
  nodup : ∀ set, (s.dir.dirCache set).Nodup
  home : ∀ set, ∀ key ∈ s.dir.dirCache set, key % cfg.numSets = set
  known : ∀ set, ∀ key ∈ s.dir.dirCache set, (s.dir.dir key).isSome
  noPhantom : ∀ set, (scanVictim s.dir.dir (s.dir.dirCache set)).1 = s.dir.dir
  listed : ∀ line e, s.dir.dir line = some e → pinned e →
    line ∈ s.dir.dirCache (line % cfg.numSets)
  unpinned : ∀ set v e, (scanVictim s.dir.dir (s.dir.dirCache set)).2 = some v →
    s.dir.dir v = some e → pinned e = false
  unreached : ∀ t lqe, next t s.dir = some (false, lqe) → lqe.type = .rdDirInfoReq →
    ∀ e, s.dir.dir (cfg.lineOf lqe.address) = some e →
      cfg.lineOf lqe.address ∈ s.dir.dirCache (cfg.lineOf lqe.address % cfg.numSets)

omit [LinearOrder C] in
theorem next_waiting (h : next t s.dir = some (false, lqe)) : lqe ∈ s.waiting := by
  have queues := (taken_queues h).2
  rw [if_neg (by simp)] at queues
  exact List.mem_append_right _ (queues.subset List.mem_cons_self)

omit [LinearOrder C] in
theorem InfoInv.structured (h : InfoInv cfg s) : Structured cfg s where
  bounded := h.cache.bounded
  nodup := h.cache.nodup
  home := h.cache.home
  known set key hk := h.cache.known set key hk trivial
  noPhantom set := (scanVictim_spec fun key hk => h.cache.known set key hk trivial).1
  listed line e he := h.cache.kept line e trivial he
  unpinned set v e hv he := by
    obtain ⟨-, e', he', free⟩ :=
      (scanVictim_spec fun key hk => h.cache.known set key hk trivial).2 v hv
    cases he.symm.trans he'
    exact free
  unreached t lqe hn hl e he := by
    obtain ⟨p, e', held, -⟩ := h.held lqe (mem_held.mpr ⟨next_waiting hn, hl⟩)
    exact h.cache.kept _ e' trivial held.entry (by simp [pinned, held.pending])

instance (lqe : Lqe C) (e : DirEntry C) : Decidable (Ends e lqe) :=
  inferInstanceAs (Decidable (∃ c ∈ lqe.path.head?,
    (e.type = .modified ∧ c ∈ e.sharedL2) ∨ (e.type ≠ .modified ∧ e.sharedL2.erase c = ∅)))

instance (cfg : DirConfig C) (s : Station C) : DecidablePred (s.SparesHeld cfg) := fun lqe =>
  inferInstanceAs (Decidable (lqe.type = .evict →
    (∃ r ∈ s.waiting, r.type = .rdDirInfoReq ∧ cfg.lineOf r.address = cfg.lineOf lqe.address) →
    ∀ e ∈ s.dir.dir (cfg.lineOf lqe.address), e.notInDc = false → ¬ Ends e lqe))

instance (cfg : DirConfig C) (s : Station C) : DecidablePred (s.FindsListed cfg) := fun lqe =>
  inferInstanceAs (Decidable (lqe.type = .rdDirInfoRep →
    ∀ e ∈ s.dir.dir (cfg.lineOf lqe.address),
      cfg.lineOf lqe.address ∈ s.dir.dirCache (cfg.lineOf lqe.address % cfg.numSets) ∨
        (s.dir.dirCache (cfg.lineOf lqe.address % cfg.numSets)).length = cfg.numWays ∧
          (scanVictim s.dir.dir (s.dir.dirCache (cfg.lineOf lqe.address % cfg.numSets))).2 = none))

instance (e : DirEntry C) (p : Lqe C) : Decidable (Foreign e p) :=
  inferInstanceAs (Decidable (∃ c ∈ p.path.head?, c ∉ e.sharedL2))

instance (e : DirEntry C) : Decidable (Owned e) :=
  inferInstanceAs (Decidable ((e.type = .exclusive ∨ e.type = .modified) ∧ e.sharedL2.card = 1))

instance (e : DirEntry C) (p : Lqe C) : Decidable (AsksL2 e p) :=
  inferInstanceAs (Decidable (Foreign e p ∧ (p.type = .read ∧ (Owned e ∨ e.type = .shared) ∨
    p.type = .write ∧ Owned e) ∨ p.type = .write ∧ e.type = .shared ∧ e.sharedL2 ≠ ∅))

instance (cfg : DirConfig C) (s : Station C) : DecidablePred (s.SparesAddress cfg) := fun lqe =>
  inferInstanceAs (Decidable (lqe.type = .rdDirInfoReq → ∀ e ∈ s.dir.dir (cfg.lineOf lqe.address),
    ∀ p ∈ e.pending, ¬ AsksL2 e p))

def decideMeeting (cfg : DirConfig C) (ok : Station C → Lqe C → Prop)
    [inst : ∀ s, DecidablePred (ok s)] :
    ∀ (feeds : List (Feed C)) (s : Station C), Decidable (s.Meeting cfg ok feeds)
  | [], _ => .isTrue trivial
  | feed :: feeds, s =>
    have first : Decidable (∀ t isReply lqe, feed = .tick t →
        next t s.dir = some (isReply, lqe) → ok s lqe) :=
      match feed with
      | .request .. => .isTrue fun _ _ _ h => by cases h
      | .reply .. => .isTrue fun _ _ _ h => by cases h
      | .answer .. => .isTrue fun _ _ _ h => by cases h
      | .tick t => decidable_of_iff (∀ n ∈ next t s.dir, ok s n.2)
        ⟨fun h t' isReply lqe ht hn => by cases ht; exact h _ hn, fun h n hn => h t n.1 n.2 rfl hn⟩
    have rest : Decidable (∀ s', s.step cfg feed = .ok s' → s'.Meeting cfg ok feeds) :=
      match s.step cfg feed with
      | .error _ => .isTrue fun _ h => by cases h
      | .ok s' => @decidable_of_iff _ _ ⟨fun h s₁ h₁ => by cases h₁; exact h, fun h => h s' rfl⟩
        (decideMeeting cfg ok feeds s')
    instDecidableAnd

def oneWay : DirConfig Nat where
  self := 0
  cachel2 := 1
  crossbar := 9
  crossbar_ne := by decide
  memoryController := 8
  l2s := [1, 2]
  l2s_nodup := by decide
  self_notMem := by decide
  setLsb := 6
  numSets := 1
  numSets_pos := Nat.one_pos
  numWays := 1
  dirToMcT := 10
  dirToL2T := 10
  dirToXbarT := 10
  numFlitsPerPacket := 3
  hasDirectoryCache := true
  useLimitless := false
  limitlessBroadcastThreshold := 4
  processInterval := 10

def read (c line t : Nat) : List (Feed Nat) :=
  [.request t ⟨{ path := [c], type := .read, address := line <<< 6 }, rfl⟩, .tick t]

def fill (c line t : Nat) : List (Feed Nat) :=
  [.reply t ⟨{ path := [0, c], type := .eRd, address := line <<< 6 }, rfl⟩, .tick t]

def write (c line t : Nat) : List (Feed Nat) :=
  [.request t ⟨{ path := [c], type := .write, address := line <<< 6 }, rfl⟩, .tick t]

def evict (c line t : Nat) : List (Feed Nat) :=
  [.reply t ⟨{ path := [c], type := .evict, address := line <<< 6 }, rfl⟩, .tick t]

def answer (t : Nat) : List (Feed Nat) := [.answer t 0, .tick t]

/-- A fetch for an eviction of line 1 answers where the line is fetched for a request. -/
def crossed : List (Feed Nat) :=
  read 1 1 0 ++ fill 1 1 10 ++ read 1 2 20 ++ fill 1 2 30 ++ evict 1 1 40 ++ read 1 1 50 ++
    fill 1 1 60 ++ read 1 3 70 ++ fill 1 3 80 ++ read 2 1 90 ++ answer 100

/-- Then the line is evicted, and the request that was held is gone. -/
def lost : List (Feed Nat) := crossed ++ evict 1 1 110

/-- As long as held requests are spared, the directory cache and the entries agree. -/
theorem structured_of_spared (on : cfg.hasDirectoryCache = true) {feeds : List (Feed C)}
    (hm : Meeting cfg (SparesHeld cfg) {} feeds) (hr : run cfg {} feeds = .ok s) :
    Structured cfg s :=
  (infoInv_run on (fun _ _ h => h) infoInv_init hm hr).structured

theorem crossed_structured : ∃ s, run oneWay {} crossed = .ok s ∧ Structured oneWay s := by
  have ends : Meets (fun _ => False) (fun _ => True) (run oneWay {} crossed) := by decide +kernel
  obtain ⟨s, hr, -⟩ := ends.result
  have spared : @decide _ (decideMeeting oneWay (SparesHeld oneWay) crossed {}) = true := by
    decide +kernel
  exact ⟨s, hr, structured_of_spared rfl (@of_decide_eq_true _ (_) spared) hr⟩

theorem lost_not_structured :
    ¬ ∀ feeds s, run oneWay {} feeds = .ok s → Structured oneWay s := by
  intro all
  have ends : Meets (fun _ => False) (fun s : Station Nat =>
      ∃ n ∈ next 150 s.dir, n.1 = false ∧ n.2.type = .rdDirInfoReq ∧ oneWay.lineOf n.2.address = 1 ∧
        (s.dir.dir 1).isSome ∧ 1 ∉ s.dir.dirCache 0)
      (run oneWay {} (lost ++ read 1 1 120 ++ fill 1 1 130 ++ read 1 4
        140 ++ [.answer 150 0])) := by
    decide +kernel
  obtain ⟨s, hr, ⟨isReply, lqe⟩, hn, isRequest, hl, line, found, absent⟩ := ends.result
  obtain ⟨e, he⟩ := Option.isSome_iff_exists.mp found
  cases (isRequest : isReply = false)
  have listed := (all _ s hr).unreached 150 lqe hn hl
  rw [show oneWay.lineOf lqe.address = 1 from line] at listed
  exact absent (listed e he)

structure Awaited (cfg : DirConfig C) (s : Station C) (lqe p : Lqe C) : Prop where
  entry : ∃ e, s.dir.dir (cfg.lineOf lqe.address) = some e ∧ e.pending = some p
  listed : cfg.lineOf lqe.address ∈ s.dir.dirCache (cfg.lineOf lqe.address % cfg.numSets)
  asked : s.asked (cfg.lineOf lqe.address) = some p

structure SameSharing (s s' : Directory C) : Prop where
  entries : ∀ line, (s'.dir line).map (fun e => (e.type, e.sharedL2)) =
    (s.dir line).map (fun e => (e.type, e.sharedL2))
  numEvict : s'.stats.numEvict = s.stats.numEvict

/-- What directory information from the memory finds and does where it is the next message. A
request has its L2 on its stack. -/
structure InfoMeets (cfg : DirConfig C) (t : Nat) (s : Station C) : Prop where
  request : ∀ lqe, next t s.dir = some (false, lqe) → lqe.type = .rdDirInfoReq →
    ∃ p, Awaited cfg s lqe p ∧ (p.path ≠ [] → processEvent cfg t s.dir ≠ .error .undefined) ∧
      ∀ s' effects, processEvent cfg t s.dir = .ok (s', effects) →
        Disposed p (s'.dir (cfg.lineOf lqe.address)) effects.calls ∧ effects.deleted = [lqe]
  reply : ∀ lqe, next t s.dir = some (true, lqe) → lqe.type = .rdDirInfoRep →
    ∀ s' effects, processEvent cfg t s.dir = .ok (s', effects) → SameSharing s.dir s'

omit [LinearOrder C] in
theorem SameSharing.of_entry {d d' : Directory C} {line : Nat} {e : Option (DirEntry C)}
    (hd : d'.dir = Function.update d.dir line e)
    (he : e.map (fun e => (e.type, e.sharedL2)) = (d.dir line).map (fun e => (e.type, e.sharedL2)))
    (hn : d'.stats.numEvict = d.stats.numEvict) : SameSharing d d' := by
  refine ⟨fun key => ?_, hn⟩
  rw [hd]
  by_cases hk : key = line
  · rw [hk, Function.update_self]
    exact he
  · rw [Function.update_of_ne hk]

omit [LinearOrder C] in
theorem cacheOnReply_info {d : Directory C} (h : CacheInv cfg d) (on : cfg.hasDirectoryCache = true)
    (hl : lqe.type = .rdDirInfoRep) {e : DirEntry C} (he : d.dir (cfg.lineOf lqe.address) = some e)
    (listed : cfg.lineOf lqe.address ∈ d.dirCache (cfg.lineOf lqe.address % cfg.numSets) ∨
      (d.dirCache (cfg.lineOf lqe.address % cfg.numSets)).length = cfg.numWays ∧
        (scanVictim d.dir (d.dirCache (cfg.lineOf lqe.address % cfg.numSets))).2 = none) :
    ∃ d' effects, cacheOnReply cfg t d e lqe = .stop d' effects ∧ SameSharing d d' := by
  unfold cacheOnReply
  dsimp only
  rw [if_neg (by simp [on])]
  by_cases mem : cfg.lineOf lqe.address ∈ d.dirCache (cfg.lineOf lqe.address % cfg.numSets)
  · rw [if_pos mem, if_pos hl]
    exact ⟨_, _, rfl, .of_entry rfl (by rw [he]; rfl) rfl⟩
  · obtain ⟨full, stuck⟩ := listed.resolve_left mem
    rw [if_neg mem, if_pos full]
    have scanned : scanVictim d.dir (d.dirCache (cfg.lineOf lqe.address % cfg.numSets)) =
        (d.dir, none) :=
      Prod.ext (scanVictim_spec fun key hk => h.known _ key hk trivial).1 stuck
    rw [scanned]
    refine ⟨_, _, rfl, ?_⟩
    unfold addRepEvent
    rw [if_neg (by rw [hl]; decide)]
    exact ⟨fun _ => rfl, rfl⟩

theorem InfoInv.meets (h : InfoInv cfg s) (on : cfg.hasDirectoryCache = true)
    (listed : ∀ isReply lqe, next t s.dir = some (isReply, lqe) → s.FindsListed cfg lqe)
    (spared : ∀ isReply lqe, next t s.dir = some (isReply, lqe) → s.SparesAddress cfg lqe) :
    InfoMeets cfg t s where
  request lqe hn hl := by
    have cache : CacheInv cfg (taken t s.dir) := h.cache.congr taken_dir taken_dirCache
    obtain ⟨p, e, held, asked⟩ := h.held lqe (mem_held.mpr ⟨next_waiting hn, hl⟩)
    have held' : Held (taken t s.dir) (cfg.lineOf lqe.address) p e := held.congr (by rw [taken_dir])
    refine ⟨p, ⟨⟨e, held.entry, held.pending⟩, ?_, asked⟩, fun some undefined => ?_,
      fun s' effects hp => ?_⟩
    · exact h.cache.kept _ e trivial held.entry (by simp [pinned, held.pending])
    · obtain ⟨c, path, hpath⟩ := List.exists_cons_of_ne_nil some
      exact spared false lqe hn hl e held.entry p held.pending
        ((processRequest_info_undefined cache on held' hl hpath).mp
          (processEvent_request hn undefined))
    · obtain ⟨isReply, lqe', r, hn', hr, rfl, hc, hd⟩ := processEvent_cases hp
      cases hn.symm.trans hn'
      rw [hc, hd]
      exact (processRequest_info_disposes cache on held' hl).of_ok hr
  reply lqe hn hl s' effects hp := by
    have cache : CacheInv cfg (taken t s.dir) := h.cache.congr taken_dir taken_dirCache
    obtain ⟨isReply, lqe', r, hn', hr, rfl, -, -⟩ := processEvent_cases hp
    cases hn.symm.trans hn'
    have same : SameSharing s.dir (taken t s.dir) :=
      ⟨fun line => by rw [taken_dir], by unfold taken; dsimp only; split <;> rfl⟩
    suffices SameSharing (taken t s.dir) r.1 from
      ⟨fun line => (this.entries line).trans (same.entries line), this.numEvict.trans same.numEvict⟩
    have hr : processReply cfg t (taken t s.dir) lqe = .ok r := hr
    unfold processReply at hr
    cases he : (taken t s.dir).dir (cfg.lineOf lqe.address) with
    | none =>
      rw [he] at hr
      unfold serveReply reply at hr
      simp only [he, hl] at hr
      cases hr
      unfold apply
      dsimp only
      split <;> exact .of_entry rfl (by rw [he]) rfl
    | some e =>
      obtain ⟨d', effects', hc, sharing⟩ := cacheOnReply_info (t := t) cache on hl he (by
        rw [taken_dir] at he
        rw [taken_dir, taken_dirCache]
        exact listed true lqe hn hl e he)
      rw [he, hl] at hr
      simp only [throughCache, if_true, hc] at hr
      cases hr
      exact sharing

/-- As long as held requests are spared, information for evictions finds its entry listed and no
request that waits for information needs an L2, information meets the request it was read for. -/
theorem infoMeets_of_spared (on : cfg.hasDirectoryCache = true) {feeds : List (Feed C)}
    (hm : Meeting cfg (fun s lqe => s.SparesHeld cfg lqe ∧ s.FindsListed cfg lqe ∧
      s.SparesAddress cfg lqe) {}
      (feeds ++ [.tick t]))
    (hr : run cfg {} feeds = .ok s) : InfoMeets cfg t s := by
  obtain ⟨before, last⟩ := meeting_append.mp hm
  exact (infoInv_run on (fun _ _ h => h.1) infoInv_init before hr).meets on
    (fun isReply lqe hn => ((last s hr).1 t isReply lqe rfl hn).2.1)
    fun isReply lqe hn => ((last s hr).1 t isReply lqe rfl hn).2.2

/-- Line 1 is fetched for an eviction and then for a write of the L2 that has it. -/
def upgraded : List (Feed Nat) :=
  read 1 1 0 ++ fill 1 1 10 ++ read 1 2 20 ++ fill 1 2 30 ++ evict 1 1 40 ++ read 1 1 50 ++
    fill 1 1 60 ++ read 1 3 70 ++ fill 1 3 80 ++ write 1 1 90 ++ answer 100 ++ [.answer 110 0]

theorem upgraded_infoMeets : ∃ s lqe, run oneWay {} upgraded = .ok s ∧
    next 110 s.dir = some (false, lqe) ∧ lqe.type = .rdDirInfoReq ∧ InfoMeets oneWay 110 s := by
  have ends : Meets (fun _ => False) (fun s : Station Nat =>
      ∃ n ∈ next 110 s.dir, n.1 = false ∧ n.2.type = .rdDirInfoReq) (run oneWay {} upgraded) := by
    decide +kernel
  obtain ⟨s, hr, ⟨isReply, lqe⟩, hn, isRequest, hl⟩ := ends.result
  cases (isRequest : isReply = false)
  have spared : @decide _ (decideMeeting oneWay
      (fun s lqe => s.SparesHeld oneWay lqe ∧ s.FindsListed oneWay lqe ∧ s.SparesAddress oneWay lqe)
      (upgraded ++ [.tick 110]) {}) = true := by decide +kernel
  exact ⟨s, lqe, hr, hn, hl, infoMeets_of_spared rfl (@of_decide_eq_true _ (_) spared) hr⟩

/-- A read of another L2, which waits for the information, is not served. -/
example : Meets (fun _ => False) (fun s : Station Nat =>
    Meets (fun a => a = .undefined) (fun _ => False) (processEvent oneWay 110 s.dir))
    (run oneWay {} (crossed ++ [.answer 110 0])) := by decide +kernel

theorem lost_not_infoMeets :
    ¬ ∀ feeds t s, run oneWay {} feeds = .ok s → InfoMeets oneWay t s := by
  intro all
  have ends : Meets (fun _ => False) (fun s : Station Nat =>
      ∃ n ∈ next 120 s.dir, n.1 = false ∧ n.2.type = .rdDirInfoReq ∧
        s.dir.dir (oneWay.lineOf n.2.address) = none)
      (run oneWay {} (lost ++ [.answer 120 0])) := by decide +kernel
  obtain ⟨s, hr, ⟨isReply, lqe⟩, hn, isRequest, hl, gone⟩ := ends.result
  cases (isRequest : isReply = false)
  obtain ⟨p, awaited, -⟩ := (all _ 120 s hr).request lqe hn hl
  obtain ⟨e, he, -⟩ := awaited.entry
  cases gone.symm.trans he

end

end Station

namespace Directory

open Contract Station

variable [LinearOrder C] {cfg : DirConfig C} {s s' : Directory C} {t : Nat} {lqe : Lqe C}

/-- Processing `lqe` has put its line in the place of `v`. -/
structure Displaces (cfg : DirConfig C) (s s' : Directory C) (lqe : Lqe C) (v : Nat) : Prop where
  listed : v ∈ s.dirCache (cfg.lineOf lqe.address % cfg.numSets)
  gone : v ∉ s'.dirCache (cfg.lineOf lqe.address % cfg.numSets)
  other : v ≠ cfg.lineOf lqe.address

/-- One `et_dir_evict` of `v` goes to the memory, and is counted. -/
def WritesBack (cfg : DirConfig C) (s s' : Directory C) (effects : Effects C) (v : Nat) : Prop :=
  effects.calls.countP (fun call => call.kind = .req ∧ call.callee = cfg.memoryController ∧
    call.lqe.type = .dirEvict ∧ call.lqe.address = v <<< cfg.setLsb) = 1 ∧
  s'.stats.numDirEvict = s.stats.numDirEvict + 1

def secondRead : List (Feed Nat) :=
  read 1 1 0 ++ fill 1 1 10 ++
    [.request 20 ⟨{ path := [1], type := .read, address := 2 <<< 6 }, rfl⟩]

theorem secondRead_displaces : ∃ s isReply lqe s' effects, run oneWay {} secondRead = .ok s ∧
    next 20 s.dir = some (isReply, lqe) ∧ processEvent oneWay 20 s.dir = .ok (s', effects) ∧
    Displaces oneWay s.dir s' lqe 1 ∧
    effects.calls.countP (fun call => call.kind = .req ∧ call.callee = oneWay.memoryController ∧
      call.lqe.type = .dirEvict ∧ call.lqe.address = 1 <<< oneWay.setLsb) = 0 := by
  have ends : Meets (fun _ => False) (fun s : Station Nat =>
      (∃ n ∈ next 20 s.dir, oneWay.lineOf n.2.address = 2) ∧ 1 ∈ s.dir.dirCache 0 ∧
      Meets (fun _ => False) (fun r => 1 ∉ r.1.dirCache 0 ∧
        r.2.calls.countP (fun call => call.kind = .req ∧ call.callee = oneWay.memoryController ∧
          call.lqe.type = .dirEvict ∧ call.lqe.address = 1 <<< oneWay.setLsb) = 0)
        (processEvent oneWay 20 s.dir)) (run oneWay {} secondRead) := by decide +kernel
  obtain ⟨s, hr, ⟨⟨isReply, lqe⟩, hn, line⟩, mem, second⟩ := ends.result
  obtain ⟨⟨s', effects⟩, hp, gone, zero⟩ := second.result
  have line : oneWay.lineOf lqe.address = 2 := line
  refine ⟨s, isReply, lqe, s', effects, hr, hn, hp, ⟨?_, ?_, ?_⟩, zero⟩
  · rw [line]
    exact mem
  · rw [line]
    exact gone
  · rw [line]
    decide

/-- No message that displaces a key names it to the memory. -/
theorem displaced_unnamed {effects : Effects C} {isReply : Bool} {v : Nat}
    (hn : next t s = some (isReply, lqe)) (hp : processEvent cfg t s = .ok (s', effects))
    (hd : Displaces cfg s s' lqe v) : ¬ WritesBack cfg s s' effects v := by
  rintro ⟨one, -⟩
  obtain ⟨isReply', lqe', r, hn', hr, -, hc, -⟩ := processEvent_cases hp
  cases hn.symm.trans hn'
  have pos : 0 < effects.calls.countP (fun call => call.kind = .req ∧
      call.callee = cfg.memoryController ∧ call.lqe.type = .dirEvict ∧
      call.lqe.address = v <<< cfg.setLsb) := by omega
  obtain ⟨call, mem, hcall⟩ := List.countP_pos_iff.mp pos
  obtain ⟨hk, -, ht, ha⟩ := decide_eq_true_iff.mp hcall
  have named := (process_incoming isReply).of_ok hr call (hc ▸ mem) hk ht
  refine hd.other ?_
  have same : cfg.lineOf (v <<< cfg.setLsb) = v := Nat.shiftLeft_shiftRight v cfg.setLsb
  rw [← same, ← ha, named]

theorem secondRead_unnamed : ∃ s s' effects, run oneWay {} secondRead = .ok s ∧
    processEvent oneWay 20 s.dir = .ok (s', effects) ∧ ¬ WritesBack oneWay s.dir s' effects 1 := by
  obtain ⟨s, isReply, lqe, s', effects, hr, hn, hp, displaces, -⟩ := secondRead_displaces
  exact ⟨s, s', effects, hr, hp, displaced_unnamed hn hp displaces⟩

theorem secondRead_not_written_back : ¬ ∀ feeds s t isReply lqe s' effects v,
    run oneWay {} feeds = .ok s → next t s.dir = some (isReply, lqe) →
      processEvent oneWay t s.dir = .ok (s', effects) → Displaces oneWay s.dir s' lqe v →
        WritesBack oneWay s.dir s' effects v := by
  intro all
  obtain ⟨s, isReply, lqe, s', effects, hr, hn, hp, displaces, zero⟩ := secondRead_displaces
  have one := (all _ s 20 isReply lqe s' effects 1 hr hn hp displaces).1
  exact absurd (zero.symm.trans one) (by decide)

end Directory
end McSim
