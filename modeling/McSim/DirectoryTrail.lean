import McSim.DirectoryRun

/-! The modified copy of a line on its way between the directory and an L2.
The trail of an L2 is what lies between it and the directory about one line, the oldest first: what
the directory has put back, what the L2 has sent up, the copy it has modified, the demands it has
yet to answer and what is on the way down. A modified copy leads its trail, and its L2 is then the
one sharer of an entry that is modified or is leaving that state. -/

namespace McSim.Net

open Directory

variable {C : Type}

/-- What counts on a trail: the modified copy, and a demand that has not been answered. -/
inductive Mark
  | copy | demand
deriving DecidableEq

def downMark (cfg : DirConfig C) (line : Nat) (lqe : Lqe C) : Option Mark :=
  if cfg.lineOf lqe.address ≠ line then none
  else if lqe.type = .write then some .copy
  else if (demandOf lqe.type).isSome then some .demand
  else none

/-- On the way up an `et_evict` may be the copy; `et_e_to_m` is the word of an L2 that has it. -/
def upMark (cfg : DirConfig C) (line : Nat) (lqe : Lqe C) : Option Mark :=
  if cfg.lineOf lqe.address ≠ line then none
  else if lqe.type = .evict then if lqe.serial.isSome then some .copy else none
  else if (demandOf lqe.type).isSome ∧ lqe.type ≠ .eToM then some .demand
  else none

def flagMark (modified : Bool) : List Mark := if modified then [.copy] else []

/-- No modified copy comes after anything else. -/
def Leads (marks : List Mark) : Prop := Mark.copy ∉ marks.tail

/-- Demands that an L2 answers without data, whether it holds the line or not. -/
def Dataless (type : EventType) : Prop := (demandOf type).isSome = true ∧ carriesData type = false

def Lent (type : CoherenceState) : Prop := type = .modified ∨ type = .mToS ∨ type = .trToM

theorem Leads.of_notMem {marks : List Mark} (h : Mark.copy ∉ marks) : Leads marks :=
  fun hm => h (List.mem_of_mem_tail hm)

theorem Leads.append {a b : List Mark} (h : Leads a) (hb : Mark.copy ∉ b) : Leads (a ++ b) := by
  cases a with
  | nil => exact .of_notMem hb
  | cons x a =>
    intro hm
    rcases List.mem_append.mp hm with hm | hm
    · exact h hm
    · exact hb hm

theorem Leads.before {a b : List Mark} (h : Leads (a ++ .copy :: b)) : a = [] := by
  cases a with
  | nil => rfl
  | cons x a => exact absurd (List.mem_append_right a List.mem_cons_self) h

theorem Leads.after {a b : List Mark} {x : Mark} (h : Leads (a ++ x :: b)) : Mark.copy ∉ b := by
  intro hm
  refine h ?_
  cases a with
  | nil => exact hm
  | cons y a => exact List.mem_append_right a (List.mem_cons_of_mem x hm)

theorem Leads.left {a b : List Mark} (h : Leads (a ++ b)) : Leads a := by
  cases a with
  | nil => simp [Leads]
  | cons x a => exact fun hm => h (List.mem_append_left b hm)

theorem Leads.suffix {a b : List Mark} (h : Leads b) (hs : a <:+ b) : Leads a := by
  obtain ⟨front, rfl⟩ := hs
  cases front with
  | nil => exact h
  | cons x front => exact .of_notMem fun hm => h (List.mem_append_right front hm)

variable {cfg : DirConfig C} {s : Net C} {line : Nat} {lqe : Lqe C} {c : C}

theorem downMark_eq_copy :
    downMark cfg line lqe = some .copy ↔ cfg.lineOf lqe.address = line ∧ lqe.type = .write := by
  unfold downMark
  split
  · simp_all
  · split
    · simp_all
    · split <;> simp_all

theorem downMark_eq_demand : downMark cfg line lqe = some .demand ↔
    cfg.lineOf lqe.address = line ∧ (demandOf lqe.type).isSome = true := by
  unfold downMark
  split
  · simp_all
  · split
    · simp_all [demandOf]
    · split <;> simp_all

theorem upMark_eq_copy : upMark cfg line lqe = some .copy ↔
    cfg.lineOf lqe.address = line ∧ lqe.type = .evict ∧ lqe.serial.isSome = true := by
  unfold upMark
  split
  · simp_all
  · split
    · split <;> simp_all
    · split <;> simp_all

theorem upMark_eq_demand : upMark cfg line lqe = some .demand ↔
    cfg.lineOf lqe.address = line ∧ (demandOf lqe.type).isSome = true ∧ lqe.type ≠ .eToM := by
  unfold upMark
  split
  · simp_all
  · split
    · split <;> simp_all [demandOf]
    · split <;> grind

theorem downMark_other (h : cfg.lineOf lqe.address ≠ line) :
    downMark cfg line lqe = none := if_pos h

theorem upMark_other (h : cfg.lineOf lqe.address ≠ line) : upMark cfg line lqe = none := if_pos h

variable [LinearOrder C]

def putBack (s : Net C) (c : C) : List (Lqe C) :=
  (s.dir.repEvent.map (·.2)).filter fun lqe => lqe.path.head? = some c

def up (s : Net C) (c : C) : List (Lqe C) := s.putBack c ++ s.repUp c

def trail (cfg : DirConfig C) (s : Net C) (line : Nat) (c : C) : List Mark :=
  (s.up c).filterMap (upMark cfg line) ++ (flagMark (s.modified c line) ++
    ((s.todo c).filterMap (downMark cfg line) ++ (s.down c).filterMap (downMark cfg line)))

/-- What holds of the messages about one line. -/
structure Tracked (cfg : DirConfig C) (s : Net C) (line : Nat) : Prop where
  leads : ∀ c, Leads (trail cfg s line c)
  owner : ∀ c, Mark.copy ∈ trail cfg s line c → reads cfg s line = 0 ∧
    ∃ e, s.dir.dir line = some e ∧ e.sharedL2 = {c} ∧ Lent e.type
  dataless : ∀ c, ∀ lqe ∈ s.todo c ++ s.down c, cfg.lineOf lqe.address = line →
    Dataless lqe.type → Mark.copy ∉ trail cfg s line c
  declined : ∀ c, ∀ lqe ∈ s.repUp c, cfg.lineOf lqe.address = line → lqe.type = .eToI →
    Mark.copy ∉ trail cfg s line c
  upgrader : ∀ c, ∀ lqe ∈ s.owed c, about cfg line .upgrade lqe = true →
    ∀ e, s.dir.dir line = some e → e.sharedL2 = {c}
  reader : ∀ lqe ∈ s.mc, cfg.lineOf lqe.address = line → ∀ e, s.dir.dir line = some e →
    ∃ c' c path, lqe.path = c' :: c :: path ∧ e.sharedL2 = {c}

theorem copy_mem_trail : Mark.copy ∈ trail cfg s line c ↔
    (∃ lqe ∈ s.up c, cfg.lineOf lqe.address = line ∧ lqe.type = .evict ∧ lqe.serial.isSome = true) ∨
    s.modified c line = true ∨ ∃ lqe ∈ s.todo c ++ s.down c, cfg.lineOf lqe.address = line ∧
      lqe.type = .write := by
  have flag : Mark.copy ∈ flagMark (s.modified c line) ↔ s.modified c line = true := by
    cases s.modified c line <;> simp [flagMark]
  simp only [trail, List.mem_append, List.mem_filterMap, upMark_eq_copy, downMark_eq_copy, flag]
  grind

/-- What has been put back is no answer to a demand. -/
def Harmless (s : Net C) : Prop := ∀ c, ∀ m ∈ s.putBack c, demandOf m.type = none

theorem CacheKept.harmless (h : CacheKept cfg s) : Harmless s := by
  intro c lqe hm
  obtain ⟨x, hx, rfl⟩ := List.mem_map.mp (List.mem_filter.mp hm).1
  rcases h.putBack x hx with ⟨ht, -⟩ | ⟨ht, -⟩ <;> rw [ht] <;> rfl

theorem up_congr {s' : Net C} (hdir : s'.dir = s.dir) (hrep : s'.repUp c = s.repUp c) :
    s'.up c = s.up c := by
  simp only [up, putBack, hdir, hrep]

theorem trail_congr {s' : Net C} (hup : s'.up c = s.up c)
    (hmod : s'.modified c line = s.modified c line) (htodo : s'.todo c = s.todo c)
    (hdown : s'.down c = s.down c) : trail cfg s' line c = trail cfg s line c := by
  simp only [trail, hup, hmod, htodo, hdown]

/-- A step that moves messages along their trails or takes the first of one, and sends up at most
what is no upgrade. -/
theorem Tracked.moved {s' : Net C} (h : Tracked cfg s line)
    (hdir : s'.dir.dir line = s.dir.dir line) (hreads : reads cfg s' line ≤ reads cfg s line)
    (hmc : ∀ m ∈ s'.mc, cfg.lineOf m.address = line → m ∈ s.mc)
    (htrail : ∀ a, trail cfg s' line a <:+ trail cfg s line a)
    (hbelow : ∀ a, ∀ m ∈ s'.todo a ++ s'.down a, cfg.lineOf m.address = line →
      m ∈ s.todo a ++ s.down a)
    (habove : ∀ a, ∀ m ∈ s'.repUp a, cfg.lineOf m.address = line → m ∈ s.repUp a ∨
      m.type = .evict) :
    Tracked cfg s' line where
  leads a := (h.leads a).suffix (htrail a)
  owner a ha := by
    obtain ⟨hr, he⟩ := h.owner a ((htrail a).mem ha)
    exact ⟨by omega, hdir ▸ he⟩
  dataless a m hmem hl ht hc := h.dataless a m (hbelow a m hmem hl) hl ht ((htrail a).mem hc)
  declined a m hmem hl ht hc := by
    rcases habove a m hmem hl with hmem | he
    · exact h.declined a m hmem hl ht ((htrail a).mem hc)
    · cases ht.symm.trans he
  upgrader a m hmem hab e he := by
    have hl : cfg.lineOf m.address = line := (of_decide_eq_true hab).2
    refine h.upgrader a m ?_ hab e (hdir ▸ he)
    have below := fun hm => hbelow a m hm hl
    simp only [owed, List.mem_append] at hmem below ⊢
    rcases hmem with hmem | hmem
    · rcases below hmem.symm with hmem | hmem
      · exact .inl (.inr hmem)
      · exact .inl (.inl hmem)
    · rcases habove a m hmem hl with hmem | hev
      · exact .inr hmem
      · simp [about, hev, demandOf] at hab
  reader m hmem hl e he := h.reader m (hmc m hmem hl) hl e (hdir ▸ he)

omit [LinearOrder C] in
theorem todo_split {i : Nat} (hi : (s.todo c)[i]? = some lqe) : ∃ before after,
    s.todo c = before ++ lqe :: after ∧ (s.todo c).eraseIdx i = before ++ after := by
  obtain ⟨hlt, hget⟩ := List.getElem?_eq_some_iff.mp hi
  refine ⟨(s.todo c).take i, (s.todo c).drop (i + 1), ?_, List.eraseIdx_eq_take_drop_succ _ _⟩
  rw [← hget, List.cons_getElem_drop_succ, List.take_append_drop]

def leftBelow (cfg : DirConfig C) (s : Net C) (line : Nat) (c : C) (before after : List (Lqe C)) :
    List Mark :=
  (before ++ after).filterMap (downMark cfg line) ++ (s.down c).filterMap (downMark cfg line)

theorem trail_split {before after : List (Lqe C)} (hsplit : s.todo c = before ++ lqe :: after)
    (hdem : (demandOf lqe.type).isSome = true) :
    trail cfg s (cfg.lineOf lqe.address) c =
      ((s.up c).filterMap (upMark cfg (cfg.lineOf lqe.address)) ++
      flagMark (s.modified c (cfg.lineOf lqe.address)) ++
      before.filterMap (downMark cfg (cfg.lineOf lqe.address))) ++ .demand ::
      (after.filterMap (downMark cfg (cfg.lineOf lqe.address)) ++
        (s.down c).filterMap (downMark cfg (cfg.lineOf lqe.address))) := by
  have mark : downMark cfg (cfg.lineOf lqe.address) lqe = some .demand :=
    downMark_eq_demand.mpr ⟨rfl, hdem⟩
  simp only [trail, hsplit, List.filterMap_append, List.filterMap_cons_some mark, List.append_assoc,
    List.cons_append]

theorem copy_notMem_leftBelow {before after : List (Lqe C)}
    (h : Leads (trail cfg s (cfg.lineOf lqe.address) c)) (hsplit : s.todo c =
      before ++ lqe :: after) (hdem : ∀ m ∈ s.todo c, (demandOf m.type).isSome = true) :
    Mark.copy ∉ leftBelow cfg s (cfg.lineOf lqe.address) c before after := by
  rw [trail_split hsplit (hdem lqe (by simp [hsplit]))] at h
  have behind := h.after
  have ahead : Mark.copy ∉ before.filterMap (downMark cfg (cfg.lineOf lqe.address)) := by
    intro hm
    obtain ⟨m, hm, hc⟩ := List.mem_filterMap.mp hm
    have hw := (downMark_eq_copy.mp hc).2
    have hd := hdem m (by simp [hsplit, hm])
    simp [hw, demandOf] at hd
  rw [List.mem_append] at behind
  simp only [leftBelow, List.filterMap_append, List.mem_append]
  rintro ((hm | hm) | hm)
  · exact ahead hm
  · exact behind (.inl hm)
  · exact behind (.inr hm)

omit [LinearOrder C] in
theorem demandOf_of_load (h : load cfg s line = 0) (hm : lqe ∈ s.owed c)
    (hl : cfg.lineOf lqe.address = line) :
    demandOf lqe.type = none := by
  cases hd : demandOf lqe.type with
  | none => rfl
  | some d =>
    have pos : 0 < load cfg s line d c := List.countP_pos_iff.mpr ⟨lqe, hm, by simp [about, hd, hl]⟩
    simp [h] at pos

theorem trail_of_load (hk : Harmless s) (h : load cfg s line = 0)
    (hcopy : Mark.copy ∉ trail cfg s line c) : trail cfg s line c = [] := by
  refine List.eq_nil_iff_forall_not_mem.mpr fun mark hm => ?_
  cases mark with
  | copy => exact hcopy hm
  | demand =>
    simp only [trail, up, List.mem_append, List.mem_filterMap] at hm
    rcases hm with ⟨m, hm | hm, hmark⟩ | hm | ⟨m, hm, hmark⟩ | ⟨m, hm, hmark⟩
    · obtain ⟨-, hsome, -⟩ := upMark_eq_demand.mp hmark
      simp [hk c m hm] at hsome
    · obtain ⟨hl, hsome, -⟩ := upMark_eq_demand.mp hmark
      simp [demandOf_of_load h (show m ∈ s.owed c by simp [owed, hm]) hl] at hsome
    · cases hf : s.modified c line <;> simp [hf, flagMark] at hm
    · obtain ⟨hl, hsome⟩ := downMark_eq_demand.mp hmark
      simp [demandOf_of_load h (show m ∈ s.owed c by simp [owed, hm]) hl] at hsome
    · obtain ⟨hl, hsome⟩ := downMark_eq_demand.mp hmark
      simp [demandOf_of_load h (show m ∈ s.owed c by simp [owed, hm]) hl] at hsome

theorem setFlag_same (f : C → Nat → Bool) (b : Bool) : setFlag f c line b c line = b := by
  simp [setFlag]

theorem setFlag_other (f : C → Nat → Bool) (b : Bool) {a : C} {line' : Nat}
    (h : ¬ (a = c ∧ line' = line)) :
    setFlag f c line b a line' = f a line' := by
  simp only [setFlag, if_neg h]

theorem receive_modified (cfg : DirConfig C) (s : Net C) (c : C) (lqe : Lqe C)
    (rest : List (Lqe C)) :
    (s.receive cfg c lqe rest).modified =
      if lqe.type = .write then setFlag s.modified c (cfg.lineOf lqe.address) true
        else s.modified := by
  unfold receive
  dsimp only
  split
  · rfl
  · rename_i hg
    have no : lqe.type ≠ .write := fun h => by simp [isGrant, h] at hg
    rw [if_neg no]
    split <;> rfl

theorem trail_receive (hl : Leads (trail cfg s line c)) {rest : List (Lqe C)}
    (hdown : s.down c = lqe :: rest) (a : C) :
      trail cfg (s.receive cfg c lqe rest) line a = trail cfg s line a := by
  obtain ⟨hdir, -, -, hrep, hdown', htodo⟩ := receive_fixed cfg s c lqe rest
  have hup : ∀ b, (s.receive cfg c lqe rest).up b = s.up b :=
    fun b => up_congr hdir (congrFun hrep b)
  have hmod := receive_modified cfg s c lqe rest
  by_cases ha : a = c
  · subst ha
    by_cases hw : cfg.lineOf lqe.address = line ∧ lqe.type = .write
    · obtain ⟨rfl, hw⟩ := hw
      have copy : downMark cfg (cfg.lineOf lqe.address) lqe = some .copy :=
        downMark_eq_copy.mpr ⟨rfl, hw⟩
      have noDemand : ¬ (demandOf lqe.type).isSome = true := by simp [hw, demandOf]
      rw [if_neg noDemand] at htodo
      rw [if_pos hw] at hmod
      simp only [trail, hdown, List.filterMap_cons_some copy] at hl
      rw [← List.append_assoc, ← List.append_assoc] at hl
      obtain ⟨hab, ht⟩ := List.append_eq_nil_iff.mp hl.before
      obtain ⟨hu, hf⟩ := List.append_eq_nil_iff.mp hab
      simp only [trail, hup, htodo, hmod, setFlag_same, hdown, hdown', Function.update_self,
        List.filterMap_cons_some copy, hu, hf, ht]
      rfl
    · have same : (s.receive cfg a lqe rest).modified a line = s.modified a line := by
        rw [hmod]
        split
        · rename_i hw'
          exact setFlag_other _ _ fun h => hw ⟨h.2.symm, hw'⟩
        · rfl
      simp only [trail, hup, same, hdown', Function.update_self, hdown]
      by_cases hd : (demandOf lqe.type).isSome = true
      · rw [htodo, if_pos hd, Function.update_self]
        simp only [List.filterMap_append, List.filterMap_cons, List.filterMap_nil,
          List.append_assoc]
        split <;> simp
      · have none : downMark cfg line lqe = none := by
          cases hm : downMark cfg line lqe with
          | none => rfl
          | some m =>
            cases m with
            | copy => exact absurd (downMark_eq_copy.mp hm) hw
            | demand => exact absurd (downMark_eq_demand.mp hm).2 hd
        rw [htodo, if_neg hd, List.filterMap_cons_none none]
  · refine trail_congr (hup a) ?_ ?_ (by rw [hdown', Function.update_of_ne ha])
    · rw [hmod]
      split
      · exact setFlag_other _ _ fun h => ha h.1
      · rfl
    · rw [htodo]
      split
      · exact Function.update_of_ne ha _ _
      · rfl

theorem Tracked.receive (h : Tracked cfg s line) {rest : List (Lqe C)}
    (hdown : s.down c = lqe :: rest) :
    Tracked cfg (s.receive cfg c lqe rest) line := by
  obtain ⟨hdir, hmc, -, hrep, hdown', htodo⟩ := receive_fixed cfg s c lqe rest
  have hreads : reads cfg (s.receive cfg c lqe rest) line = reads cfg s line := by
    rw [reads, hmc, reads]
  refine h.moved (by rw [hdir]) hreads.le (fun m hm _ => hmc ▸ hm)
    (fun a => (trail_receive (h.leads c) hdown a) ▸ List.suffix_rfl) (fun a lqe' hmem _ => ?_)
    fun a lqe' hmem _ => .inl (hrep ▸ hmem)
  rw [hdown', htodo] at hmem
  by_cases ha : a = c
  · subst ha
    rw [hdown]
    simp only [Function.update_self, List.mem_append, List.mem_cons] at hmem ⊢
    split at hmem
    · simp only [Function.update_self, List.mem_append, List.mem_singleton] at hmem
      grind
    · grind
  · simp only [Function.update_of_ne ha] at hmem
    split at hmem
    · simpa only [Function.update_of_ne ha] using hmem
    · exact hmem

theorem trail_evict (ht : lqe.type = .evict) (a : C) :
    trail cfg (s.evict cfg c lqe) line a = trail cfg s line a := by
  by_cases ha : a = c
  · subst ha
    have rep : (s.evict cfg a lqe).repUp a = s.repUp a ++
        [{ lqe with serial := if s.modified a (cfg.lineOf lqe.address) then some s.senders.length
            else none }] :=
      Function.update_self ..
    have back : (s.evict cfg a lqe).putBack a = s.putBack a := rfl
    have mod : (s.evict cfg a lqe).modified = setFlag s.modified a (cfg.lineOf lqe.address) false :=
      rfl
    have below : (s.evict cfg a lqe).todo = s.todo ∧ (s.evict cfg a lqe).down = s.down := ⟨rfl, rfl⟩
    simp only [trail, up, back, rep, below, List.filterMap_append, List.append_assoc]
    congr 2
    by_cases hline : cfg.lineOf lqe.address = line
    · subst hline
      rw [mod, setFlag_same]
      cases hm : s.modified a (cfg.lineOf lqe.address) <;> simp [upMark, ht, flagMark]
    · have passed : ∀ serial, upMark cfg line { lqe with serial } = none := fun _ => if_pos hline
      rw [mod, setFlag_other _ _ fun h => hline h.2.symm]
      simp only [List.filterMap_cons, passed, List.filterMap_nil, List.nil_append]
  · exact trail_congr (up_congr rfl (Function.update_of_ne ha _ _))
      (setFlag_other _ _ fun h => ha h.1) rfl rfl

theorem Tracked.evict (h : Tracked cfg s line) (ht : lqe.type = .evict) :
    Tracked cfg (s.evict cfg c lqe) line := by
  have same : ∀ a, trail cfg (s.evict cfg c lqe) line a = trail cfg s line a := trail_evict ht
  refine h.moved rfl le_rfl (fun _ hm _ => hm) (fun a => same a ▸ List.suffix_rfl)
    (fun _ _ hmem _ => hmem) fun a lqe' hmem _ => ?_
  have up : (s.evict cfg c lqe).repUp = Function.update s.repUp c (s.repUp c ++
    [{ lqe with serial := if s.modified c (cfg.lineOf lqe.address) then some s.senders.length
        else none }]) := rfl
  rw [up] at hmem
  by_cases ha : a = c
  · subst ha
    rw [Function.update_self, List.mem_append, List.mem_singleton] at hmem
    rcases hmem with hmem | rfl
    · exact .inl hmem
    · exact .inr ht
  · rw [Function.update_of_ne ha] at hmem
    exact .inl hmem

theorem alone_of_upgrade (h : Inv cfg s) {before after : List (Lqe C)}
    (hsplit : s.todo c = before ++ lqe :: after) (hd : demandOf lqe.type = some .upgrade) :
    ∀ m ∈ s.repUp c ++ (before ++ after) ++ s.down c, cfg.lineOf m.address =
      cfg.lineOf lqe.address →
      demandOf m.type = none := by
  intro m hm hl
  have one : ∀ d, load cfg s (cfg.lineOf lqe.address) d c =
      (s.repUp c ++ (before ++ after) ++ s.down c).countP (about cfg (cfg.lineOf lqe.address) d) +
        single .upgrade c d c := by
    intro d
    simp only [load, owed, hsplit, List.countP_append, List.countP_cons, about, hd,
      Option.some.injEq, and_true, single, decide_eq_true_eq]
    omega
  have waits : 1 ≤ load cfg s (cfg.lineOf lqe.address) .upgrade c := by
    rw [one, single_self]
    omega
  obtain ⟨e, -, -, -, hload, -⟩ := (h.lines _).phase.of_upgrade waits
  cases hdm : demandOf m.type with
  | none => rfl
  | some d =>
    have none := one d
    rw [hload] at none
    have here := List.countP_pos_iff.mpr ⟨m, hm,
      show about cfg (cfg.lineOf lqe.address) d m = true by
      simp [about, hdm, hl]⟩
    omega

omit [LinearOrder C] in
theorem answerOf_carries (h : carriesData lqe.type = true) :
    carriesData (answerOf c true lqe).type = true := by
  unfold answerOf
  split <;> simp_all [carriesData]

omit [LinearOrder C] in
theorem dataless_of_upgrade (h : demandOf lqe.type = some .upgrade) : Dataless lqe.type := by
  cases ht : lqe.type <;> simp_all [demandOf, Dataless, carriesData]

theorem answer_modified (h : Tracked cfg s (cfg.lineOf lqe.address)) (hmem : lqe ∈ s.todo c)
    (hdem : (demandOf lqe.type).isSome = true)
    (hok : s.modified c (cfg.lineOf lqe.address) = true → s.holds c (cfg.lineOf lqe.address) = true)
    {i : Nat} (ht : (answerOf c (s.holds c (cfg.lineOf lqe.address)) lqe).type ≠ .eToM) :
    (s.answer cfg c i lqe).modified c (cfg.lineOf lqe.address) = false := by
  have mod : (s.answer cfg c i lqe).modified =
      if (answerOf c (s.holds c (cfg.lineOf lqe.address)) lqe).type = .eToM then
        setFlag s.modified c (cfg.lineOf lqe.address) true
      else if carriesData (answerOf c (s.holds c (cfg.lineOf lqe.address)) lqe).type then
        setFlag s.modified c (cfg.lineOf lqe.address) false
      else s.modified := rfl
  rw [mod, if_neg ht]
  split
  · exact setFlag_same _ _
  · rename_i hno
    cases hm : s.modified c (cfg.lineOf lqe.address) with
    | false => rfl
    | true =>
      have onTrail : Mark.copy ∈ trail cfg s (cfg.lineOf lqe.address) c :=
        copy_mem_trail.mpr (.inr (.inl hm))
      cases hc : carriesData lqe.type with
      | true =>
        rw [hok hm] at hno
        exact absurd (answerOf_carries hc) hno
      | false =>
        exact absurd onTrail (h.dataless c lqe (List.mem_append_left _ hmem) rfl ⟨hdem, hc⟩)

theorem trail_answer (h : Tracked cfg s (cfg.lineOf lqe.address)) (hi : Inv cfg s)
    (hk : CacheKept cfg s) {i : Nat} {before after : List (Lqe C)}
    (hsplit : s.todo c = before ++ lqe :: after) (herase : (s.todo c).eraseIdx i = before ++ after)
    (hok : s.modified c (cfg.lineOf lqe.address) = true →
      s.holds c (cfg.lineOf lqe.address) = true) :
    trail cfg (s.answer cfg c i lqe) (cfg.lineOf lqe.address) c =
      if (answerOf c (s.holds c (cfg.lineOf lqe.address)) lqe).type = .eToM then
        .copy :: leftBelow cfg s (cfg.lineOf lqe.address) c before after
      else (s.up c).filterMap (upMark cfg (cfg.lineOf lqe.address)) ++
        .demand :: leftBelow cfg s (cfg.lineOf lqe.address) c before after := by
  have hmem : lqe ∈ s.todo c := by simp [hsplit]
  have hdem := hi.wellFormed.demands c lqe hmem
  obtain ⟨haddress, -, -⟩ := answerOf_fixed c (s.holds c (cfg.lineOf lqe.address)) lqe
  have htype := demandOf_answerOf c (s.holds c (cfg.lineOf lqe.address)) lqe
  have rep : (s.answer cfg c i lqe).up c =
      s.up c ++ [answerOf c (s.holds c (cfg.lineOf lqe.address)) lqe] := by
    have appended : (s.answer cfg c i lqe).repUp c =
      s.repUp c ++ [answerOf c (s.holds c (cfg.lineOf lqe.address)) lqe] := Function.update_self ..
    rw [up, up, appended, ← List.append_assoc]
    rfl
  have todo : (s.answer cfg c i lqe).todo c = before ++ after :=
    (Function.update_self ..).trans herase
  have down : (s.answer cfg c i lqe).down = s.down := rfl
  simp only [trail, rep, todo, down, List.filterMap_append, List.append_assoc]
  by_cases ht : (answerOf c (s.holds c (cfg.lineOf lqe.address)) lqe).type = .eToM
  · have hd : demandOf lqe.type = some .upgrade := by rw [← htype, ht]; rfl
    have alone := alone_of_upgrade hi hsplit hd
    have silent : upMark cfg (cfg.lineOf lqe.address)
        (answerOf c (s.holds c (cfg.lineOf lqe.address)) lqe) = none := by
      simp [upMark, haddress, ht]
    have empty : (s.up c).filterMap (upMark cfg (cfg.lineOf lqe.address)) = [] := by
      refine List.filterMap_eq_nil_iff.mpr fun m hm => ?_
      cases hmark : upMark cfg (cfg.lineOf lqe.address) m with
      | none => rfl
      | some mark =>
        cases mark with
        | copy =>
          refine absurd ?_ (h.dataless c lqe (List.mem_append_left _ hmem) rfl
            (dataless_of_upgrade hd))
          exact copy_mem_trail.mpr (.inl ⟨m, hm, upMark_eq_copy.mp hmark⟩)
        | demand =>
          obtain ⟨hl, hsome, -⟩ := upMark_eq_demand.mp hmark
          rcases List.mem_append.mp hm with hm | hm
          · simp [hk.harmless c m hm] at hsome
          · simp [alone m (by simp [hm]) hl] at hsome
    have mod : (s.answer cfg c i lqe).modified c (cfg.lineOf lqe.address) = true := by
      simp only [answer, ht, if_true, setFlag_same]
    simp only [if_pos ht, mod, empty, List.filterMap_cons_none silent, leftBelow,
      List.filterMap_append, List.append_assoc]
    rfl
  · have mark : upMark cfg (cfg.lineOf lqe.address)
        (answerOf c (s.holds c (cfg.lineOf lqe.address)) lqe) = some .demand := by
      refine upMark_eq_demand.mpr ⟨by rw [haddress], ?_, ht⟩
      rw [htype]
      exact hdem
    have mod := answer_modified (i := i) h hmem hdem hok ht
    simp only [if_neg ht, mod, List.filterMap_cons_some mark, leftBelow, List.filterMap_append,
      List.append_assoc]
    rfl

theorem trail_answer_other {i : Nat} (hi : (s.todo c)[i]? = some lqe) {a : C}
    (h : ¬ (a = c ∧ line = cfg.lineOf lqe.address)) :
    trail cfg (s.answer cfg c i lqe) line a = trail cfg s line a := by
  have mod : (s.answer cfg c i lqe).modified a line = s.modified a line := by
    simp only [answer]
    split
    · exact setFlag_other _ _ h
    · split
      · exact setFlag_other _ _ h
      · rfl
  by_cases ha : a = c
  · subst ha
    have hline : cfg.lineOf lqe.address ≠ line := fun hl => h ⟨rfl, hl.symm⟩
    obtain ⟨before, after, hsplit, herase⟩ := todo_split hi
    obtain ⟨haddress, -, -⟩ := answerOf_fixed a (s.holds a (cfg.lineOf lqe.address)) lqe
    have rep : (s.answer cfg a i lqe).repUp a =
        s.repUp a ++ [answerOf a (s.holds a (cfg.lineOf lqe.address)) lqe] :=
          Function.update_self ..
    have back : (s.answer cfg a i lqe).putBack a = s.putBack a := rfl
    have todo : (s.answer cfg a i lqe).todo a = before ++ after :=
      (Function.update_self ..).trans herase
    have down : (s.answer cfg a i lqe).down = s.down := rfl
    have silent : upMark cfg line (answerOf a (s.holds a (cfg.lineOf lqe.address)) lqe) = none :=
      upMark_other (by rwa [haddress])
    simp only [trail, up, back, rep, todo, down, mod, hsplit, List.filterMap_append,
      List.filterMap_cons_none silent, List.filterMap_cons_none (downMark_other hline),
      List.filterMap_nil, List.append_nil]
  · exact trail_congr (up_congr rfl (Function.update_of_ne ha _ _)) mod
      (Function.update_of_ne ha _ _) rfl

theorem mem_todo_answer {i : Nat} {a : C} {m : Lqe C} (hm : m ∈ (s.answer cfg c i lqe).todo a) :
    m ∈ s.todo a := by
  by_cases ha : a = c
  · subst ha
    rw [show (s.answer cfg a i lqe).todo a =
      (s.todo a).eraseIdx i from Function.update_self ..] at hm
    exact List.mem_of_mem_eraseIdx hm
  · rwa [show (s.answer cfg c i lqe).todo a = s.todo a from Function.update_of_ne ha _ _] at hm

theorem mem_repUp_answer {i : Nat} {a : C} {m : Lqe C} (hm : m ∈ (s.answer cfg c i lqe).repUp a) :
    m ∈ s.repUp a ∨ a = c ∧ m = answerOf c (s.holds c (cfg.lineOf lqe.address)) lqe := by
  by_cases ha : a = c
  · subst ha
    rw [show (s.answer cfg a i lqe).repUp a =
        s.repUp a ++ [answerOf a (s.holds a (cfg.lineOf lqe.address)) lqe] from Function.update_self
          ..,
      List.mem_append, List.mem_singleton] at hm
    exact hm.imp_right fun h => ⟨rfl, h⟩
  · rw [show (s.answer cfg c i lqe).repUp a = s.repUp a from Function.update_of_ne ha _ _] at hm
    exact .inl hm

theorem copy_mem_answer (h : Tracked cfg s (cfg.lineOf lqe.address)) (hi : Inv cfg s)
    (hk : CacheKept cfg s) {i : Nat} (hget : (s.todo c)[i]? = some lqe)
    (hok : s.modified c (cfg.lineOf lqe.address) = true → s.holds c (cfg.lineOf lqe.address) = true)
    {a : C} (hm : Mark.copy ∈ trail cfg (s.answer cfg c i lqe) (cfg.lineOf lqe.address) a) :
    Mark.copy ∈ trail cfg s (cfg.lineOf lqe.address) a ∨
      a = c ∧ (answerOf c (s.holds c (cfg.lineOf lqe.address)) lqe).type = .eToM := by
  by_cases ha : a = c
  · subst ha
    by_cases ht : (answerOf a (s.holds a (cfg.lineOf lqe.address)) lqe).type = .eToM
    · exact .inr ⟨rfl, ht⟩
    · obtain ⟨before, after, hsplit, herase⟩ := todo_split hget
      rw [trail_answer h hi hk hsplit herase hok, if_neg ht] at hm
      have left := copy_notMem_leftBelow (h.leads a) hsplit (hi.wellFormed.demands a)
      rcases List.mem_append.mp hm with hm | hm
      · exact .inl (List.mem_append_left _ hm)
      · rcases List.mem_cons.mp hm with hm | hm
        · cases hm
        · exact absurd hm left
  · rw [trail_answer_other hget fun h => ha h.1] at hm
    exact .inl hm

theorem Tracked.answer_line (h : Tracked cfg s (cfg.lineOf lqe.address)) (hi : Inv cfg s)
    (hk : CacheKept cfg s) {i : Nat} (hget : (s.todo c)[i]? = some lqe)
    (hok : s.modified c (cfg.lineOf lqe.address) = true →
      s.holds c (cfg.lineOf lqe.address) = true) :
    Tracked cfg (s.answer cfg c i lqe) (cfg.lineOf lqe.address) := by
  have hmem : lqe ∈ s.todo c := List.mem_of_getElem? hget
  obtain ⟨before, after, hsplit, herase⟩ := todo_split hget
  obtain ⟨haddress, -, -⟩ := answerOf_fixed c (s.holds c (cfg.lineOf lqe.address)) lqe
  have htype := demandOf_answerOf c (s.holds c (cfg.lineOf lqe.address)) lqe
  have upgrades : (answerOf c (s.holds c (cfg.lineOf lqe.address)) lqe).type = .eToM →
      demandOf lqe.type = some .upgrade := fun ht => by rw [← htype, ht]; rfl
  -- no other message to `c` about the line is a demand
  have alone : (answerOf c (s.holds c (cfg.lineOf lqe.address)) lqe).type = .eToM →
      ∀ m, m ∈ s.repUp c ∨ m ∈ (s.answer cfg c i lqe).todo c ++ s.down c →
        cfg.lineOf m.address = cfg.lineOf lqe.address → demandOf m.type = none := by
    intro ht m hm
    refine alone_of_upgrade hi hsplit (upgrades ht) m ?_
    have todo : (s.answer cfg c i lqe).todo c = before ++ after :=
      (Function.update_self ..).trans herase
    rw [todo] at hm
    simp only [List.mem_append] at hm ⊢
    grind
  refine ⟨fun a => ?_, fun a hm => ?_, fun a m hm hl ht hcopy => ?_, fun a m hm hl ht hcopy => ?_,
    fun a m hm hab e he => ?_, h.reader⟩
  · by_cases ha : a = c
    · subst ha
      have left := copy_notMem_leftBelow (h.leads a) hsplit (hi.wellFormed.demands a)
      rw [trail_answer h hi hk hsplit herase hok]
      split
      · exact left
      · refine (h.leads a).left.append ?_
        simpa using left
    · rw [trail_answer_other hget fun h => ha h.1]
      exact h.leads a
  · rcases copy_mem_answer h hi hk hget hok hm with hm | ⟨rfl, ht⟩
    · exact h.owner a hm
    · have hab : about cfg (cfg.lineOf lqe.address) .upgrade lqe = true := by
        simp [about, upgrades ht]
      have howed : lqe ∈ s.owed a := by simp [owed, hmem]
      obtain ⟨e, he, hM, -, -, hr⟩ := (hi.lines _).phase.of_upgrade (c := a)
        (List.countP_pos_iff.mpr ⟨lqe, howed, hab⟩)
      exact ⟨hr, e, he, h.upgrader a lqe howed hab e he, .inr (.inr hM)⟩
  · have below : m ∈ s.todo a ++ s.down a := by
      rcases List.mem_append.mp hm with hm | hm
      · exact List.mem_append_left _ (mem_todo_answer hm)
      · exact List.mem_append_right _ hm
    rcases copy_mem_answer h hi hk hget hok hcopy with hcopy | ⟨rfl, heToM⟩
    · exact h.dataless a m below hl ht hcopy
    · have none := alone heToM m (.inr hm) hl
      simp [none, Dataless] at ht
  · rcases copy_mem_answer h hi hk hget hok hcopy with was | ⟨rfl, heToM⟩
    · rcases mem_repUp_answer hm with hm | ⟨rfl, rfl⟩
      · exact h.declined a m hm hl ht was
      · have hd : demandOf lqe.type = some .upgrade := by rw [← htype, ht]; rfl
        exact h.dataless a lqe (List.mem_append_left _ hmem) rfl (dataless_of_upgrade hd) was
    · rcases mem_repUp_answer hm with hm | ⟨-, rfl⟩
      · have none := alone heToM m (.inl hm) hl
        simp [ht, demandOf] at none
      · cases ht.symm.trans heToM
  · simp only [owed, List.mem_append] at hm
    rcases hm with (hm | hm) | hm
    · exact h.upgrader a m (by simp [owed, show m ∈ s.down a from hm]) hab e he
    · exact h.upgrader a m (by simp [owed, mem_todo_answer hm]) hab e he
    · rcases mem_repUp_answer hm with hm | ⟨rfl, rfl⟩
      · exact h.upgrader a m (by simp [owed, hm]) hab e he
      · refine h.upgrader a lqe (by simp [owed, hmem]) ?_ e he
        simpa only [about, htype, haddress] using hab

theorem Tracked.answer (h : Tracked cfg s line) (hi : Inv cfg s) (hk : CacheKept cfg s) {i : Nat}
    (hget : (s.todo c)[i]? = some lqe) (hok : s.modified c (cfg.lineOf lqe.address) = true →
      s.holds c (cfg.lineOf lqe.address) = true) :
    Tracked cfg (s.answer cfg c i lqe) line := by
  by_cases hline : line = cfg.lineOf lqe.address
  · subst hline
    exact h.answer_line hi hk hget hok
  · have same : ∀ a, trail cfg (s.answer cfg c i lqe) line a = trail cfg s line a := fun a =>
      trail_answer_other hget fun h => hline h.2
    refine h.moved rfl le_rfl (fun _ hm _ => hm) (fun a => same a ▸ List.suffix_rfl)
      (fun a m hm _ => ?_)
      fun a m hm hl => ?_
    · rcases List.mem_append.mp hm with hm | hm
      · exact List.mem_append_left _ (mem_todo_answer hm)
      · exact List.mem_append_right _ hm
    · rcases mem_repUp_answer hm with hm | ⟨-, rfl⟩
      · exact .inl hm
      · rw [(answerOf_fixed c _ lqe).1] at hl
        exact absurd hl.symm hline

end McSim.Net
