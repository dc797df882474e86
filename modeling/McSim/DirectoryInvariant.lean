import McSim.DirectoryNet
import Mathlib.Data.Finset.Card

/-! The invariant of directory entries, strengthened with what is in flight.
For one line, `load d c` counts the demands of kind `d` that L2 `c` has not answered or whose
answers have not been processed, and `reads` the reads the memory still owes. `Phase` says
which of them go with which entry. With a directory cache an entry that waits for nothing else may
hold a request until its directory information has come. -/

namespace McSim.Directory

open Contract

variable {C : Type} [LinearOrder C]

def single (d : Demand) (c : C) : Demand → C → Nat := fun d' c' => if d = d' ∧ c = c' then 1 else 0

def each (d : Demand) (s : Finset C) :
    Demand → C → Nat := fun d' c' => if d = d' ∧ c' ∈ s then 1 else 0

/-- `on` says whether there is a directory cache. -/
inductive Phase (on : Bool) (load : Demand → C → Nat) (reads : Nat) : Option (DirEntry C) → Prop
  | absent : load = 0 → reads = 0 → Phase on load reads none
  | owned {e : DirEntry C} : e.type = .exclusive ∨ e.type = .modified → e.sharedL2.card = 1 →
      (on = false → e.pending = none) → load = 0 → reads = 0 → Phase on load reads (some e)
  | shared {e : DirEntry C} : e.type = .shared → e.sharedL2.Nonempty →
      (on = false → e.pending = none) → load = 0 → reads = 0 → Phase on load reads (some e)
  | reading {e : DirEntry C} : e.type = .trToE ∨ e.type = .trToM → e.sharedL2.card = 1 →
      e.pending = none → load = 0 → reads = 1 → Phase on load reads (some e)
  | upgrading {e : DirEntry C} (c : C) : e.type = .trToM → e.sharedL2.card = 1 →
      e.pending = none → load = single .upgrade c → reads = 0 → Phase on load reads (some e)
  | invalidating {e : DirEntry C} (p : Lqe C) : e.type = .trToM → e.sharedL2.Nonempty →
      e.pending = some p → load = each .inval e.sharedL2 → reads = 0 → Phase on load reads (some e)
  | lending {e : DirEntry C} (p : Lqe C) (c : C) : e.type = .trToS ∨ e.type = .mToS →
      e.pending = some p → (e.type = .mToS → e.sharedL2 ⊆ {c}) → load = single .data c →
      reads = 0 → Phase on load reads (some e)

/-- Sharers are L2s of the machine; a held request names one, and its line is this one. -/
structure Named (cfg : DirConfig C) (line : Nat) (e : DirEntry C) : Prop where
  sharers : ∀ c ∈ e.sharedL2, c ∈ cfg.l2s
  pending : ∀ p, e.pending = some p → cfg.lineOf p.address = line ∧
    (p.type = .read ∨ p.type = .write) ∧ ∃ c path, p.path = c :: path ∧ c ∈ cfg.l2s

def sentTo (cfg : DirConfig C) (calls : List (Call C)) (d : Demand) (c : C) : Nat :=
  calls.countP fun call =>
    match route cfg call with
    | .l2 c' lqe => demandOf lqe.type = some d ∧ c' = c
    | _ => false

def readsSent (cfg : DirConfig C) (calls : List (Call C)) : Nat :=
  calls.countP fun call =>
    match route cfg call with
    | .memory lqe => lqe.type = .eRd
    | _ => false

/-- Messages about the line: invalidations name their L2 below the directory, reads name a
component to answer, and directory information is not asked for. -/
def Proper (cfg : DirConfig C) (line : Nat) : Route C → Prop
  | .l2 c lqe => cfg.lineOf lqe.address = line ∧
      (demandOf lqe.type = some .inval → lqe.path = [cfg.self, c])
  | .memory lqe => cfg.lineOf lqe.address = line ∧
      (lqe.type = .eRd → ∃ c c' path, lqe.path = c :: c' :: path) ∧ isInfo lqe.type = false
  | .nowhere => True

/-- A handler ends, and the line goes on in a phase with the calls it made. -/
structure Continues (cfg : DirConfig C) (line : Nat) (load : Demand → C → Nat) (reads : Nat)
    (o : Outcome C) : Prop where
  phase : Phase cfg.hasDirectoryCache (load + sentTo cfg o.calls)
    (reads + readsSent cfg o.calls) o.entry
  named : ∀ e, o.entry = some e → Named cfg line e
  proper : ∀ call ∈ o.calls, Proper cfg line (route cfg call)

variable {cfg : DirConfig C} {t line : Nat} {e : DirEntry C} {lqe : Lqe C} {st : DirStats}

@[simp] theorem route_toMc : route cfg (toMc cfg t lqe) = .memory lqe := rfl

@[simp] theorem route_toL2 : route cfg (toL2 cfg t lqe) = .l2 cfg.cachel2 lqe := by
  simp [route, toL2, cfg.crossbar_ne.symm]

@[simp] theorem route_addEventToComp (c : C) :
    route cfg (addEventToComp cfg t c lqe) = .l2 c lqe := by
  unfold addEventToComp
  split
  · rename_i h
    rw [route_toL2, h]
  · simp [route, Lqe.push]

theorem addEventToUL_ok {c : C} {path : List C} (isData : Bool) (h : lqe.path = c :: path) :
    ∃ call, addEventToUL cfg t lqe isData = .ok call ∧ route cfg call = .l2 c lqe := by
  simp only [addEventToUL, Lqe.top, h]
  refine ⟨_, rfl, ?_⟩
  by_cases hc : c = cfg.cachel2
  · rw [if_pos hc, route_toL2, hc]
  · simp [hc, route, Lqe.push]

theorem addEventToULpp_ok {c : C} {path : List C} (isData : Bool) (h : lqe.path = c :: path) :
    ∃ call, addEventToULpp cfg t lqe isData = .ok call ∧ route cfg call = .l2 c lqe := by
  simp only [addEventToULpp, Lqe.top, h]
  refine ⟨_, rfl, ?_⟩
  by_cases hc : c = cfg.cachel2
  · rw [if_pos hc, route_toL2, hc]
  · simp [hc, route, h]

theorem sentTo_cons_l2 {call : Call C} {calls : List (Call C)} {c : C}
    (h : route cfg call = .l2 c lqe) (hd : demandOf lqe.type = none) :
    sentTo cfg (call :: calls) = sentTo cfg calls := by
  funext d c'
  simp [sentTo, h, hd]

theorem sentTo_cons_memory {call : Call C} {calls : List (Call C)}
    (h : route cfg call = .memory lqe) : sentTo cfg (call :: calls) = sentTo cfg calls := by
  funext d c'
  simp [sentTo, h]

theorem sentTo_demand {call : Call C} {c : C} {d : Demand} (h : route cfg call = .l2 c lqe)
    (hd : demandOf lqe.type = some d) : sentTo cfg [call] = single d c := by
  funext d' c'
  simp [sentTo, h, hd, single, List.countP_cons]

@[simp] theorem sentTo_nil : sentTo cfg ([] : List (Call C)) = 0 := rfl

@[simp] theorem readsSent_nil : readsSent cfg ([] : List (Call C)) = 0 := rfl

theorem readsSent_cons_l2 {call : Call C} {calls : List (Call C)} {c : C}
    (h : route cfg call = .l2 c lqe) : readsSent cfg (call :: calls) = readsSent cfg calls := by
  simp [readsSent, h]

theorem readsSent_cons_memory {call : Call C} {calls : List (Call C)}
    (h : route cfg call = .memory lqe) :
    readsSent cfg (call :: calls) = readsSent cfg calls + if lqe.type = .eRd then 1 else 0 := by
  simp [readsSent, h, List.countP_cons]

theorem each_singleton (d : Demand) (c : C) : each d {c} = single d c := by
  funext d' c'
  simp [each, single, eq_comm]

def less (load : Demand → C → Nat) (d : Demand) (c : C) : Demand → C → Nat :=
  fun d' c' => load d' c' - single d c d' c'

@[simp] theorem single_self (d : Demand) (c : C) : single d c d c = 1 := by simp [single]

@[simp] theorem less_single (d : Demand) (c : C) : less (single d c) d c = 0 := by
  funext d' c'
  simp [less]

theorem less_each (d : Demand) (s : Finset C) (c : C) :
    less (each d s) d c = each d (s.erase c) := by
  funext d' c'
  simp only [less, each, single, Finset.mem_erase]
  by_cases hd : d = d'
  · by_cases hc : c = c'
    · simp only [hd, hc, true_and, and_self, if_true, ne_eq, not_true_eq_false, false_and, if_false]
      split <;> rfl
    · simp [hd, hc, Ne.symm hc]
  · simp [hd]

def core (e : DirEntry C) : CoherenceState × Finset C × Option (Lqe C) :=
  (e.type, e.sharedL2, e.pending)

omit [LinearOrder C] in
theorem core_eq_some {found found' : Option (DirEntry C)} {e' : DirEntry C}
    (same : found'.map core = found.map core) (h : found' = some e') : ∃ e, found = some e ∧
      e'.type = e.type ∧ e'.sharedL2 = e.sharedL2 ∧ e'.pending = e.pending := by
  subst h
  cases found with
  | none => cases same
  | some e => exact ⟨e, rfl, by simpa [core] using same⟩

theorem Phase.congr {on : Bool} {load : Demand → C → Nat} {reads : Nat}
    {found found' : Option (DirEntry C)} (h : Phase on load reads found)
    (same : found'.map core = found.map core) : Phase on load reads found' := by
  cases hf : found' with
  | none =>
    rw [hf] at same
    rw [Option.map_eq_none_iff.mp same.symm] at h
    exact h
  | some e' =>
    obtain ⟨e, rfl, ht, hs, hp⟩ := core_eq_some same hf
    cases h with
    | owned h1 h2 h3 h4 h5 => exact .owned (ht ▸ h1) (hs ▸ h2) (hp ▸ h3) h4 h5
    | shared h1 h2 h3 h4 h5 => exact .shared (ht ▸ h1) (hs ▸ h2) (hp ▸ h3) h4 h5
    | reading h1 h2 h3 h4 h5 => exact .reading (ht ▸ h1) (hs ▸ h2) (hp ▸ h3) h4 h5
    | upgrading c h1 h2 h3 h4 h5 => exact .upgrading c (ht ▸ h1) (hs ▸ h2) (hp ▸ h3) h4 h5
    | invalidating p h1 h2 h3 h4 h5 =>
      exact .invalidating p (ht ▸ h1) (hs ▸ h2) (hp ▸ h3) (hs ▸ h4) h5
    | lending p c h1 h2 h3 h4 h5 => exact .lending p c (ht ▸ h1) (hp ▸ h2) (ht ▸ hs ▸ h3) h4 h5

theorem Phase.idle {load : Demand → C → Nat} {reads : Nat} {e : DirEntry C}
    (h : Phase false load reads (some e)) (ht : transient e.type = false) : e.pending = none := by
  cases h with
  | owned _ _ hp => exact hp rfl
  | shared _ _ hp => exact hp rfl
  | reading _ _ hp => exact hp
  | upgrading _ _ _ hp => exact hp
  | invalidating _ hT => simp [hT, transient] at ht
  | lending _ _ hT => rcases hT with h | h <;> simp [h, transient] at ht

theorem Phase.held {on : Bool} {load : Demand → C → Nat} {reads : Nat} {e e' : DirEntry C}
    (h : Phase on load reads (some e)) (hon : on = true) (ht : transient e.type = false)
    (type : e'.type = e.type) (sharers : e'.sharedL2 = e.sharedL2) :
      Phase on load reads (some e') := by
  have on : on = false → e'.pending = none := fun off => by cases hon.symm.trans off
  cases h with
  | owned h1 h2 _ h4 h5 => exact .owned (type ▸ h1) (sharers ▸ h2) on h4 h5
  | shared h1 h2 _ h4 h5 => exact .shared (type ▸ h1) (sharers ▸ h2) on h4 h5
  | reading hT => rcases hT with h | h <;> simp [h, transient] at ht
  | upgrading _ hT => simp [hT, transient] at ht
  | invalidating _ hT => simp [hT, transient] at ht
  | lending _ _ hT => rcases hT with h | h <;> simp [h, transient] at ht

omit [LinearOrder C] in
theorem Named.congr {cfg : DirConfig C} {line : Nat} {found found' : Option (DirEntry C)}
    (h : ∀ e, found = some e → Named cfg line e) (same : found'.map core = found.map core) :
    ∀ e, found' = some e → Named cfg line e := by
  intro e' he'
  obtain ⟨e, he, -, hs, hp⟩ := core_eq_some same he'
  exact ⟨hs ▸ (h e he).sharers, hp ▸ (h e he).pending⟩

theorem Phase.of_data {on : Bool} {load : Demand → C → Nat} {reads : Nat}
    {found : Option (DirEntry C)} {c : C} (h : Phase on load reads found) (hc : 1 ≤ load .data c) :
    ∃ e p, found = some e ∧ (e.type = .trToS ∨ e.type = .mToS) ∧ e.pending = some p ∧
      load = single .data c ∧ reads = 0 ∧ (e.type = .mToS → e.sharedL2 ⊆ {c}) := by
  cases h with
  | absent h => simp [h] at hc
  | owned _ _ _ h => simp [h] at hc
  | shared _ _ _ h => simp [h] at hc
  | reading _ _ _ h => simp [h] at hc
  | upgrading _ _ _ _ h => simp [h, single] at hc
  | invalidating _ _ _ _ h => simp [h, each] at hc
  | @lending e p c' ht hp hs h hr =>
    have same : c' = c := by
      by_contra hne
      simp [h, single, hne] at hc
    exact ⟨e, p, rfl, ht, hp, same ▸ h, hr, same ▸ hs⟩

theorem Phase.of_inval {on : Bool} {load : Demand → C → Nat} {reads : Nat}
    {found : Option (DirEntry C)} {c : C} (h : Phase on load reads found) (hc : 1 ≤ load .inval c) :
    ∃ e p, found = some e ∧ e.type = .trToM ∧ c ∈ e.sharedL2 ∧ e.pending = some p ∧
      load = each .inval e.sharedL2 ∧ reads = 0 := by
  cases h with
  | absent h => simp [h] at hc
  | owned _ _ _ h => simp [h] at hc
  | shared _ _ _ h => simp [h] at hc
  | reading _ _ _ h => simp [h] at hc
  | upgrading _ _ _ _ h => simp [h, single] at hc
  | @invalidating e p ht _ hp h hr =>
    have mem : c ∈ e.sharedL2 := by
      by_contra hne
      simp [h, each, hne] at hc
    exact ⟨e, p, rfl, ht, mem, hp, h, hr⟩
  | lending _ _ _ _ _ h => simp [h, single] at hc

theorem Phase.of_upgrade {on : Bool} {load : Demand → C → Nat} {reads : Nat}
    {found : Option (DirEntry C)} {c : C} (h : Phase on load reads found)
    (hc : 1 ≤ load .upgrade c) :
    ∃ e, found = some e ∧ e.type = .trToM ∧ e.sharedL2.card = 1 ∧ load = single .upgrade c ∧
      reads = 0 := by
  cases h with
  | absent h => simp [h] at hc
  | owned _ _ _ h => simp [h] at hc
  | shared _ _ _ h => simp [h] at hc
  | reading _ _ _ h => simp [h] at hc
  | @upgrading e c' ht hs _ h hr =>
    have same : c' = c := by
      by_contra hne
      simp [h, single, hne] at hc
    exact ⟨e, rfl, ht, hs, same ▸ h, hr⟩
  | invalidating _ _ _ _ h => simp [h, each] at hc
  | lending _ _ _ _ _ h => simp [h, single] at hc

theorem Phase.of_reads {on : Bool} {load : Demand → C → Nat} {reads : Nat}
    {found : Option (DirEntry C)} (h : Phase on load reads found) (hr : 1 ≤ reads) :
    ∃ e, found = some e ∧ (e.type = .trToE ∨ e.type = .trToM) ∧ e.sharedL2.card = 1 ∧
      e.pending = none ∧ load = 0 ∧ reads = 1 := by
  cases h with
  | absent _ h => omega
  | owned _ _ _ _ h => omega
  | shared _ _ _ _ h => omega
  | reading ht hs hp hl h => exact ⟨_, rfl, ht, hs, hp, hl, h⟩
  | upgrading _ _ _ _ _ h => omega
  | invalidating _ _ _ _ _ h => omega
  | lending _ _ _ _ _ _ h => omega

theorem repNd_continues (ht : e.type = .trToS ∨ e.type = .mToS) {p : Lqe C}
    (hp : e.pending = some p) (hn : Named cfg line e) :
    ∃ o, repNd cfg t (some e) lqe st = .ok o ∧ Continues cfg line 0 0 o := by
  obtain ⟨hline, -, c, path, hpath, hc⟩ := hn.pending p hp
  obtain ⟨call, hcall, hroute⟩ :=
    @addEventToULpp_ok _ _ cfg t { p with type := .nack } _ _ false hpath
  have notFatal : ¬ (e.type ≠ .trToS ∧ e.type ≠ .mToS) := by
    rintro ⟨h1, h2⟩
    rcases ht with h | h
    · exact h1 h
    · exact h2 h
  have load : sentTo cfg [call] = 0 := sentTo_cons_l2 hroute rfl
  have reads : readsSent cfg [call] = 0 := readsSent_cons_l2 hroute
  have proper : ∀ a ∈ [call], Proper cfg line (route cfg a) := by
    simp [hroute, Proper, hline, demandOf]
  simp only [repNd, if_neg notFatal, hp, hcall]
  by_cases hs : e.sharedL2 = ∅
  · refine ⟨_, if_pos hs, ?_, fun e' he' => (by cases he'), proper⟩
    rw [load, reads]
    exact .absent rfl rfl
  · refine ⟨_, if_neg hs, ?_, ?_, proper⟩
    · rw [load, reads]
      exact .shared rfl (Finset.nonempty_iff_ne_empty.mpr hs) (fun _ => rfl) rfl rfl
    · intro e' he'
      cases he'
      exact ⟨hn.sharers, fun p hp => by cases hp⟩

theorem repData_continues (ht : e.type = .trToS ∨ e.type = .mToS) {p : Lqe C}
    (hp : e.pending = some p) (hn : Named cfg line e) (hl : cfg.lineOf lqe.address = line) :
    ∃ o, repData cfg t (some e) lqe st = .ok o ∧ Continues cfg line 0 0 o := by
  obtain ⟨hline, -, c, path, hpath, hc⟩ := hn.pending p hp
  obtain ⟨call, hcall, hroute⟩ := @addEventToUL_ok _ _ cfg t { p with type := .sRd } _ _ true hpath
  have notFatal : ¬ (e.type ≠ .mToS ∧ e.type ≠ .trToS) := by
    rintro ⟨h1, h2⟩
    rcases ht with h | h
    · exact h2 h
    · exact h1 h
  have load : sentTo cfg (writeBack cfg t lqe ++ [call]) = 0 := by
    unfold writeBack
    split
    · exact (sentTo_cons_memory route_toMc).trans (sentTo_cons_l2 hroute rfl)
    · exact sentTo_cons_l2 hroute rfl
  have reads : readsSent cfg (writeBack cfg t lqe ++ [call]) = 0 := by
    unfold writeBack
    split
    · exact (readsSent_cons_memory route_toMc).trans (readsSent_cons_l2 hroute)
    · exact readsSent_cons_l2 hroute
  have proper : ∀ a ∈ writeBack cfg t lqe ++ [call], Proper cfg line (route cfg a) := by
    unfold writeBack
    split <;> simp [hroute, Proper, hline, hl, demandOf, Lqe.new, isInfo]
  simp only [repData, if_neg notFatal, hp, Lqe.top_ok hpath, hcall]
  refine ⟨_, rfl, ?_, ?_, proper⟩
  · rw [load, reads]
    exact .shared rfl (Finset.insert_nonempty _ _) (fun _ => rfl) rfl rfl
  · intro e' he'
    cases he'
    refine ⟨fun a ha => ?_, fun p hp => by cases hp⟩
    rcases Finset.mem_insert.mp ha with rfl | ha
    · exact hc
    · exact hn.sharers a ha

theorem resume_continues {p : Lqe C} (ht : e.type = .trToM) (hs : e.sharedL2 = ∅)
    (hp : cfg.lineOf p.address = line ∧ (p.type = .read ∨ p.type = .write) ∧
      ∃ c path, p.path = c :: path ∧ c ∈ cfg.l2s) :
    ∃ o, resume cfg t e p lqe st = .ok o ∧ Continues cfg line 0 0 o := by
  obtain ⟨hline, htype, c, path, hpath, hc⟩ := hp
  obtain ⟨call, hcall, hroute⟩ := @addEventToUL_ok _ _ cfg t p _ _ true hpath
  have harmless : demandOf p.type = none := by rcases htype with h | h <;> rw [h] <;> rfl
  have named : ∀ e' : DirEntry C, e'.sharedL2 = {c} → e'.pending = none → Named cfg line e' := by
    intro e' hs hn
    refine ⟨fun a ha => ?_, fun p hp => by rw [hn] at hp; cases hp⟩
    rw [hs, Finset.mem_singleton] at ha
    exact ha ▸ hc
  simp only [resume, Lqe.top_ok hpath, hs]
  cases hg : e.gotCl with
  | true =>
    refine ⟨_, by simp only [bind, Except.bind, if_true, hcall]; rfl, ?_, ?_, ?_⟩
    · rw [sentTo_cons_l2 hroute harmless, readsSent_cons_l2 hroute]
      exact .owned (.inr rfl) (by simp) (fun _ => rfl) rfl rfl
    · rintro e' ⟨⟩
      exact named _ (by simp) rfl
    · simp [hroute, Proper, hline, harmless]
  | false =>
    refine ⟨_, rfl, ?_, ?_, ?_⟩
    · rw [sentTo_cons_memory route_toMc, readsSent_cons_memory route_toMc]
      exact .reading (.inr ht) (by simp) rfl rfl rfl
    · rintro e' ⟨⟩
      exact named _ (by simp) rfl
    · simp [Proper, hline, Lqe.push, hpath, isInfo]

theorem repInvalidate_continues {p : Lqe C} {c : C} (ht : e.type = .trToM)
    (hp : e.pending = some p) (hn : Named cfg line e) (hpath : lqe.path = [cfg.self, c]) :
    ∃ o, repInvalidate cfg t (some e) lqe st = .ok o ∧
      Continues cfg line (each .inval (e.sharedL2.erase c)) 0 o := by
  simp only [repInvalidate, ht, ne_eq, not_true_eq_false, if_false, Lqe.pop_ok hpath]
  have top : ({ lqe with path := [c] } : Lqe C).top = .ok c := rfl
  simp only [bind, Except.bind, top, hp]
  by_cases hs : e.sharedL2.erase c = ∅
  · have none : each Demand.inval (e.sharedL2.erase c) = 0 := by
      funext d a
      simp [each, hs]
    rw [if_pos hs, none]
    exact resume_continues rfl hs (hn.pending p hp)
  · refine ⟨_, if_neg hs, ?_, ?_, by simp⟩
    · exact .invalidating p rfl (Finset.nonempty_iff_ne_empty.mpr hs) rfl rfl rfl
    · rintro e' ⟨⟩
      refine ⟨fun a ha => hn.sharers a (Finset.mem_of_mem_erase ha), fun q hq => ?_⟩
      exact hn.pending q (hp.trans hq)

theorem repEToX_continues (ht : e.type = .trToM) (hs : e.sharedL2.card = 1)
    (hn : Named cfg line e) :
    ∃ o, repEToX (some e) lqe st = .ok o ∧ Continues cfg line 0 0 o := by
  simp only [repEToX, ht, ne_eq, not_true_eq_false, if_false]
  by_cases hi : lqe.type = .eToI
  · refine ⟨_, if_pos hi, .absent rfl rfl, fun e' he' => (by cases he'), by simp⟩
  · refine ⟨_, if_neg hi, .owned (.inr rfl) hs (fun _ => rfl) rfl rfl, ?_, by simp⟩
    rintro e' ⟨⟩
    exact ⟨hn.sharers, fun p hp => by cases hp⟩

theorem repFromMc_continues {c : C} {path : List C} (ht : e.type = .trToE ∨ e.type = .trToM)
    (hs : e.sharedL2.card = 1) (hp : e.pending = none) (hn : Named cfg line e)
    (hl : cfg.lineOf lqe.address = line) (htype : lqe.type = .eRd) {c' : C}
    (hpath : lqe.path = c' :: c :: path) :
    ∃ o, repFromMc cfg t (some e) lqe st = .ok o ∧ Continues cfg line 0 0 o := by
  have named : ∀ type, Named cfg line { e with type } := fun type => ⟨hn.sharers, hn.pending⟩
  have taken : (some e).filter
    (fun e => decide (lqe.type = .eRd ∧ (e.type = .trToE ∨ e.type = .trToM))) =
      some e := by simp [htype, ht]
  simp only [repFromMc, Lqe.pop_ok hpath, bind, Except.bind, taken]
  by_cases he : e.type = .trToE
  · obtain ⟨call, hcall, hroute⟩ :=
      @addEventToULpp_ok _ _ cfg t { lqe with path := c :: path } _ _ true rfl
    rw [if_pos he, hcall]
    refine ⟨_, rfl, ?_, ?_, ?_⟩
    · rw [sentTo_cons_l2 hroute (by simp [htype, demandOf]), readsSent_cons_l2 hroute]
      exact .owned (.inl rfl) hs (fun _ => hp) rfl rfl
    · rintro e' ⟨⟩
      exact named _
    · simp [hroute, Proper, hl, htype, demandOf]
  · obtain ⟨call, hcall, hroute⟩ :=
      @addEventToULpp_ok _ _ cfg t { lqe with path := c :: path, type := .write } _ _ true rfl
    rw [if_neg he, hcall]
    refine ⟨_, rfl, ?_, ?_, ?_⟩
    · rw [sentTo_cons_l2 hroute rfl, readsSent_cons_l2 hroute]
      exact .owned (.inr rfl) hs (fun _ => hp) rfl rfl
    · rintro e' ⟨⟩
      exact named _
    · simp [hroute, Proper, hl, demandOf]

theorem continues_silent {load : Demand → C → Nat} {reads : Nat} {o : Outcome C} (hc : o.calls = [])
    (hp : Phase cfg.hasDirectoryCache load reads o.entry)
    (hn : ∀ e, o.entry = some e → Named cfg line e) :
    Continues cfg line load reads o where
  phase := by rwa [hc]
  named := hn
  proper := by simp [hc]

theorem continues_write {load : Demand → C → Nat} {reads : Nat} {o : Outcome C}
    (hc : o.calls = [toMc cfg t lqe]) (hl : cfg.lineOf lqe.address = line) (ht : lqe.type = .evict)
    (hp : Phase cfg.hasDirectoryCache load reads o.entry)
    (hn : ∀ e, o.entry = some e → Named cfg line e) :
    Continues cfg line load reads o where
  phase := by
    rw [hc, sentTo_cons_memory route_toMc, readsSent_cons_memory route_toMc]
    simpa [ht] using hp
  named := hn
  proper := by simp [hc, Proper, hl, ht, isInfo]

theorem Named.drop (h : Named cfg line e) (c : C) :
    Named cfg line { e with sharedL2 := e.sharedL2.erase c } :=
  ⟨fun a ha => h.sharers a (Finset.mem_of_mem_erase ha), h.pending⟩

theorem repEvict_erase {load : Demand → C → Nat} {reads : Nat} {c : C} {path : List C}
    (hpath : lqe.path = c :: path) (hn : Named cfg line e)
    (ht : e.type = .exclusive ∨ e.type = .shared ∨ e.type = .trToE)
    (hempty : e.sharedL2.erase c = ∅ → Phase cfg.hasDirectoryCache load reads none)
    (hphase : e.sharedL2.erase c ≠ ∅ →
      Phase cfg.hasDirectoryCache load reads (some { e with sharedL2 := e.sharedL2.erase c })) :
    ∃ o, repEvict cfg t e lqe st = .ok o ∧ Continues cfg line load reads o := by
  have erased : e.sharedL2.erase c = ∅ → ∃ st', repEvict cfg t e lqe st =
      .ok { entry := none, deleted := [lqe], stats := st' } := by
    intro hs
    rcases ht with ht | ht | ht <;>
      exact ⟨_, by simp only [repEvict, ht, Lqe.top_ok hpath]; exact if_pos hs⟩
  have kept : e.sharedL2.erase c ≠ ∅ → ∃ st', repEvict cfg t e lqe st =
      .ok { entry := some { e with sharedL2 := e.sharedL2.erase c }, deleted := [lqe], stats := st' } := by
    intro hs
    rcases ht with ht | ht | ht <;>
      exact ⟨_, by simp only [repEvict, ht, Lqe.top_ok hpath]; exact if_neg hs⟩
  by_cases hs : e.sharedL2.erase c = ∅
  · obtain ⟨st', h⟩ := erased hs
    exact ⟨_, h, continues_silent rfl (hempty hs) (fun _ h => by cases h)⟩
  · obtain ⟨st', h⟩ := kept hs
    refine ⟨_, h, continues_silent rfl (hphase hs) ?_⟩
    rintro e' ⟨⟩
    exact hn.drop c

theorem card_erase_of_ne_empty {s : Finset C} {c : C} (h : s.card = 1) (hs : s.erase c ≠ ∅) :
    s.erase c = s := by
  obtain ⟨a, rfl⟩ := Finset.card_eq_one.mp h
  refine Finset.erase_eq_of_notMem fun hc => hs ?_
  rw [Finset.mem_singleton] at hc
  simp [hc]

theorem repEvict_modified {load : Demand → C → Nat} {reads : Nat} {c : C} {path : List C}
    (hpath : lqe.path = c :: path) (hl : cfg.lineOf lqe.address = line) (htype : lqe.type = .evict)
    (hn : Named cfg line e) (ht : e.type = .modified ∨ e.type = .mToS) (hs : e.sharedL2.card ≤ 1)
    (hphase : Phase cfg.hasDirectoryCache load reads (some e))
    (hempty : e.type = .modified → Phase cfg.hasDirectoryCache load reads none)
    (herase : e.type = .mToS →
      Phase cfg.hasDirectoryCache load reads (some { e with sharedL2 := e.sharedL2.erase c })) :
    ∃ o, repEvict cfg t e lqe st = .ok o ∧ Continues cfg line load reads o := by
  have few : ¬ e.sharedL2.card > 1 := by omega
  have write : (lqe.push cfg.self).type = .evict := htype
  by_cases hc : c ∈ e.sharedL2
  · rcases ht with ht | ht
    · refine ⟨_, by simp only [repEvict, ht, if_neg few, Lqe.top_ok hpath, bind, Except.bind,
        if_neg (not_not.mpr hc), if_true]; rfl, ?_⟩
      exact continues_write rfl hl write (hempty ht) (fun _ h => by cases h)
    · refine ⟨_, by simp only [repEvict, ht, if_neg few, Lqe.top_ok hpath, bind, Except.bind,
        if_neg (not_not.mpr hc), reduceCtorEq, if_false]; rfl, ?_⟩
      refine continues_write rfl hl write (ht ▸ herase ht) ?_
      rintro e' ⟨⟩
      exact ht ▸ hn.drop c
  · refine ⟨{ entry := some e, deleted := [lqe], stats := { st with numEvict := st.numEvict + 1 } },
      ?_, continues_silent rfl hphase (fun e' h => by cases h; exact hn)⟩
    rcases ht with ht | ht <;>
      simp only [repEvict, ht, if_neg few, Lqe.top_ok hpath, bind, Except.bind, if_pos hc] <;> rfl

/-- An eviction, whatever phase it meets, save that of a listed L2 that still waits for its first
copy. -/
theorem repEvict_continues {load : Demand → C → Nat} {reads : Nat} {c : C} {path : List C}
    (h : Phase cfg.hasDirectoryCache load reads (some e)) (hn : Named cfg line e)
    (hpath : lqe.path = c :: path) (hl : cfg.lineOf lqe.address = line) (htype : lqe.type = .evict)
    (hok : e.type = .trToE → c ∉ e.sharedL2) :
    ∃ o, repEvict cfg t e lqe st = .ok o ∧ Continues cfg line load reads o := by
  have ignored : e.type = .trToM → ∃ o, repEvict cfg t e lqe st = .ok o ∧
      Continues cfg line load reads o := by
    intro ht
    refine ⟨_, by simp only [repEvict, ht]; rfl, continues_silent rfl h ?_⟩
    rintro e' ⟨⟩
    exact hn
  cases h with
  | owned ht hs hp hload hreads =>
    rcases ht with ht | ht
    · refine repEvict_erase hpath hn (.inl ht) (fun _ => .absent hload hreads) fun hne => ?_
      have same := card_erase_of_ne_empty hs hne
      exact .owned (.inl ht) (by rw [same]; exact hs) hp hload hreads
    · exact repEvict_modified hpath hl htype hn (.inl ht) hs.le
        (.owned (.inr ht) hs hp hload hreads)
        (fun _ => .absent hload hreads) (fun h => by rw [ht] at h; cases h)
  | shared ht hs hp hload hreads =>
    exact repEvict_erase hpath hn (.inr (.inl ht)) (fun _ => .absent hload hreads)
      fun hne => .shared ht (Finset.nonempty_iff_ne_empty.mpr hne) hp hload hreads
  | reading ht hs hp hload hreads =>
    rcases ht with ht | ht
    · have same : e.sharedL2.erase c = e.sharedL2 := Finset.erase_eq_of_notMem (hok ht)
      refine repEvict_erase hpath hn (.inr (.inr ht)) (fun he => ?_) fun _ =>
        .reading (.inl ht) (by rw [same]; exact hs) hp hload hreads
      rw [same] at he
      simp [he] at hs
    · exact ignored ht
  | upgrading _ ht => exact ignored ht
  | invalidating _ ht => exact ignored ht
  | lending p c' ht hp hm hload hreads =>
    rcases ht with ht | ht
    · refine ⟨_, by simp only [repEvict, ht, Lqe.top_ok hpath]; rfl, continues_silent rfl ?_ ?_⟩
      · exact ht ▸ .lending p c' (.inl ht) hp (fun h => by rw [ht] at h; cases h) hload hreads
      · rintro e' ⟨⟩
        exact ht ▸ hn.drop c
    · have few : e.sharedL2.card ≤ 1 := (Finset.card_le_card (hm ht)).trans (by simp)
      refine repEvict_modified hpath hl htype hn (.inr ht) few
        (.lending p c' (.inr ht) hp hm hload hreads)
        (fun h => by rw [ht] at h; cases h) fun _ => ?_
      exact .lending p c' (.inr ht) hp (fun _ => (Finset.erase_subset _ _).trans (hm ht))
        hload hreads

theorem reply_through (h : throughCache lqe.type = true) :
    reply cfg t none lqe st = .ok { entry := none, deleted := [lqe], stats := st } ∧
      ∀ e, reply cfg t (some e) lqe st = repEvict cfg t e lqe st := by
  cases ht : lqe.type <;> simp only [ht, throughCache, Bool.false_eq_true] at h <;>
    exact ⟨by simp only [reply, ht]; rfl, fun e => by simp only [reply, ht]⟩

theorem repEvict_unlisted {load : Demand → C → Nat} {reads : Nat} {c : C} {path : List C}
    (h : Phase cfg.hasDirectoryCache load reads (some e)) (hpath : lqe.path = c :: path)
    (hc : c ∉ e.sharedL2) :
    ∃ st', repEvict cfg t e lqe st = .ok { entry := some e, deleted := [lqe], stats := st' } := by
  have same : e.sharedL2.erase c = e.sharedL2 := Finset.erase_eq_of_notMem hc
  have kept : e.sharedL2.Nonempty → e.type = .exclusive ∨ e.type = .shared ∨ e.type = .trToE →
      ∃ st', repEvict cfg t e lqe st = .ok { entry := some e, deleted := [lqe], stats := st' } := by
    intro hs ht
    have notEmpty : ¬ e.sharedL2.erase c = ∅ := by rw [same]; exact hs.ne_empty
    rcases ht with ht | ht | ht <;>
      exact ⟨_, by simp only [repEvict, ht, Lqe.top_ok hpath, bind, Except.bind, if_neg notEmpty]
                   simp only [same, ← ht]; rfl⟩
  have deleted : e.sharedL2.card ≤ 1 → e.type = .modified ∨ e.type = .mToS →
      ∃ st', repEvict cfg t e lqe st = .ok { entry := some e, deleted := [lqe], stats := st' } := by
    intro hs ht
    have few : ¬ e.sharedL2.card > 1 := by omega
    rcases ht with ht | ht <;>
      exact ⟨_, by simp only [repEvict, ht, if_neg few, Lqe.top_ok hpath, bind, Except.bind, if_pos hc]; rfl⟩
  have ignored : e.type = .trToM →
      ∃ st', repEvict cfg t e lqe st = .ok { entry := some e, deleted := [lqe], stats := st' } :=
    fun ht => ⟨_, by simp only [repEvict, ht]; rfl⟩
  cases h with
  | owned ht hs =>
    rcases ht with ht | ht
    · exact kept (Finset.card_pos.mp (by omega)) (.inl ht)
    · exact deleted hs.le (.inl ht)
  | shared ht hs => exact kept hs (.inr (.inl ht))
  | reading ht hs =>
    rcases ht with ht | ht
    · exact kept (Finset.card_pos.mp (by omega)) (.inr (.inr ht))
    · exact ignored ht
  | upgrading _ ht => exact ignored ht
  | invalidating _ ht => exact ignored ht
  | lending p c' ht hp hm =>
    rcases ht with ht | ht
    · exact ⟨_, by simp only [repEvict, ht, Lqe.top_ok hpath, bind, Except.bind]
                   simp only [same, ← ht]; rfl⟩
    · exact deleted ((Finset.card_le_card (hm ht)).trans (by simp)) (.inr ht)

theorem answer_continues {load : Demand → C → Nat} {reads : Nat} {found : Option (DirEntry C)}
    {d : Demand} {c : C} (h : Phase cfg.hasDirectoryCache load reads found)
    (hn : ∀ e, found = some e → Named cfg line e) (hd : demandOf lqe.type = some d)
    (hw : lqe.type ≠ .writeNd) (hload : 1 ≤ load d c)
    (hpath : d = .inval → lqe.path = [cfg.self, c]) (hl : cfg.lineOf lqe.address = line) :
    ∃ o, reply cfg t found lqe st = .ok o ∧ Continues cfg line (less load d c) reads o := by
  cases d with
  | data =>
    obtain ⟨e, p, rfl, ht, hp, rfl, rfl, -⟩ := h.of_data hload
    rw [less_single]
    cases htype : lqe.type <;> simp only [htype, demandOf] at hd <;> simp only [reply, htype] <;>
      first
        | exact repNd_continues ht hp (hn e rfl)
        | exact repData_continues ht hp (hn e rfl) hl
        | cases hd
  | inval =>
    obtain ⟨e, p, rfl, ht, -, hp, rfl, rfl⟩ := h.of_inval hload
    rw [less_each]
    cases htype : lqe.type <;> simp only [htype, demandOf] at hd <;> simp only [reply, htype] <;>
      first
        | exact repInvalidate_continues ht hp (hn e rfl) (hpath rfl)
        | cases hd
  | upgrade =>
    obtain ⟨e, rfl, ht, hs, rfl, rfl⟩ := h.of_upgrade hload
    rw [less_single]
    cases htype : lqe.type <;> simp only [htype, demandOf] at hd <;> simp only [reply, htype] <;>
      first
        | exact repEToX_continues ht hs (hn e rfl)
        | exact absurd htype hw
        | cases hd

theorem memory_continues {load : Demand → C → Nat} {reads : Nat} {found : Option (DirEntry C)}
    {c c' : C} {path : List C} (h : Phase cfg.hasDirectoryCache load reads found)
    (hn : ∀ e, found = some e → Named cfg line e) (hreads : 1 ≤ reads)
    (hpath : lqe.path = c :: c' :: path) (htype : lqe.type = .eRd)
    (hl : cfg.lineOf lqe.address = line) :
    ∃ o, reply cfg t found lqe st = .ok o ∧ Continues cfg line load (reads - 1) o := by
  obtain ⟨e, rfl, ht, hs, hp, rfl, rfl⟩ := h.of_reads hreads
  simp only [reply, htype]
  exact repFromMc_continues ht hs hp (hn e rfl) hl htype hpath

theorem sentTo_invalidations {l : List C} (hl : l.Nodup) (type : C → EventType) :
    sentTo cfg (l.map fun c => invalidation cfg t lqe c (type c)) =
      fun d c => if c ∈ l ∧ demandOf (type c) = some d then 1 else 0 := by
  funext d c
  have one : sentTo cfg (l.map fun c => invalidation cfg t lqe c (type c)) d c =
      l.countP fun a => decide (demandOf (type a) = some d ∧ a = c) := by
    simp only [sentTo, List.countP_map]
    refine List.countP_congr fun a _ => ?_
    simp [invalidation, Lqe.push, Lqe.new]
  rw [one]
  by_cases hd : demandOf (type c) = some d
  · have same : l.countP (fun a => decide (demandOf (type a) = some d ∧ a = c)) = l.count c := by
      refine List.countP_congr fun a _ => ?_
      simp only [decide_eq_true_eq, beq_iff_eq]
      exact ⟨fun h => h.2, fun h => ⟨h ▸ hd, h⟩⟩
    rw [same]
    by_cases hc : c ∈ l
    · rw [if_pos ⟨hc, hd⟩, List.count_eq_one_of_mem hl hc]
    · rw [if_neg (fun h => hc h.1), List.count_eq_zero_of_not_mem hc]
  · rw [if_neg (fun h => hd h.2)]
    refine List.countP_eq_zero.mpr fun a _ => ?_
    simp only [decide_eq_true_eq, not_and]
    exact fun h hac => hd (hac ▸ h)

theorem readsSent_invalidations {l : List C} (type : C → EventType) :
    readsSent cfg (l.map fun c => invalidation cfg t lqe c (type c)) = 0 := by
  refine List.countP_eq_zero.mpr fun call hcall => ?_
  obtain ⟨c, -, rfl⟩ := List.mem_map.mp hcall
  simp [invalidation]

theorem proper_invalidation (hl : cfg.lineOf lqe.address = line) (c : C) (type : EventType) :
    Proper cfg line (route cfg (invalidation cfg t lqe c type)) := by
  simp [invalidation, Proper, Lqe.push, Lqe.new, hl]

theorem invalidations_sent (hn : ∀ c ∈ e.sharedL2, c ∈ cfg.l2s)
    (hl : cfg.lineOf lqe.address = line) :
    sentTo cfg (invalidations cfg t e lqe) = each .inval e.sharedL2 ∧
      readsSent cfg (invalidations cfg t e lqe) = 0 ∧
      ∀ call ∈ invalidations cfg t e lqe, Proper cfg line (route cfg call) := by
  unfold invalidations
  split
  · refine ⟨?_, readsSent_invalidations _, ?_⟩
    · rw [sentTo_invalidations cfg.l2s_nodup]
      funext d c
      by_cases hc : c ∈ e.sharedL2
      · have told : demandOf (if first e.sharedL2 = some c then EventType.invalidate
            else if c ∈ e.sharedL2 then .invalidateNd else .nop) = some .inval := by
          rw [if_pos hc]
          split <;> rfl
        simp only [hn c hc, true_and]
        rw [told]
        simp [each, hc]
      · have notFirst : first e.sharedL2 ≠ some c := fun h => hc (first_mem h)
        simp [notFirst, hc, each, demandOf]
    · intro call hcall
      obtain ⟨c, -, rfl⟩ := List.mem_map.mp hcall
      exact proper_invalidation hl c _
  · refine ⟨?_, readsSent_invalidations _, ?_⟩
    · rw [sentTo_invalidations (l := inOrder e.sharedL2) (Finset.sort_nodup _ _)]
      funext d c
      have told : demandOf (if first e.sharedL2 = some c then EventType.invalidate
          else .invalidateNd) = some .inval := by split <;> rfl
      simp only [told, mem_inOrder, each, Option.some.injEq, and_comm]
    · intro call hcall
      obtain ⟨c, -, rfl⟩ := List.mem_map.mp hcall
      exact proper_invalidation hl c _

theorem continues_up {load load' : Demand → C → Nat} {reads : Nat} {o : Outcome C}
    {call : Call C} {c : C} (hc : o.calls = [call]) (hr : route cfg call = .l2 c lqe)
    (hl : cfg.lineOf lqe.address = line)
    (hi : demandOf lqe.type = some .inval → lqe.path = [cfg.self, c])
    (hload : load + sentTo cfg [call] = load')
    (hp : Phase cfg.hasDirectoryCache load' reads o.entry)
    (hn : ∀ e, o.entry = some e → Named cfg line e) :
    Continues cfg line load reads o where
  phase := by
    rw [hc, hload, readsSent_cons_l2 hr]
    exact hp
  named := hn
  proper := by simpa [hc, hr, Proper, hl] using hi

theorem nack_continues {load : Demand → C → Nat} {reads : Nat} {c : C} {path : List C}
    (h : Phase cfg.hasDirectoryCache load reads (some e)) (hn : Named cfg line e)
    (hpath : lqe.path = c :: path) (hl : cfg.lineOf lqe.address = line) :
    ∃ o, nack cfg t e lqe st = .ok o ∧ Continues cfg line load reads o := by
  obtain ⟨call, hcall, hroute⟩ :=
    @addEventToULpp_ok _ _ cfg t { lqe with type := .nack } _ _ false hpath
  refine ⟨_, by simp only [nack, hcall]; rfl, ?_⟩
  refine continues_up rfl hroute hl (by simp [demandOf]) ?_ h (fun e' h => by cases h; exact hn)
  rw [sentTo_cons_l2 hroute rfl]
  simp

omit [LinearOrder C] in
theorem Named.hold (h : Named cfg line e) {c : C} {path : List C} (hpath : lqe.path = c :: path)
    (hc : c ∈ cfg.l2s) (hl : cfg.lineOf lqe.address = line)
    (htype : lqe.type = .read ∨ lqe.type = .write)
    (e' : DirEntry C) (hs : e'.sharedL2 = e.sharedL2) (hp : e'.pending = some lqe) :
    Named cfg line e' := by
  refine ⟨hs ▸ h.sharers, fun p h => ?_⟩
  rw [hp] at h
  cases h
  exact ⟨hl, htype, c, path, hpath, hc⟩

theorem askOwner_continues {c : C} {path : List C} (hn : Named cfg line e)
    (hpath : lqe.path = c :: path) (hc : c ∈ cfg.l2s) (hl : cfg.lineOf lqe.address = line)
    (htype : lqe.type = .read ∨ lqe.type = .write) {type : CoherenceState} {etype : EventType}
    {owner : C} (ht : type = .trToS ∨ type = .mToS) (hd : demandOf etype = some .data)
    (hs : type = .mToS → e.sharedL2 ⊆ {owner}) :
    Continues cfg line 0 0 (askOwner cfg t e lqe type etype owner st) := by
  have hroute : route cfg (addEventToComp cfg t owner
    (Lqe.new cfg.self etype lqe.address lqe.thId)) =
      .l2 owner (Lqe.new cfg.self etype lqe.address lqe.thId) := route_addEventToComp owner
  refine continues_up rfl hroute hl ?_ (zero_add _) ?_ ?_
  · simp [Lqe.new, hd]
  · rw [sentTo_demand hroute hd]
    exact .lending lqe owner ht rfl hs rfl rfl
  · rintro e' ⟨⟩
    exact hn.hold hpath hc hl htype _ rfl rfl

theorem reqRead_continues {load : Demand → C → Nat} {reads : Nat} {c : C} {path : List C}
    (h : Phase cfg.hasDirectoryCache load reads (some e)) (hn : Named cfg line e)
    (ht : transient e.type = false) (hpath : lqe.path = c :: path) (hc : c ∈ cfg.l2s)
    (hl : cfg.lineOf lqe.address = line) (htype : lqe.type = .read ∨ lqe.type = .write) :
    ∃ o, reqRead cfg t e lqe st = .ok o ∧ Continues cfg line load reads o := by
  simp only [reqRead, Lqe.top_ok hpath, bind, Except.bind]
  by_cases hmem : c ∈ e.sharedL2
  · rw [if_pos hmem]
    exact nack_continues h hn hpath hl
  rw [if_neg hmem]
  cases h with
  | owned htE hs _ hload hreads =>
    subst hload hreads
    obtain ⟨owner, ho⟩ := Finset.card_eq_one.mp hs
    have one : ¬ e.sharedL2.card ≠ 1 := not_not.mpr hs
    rw [if_pos htE, if_neg one, ho, first_singleton]
    rcases htE with hE | hM
    · exact ⟨_, if_pos hE, askOwner_continues hn hpath hc hl htype (.inl rfl) rfl (by simp)⟩
    · have notE : e.type ≠ .exclusive := by simp [hM]
      exact ⟨_, if_neg notE, askOwner_continues hn hpath hc hl htype (.inr rfl) rfl
        (fun _ => ho.subset)⟩
  | shared hS hs _ hload hreads =>
    subst hload hreads
    have notOwned : ¬ (e.type = .exclusive ∨ e.type = .modified) := by simp [hS]
    rw [if_neg notOwned, if_pos hS]
    cases hf : first e.sharedL2 with
    | none => exact absurd (first_eq_none.mp hf) hs.ne_empty
    | some owner =>
      exact ⟨_, rfl, askOwner_continues hn hpath hc hl htype (.inl rfl) rfl (by simp)⟩
  | reading hT => rcases hT with h | h <;> simp [h, transient] at ht
  | upgrading _ hT => simp [hT, transient] at ht
  | invalidating _ hT => simp [hT, transient] at ht
  | lending _ _ hT => rcases hT with h | h <;> simp [h, transient] at ht

theorem invalidateOwner_continues {c owner : C} {path : List C} (hn : Named cfg line e)
    (hpath : lqe.path = c :: path) (hc : c ∈ cfg.l2s) (hl : cfg.lineOf lqe.address = line)
    (htype : lqe.type = .read ∨ lqe.type = .write) (ho : e.sharedL2 = {owner}) {o : Outcome C}
    {e' : DirEntry C} (hcalls : o.calls = [invalidation cfg t lqe owner .invalidate])
    (hentry : o.entry = some e') (hs : e'.sharedL2 = e.sharedL2) (hp : e'.pending = some lqe)
    (ht : e'.type = .trToM) : Continues cfg line 0 0 o := by
  have hroute : route cfg (invalidation cfg t lqe owner .invalidate) =
      .l2 owner ((Lqe.new owner .invalidate lqe.address lqe.thId).push cfg.self) :=
    route_addEventToComp owner
  refine continues_up hcalls hroute hl (fun _ => rfl) (zero_add _) ?_ ?_
  · rw [sentTo_demand hroute rfl, hentry, ← each_singleton, ← ho, ← hs]
    refine .invalidating lqe ht ?_ hp rfl rfl
    rw [hs, ho]
    exact Finset.singleton_nonempty owner
  · intro e'' he''
    rw [hentry] at he''
    cases he''
    exact hn.hold hpath hc hl htype e' hs hp

theorem reqWrite_continues {load : Demand → C → Nat} {reads : Nat} {c : C} {path : List C}
    (h : Phase cfg.hasDirectoryCache load reads (some e)) (hn : Named cfg line e)
    (ht : transient e.type = false) (hidle : e.pending = none) (hpath : lqe.path = c :: path)
    (hc : c ∈ cfg.l2s) (hl : cfg.lineOf lqe.address = line)
    (htype : lqe.type = .read ∨ lqe.type = .write) :
    ∃ o, reqWrite cfg t e lqe st = .ok o ∧ Continues cfg line load reads o := by
  cases h with
  | owned htE hs hp hload hreads =>
    subst hload hreads
    obtain ⟨owner, ho⟩ := Finset.card_eq_one.mp hs
    have one : ¬ e.sharedL2.card ≠ 1 := not_not.mpr hs
    rcases htE with hE | hM
    · simp only [reqWrite, hE, if_neg one, Lqe.top_ok hpath, bind, Except.bind]
      by_cases hmem : c ∈ e.sharedL2
      · obtain ⟨call, hcall, hroute⟩ :=
          @addEventToULpp_ok _ _ cfg t { lqe with type := .writeNd } _ _ false hpath
        rw [if_pos hmem, hcall]
        refine ⟨_, rfl, continues_up rfl hroute hl (by simp [demandOf]) (zero_add _) ?_ ?_⟩
        · rw [sentTo_demand hroute rfl]
          exact .upgrading c rfl hs hidle rfl rfl
        · rintro e' ⟨⟩
          exact ⟨hn.sharers, hn.pending⟩
      · rw [if_neg hmem, ho, first_singleton]
        exact ⟨_, rfl, invalidateOwner_continues hn hpath hc hl htype ho rfl rfl ho.symm rfl rfl⟩
    · have idle : ¬ (e.pending ≠ none ∨ e.sharedL2.card ≠ 1) := by simp [hidle, hs]
      simp only [reqWrite, hM, if_neg idle, Lqe.top_ok hpath, bind, Except.bind]
      by_cases hmem : c ∈ e.sharedL2
      · obtain ⟨call, hcall, hroute⟩ :=
          @addEventToUL_ok _ _ cfg t { lqe with type := .nack } _ _ false hpath
        rw [if_pos hmem, hcall]
        refine ⟨_, rfl, continues_up rfl hroute hl (by simp [demandOf]) ?_
          (.owned (.inr hM) hs hp rfl rfl) (fun e' h => by cases h; exact hn)⟩
        rw [sentTo_cons_l2 hroute rfl]
        simp
      · rw [if_neg hmem, ho, first_singleton]
        exact ⟨_, rfl, invalidateOwner_continues hn hpath hc hl htype ho rfl rfl ho.symm rfl rfl⟩
  | shared hS hs _ hload hreads =>
    subst hload hreads
    obtain ⟨sent, none, proper⟩ := invalidations_sent (t := t) hn.sharers hl
    refine ⟨_, by simp only [reqWrite, hS]; exact if_neg hs.ne_empty, ?_, ?_, proper⟩
    · simp only [sent, none, zero_add]
      exact .invalidating lqe rfl hs rfl rfl rfl
    · rintro e' ⟨⟩
      exact hn.hold hpath hc hl htype _ rfl rfl
  | reading hT => rcases hT with h | h <;> simp [h, transient] at ht
  | upgrading _ hT => simp [hT, transient] at ht
  | invalidating _ hT => simp [hT, transient] at ht
  | lending _ _ hT => rcases hT with h | h <;> simp [h, transient] at ht

theorem request_continues {load : Demand → C → Nat} {reads : Nat}
    {found : Option (DirEntry C)} {c : C} {path : List C}
    (h : Phase cfg.hasDirectoryCache load reads found) (hn : ∀ e, found = some e → Named cfg line e)
    (hidle : ∀ e, found = some e → transient e.type = false → e.pending = none)
    (hpath : lqe.path = c :: path) (hc : c ∈ cfg.l2s) (hl : cfg.lineOf lqe.address = line)
    (htype : lqe.type = .read ∨ lqe.type = .write) :
    ∃ o, request cfg t found lqe st = .ok o ∧ Continues cfg line load reads o := by
  cases found with
  | none =>
    cases h with
    | absent hload hreads =>
      subst hload hreads
      refine ⟨_, by simp only [request, reqNew, Lqe.top_ok hpath]; rfl, ?_, ?_, ?_⟩
      · rw [sentTo_cons_memory route_toMc, readsSent_cons_memory route_toMc]
        refine .reading ?_ (by simp) rfl rfl rfl
        by_cases hr : lqe.type = .read
        · exact .inl (if_pos hr)
        · exact .inr (if_neg hr)
      · rintro e' ⟨⟩
        exact ⟨by simp [hc], by simp⟩
      · simp [Proper, hl, Lqe.push, hpath, isInfo]
  | some e =>
    by_cases htr : transient e.type = true
    · simp only [request, if_pos htr]
      exact nack_continues h (hn e rfl) hpath hl
    · have hst : transient e.type = false := by simpa using htr
      rcases htype with hr | hw
      · simp only [request, if_neg htr, if_pos hr]
        exact reqRead_continues h (hn e rfl) hst hpath hc hl (.inl hr)
      · have notRead : lqe.type ≠ .read := by simp [hw]
        simp only [request, if_neg htr, if_neg notRead, if_pos hw]
        exact reqWrite_continues h (hn e rfl) hst (hidle e rfl hst) hpath hc hl (.inr hw)

end McSim.Directory
