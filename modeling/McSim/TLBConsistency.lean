import McSim.TLB
import Mathlib.Data.List.Perm.Subperm

/-! The two maps of a TLB.
Every record of `LRU` is for an entry; the entries all have a record as long as no two pages are
used at one time. -/

namespace McSim

open OrderedMap Contract

variable {C : Type} {cfg : TlbConfig} {t page : Nat}

namespace TlbL1

variable {s s' : TlbL1 C}

/-- The records of `LRU` are in order, none of them for the future, and each is for an entry. -/
structure Sound (t : Nat) (s : TlbL1 C) : Prop where
  orderedLru : Ordered s.lru
  ordered : Ordered s.entries
  past : ∀ e ∈ s.lru, e.1 ≤ t
  named : ∀ e ∈ s.lru, find e.2 s.entries = some e.1

/-- `entries.size() <= num_entries`, `LRU.size() = entries.size()`, and `LRU` tells the times of the
entries. -/
structure Consistent (cfg : TlbConfig) (s : TlbL1 C) : Prop where
  room : s.entries.length ≤ cfg.numEntries
  sizes : s.lru.length = s.entries.length
  named : ∀ e ∈ s.lru, find e.2 s.entries = some e.1

def Full (s : TlbL1 C) : Prop := s.lru.length = s.entries.length

theorem Sound.later {u : Nat} (h : s.Sound t) (le : t ≤ u) : s.Sound u :=
  { h with past := fun e he => (h.past e he).trans le }

theorem Sound.pages_inj (h : s.Sound t) : (s.lru.map (·.2)).Nodup := by
  refine List.Nodup.map_on (fun a ha b hb same => ?_) ((h.orderedLru.imp fun lt => ?_))
  · have first := h.named a ha
    rw [same, h.named b hb] at first
    exact Prod.ext (Option.some.inj first).symm same
  · exact fun same => absurd (congrArg Prod.fst same) lt.ne

theorem Sound.pages_subperm (h : s.Sound t) :
    (s.lru.map (·.2)).Subperm (s.entries.map (·.1)) := by
  refine List.subperm_of_subset h.pages_inj fun p hp => ?_
  obtain ⟨e, he, rfl⟩ := List.mem_map.mp hp
  exact List.mem_map.mpr ⟨_, mem_of_find (h.named e he), rfl⟩

theorem Sound.recorded (h : s.Sound t) (full : s.Full) {last : Nat}
    (hp : find page s.entries = some last) : (last, page) ∈ s.lru := by
  have perm := h.pages_subperm.perm_of_length_le (by simp [full.symm.le])
  have mem : page ∈ s.lru.map (·.2) := perm.mem_iff.mpr (List.mem_map.mpr ⟨_, mem_of_find hp, rfl⟩)
  obtain ⟨e, he, rfl⟩ := List.mem_map.mp mem
  have time := h.named e he
  rw [hp] at time
  cases time
  exact he

structure Evicts (s s' : TlbL1 C) : Prop where
  oldest : ∃ e, s.lru = e :: s'.lru ∧ s'.entries = erase e.2 s.entries
  entries : s'.entries.length + 1 = s.entries.length
  lru : s'.lru.length + 1 = s.lru.length
  reqQ : s'.reqQ = s.reqQ
  reqEvent : s'.reqEvent = s.reqEvent
  numMiss : s'.numMiss = s.numMiss

theorem evict_evicts (h : s.Sound t) (nonempty : s.lru ≠ []) :
    ∃ s', s.evict = .ok s' ∧ s.Evicts s' ∧ s'.Sound t := by
  obtain ⟨e, lru, split⟩ := List.exists_cons_of_ne_nil nonempty
  have found := h.named e (split ▸ List.mem_cons_self)
  have evicted : s.evict = .ok { s with entries := erase e.2 s.entries, lru } := by
    unfold evict
    rw [split]
    dsimp only
    rw [if_neg (by simp [found])]
    rfl
  have ordered := h.orderedLru
  have pages := h.pages_inj
  rw [split] at ordered pages
  refine ⟨_, evicted, ⟨⟨e, split, rfl⟩, length_erase_of_find h.ordered found, ?_, rfl, rfl, rfl⟩,
    ?_⟩
  · rw [split]
    rfl
  · refine ⟨(List.pairwise_cons.mp ordered).2, erase_ordered h.ordered, fun a ha => ?_,
      fun a ha => ?_⟩
    · exact h.past a (split ▸ List.mem_cons_of_mem e ha)
    · have other : a.2 ≠ e.2 := fun same =>
        (List.nodup_cons.mp pages).1 (List.mem_map.mpr ⟨a, ha, same⟩)
      rw [find_erase, if_neg other]
      exact h.named a (split ▸ List.mem_cons_of_mem e ha)

/-- What a use of a page does to the maps, by where the page is -/
inductive Uses (cfg : TlbConfig) (t page : Nat) (s : TlbL1 C) : TlbL1 C → Bool → Prop
  | hit {last : Nat} (found : find page s.entries = some last) :
    Uses cfg t page s (s.renew t page last) true
  | room (absent : find page s.entries = none) (room : s.lru.length < cfg.numEntries) :
    Uses cfg t page s (s.enter t page) false
  | full {s₁ : TlbL1 C} (absent : find page s.entries = none) (full : cfg.numEntries ≤ s.lru.length)
    (evicts : s.Evicts s₁) (sound : s₁.Sound t) : Uses cfg t page s (s₁.enter t page) false

theorem access_uses (h : s.Sound t) (pos : 0 < cfg.numEntries) (page : Nat) :
    ∃ s' hit, s.access cfg t page = .ok (s', hit) ∧ Uses cfg t page s s' hit := by
  unfold access
  cases found : find page s.entries with
  | some last => exact ⟨_, _, rfl, .hit found⟩
  | none =>
    by_cases full : cfg.numEntries ≤ s.lru.length
    · obtain ⟨s₁, evicted, evicts, sound⟩ := evict_evicts h fun none => by
        rw [none] at full
        exact absurd full (by simpa using pos.ne')
      refine ⟨s₁.enter t page, false, ?_, .full found full evicts sound⟩
      simp only [if_pos full, evicted]
      rfl
    · refine ⟨s.enter t page, false, ?_, .room found (not_le.mp full)⟩
      simp only [if_neg full]
      rfl

theorem Sound.renew (h : s.Sound t) {last : Nat} (found : find page s.entries = some last) :
    (s.renew t page last).Sound t where
  orderedLru := insert_ordered (erase_ordered h.orderedLru)
  ordered := assign_ordered h.ordered
  past e he := by
    rcases of_mem_insert he with rfl | he
    · exact le_rfl
    · exact h.past e (mem_erase.mp he).1
  named e he := by
    have value := find_assign page t s.entries e.2
    rcases of_mem_insert he with rfl | he
    · exact value.trans (if_pos rfl)
    · obtain ⟨he, old⟩ := mem_erase.mp he
      have time := h.named e he
      refine value.trans ((if_neg fun same => old ?_).trans time)
      rw [same, found] at time
      exact (Option.some.inj time).symm

theorem Sound.enter (h : s.Sound t) (absent : find page s.entries = none) :
    (s.enter t page).Sound t where
  orderedLru := insert_ordered h.orderedLru
  ordered := insert_ordered h.ordered
  past e he := by
    rcases of_mem_insert he with rfl | he
    · exact le_rfl
    · exact h.past e he
  named e he := by
    have value := find_assign page t s.entries e.2
    rw [← insert_eq_assign absent] at value
    rcases of_mem_insert he with rfl | he
    · exact value.trans (if_pos rfl)
    · have time := h.named e he
      refine value.trans ((if_neg fun same => ?_).trans time)
      rw [same, absent] at time
      cases time

theorem Uses.sound {hit : Bool} (h : s.Sound t) (uses : Uses cfg t page s s' hit) : s'.Sound t := by
  cases uses with
  | hit found => exact h.renew found
  | room absent room => exact h.enter absent
  | @full s₁ absent full evicts sound =>
    obtain ⟨e, -, entries⟩ := evicts.oldest
    refine sound.enter ?_
    rw [entries, find_erase, absent, ite_self]

def Collides (t page : Nat) (s : TlbL1 C) : Prop := ∃ q, (t, q) ∈ s.lru ∧ q ≠ page

theorem Uses.keeps {hit : Bool} (h : s.Sound t) (consistent : s.Consistent cfg)
    (apart : ¬ Collides t page s ∨ cfg.numEntries = 1) (uses : Uses cfg t page s s' hit) :
    s'.Consistent cfg ∧ (t, page) ∈ s'.lru := by
  have named := (uses.sound h).named
  have full : s.Full := consistent.sizes
  have sizes := consistent.sizes
  have small := consistent.room
  cases uses with
  | @hit last found =>
    have record := h.recorded full found
    have free : find t (erase last s.lru) = none := find_eq_none.mpr fun e he now => by
      obtain ⟨he, old⟩ := mem_erase.mp he
      have same : e.2 = page := by
        rcases apart with apart | one
        · exact not_not.mp fun other => apart ⟨e.2, now ▸ he, other⟩
        · rw [one, ← sizes] at small
          obtain ⟨r, hr⟩ := List.length_eq_one_iff.mp
            (le_antisymm small (List.length_pos_of_mem he))
          rw [hr, List.mem_singleton] at he record
          rw [he, ← record]
      have time := h.named e he
      rw [same, found] at time
      exact old (Option.some.inj time).symm
    have entries : (assign page t s.entries).length = s.entries.length :=
      length_assign_of_find h.ordered found t
    have shorter := length_erase_of_find h.orderedLru (find_of_mem h.orderedLru record)
    have longer := length_insert_of_absent free page
    refine ⟨⟨entries.le.trans small, ?_, named⟩,
      mem_insert_self fun e he => find_eq_none.mp free e he⟩
    show (insert t page (erase last s.lru)).length = (assign page t s.entries).length
    omega
  | room absent room =>
    have free : find t s.lru = none := find_eq_none.mpr fun e he now => by
      have other : e.2 ≠ page := fun same => by
        have time := h.named e he
        rw [same, absent] at time
        cases time
      rcases apart with apart | one
      · exact apart ⟨e.2, now ▸ he, other⟩
      · have := List.length_pos_of_mem he
        omega
    have entries := length_insert_of_absent absent t
    have longer := length_insert_of_absent free page
    refine ⟨⟨?_, ?_, named⟩, mem_insert_self fun e he => find_eq_none.mp free e he⟩
    · show (insert page t s.entries).length ≤ cfg.numEntries
      omega
    · show (insert t page s.lru).length = (insert page t s.entries).length
      omega
  | @full s₁ absent many evicts sound =>
    obtain ⟨oldest, split, erased⟩ := evicts.oldest
    have gone : find page s₁.entries = none := by rw [erased, find_erase, absent, ite_self]
    have free : find t s₁.lru = none := find_eq_none.mpr fun e he now => by
      have mem : e ∈ s.lru := split ▸ List.mem_cons_of_mem oldest he
      have other : e.2 ≠ page := fun same => by
        have time := h.named e mem
        rw [same, absent] at time
        cases time
      rcases apart with apart | one
      · exact apart ⟨e.2, now ▸ mem, other⟩
      · have := List.length_pos_of_mem he
        have := evicts.lru
        omega
    have entries := length_insert_of_absent gone t
    have longer := length_insert_of_absent free page
    have evicted := evicts.entries
    have dropped := evicts.lru
    refine ⟨⟨?_, ?_, named⟩, mem_insert_self fun e he => find_eq_none.mp free e he⟩
    · show (insert page t s₁.entries).length ≤ cfg.numEntries
      omega
    · show (insert t page s₁.lru).length = (insert page t s₁.entries).length
      omega

theorem Uses.stuck {hit : Bool} {q : Nat} (h : s.Sound t) (many : 1 < cfg.numEntries)
    (stamped : (t, q) ∈ s.lru) (uses : Uses cfg t page s s' hit) : (∃ q', (t, q') ∈ s'.lru) ∧
      s'.lru.length + s.entries.length ≤ s.lru.length + s'.entries.length ∧
      (s.Full → q ≠ page →
        s'.lru.length + s.entries.length < s.lru.length + s'.entries.length) := by
  cases uses with
  | @hit last found =>
    have entries : (assign page t s.entries).length = s.entries.length :=
      length_assign_of_find h.ordered found t
    by_cases now : last = t
    · subst now
      have free : find last (erase last s.lru) = none := by rw [find_erase, if_pos rfl]
      have shorter := length_erase_of_find h.orderedLru (find_of_mem h.orderedLru stamped)
      have longer := length_insert_of_absent free page
      refine ⟨⟨page, mem_insert_self fun e he => find_eq_none.mp free e he⟩, ?_,
        fun full other => ?_⟩
      · show (insert last page (erase last s.lru)).length + _ ≤
          _ + (assign page last s.entries).length
        omega
      · have same := find_of_mem h.orderedLru (h.recorded full found)
        rw [find_of_mem h.orderedLru stamped] at same
        exact absurd (Option.some.inj same) other
    · have kept : (t, q) ∈ erase last s.lru := mem_erase.mpr ⟨stamped, Ne.symm now⟩
      have ordered : Ordered (erase last s.lru) := erase_ordered h.orderedLru
      have lru : insert t page (erase last s.lru) = erase last s.lru :=
        insert_of_find ordered (find_of_mem ordered kept)
      have shorter : (erase last s.lru).length ≤ s.lru.length := List.length_filter_le _ _
      refine ⟨⟨q, mem_insert_of_mem kept⟩, ?_, fun full _ => ?_⟩
      · show (insert t page (erase last s.lru)).length + _ ≤ _ + (assign page t s.entries).length
        rw [lru]
        omega
      · have strict := length_erase_of_find h.orderedLru
          (find_of_mem h.orderedLru (h.recorded full found))
        show (insert t page (erase last s.lru)).length + _ < _ + (assign page t s.entries).length
        rw [lru]
        omega
  | room absent room =>
    have lru : insert t page s.lru = s.lru :=
      insert_of_find h.orderedLru (find_of_mem h.orderedLru stamped)
    have entries := length_insert_of_absent absent t
    have strict : (insert t page s.lru).length + s.entries.length <
        s.lru.length + (insert page t s.entries).length := by
      rw [lru]
      omega
    exact ⟨⟨q, mem_insert_of_mem stamped⟩, strict.le, fun _ _ => strict⟩
  | @full s₁ absent full evicts sound =>
    obtain ⟨oldest, split, erased⟩ := evicts.oldest
    have gone : find page s₁.entries = none := by rw [erased, find_erase, absent, ite_self]
    have dropped := evicts.lru
    have evicted := evicts.entries
    have kept : (t, q) ∈ s₁.lru := by
      have ordered := h.orderedLru
      rw [split] at stamped ordered
      refine (List.mem_cons.mp stamped).resolve_left fun first => ?_
      obtain ⟨next, hn⟩ := List.exists_mem_of_length_pos (l := s₁.lru) (by omega)
      have later := (List.pairwise_cons.mp ordered).1 next hn
      have past := sound.past next hn
      rw [← first] at later
      exact absurd later (not_lt.mpr past)
    have lru : insert t page s₁.lru = s₁.lru :=
      insert_of_find sound.orderedLru (find_of_mem sound.orderedLru kept)
    have entries := length_insert_of_absent gone t
    have strict : (insert t page s₁.lru).length + s.entries.length <
        s.lru.length + (insert page t s₁.entries).length := by
      rw [lru]
      omega
    exact ⟨⟨q, mem_insert_of_mem kept⟩, strict.le, fun _ _ => strict⟩

inductive Serves (cfg : TlbConfig) (t : Nat) : TlbL1 C → List (Service C) → TlbL1 C → Prop
  | done (s : TlbL1 C) : Serves cfg t s [] s
  | next {s s₁ s' : TlbL1 C} {lqe : Lqe C} {reqQ : List (Lqe C)} {hit : Bool}
    {services : List (Service C)} (head : s.reqQ = lqe :: reqQ)
    (uses : Uses cfg t (cfg.page lqe) { s with reqQ, numAccess := s.numAccess + 1 } s₁ hit)
    (rest : Serves cfg t s₁ services s') : Serves cfg t s ({ time := t, lqe, hit } :: services) s'

def Answers (cfg : TlbConfig) : List (Service C) → List (Call C) → Prop :=
  List.Forall₂ fun e call => ∃ comp path, e.lqe.path = comp :: path ∧ call = e.answer cfg comp

theorem Sound.congr (h : s.Sound t) (lru : s'.lru = s.lru) (entries : s'.entries = s.entries) :
    s'.Sound t where
  orderedLru := lru ▸ h.orderedLru
  ordered := entries ▸ h.ordered
  past := lru ▸ h.past
  named := by
    rw [lru, entries]
    exact h.named

theorem Sound.popped (h : s.Sound t) (reqQ : List (Lqe C)) :
    Sound t { s with reqQ, numAccess := s.numAccess + 1 } := h.congr rfl rfl

theorem Consistent.popped (h : s.Consistent cfg) (reqQ : List (Lqe C)) :
    Consistent cfg { s with reqQ, numAccess := s.numAccess + 1 } := ⟨h.room, h.sizes, h.named⟩

theorem Uses.queues {hit : Bool} (uses : Uses cfg t page s s' hit) :
    s'.reqQ = s.reqQ ∧ s'.reqEvent = s.reqEvent := by
  cases uses with
  | hit found => exact ⟨rfl, rfl⟩
  | room absent room => exact ⟨rfl, rfl⟩
  | full absent full evicts sound => exact ⟨evicts.reqQ, evicts.reqEvent⟩

theorem serve_serves (pos : 0 < cfg.numEntries) (k : Nat) (h : s.Sound t)
    (paths : ∀ lqe ∈ s.reqQ, lqe.path ≠ []) : ∃ s' effects, serve cfg t k s = .ok (s', effects) ∧
      Serves cfg t s effects.served s' ∧ Answers cfg effects.served effects.calls ∧
      effects.served.length = min k s.reqQ.length := by
  induction k generalizing s with
  | zero => exact ⟨s, {}, rfl, .done s, .nil, (Nat.zero_min _).symm⟩
  | succ k ih =>
    unfold serve
    cases head : s.reqQ with
    | nil => exact ⟨s, {}, rfl, .done s, .nil, rfl⟩
    | cons lqe reqQ =>
      obtain ⟨comp, path, hpath⟩ :=
        List.exists_cons_of_ne_nil (paths lqe (head ▸ List.mem_cons_self))
      have popped := h.popped reqQ
      obtain ⟨s₁, hit, accessed, uses⟩ := access_uses popped pos (cfg.page lqe)
      obtain ⟨s', effects, served, serves, answers, length⟩ :=
        ih (uses.sound popped) fun other ho => by
        rw [uses.queues.1] at ho
        exact paths other (head ▸ List.mem_cons_of_mem lqe ho)
      refine ⟨s', { effects with
        calls := Service.answer cfg ⟨t, lqe, hit⟩ comp :: effects.calls
        served := ⟨t, lqe, hit⟩ :: effects.served }, ?_, .next head uses serves,
        .cons ⟨comp, path, hpath, rfl⟩ answers, ?_⟩
      · dsimp only
        rw [Lqe.top_ok hpath]
        show (access cfg t (cfg.page lqe) { s with reqQ, numAccess := s.numAccess + 1 } >>= _) = _
        rw [accessed]
        show (serve cfg t k s₁ >>= _) = _
        rw [served]
        rfl
      · rw [List.length_cons, length, uses.queues.1, List.length_cons, Nat.succ_min_succ]

theorem Serves.sound {services : List (Service C)} (h : s.Sound t)
    (serves : Serves cfg t s services s') : s'.Sound t := by
  induction serves with
  | done s => exact h
  | next head uses rest ih => exact ih (uses.sound (h.popped _))

theorem Serves.nil (serves : Serves cfg t s [] s') : s' = s := by
  cases serves
  rfl

def Single (cfg : TlbConfig) (t : Nat) (s : TlbL1 C) (services : List (Service C)) : Prop :=
  ∀ e ∈ services, (∀ q, (t, q) ∈ s.lru → cfg.page e.lqe = q) ∧
    ∀ e' ∈ services, cfg.page e.lqe = cfg.page e'.lqe

theorem Serves.keeps_one {services : List (Service C)} (h : s.Sound t)
    (consistent : s.Consistent cfg) (one : cfg.numEntries = 1)
    (serves : Serves cfg t s services s') : s'.Consistent cfg := by
  induction serves with
  | done s => exact consistent
  | next head uses rest ih =>
    exact ih (uses.sound (h.popped _)) (uses.keeps (h.popped _) (consistent.popped _) (.inr one)).1

theorem Serves.keeps {services : List (Service C)} (h : s.Sound t) (consistent : s.Consistent cfg)
    (single : Single cfg t s services) (serves : Serves cfg t s services s') :
    s'.Consistent cfg ∧ ∀ q, ((t, q) ∈ s.lru ∨ ∃ e ∈ services, cfg.page e.lqe = q) →
      (t, q) ∈ s'.lru := by
  induction serves with
  | done s =>
    refine ⟨consistent, fun q hq => hq.resolve_right ?_⟩
    rintro ⟨e, he, -⟩
    cases he
  | @next s s₁ s' lqe reqQ hit services head uses rest ih =>
    have popped := h.popped reqQ
    obtain ⟨first, pages⟩ := single _ List.mem_cons_self
    obtain ⟨consistent₁, marked⟩ := uses.keeps popped (consistent.popped _)
      (.inl fun ⟨q, hq, other⟩ => other (first q hq).symm)
    have sound₁ := uses.sound popped
    have only : ∀ q, (t, q) ∈ s₁.lru → cfg.page lqe = q := fun q hq => by
      have same := find_of_mem sound₁.orderedLru marked
      rw [find_of_mem sound₁.orderedLru hq] at same
      exact (Option.some.inj same).symm
    have single₁ : Single cfg t s₁ services := fun e he =>
      ⟨fun q hq => (pages e (List.mem_cons_of_mem _ he)).symm.trans (only q hq),
        fun e' he' => (single e (List.mem_cons_of_mem _ he)).2 e' (List.mem_cons_of_mem _ he')⟩
    obtain ⟨consistent', marks⟩ := ih sound₁ consistent₁ single₁
    refine ⟨consistent', fun q hq => marks q ?_⟩
    rcases hq with hq | ⟨e, he, rfl⟩
    · exact .inl (first q hq ▸ marked)
    · rcases List.mem_cons.mp he with rfl | he
      · exact .inl marked
      · exact .inr ⟨e, he, rfl⟩

theorem Serves.stuck {services : List (Service C)} {q : Nat} (h : s.Sound t)
    (many : 1 < cfg.numEntries) (stamped : (t, q) ∈ s.lru) (serves : Serves cfg t s services s') :
    s'.lru.length + s.entries.length ≤ s.lru.length + s'.entries.length := by
  induction serves generalizing q with
  | done s => exact le_rfl
  | @next s s₁ s' lqe reqQ hit services head uses rest ih =>
    have popped := h.popped reqQ
    obtain ⟨⟨q', stamped'⟩, sizes, -⟩ := uses.stuck popped many stamped
    have rest' := ih (uses.sound popped) stamped'
    have sizes : s₁.lru.length + s.entries.length ≤ s.lru.length + s₁.entries.length := sizes
    omega

theorem Serves.single {services : List (Service C)} (h : s.Sound t) (consistent : s.Consistent cfg)
    (many : 1 < cfg.numEntries) (serves : Serves cfg t s services s') (full : s'.Full) :
    Single cfg t s services := by
  induction serves with
  | done s => exact fun e he => (nomatch he)
  | @next s s₁ s' lqe reqQ hit services head uses rest ih =>
    have popped := h.popped reqQ
    have sound₁ := uses.sound popped
    have apart : ¬ Collides t (cfg.page lqe) s := fun ⟨q, stamped, other⟩ => by
      obtain ⟨⟨q', stamped'⟩, -, strict⟩ := uses.stuck popped many stamped
      have sizes := rest.stuck sound₁ many stamped'
      have strict : s₁.lru.length + s.entries.length < s.lru.length + s₁.entries.length :=
        strict consistent.sizes other
      have start := consistent.sizes
      have full : s'.lru.length = s'.entries.length := full
      omega
    obtain ⟨consistent₁, marked⟩ := uses.keeps popped (consistent.popped _)
      (.inl apart)
    have rest' := ih sound₁ consistent₁ full
    have pages : ∀ e ∈ services, cfg.page e.lqe = cfg.page lqe :=
      fun e he => (rest' e he).1 _ marked
    have first : ∀ q, (t, q) ∈ s.lru → cfg.page lqe = q := fun q hq =>
      (not_not.mp fun other => apart ⟨q, hq, other⟩).symm
    intro e he
    have here : cfg.page e.lqe = cfg.page lqe := by
      rcases List.mem_cons.mp he with rfl | he
      · rfl
      · exact pages e he
    refine ⟨fun q hq => here.trans (first q hq), fun e' he' => here.trans ?_⟩
    rcases List.mem_cons.mp he' with rfl | he'
    · rfl
    · exact (pages e' he').symm

theorem Uses.records {hit : Bool} (uses : Uses cfg t page s s' hit) {r : Nat × Nat}
    (hr : r ∈ s'.lru) : r = (t, page) ∨ r ∈ s.lru := by
  cases uses with
  | hit found => exact (of_mem_insert hr).imp_right fun old => (mem_erase.mp old).1
  | room absent room => exact of_mem_insert hr
  | full absent full evicts sound =>
    obtain ⟨oldest, split, -⟩ := evicts.oldest
    exact (of_mem_insert hr).imp_right fun old => split ▸ List.mem_cons_of_mem oldest old

theorem Serves.facts {services : List (Service C)} (serves : Serves cfg t s services s') :
    s.reqQ = services.map (·.lqe) ++ s'.reqQ ∧ s'.reqEvent = s.reqEvent ∧
      (∀ e ∈ services, e.time = t) ∧
      ∀ r ∈ s'.lru, r ∈ s.lru ∨ ∃ e ∈ services, e.time = r.1 ∧ cfg.page e.lqe = r.2 := by
  induction serves with
  | done s => exact ⟨rfl, rfl, fun _ h => (nomatch h), fun r hr => .inl hr⟩
  | @next s s₁ s' lqe reqQ hit services head uses rest ih =>
    obtain ⟨queue, events⟩ := uses.queues
    obtain ⟨queue', events', times, records⟩ := ih
    refine ⟨?_, events'.trans events, fun e he => ?_, fun r hr => ?_⟩
    · rw [head, List.map_cons, List.cons_append, ← queue', queue]
    · rcases List.mem_cons.mp he with rfl | he
      · rfl
      · exact times e he
    · rcases records r hr with old | ⟨e, he, here⟩
      · rcases uses.records old with rfl | old
        · exact .inr ⟨_, List.mem_cons_self, rfl, rfl⟩
        · exact .inl old
      · exact .inr ⟨e, List.mem_cons_of_mem _ he, here⟩

end TlbL1

namespace TlbSystem

open TlbL1

variable {s s' : TlbSystem C}

def after (cfg : TlbConfig) (events : List (TlbEvent C)) : Except Abort (TlbSystem C) :=
  follow cfg {} events

theorem follow_snoc {events : List (TlbEvent C)} {e : TlbEvent C}
    (hs : follow cfg s (events ++ [e]) = .ok s') :
    ∃ s₁, follow cfg s events = .ok s₁ ∧ Timely s₁.agenda e ∧ step cfg s₁ e = .ok s' := by
  induction events generalizing s with
  | nil =>
    unfold follow at hs
    by_cases timely : Timely s.agenda e
    · rw [List.nil_append] at hs
      dsimp only at hs
      rw [if_pos timely] at hs
      cases stepped : step cfg s e with
      | error a =>
        rw [stepped] at hs
        cases hs
      | ok s₁ =>
        rw [stepped] at hs
        cases hs
        exact ⟨s, rfl, timely, stepped⟩
    · simp [timely, bind, Except.bind] at hs
  | cons e' events ih =>
    rw [List.cons_append] at hs
    unfold follow at hs ⊢
    by_cases timely : Timely s.agenda e'
    · rw [if_pos timely] at hs ⊢
      cases stepped : step cfg s e' with
      | error a =>
        rw [stepped] at hs
        cases hs
      | ok s₁ =>
        rw [stepped] at hs
        exact ih hs
    · simp [timely, bind, Except.bind] at hs

/-- The records are for what was served, and nothing is served or recorded for the future. -/
structure Inv (cfg : TlbConfig) (s : TlbSystem C) : Prop where
  sound : s.tlb.Sound (s.agenda.now.getD 0)
  past : ∀ e ∈ s.served, e.time ≤ s.agenda.now.getD 0
  records : ∀ r ∈ s.tlb.lru, ∃ e ∈ s.served, e.time = r.1 ∧ cfg.page e.lqe = r.2
  paths : ∀ lqe ∈ s.tlb.reqQ ++ s.tlb.reqEvent.map (·.2), lqe.path ≠ []

theorem inv_init (cfg : TlbConfig) : Inv cfg ({} : TlbSystem C) where
  sound := ⟨ordered_nil, ordered_nil, fun _ h => (nomatch h), fun _ h => (nomatch h)⟩
  past _ h := by cases h
  records _ h := by cases h
  paths _ h := by cases h

structure Processed (cfg : TlbConfig) (t : Nat) (s s' : TlbSystem C) (services : List (Service C)) :
    Prop where
  serves : Serves cfg t (s.tlb.enqueue t) services s'.tlb
  length : services.length = min cfg.speedup (s.tlb.enqueue t).reqQ.length
  served : s'.served = s.served ++ services
  calls : ∃ calls, s'.calls = s.calls ++ calls ∧ Answers cfg services calls
  added : s'.added = s.added
  ticks : s'.ticks = s.ticks ++ [t]
  agenda : s'.agenda = if s'.tlb.reqQ = [] then s.agenda.take t
    else (s.agenda.take t).add (t + cfg.processInterval)

theorem now_le {a : Agenda} (next : a.Next t) : a.now.getD 0 ≤ t := by
  cases h : a.now with
  | none => exact Nat.zero_le t
  | some n => exact next.1 n h

theorem enqueue_paths (h : Inv cfg s) (t : Nat) :
    ∀ lqe ∈ (s.tlb.enqueue t).reqQ, lqe.path ≠ [] := by
  intro lqe hl
  refine h.paths lqe (List.mem_append.mpr ?_)
  rcases List.mem_append.mp hl with hl | hl
  · exact .inl hl
  · exact .inr (List.map_subset _ (List.takeWhile_prefix _).subset hl)

theorem process_processed (pos : 0 < cfg.numEntries) (h : Inv cfg s) (next : s.agenda.Next t) :
    ∃ s' services, step cfg s (.process t) = .ok s' ∧ Processed cfg t s s' services := by
  have sound : (s.tlb.enqueue t).Sound t := (h.sound.later (now_le next)).congr rfl rfl
  obtain ⟨tlb, effects, served, serves, answers, length⟩ :=
    serve_serves pos cfg.speedup sound (enqueue_paths h t)
  have processed : s.tlb.processEvent cfg t = .ok (tlb, { effects with
      wakeups := if tlb.reqQ = [] then [] else [t + cfg.processInterval] }) := by
    unfold processEvent
    rw [served]
    rfl
  refine ⟨record { s with agenda := s.agenda.take t, ticks := s.ticks ++ [t] } tlb { effects with
    wakeups := if tlb.reqQ = [] then [] else [t + cfg.processInterval] },
      effects.served, ?_, serves,
    length, rfl, ⟨effects.calls, rfl, answers⟩, rfl, rfl, ?_⟩
  · unfold step
    dsimp only
    rw [processed]
    rfl
  · unfold record
    dsimp only
    split <;> rfl

theorem Processed.inv {services : List (Service C)} (h : Inv cfg s) (next : s.agenda.Next t)
    (processed : Processed cfg t s s' services) : Inv cfg s' := by
  have now : s'.agenda.now.getD 0 = t := by
    rw [processed.agenda]
    split <;> rfl
  have sound : (s.tlb.enqueue t).Sound t := (h.sound.later (now_le next)).congr rfl rfl
  obtain ⟨queue, events, times, records⟩ := processed.serves.facts
  refine ⟨?_, fun e he => ?_, fun r hr => ?_, fun lqe hl => ?_⟩
  · rw [now]
    exact processed.serves.sound sound
  · rw [now]
    rw [processed.served] at he
    rcases List.mem_append.mp he with he | he
    · exact (h.past e he).trans (now_le next)
    · exact (times e he).le
  · rw [processed.served]
    rcases records r hr with old | ⟨e, he, here⟩
    · obtain ⟨e, he, here⟩ := h.records r old
      exact ⟨e, List.mem_append_left _ he, here⟩
    · exact ⟨e, List.mem_append_right _ he, here⟩
  · rcases List.mem_append.mp hl with hl | hl
    · refine enqueue_paths h t lqe ?_
      rw [queue]
      exact List.mem_append_right _ hl
    · rw [events] at hl
      obtain ⟨e, he, rfl⟩ := List.mem_map.mp hl
      exact h.paths _ (List.mem_append_right _
        (List.mem_map_of_mem (Multimap.mem_of_mem_erase he).1))

theorem step_add (cfg : TlbConfig) (s : TlbSystem C) (time : Nat) (lqe : Lqe C) :
    step cfg s (.add time lqe) = .ok { s with
      tlb := { s.tlb with reqEvent := Multimap.insert time lqe s.tlb.reqEvent }
      agenda := s.agenda.add time
      added := s.added ++ [(time, lqe)] } := by
  simp [step, record, addReqEvent, pure, Except.pure]

theorem step_inv (pos : 0 < cfg.numEntries) (h : Inv cfg s) (e : TlbEvent C)
    (timely : Timely s.agenda e) (hs : step cfg s e = .ok s') : Inv cfg s' := by
  cases e with
  | add time lqe =>
    rw [step_add] at hs
    cases hs
    refine ⟨h.sound.congr rfl rfl, h.past, h.records, fun other ho => ?_⟩
    rcases List.mem_append.mp ho with ho | ho
    · exact h.paths other (List.mem_append_left _ ho)
    · obtain ⟨e, he, rfl⟩ := List.mem_map.mp ho
      rcases Multimap.mem_insert.mp he with rfl | he
      · exact timely.2
      · exact h.paths _ (List.mem_append_right _ (List.mem_map_of_mem he))
  | advance t =>
    cases hs
    have le := now_le timely
    exact ⟨h.sound.later le, fun e he => (h.past e he).trans le, h.records, h.paths⟩
  | process t =>
    obtain ⟨s₁, services, stepped, processed⟩ := process_processed pos h timely.2
    rw [stepped] at hs
    cases hs
    exact processed.inv h timely.2

/-- No two pages are used at one time. -/
def Apart (cfg : TlbConfig) (served : List (Service C)) : Prop :=
  ∀ e ∈ served, ∀ e' ∈ served, e.time = e'.time → cfg.page e.lqe = cfg.page e'.lqe

def Latest (cfg : TlbConfig) (s : TlbSystem C) : Prop :=
  ∀ e ∈ s.served, (∀ e' ∈ s.served, e'.time ≤ e.time) → (e.time, cfg.page e.lqe) ∈ s.tlb.lru

theorem consistent_process {services : List (Service C)} (h : Inv cfg s)
    (consistent : s.tlb.Consistent cfg) (next : s.agenda.Next t)
    (processed : Processed cfg t s s' services)
    (apart : cfg.numEntries = 1 ∨ Apart cfg s'.served) : s'.tlb.Consistent cfg := by
  have sound : (s.tlb.enqueue t).Sound t := (h.sound.later (now_le next)).congr rfl rfl
  have start : (s.tlb.enqueue t).Consistent cfg :=
    ⟨consistent.room, consistent.sizes, consistent.named⟩
  rcases apart with one | apart
  · exact processed.serves.keeps_one sound start one
  · obtain ⟨-, -, times, -⟩ := processed.serves.facts
    rw [processed.served] at apart
    refine (processed.serves.keeps sound start fun e he => ⟨fun q hq => ?_, fun e' he' => ?_⟩).1
    · obtain ⟨e', he', time, page⟩ := h.records (t, q) hq
      refine (apart e (List.mem_append_right _ he) e' (List.mem_append_left _ he') ?_).trans page
      rw [times e he, time]
    · refine apart e (List.mem_append_right _ he) e' (List.mem_append_right _ he') ?_
      rw [times e he, times e' he']

theorem apart_process {services : List (Service C)} (h : Inv cfg s) (many : 1 < cfg.numEntries)
    (consistent : s.tlb.Consistent cfg) (consistent' : s'.tlb.Consistent cfg)
    (next : s.agenda.Next t) (processed : Processed cfg t s s' services)
    (apart : Apart cfg s.served) (latest : Latest cfg s) : Apart cfg s'.served ∧ Latest cfg s' := by
  have sound : (s.tlb.enqueue t).Sound t := (h.sound.later (now_le next)).congr rfl rfl
  have start : (s.tlb.enqueue t).Consistent cfg :=
    ⟨consistent.room, consistent.sizes, consistent.named⟩
  have single := processed.serves.single sound start many consistent'.sizes
  have marks := (processed.serves.keeps sound start single).2
  obtain ⟨-, -, times, -⟩ := processed.serves.facts
  have past : ∀ e ∈ s.served, e.time ≤ t := fun e he => (h.past e he).trans (now_le next)
  have marked : ∀ e ∈ s.served, e.time = t → (t, cfg.page e.lqe) ∈ (s.tlb.enqueue t).lru := by
    intro e he now
    have record := latest e he fun e' he' => (past e' he').trans now.ge
    rwa [now] at record
  have mixed : ∀ e ∈ services, ∀ e' ∈ s.served, e'.time = t → cfg.page e.lqe = cfg.page e'.lqe :=
    fun e he e' he' now => (single e he).1 _ (marked e' he' now)
  unfold Apart Latest
  rw [processed.served]
  refine ⟨fun e he e' he' same => ?_, fun e he max => ?_⟩
  · rcases List.mem_append.mp he with old | new
    · rcases List.mem_append.mp he' with old' | new'
      · exact apart e old e' old' same
      · exact (mixed e' new' e old (same.trans (times e' new'))).symm
    · rcases List.mem_append.mp he' with old' | new'
      · exact mixed e new e' old' (same.symm.trans (times e new))
      · exact (single e new).2 e' new'
  · rcases List.mem_append.mp he with old | new
    · cases services with
      | nil =>
        rw [processed.serves.nil]
        refine latest e old fun e' he' => max e' ?_
        rwa [List.append_nil]
      | cons e' services =>
        have now : e.time = t := le_antisymm (past e old) <| by
          rw [← times e' List.mem_cons_self]
          exact max e' (List.mem_append_right _ List.mem_cons_self)
        rw [now]
        exact marks _ (.inl (marked e old now))
    · rw [times e new]
      exact marks _ (.inr ⟨e, new, rfl⟩)

theorem step_quiet {e : TlbEvent C} (hs : step cfg s e = .ok s') (quiet : ∀ t, e ≠ .process t) :
    s'.served = s.served ∧ s'.tlb.lru = s.tlb.lru ∧ s'.tlb.entries = s.tlb.entries := by
  cases e with
  | add time lqe =>
    rw [step_add] at hs
    cases hs
    exact ⟨rfl, rfl, rfl⟩
  | advance t =>
    cases hs
    exact ⟨rfl, rfl, rfl⟩
  | process t => exact absurd rfl (quiet t)

theorem after_inv (pos : 0 < cfg.numEntries) {events : List (TlbEvent C)}
    (hs : after cfg events = .ok s) : Inv cfg s := by
  induction events using List.reverseRecOn generalizing s with
  | nil =>
    cases hs
    exact inv_init cfg
  | append_singleton events e ih =>
    obtain ⟨s₁, hs₁, timely, stepped⟩ := follow_snoc hs
    exact step_inv pos (ih hs₁) e timely stepped

theorem step_consistent (pos : 0 < cfg.numEntries) (h : Inv cfg s)
    (consistent : s.tlb.Consistent cfg) {e : TlbEvent C} (timely : Timely s.agenda e)
    (hs : step cfg s e = .ok s') (apart : cfg.numEntries = 1 ∨ Apart cfg s'.served) :
      s'.tlb.Consistent cfg := by
  by_cases quiet : ∀ t, e ≠ .process t
  · obtain ⟨-, lru, entries⟩ := step_quiet hs quiet
    refine ⟨entries ▸ consistent.room, ?_, ?_⟩
    · rw [lru, entries]
      exact consistent.sizes
    · rw [lru, entries]
      exact consistent.named
  · obtain ⟨t, rfl⟩ := not_forall_not.mp quiet
    obtain ⟨s₁, services, stepped, processed⟩ := process_processed pos h timely.2
    rw [stepped] at hs
    cases hs
    exact consistent_process h consistent timely.2 processed apart

theorem step_apart (many : 1 < cfg.numEntries) (h : Inv cfg s) (consistent : s.tlb.Consistent cfg)
    (consistent' : s'.tlb.Consistent cfg) {e : TlbEvent C} (timely : Timely s.agenda e)
    (hs : step cfg s e = .ok s') (apart : Apart cfg s.served) (latest : Latest cfg s) :
    Apart cfg s'.served ∧ Latest cfg s' := by
  by_cases quiet : ∀ t, e ≠ .process t
  · obtain ⟨served, lru, -⟩ := step_quiet hs quiet
    unfold Latest
    rw [served, lru]
    exact ⟨apart, latest⟩
  · obtain ⟨t, rfl⟩ := not_forall_not.mp quiet
    obtain ⟨s₁, services, stepped, processed⟩ := process_processed (by omega) h timely.2
    rw [stepped] at hs
    cases hs
    exact apart_process h many consistent consistent' timely.2 processed apart latest

theorem step_served (pos : 0 < cfg.numEntries) (h : Inv cfg s) {e : TlbEvent C}
    (timely : Timely s.agenda e) (hs : step cfg s e = .ok s') : s.served ⊆ s'.served := by
  by_cases quiet : ∀ t, e ≠ .process t
  · rw [(step_quiet hs quiet).1]
    exact fun _ => id
  · obtain ⟨t, rfl⟩ := not_forall_not.mp quiet
    obtain ⟨s₁, services, stepped, processed⟩ := process_processed pos h timely.2
    rw [stepped] at hs
    cases hs
    rw [processed.served]
    exact List.subset_append_left _ _

theorem Apart.mono {served served' : List (Service C)} (h : Apart cfg served')
    (sub : served ⊆ served') :
    Apart cfg served := fun e he e' he' => h e (sub he) e' (sub he')

theorem after_consistent (pos : 0 < cfg.numEntries) {events : List (TlbEvent C)}
    (hs : after cfg events = .ok s) (apart : cfg.numEntries = 1 ∨ Apart cfg s.served) :
    ∀ before, before <+: events → ∀ s', after cfg before = .ok s' → s'.tlb.Consistent cfg := by
  induction events using List.reverseRecOn generalizing s with
  | nil =>
    intro before pre s' hs'
    rw [List.prefix_nil.mp pre] at hs'
    cases hs'
    exact ⟨Nat.zero_le _, rfl, fun _ h => (nomatch h)⟩
  | append_singleton events e ih =>
    obtain ⟨s₁, hs₁, timely, stepped⟩ := follow_snoc hs
    have inv := after_inv pos hs₁
    have earlier := ih hs₁ (apart.imp_right (·.mono (step_served pos inv timely stepped)))
    intro before pre s' hs'
    rcases List.prefix_concat_iff.mp pre with rfl | pre
    · rw [hs] at hs'
      cases hs'
      exact step_consistent pos inv (earlier events List.prefix_rfl s₁ hs₁) timely stepped apart
    · exact earlier before pre s' hs'

theorem after_apart (many : 1 < cfg.numEntries) {events : List (TlbEvent C)}
    (hs : after cfg events = .ok s)
    (consistent : ∀ before, before <+: events → ∀ s', after cfg before = .ok s' →
      s'.tlb.Consistent cfg) :
    Apart cfg s.served ∧ Latest cfg s := by
  induction events using List.reverseRecOn generalizing s with
  | nil =>
    cases hs
    exact ⟨fun _ h => (nomatch h), fun _ h => (nomatch h)⟩
  | append_singleton events e ih =>
    obtain ⟨s₁, hs₁, timely, stepped⟩ := follow_snoc hs
    have earlier : ∀ before, before <+: events → ∀ s', after cfg before = .ok s' →
      s'.tlb.Consistent cfg :=
      fun before pre => consistent before (pre.trans (List.prefix_append _ _))
    obtain ⟨apart, latest⟩ := ih hs₁ earlier
    exact step_apart many (after_inv (by omega) hs₁) (earlier events List.prefix_rfl s₁ hs₁)
      (consistent _ List.prefix_rfl s hs) timely stepped apart latest

/-- A TLB stays within its capacity, with an index that finds every page, all through a run if and
only if it has a single entry or no two pages are used at one time. -/
theorem consistent_iff (pos : 0 < cfg.numEntries) {events : List (TlbEvent C)}
    (hs : after cfg events = .ok s) :
    (∀ before, before <+: events → ∀ s', after cfg before = .ok s' → s'.tlb.Consistent cfg) ↔
      cfg.numEntries = 1 ∨ Apart cfg s.served := by
  refine ⟨fun consistent => or_iff_not_imp_left.mpr fun other => ?_, after_consistent pos hs⟩
  exact (after_apart (by omega) hs consistent).1

def pairOfEntries : TlbConfig where
  instructions := false
  numEntries := 2
  l1ToLsuT := 1
  pageSzLog2 := 12
  missPenalty := 100
  speedup := 2
  processInterval := 10
  processInterval_pos := (by decide : 1 ≤ 10)

def twoAtOnce (address address' : Nat) : List (TlbEvent Nat) :=
  [.add 0 { path := [7], type := .tlbRd, address },
    .add 0 { path := [7], type := .tlbRd, address := address' }, .process 0]

theorem consistent_iff_one_page : ∃ s, after pairOfEntries (twoAtOnce 0 8) = .ok s ∧
    s.tlb.Consistent pairOfEntries := by
  have ends : Meets (fun _ => False) (fun s => ∀ e ∈ s.served, ∀ e' ∈ s.served,
      e.time = e'.time → pairOfEntries.page e.lqe = pairOfEntries.page e'.lqe)
      (after pairOfEntries (twoAtOnce 0 8)) := by decide +kernel
  obtain ⟨s, hs, apart⟩ := ends.result
  exact ⟨s, hs, (consistent_iff (by decide) hs).mpr (.inr apart) _ List.prefix_rfl s hs⟩

theorem two_pages_at_once : ∃ s, after pairOfEntries (twoAtOnce 0 4096) = .ok s ∧
    ¬ s.tlb.Consistent pairOfEntries := by
  have ends : Meets (fun _ => False) (fun s => s.tlb.lru.length = 1 ∧ s.tlb.entries.length = 2)
      (after pairOfEntries (twoAtOnce 0 4096)) := by decide +kernel
  obtain ⟨s, hs, one, two⟩ := ends.result
  refine ⟨s, hs, fun consistent => ?_⟩
  have sizes := consistent.sizes
  omega

end TlbSystem
end McSim
