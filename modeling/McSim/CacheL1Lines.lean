import McSim.CacheL1
import Mathlib.Data.List.Nodup
import Mathlib.Data.List.Range
import Mathlib.Data.Nat.ModEq

/-! The lines of a first-level cache that a line of the second level covers.
A reply is for all of them. Each one has a rule; the walk over them is compared with the rule. -/

namespace McSim

open Contract

variable {C : Type} {cfg : L1Config C} {t : Nat} {lqe : Lqe C}

namespace L1Config

def lines (cfg : L1Config C) (address : Nat) : List Nat :=
  (List.range cfg.numSubLines).map fun index => cfg.subLine address index >>> cfg.setLsb

def Covers (cfg : L1Config C) (address set tag : Nat) : Prop :=
  (tag * cfg.numSets + set) >>> (cfg.l2SetLsb - cfg.setLsb) = address >>> cfg.l2SetLsb

instance (address set tag : Nat) : Decidable (cfg.Covers address set tag) :=
  inferInstanceAs (Decidable (_ = _))

theorem subLine_line (cfg : L1Config C) (address index : Nat) :
    cfg.subLine address index >>> cfg.setLsb =
      address >>> cfg.l2SetLsb * cfg.numSubLines +
        (address >>> cfg.setLsb + index) % cfg.numSubLines := by
  obtain ⟨d, hd⟩ := Nat.exists_eq_add_of_le cfg.setLsb_le
  have sub : cfg.l2SetLsb - cfg.setLsb = d := by omega
  have width : 2 ^ cfg.l2SetLsb = 2 ^ cfg.setLsb * 2 ^ d := by rw [hd, pow_add]
  have pos : 0 < 2 ^ cfg.setLsb := Nat.two_pow_pos _
  unfold subLine numSubLines
  rw [sub]
  simp only [Nat.shiftLeft_eq, one_mul, Nat.shiftRight_eq_div_pow]
  rw [width, Nat.mul_left_comm, Nat.mul_add_div pos, Nat.mod_mul_right_div_self,
    Nat.add_mul_div_right _ _ pos]

theorem numSubLines_pos (cfg : L1Config C) : 0 < cfg.numSubLines := by
  unfold numSubLines
  rw [Nat.shiftLeft_eq, one_mul]
  exact Nat.two_pow_pos _

theorem lines_nodup (cfg : L1Config C) (address : Nat) : (cfg.lines address).Nodup := by
  refine List.Nodup.map_on (fun i hi j hj same => ?_) List.nodup_range
  rw [subLine_line, subLine_line] at same
  have congr : (address >>> cfg.setLsb + i) ≡ (address >>> cfg.setLsb + j) [MOD cfg.numSubLines] :=
    Nat.add_left_cancel same
  exact (Nat.ModEq.add_left_cancel' _ congr).eq_of_lt_of_lt (List.mem_range.mp hi)
    (List.mem_range.mp hj)

theorem mem_lines {address line : Nat} : line ∈ cfg.lines address ↔
    line >>> (cfg.l2SetLsb - cfg.setLsb) = address >>> cfg.l2SetLsb := by
  have pos := cfg.numSubLines_pos
  have shift : line >>> (cfg.l2SetLsb - cfg.setLsb) = line / cfg.numSubLines := by
    rw [Nat.shiftRight_eq_div_pow, numSubLines, Nat.shiftLeft_eq, one_mul]
  rw [shift]
  unfold lines
  rw [List.mem_map]
  constructor
  · rintro ⟨index, -, rfl⟩
    rw [subLine_line, Nat.mul_comm, Nat.mul_add_div pos,
      Nat.div_eq_of_lt (Nat.mod_lt _ pos), add_zero]
  · intro h
    have whole := Nat.div_add_mod line cfg.numSubLines
    -- how far the line is from the one of the address, in the circle
    refine ⟨(line % cfg.numSubLines + cfg.numSubLines * (address >>> cfg.setLsb) -
      address >>> cfg.setLsb) % cfg.numSubLines, List.mem_range.mpr (Nat.mod_lt _ pos), ?_⟩
    have enough : address >>> cfg.setLsb ≤ cfg.numSubLines * (address >>> cfg.setLsb) :=
      Nat.le_mul_of_pos_left _ pos
    rw [subLine_line, Nat.add_mod_mod, show address >>> cfg.setLsb +
      (line % cfg.numSubLines + cfg.numSubLines * (address >>> cfg.setLsb) - address >>>
        cfg.setLsb) =
      line % cfg.numSubLines + cfg.numSubLines * (address >>> cfg.setLsb) by omega,
      Nat.add_mul_mod_self_left, Nat.mod_mod, ← h, Nat.mul_comm]
    exact whole

end L1Config

namespace CacheL1

/-- What becomes of a line by one reply -/
def rule : EventType → CoherenceState → CoherenceState
  | .evict, _ => .invalid
  | .mToM, .modified => .invalid
  | .mToS, .modified => .shared
  | .dirRd, .modified => .exclusive
  | _, state => state

def ruleLine (cfg : L1Config C) (f : CoherenceState → CoherenceState) (tags : Nat → List L1Entry)
    (line : Nat) : Nat → List L1Entry :=
  let set := line % cfg.numSets
  match (tags set).findIdx? (holds (line / cfg.numSets)) with
  | none => tags
  | some idx =>
    Function.update tags set ((tags set).modify idx fun e => { e with state := f e.state })

/-- Where every present line of some kind has a new state, and nothing else has changed. -/
def ruled (f : CoherenceState → CoherenceState) (covered : Nat → Nat → Prop)
    [∀ set tag, Decidable (covered set tag)] (tags : Nat → List L1Entry) (set : Nat) :
      List L1Entry :=
  (tags set).mapIdx fun i e =>
    if covered set e.tag ∧ (tags set).findIdx? (holds e.tag) = some i
      then { e with state := f e.state }
    else e

section Ruled
variable {f : CoherenceState → CoherenceState} {tags : Nat → List L1Entry} {set tag line : Nat}

theorem findIdx?_congr {a b : List L1Entry} (h : a.map (holds tag) = b.map (holds tag)) :
    a.findIdx? (holds tag) = b.findIdx? (holds tag) := by
  have through : ∀ l : List L1Entry, l.findIdx? (holds tag) = (l.map (holds tag)).findIdx? id :=
    fun l => by rw [List.findIdx?_map, Function.id_comp]
  rw [through, through, h]

theorem getElem?_ruled (covered : Nat → Nat → Prop) [∀ set tag, Decidable (covered set tag)]
    (i : Nat) :
    (ruled f covered tags set)[i]? = (tags set)[i]?.map fun e =>
      if covered set e.tag ∧ (tags set).findIdx? (holds e.tag) = some i
        then { e with state := f e.state }
      else e := List.getElem?_mapIdx

theorem findIdx?_ruled (covered : Nat → Nat → Prop) [∀ set tag, Decidable (covered set tag)]
    (free : ¬ covered set tag) :
    (ruled f covered tags set).findIdx? (holds tag) = (tags set).findIdx? (holds tag) := by
  refine findIdx?_congr (List.ext_getElem? fun i => ?_)
  rw [List.getElem?_map, List.getElem?_map, getElem?_ruled]
  cases (tags set)[i]? with
  | none => rfl
  | some e =>
    dsimp only [Option.map_some]
    split
    · rename_i h
      have other : e.tag ≠ tag := fun same => free (same ▸ h.1)
      simp [holds, other]
    · rfl

theorem ruled_of_empty (covered : Nat → Nat → Prop) [∀ set tag, Decidable (covered set tag)]
    (none : ∀ tag, ¬ covered set tag) : ruled f covered tags set = tags set := by
  refine List.ext_getElem? fun i => ?_
  rw [getElem?_ruled]
  cases (tags set)[i]? with
  | none => rfl
  | some e => exact congrArg some (if_neg fun h => none _ h.1)

theorem ruled_congr {p q : Nat → Nat → Prop} [∀ set tag, Decidable (p set tag)]
    [∀ set tag, Decidable (q set tag)] {tags' : Nat → List L1Entry} (same : tags' set = tags set)
    (iff : ∀ tag, p set tag ↔ q set tag) : ruled f p tags' set = ruled f q tags set := by
  unfold ruled
  simp only [same, iff]

theorem ruled_ruled (p q : Nat → Nat → Prop) [∀ set tag, Decidable (p set tag)]
    [∀ set tag, Decidable (q set tag)] (apart : ∀ tag, p set tag → ¬ q set tag) :
    ruled f q (ruled f p tags) set = ruled f (fun set tag => p set tag ∨ q set tag) tags set := by
  refine List.ext_getElem? fun i => ?_
  rw [getElem?_ruled, getElem?_ruled, getElem?_ruled]
  cases (tags set)[i]? with
  | none => rfl
  | some e =>
    dsimp only [Option.map_some]
    refine congrArg some ?_
    by_cases hp : p set e.tag
    · have hq := apart e.tag hp
      by_cases first : (tags set).findIdx? (holds e.tag) = some i <;> simp [hp, hq, first]
    · simp [hp, findIdx?_ruled p hp]

theorem line_eq_iff (hset : set < cfg.numSets) : tag * cfg.numSets + set = line ↔
    tag = line / cfg.numSets ∧ set = line % cfg.numSets := by
  constructor
  · rintro rfl
    rw [Nat.mul_comm, Nat.mul_add_div cfg.numSets_pos, Nat.mul_add_mod, Nat.div_eq_of_lt hset,
      Nat.mod_eq_of_lt hset]
    exact ⟨rfl, rfl⟩
  · rintro ⟨rfl, rfl⟩
    exact Nat.div_add_mod' ..

theorem ruleLine_none
    (absent : (tags (line % cfg.numSets)).findIdx? (holds (line / cfg.numSets)) = none) :
    ruleLine cfg f tags line = tags := by
  unfold ruleLine
  dsimp only
  rw [absent]

theorem ruleLine_some {idx : Nat}
    (found : (tags (line % cfg.numSets)).findIdx? (holds (line / cfg.numSets)) = some idx) :
    ruleLine cfg f tags line = Function.update tags (line % cfg.numSets)
      ((tags (line % cfg.numSets)).modify idx fun e => { e with state := f e.state }) := by
  unfold ruleLine
  dsimp only
  rw [found]

theorem ruleLine_eq (hset : set < cfg.numSets) : ruleLine cfg f tags line set =
    ruled f (fun set tag => tag * cfg.numSets + set = line) tags set := by
  have others : set ≠ line % cfg.numSets →
      ruled f (fun set tag => tag * cfg.numSets + set = line) tags set = tags set := fun other =>
    ruled_of_empty _ fun tag h => other ((line_eq_iff hset).mp h).2
  cases found : (tags (line % cfg.numSets)).findIdx? (holds (line / cfg.numSets)) with
  | none =>
    rw [ruleLine_none found]
    by_cases other : set = line % cfg.numSets
    · refine List.ext_getElem? fun i => ?_
      rw [getElem?_ruled]
      cases (tags set)[i]? with
      | none => rfl
      | some e =>
        refine congrArg some (if_neg fun h => ?_).symm
        rw [((line_eq_iff hset).mp h.1).1, other, found] at h
        cases h.2
    · exact (others other).symm
  | some idx =>
    rw [ruleLine_some found]
    by_cases other : set = line % cfg.numSets
    · subst other
      rw [Function.update_self]
      refine List.ext_getElem? fun i => ?_
      rw [getElem?_ruled, List.getElem?_modify]
      cases he : (tags (line % cfg.numSets))[i]? with
      | none => rfl
      | some e =>
        refine congrArg some ?_
        by_cases here : idx = i
        · subst here
          obtain ⟨hlt, hp, -⟩ := List.findIdx?_eq_some_iff_getElem.mp found
          obtain ⟨-, rfl⟩ := List.getElem?_eq_some_iff.mp he
          have tag : ((tags (line % cfg.numSets))[idx]).tag = line / cfg.numSets :=
            (of_decide_eq_true hp).2
          exact (if_pos rfl).trans (if_pos ⟨(line_eq_iff hset).mpr ⟨tag, rfl⟩, tag ▸ found⟩).symm
        · refine (if_neg here).trans (if_neg fun h => ?_).symm
          rw [((line_eq_iff hset).mp h.1).1, found] at h
          exact here (Option.some.inj h.2)
    · rw [Function.update_of_ne other]
      exact (others other).symm

theorem foldl_ruleLine (lines : List Nat) (nodup : lines.Nodup) (hset : set < cfg.numSets) :
    lines.foldl (ruleLine cfg f) tags set =
      ruled f (fun set tag => tag * cfg.numSets + set ∈ lines) tags set := by
  induction lines using List.reverseRecOn with
  | nil => exact (ruled_of_empty _ fun tag h => nomatch h).symm
  | append_singleton lines line ih =>
    obtain ⟨nodup, -, apart⟩ := List.nodup_append.mp nodup
    rw [List.foldl_append, List.foldl_cons, List.foldl_nil, ruleLine_eq hset]
    calc ruled f (fun set tag => tag * cfg.numSets + set = line)
          (lines.foldl (ruleLine cfg f) tags) set
        = ruled f (fun set tag => tag * cfg.numSets + set = line)
          (ruled f (fun set tag => tag * cfg.numSets + set ∈ lines) tags) set :=
          ruled_congr (ih nodup) fun _ => Iff.rfl
      _ = ruled f (fun set tag => tag * cfg.numSets + set ∈ lines ∨ tag * cfg.numSets + set = line)
          tags set := ruled_ruled _ _ fun tag mem => apart _ mem line (List.mem_singleton_self line)
      _ = ruled f (fun set tag => tag * cfg.numSets + set ∈ lines ++ [line]) tags set :=
          ruled_congr rfl fun tag => by rw [List.mem_append, List.mem_singleton]

end Ruled

namespace Walk

variable {w w' : Walk C} {s : CacheL1 C} {set idx index : Nat} {state : CoherenceState}
    {e : L1Entry}

@[simp] theorem count_entry (f : L1Stats → L1Stats) : (w.count f).entry = w.entry := rfl

@[simp] theorem setState_lqe : (w.setState state).lqe = w.lqe := by
  unfold setState
  split <;> rfl

@[simp] theorem setState_sentToL2 : (w.setState state).sentToL2 = w.sentToL2 := by
  unfold setState
  split <;> rfl

@[simp] theorem setState_effects : (w.setState state).effects = w.effects := by
  unfold setState
  split <;> rfl

@[simp] theorem setState_setIt : (w.setState state).setIt = w.setIt := by
  unfold setState
  split <;> rfl

theorem count_setState (f : L1Stats → L1Stats) :
    (w.count f).setState state = (w.setState state).count f := by
  obtain ⟨cache, lqe, setIt, sentToL2, effects⟩ := w
  cases setIt <;> rfl

theorem setState_tags (at' : w.setIt = some (set, idx)) : (w.setState state).cache.tags =
    Function.update w.cache.tags set
      ((w.cache.tags set).modify idx fun e => { e with state }) := by
  unfold setState
  rw [at']
  rfl

theorem entry_eq (at' : w.setIt = some (set, idx)) : w.entry = (w.cache.tags set)[idx]? := by
  unfold entry
  rw [at']
  rfl

theorem setState_entry : (w.setState state).entry = w.entry.map fun e => { e with state } := by
  cases hs : w.setIt with
  | none => simp [entry, hs]
  | some p =>
    obtain ⟨set, idx⟩ := p
    have hs' : (w.setState state).setIt = some (set, idx) := setState_setIt.trans hs
    rw [entry_eq hs', entry_eq hs, setState_tags hs, Function.update_self, List.getElem?_modify]
    simp

theorem modify_congr {l : List L1Entry} {f g : L1Entry → L1Entry} (he : l[idx]? = some e)
    (same : f e = g e) : l.modify idx f = l.modify idx g := by
  refine List.ext_getElem? fun i => ?_
  rw [List.getElem?_modify, List.getElem?_modify]
  by_cases here : idx = i
  · subst here
    rw [he]
    simp [same]
  · simp [here]

theorem setState_same (he : w.entry = some e) (same : e.state = state) :
    (w.setState state).cache.tags = w.cache.tags := by
  cases hs : w.setIt with
  | none => simp [entry, hs] at he
  | some p =>
    obtain ⟨set, idx⟩ := p
    rw [entry_eq hs] at he
    have id' : (w.cache.tags set).modify idx (fun e => { e with state }) =
        (w.cache.tags set).modify idx id := modify_congr he (by rw [← same]; rfl)
    rw [setState_tags hs, id', List.modify_id, Function.update_eq_self]

def lineAt (cfg : L1Config C) (lqe : Lqe C) (index : Nat) : Nat :=
  cfg.subLine lqe.address index >>> cfg.setLsb

def lookAt (cfg : L1Config C) (index : Nat) (w : Walk C) : Walk C :=
  w.look (lineAt cfg w.lqe index % cfg.numSets)
    ((w.cache.tags (lineAt cfg w.lqe index % cfg.numSets)).findIdx?
      (holds (lineAt cfg w.lqe index / cfg.numSets)))

theorem ruleLine_of_no_entry (f : CoherenceState → CoherenceState)
    (none : (w.lookAt cfg index).entry = none) :
    ruleLine cfg f w.cache.tags (lineAt cfg w.lqe index) = w.cache.tags := by
  refine ruleLine_none ?_
  cases found : (w.cache.tags (lineAt cfg w.lqe index % cfg.numSets)).findIdx?
      (holds (lineAt cfg w.lqe index / cfg.numSets)) with
  | none => rfl
  | some idx =>
    have hs : (w.lookAt cfg index).setIt = some (lineAt cfg w.lqe index % cfg.numSets, idx) := by
      simp [lookAt, look, found]
    have hlt := (List.findIdx?_eq_some_iff_getElem.mp found).1
    rw [entry_eq hs] at none
    exact absurd hlt (not_lt.mpr (List.getElem?_eq_none_iff.mp none))

theorem ruleLine_of_entry (f : CoherenceState → CoherenceState)
    (stale : ∀ e, w.entry = some e → f e.state = e.state)
    (he : (w.lookAt cfg index).entry = some e) :
    ruleLine cfg f w.cache.tags (lineAt cfg w.lqe index) =
      ((w.lookAt cfg index).setState (f e.state)).cache.tags := by
  cases found : (w.cache.tags (lineAt cfg w.lqe index % cfg.numSets)).findIdx?
      (holds (lineAt cfg w.lqe index / cfg.numSets)) with
  | none =>
    have same : w.lookAt cfg index = w := by simp [lookAt, look, found]
    rw [same] at he ⊢
    rw [ruleLine_none found, setState_same he (stale e he).symm]
  | some idx =>
    have hs : (w.lookAt cfg index).setIt = some (lineAt cfg w.lqe index % cfg.numSets, idx) := by
      simp [lookAt, look, found]
    rw [entry_eq hs] at he
    rw [ruleLine_some found, setState_tags hs]
    exact congrArg _ (modify_congr he rfl)

/-- What has become of the element: it is with the walk, or sent to the second level, or, once the
last line is done, deleted. -/
structure Passed (cfg : L1Config C) (lqe : Lqe C) (done : Prop) (w : Walk C) : Prop where
  kept : w.sentToL2 = false → w.lqe = lqe ∧ w.effects.calls = []
  freed : w.sentToL2 = false → done → w.effects.deleted = [lqe]
  unfreed : w.sentToL2 = false → ¬ done → w.effects.deleted = []
  sent : w.sentToL2 = true →
    (∃ call, w.effects.calls = [call] ∧ call.callee = cfg.cachel2) ∧ w.effects.deleted = []

structure Walked (cfg : L1Config C) (s : CacheL1 C) (lqe : Lqe C) (k : Nat) (w : Walk C) :
    Prop where
  type : w.lqe.type = lqe.type
  address : w.lqe.address = lqe.address
  tags : w.cache.tags =
    (List.range k).foldl (fun tags index => ruleLine cfg (rule lqe.type) tags
      (lineAt cfg lqe index)) s.tags
  stale : ∀ e, w.entry = some e → rule lqe.type e.state = e.state
  passed : Passed cfg lqe (k = cfg.numSubLines) w

structure Handled (cfg : L1Config C) (lqe : Lqe C) (k : Nat) (w w' : Walk C) : Prop where
  type : w'.lqe.type = lqe.type
  address : w'.lqe.address = lqe.address
  tags : w'.cache.tags = ruleLine cfg (rule lqe.type) w.cache.tags (lineAt cfg w.lqe k)
  stale : ∀ e, w'.entry = some e → rule lqe.type e.state = e.state
  passed : Passed cfg lqe False w'

theorem Passed.again {done done' : Prop} (h : Passed cfg lqe done w) (hsent : w.sentToL2 = true) :
    Passed cfg lqe done' w :=
  have never : w.sentToL2 ≠ false := fun unsent => by rw [hsent] at unsent; cases unsent
  ⟨fun h => absurd h never, fun h => absurd h never, fun h => absurd h never, h.sent⟩

theorem passed_send {done : Prop} (h : Passed cfg lqe False w) (unsent : w.sentToL2 = false)
    (lqe' : Lqe C) : Passed cfg lqe done
      (({ w with lqe := lqe', sentToL2 := true } : Walk C).call (toL2Rep cfg t lqe')) := by
  refine ⟨nofun, nofun, nofun, fun _ => ⟨⟨toL2Rep cfg t lqe', ?_, rfl⟩, h.unfreed unsent id⟩⟩
  show w.effects.calls ++ [_] = _
  rw [(h.kept unsent).2]
  rfl

theorem passed_deleteAtLast (h : Passed cfg lqe False w) :
    Passed cfg lqe (index + 1 = cfg.numSubLines) (w.deleteAtLast cfg index) := by
  have pos := cfg.numSubLines_pos
  unfold deleteAtLast
  split
  · rename_i last
    obtain ⟨same, calls⟩ := h.kept last.2
    have now : index + 1 = cfg.numSubLines := by omega
    refine ⟨fun _ => ⟨same, calls⟩, fun _ _ => ?_, fun _ no => absurd now no, fun sent => ?_⟩
    · show w.effects.deleted ++ [w.lqe] = [lqe]
      rw [h.unfreed last.2 id, same]
      rfl
    · exact absurd (last.2.symm.trans sent) (by decide)
  · rename_i notLast
    cases hsent : w.sentToL2 with
    | true => exact h.again hsent
    | false =>
      have notNow : index + 1 ≠ cfg.numSubLines := fun now => notLast ⟨by omega, hsent⟩
      exact ⟨h.kept, fun _ now => absurd now notNow, fun _ _ => h.unfreed hsent id, h.sent⟩

@[simp] theorem deleteAtLast_cache : (w.deleteAtLast cfg index).cache = w.cache := by
  unfold deleteAtLast
  split <;> rfl

@[simp] theorem deleteAtLast_entry : (w.deleteAtLast cfg index).entry = w.entry := by
  unfold deleteAtLast
  split <;> rfl

@[simp] theorem deleteAtLast_lqe : (w.deleteAtLast cfg index).lqe = w.lqe := by
  unfold deleteAtLast
  split <;> rfl

theorem rule_idem (type : EventType) (state : CoherenceState) :
    rule type (rule type state) = rule type state := by
  cases type <;> cases state <;> rfl

section Step
variable {k : Nat}

theorem Walked.before (h : Walked cfg s lqe k w) (hk : k < cfg.numSubLines) :
    Passed cfg lqe False w :=
  ⟨h.passed.kept, fun _ no => no.elim, fun unsent _ => h.passed.unfreed unsent hk.ne, h.passed.sent⟩

theorem Walked.looked (h : Walked cfg s lqe k w) (hk : k < cfg.numSubLines) :
    Passed cfg lqe False (w.lookAt cfg k) :=
  have before := h.before hk
  ⟨before.kept, before.freed, before.unfreed, before.sent⟩

theorem handled_none (h : Walked cfg s lqe k w) (hk : k < cfg.numSubLines)
    (none : (w.lookAt cfg k).entry = none) : Handled cfg lqe k w (w.lookAt cfg k) where
  type := h.type
  address := h.address
  tags := (ruleLine_of_no_entry _ none).symm
  stale e he := by
    rw [none] at he
    cases he
  passed := h.looked hk

theorem handled_some (state : CoherenceState) (h : Walked cfg s lqe k w) (hk : k < cfg.numSubLines)
    (he : (w.lookAt cfg k).entry = some e) (hstate : rule lqe.type e.state = state) :
    Handled cfg lqe k w ((w.lookAt cfg k).setState state) where
  type := by
    rw [setState_lqe]
    exact h.type
  address := by
    rw [setState_lqe]
    exact h.address
  tags := by rw [ruleLine_of_entry _ h.stale he, hstate]
  stale e' he' := by
    rw [setState_entry, he] at he'
    cases he'
    rw [← hstate, rule_idem]
  passed := by
    have passed := h.looked hk
    constructor <;> simp only [setState_lqe, setState_sentToL2, setState_effects]
    exacts [passed.kept, passed.freed, passed.unfreed, passed.sent]

theorem handled_same (h : Walked cfg s lqe k w) (hk : k < cfg.numSubLines)
    (he : (w.lookAt cfg k).entry = some e) (same : rule lqe.type e.state = e.state) :
    Handled cfg lqe k w (w.lookAt cfg k) where
  type := h.type
  address := h.address
  tags := by
    rw [ruleLine_of_entry _ h.stale he, same, setState_same he rfl]
  stale e' he' := by
    rw [he] at he'
    cases he'
    exact same
  passed := h.looked hk

theorem Handled.count {w₁ : Walk C} (h : Handled cfg lqe k w w₁) (f : L1Stats → L1Stats) :
    Handled cfg lqe k w (w₁.count f) :=
  ⟨h.type, h.address, h.tags, h.stale, h.passed.kept, h.passed.freed, h.passed.unfreed,
    h.passed.sent⟩

theorem Handled.countFirst {w₁ : Walk C} (h : Handled cfg lqe k w (w₁.setState state))
    (f : L1Stats → L1Stats) : Handled cfg lqe k w ((w₁.count f).setState state) := by
  rw [count_setState]
  exact h.count f

theorem Handled.walked {w₁ : Walk C} (h : Walked cfg s lqe k w) (handled : Handled cfg lqe k w w₁)
    (type : w'.lqe.type = w₁.lqe.type) (address : w'.lqe.address = w₁.lqe.address)
    (tags : w'.cache.tags = w₁.cache.tags) (entry : w'.entry = w₁.entry)
    (passed : Passed cfg lqe (k + 1 = cfg.numSubLines) w') : Walked cfg s lqe (k + 1) w' where
  type := type.trans handled.type
  address := address.trans handled.address
  tags := by
    have line : lineAt cfg w.lqe k = lineAt cfg lqe k := by rw [lineAt, h.address, lineAt]
    rw [tags, handled.tags, line, h.tags, List.range_succ, List.foldl_append]
    rfl
  stale e he := handled.stale e (entry ▸ he)
  passed := passed

theorem Handled.sent {w₁ : Walk C} (h : Walked cfg s lqe k w) (handled : Handled cfg lqe k w w₁)
    (sent : w₁.sentToL2 = true) : Walked cfg s lqe (k + 1) w₁ :=
  handled.walked h rfl rfl rfl rfl (handled.passed.again sent)

theorem Handled.deleteAtLast {w₁ : Walk C} (h : Walked cfg s lqe k w)
    (handled : Handled cfg lqe k w w₁) :
    Walked cfg s lqe (k + 1) (w₁.deleteAtLast cfg k) :=
  handled.walked h (by simp) (by simp) (by simp) (by simp) (passed_deleteAtLast handled.passed)

theorem Handled.giveBack {w₁ : Walk C} (h : Walked cfg s lqe k w) (handled : Handled cfg lqe k w w₁)
    (unsent : w₁.sentToL2 = false) (path : lqe.path ≠ []) :
    Meets (fun _ => False) (Walked cfg s lqe (k + 1)) (w₁.giveBack cfg t) := by
  have same := (handled.passed.kept unsent).1
  unfold Walk.giveBack
  rw [meets_bind, Lqe.meets_pop]
  refine ⟨fun empty => absurd empty (same ▸ path), fun c rest hp => ?_⟩
  exact handled.walked h rfl rfl rfl rfl (passed_send handled.passed unsent _)

theorem visit_evict (h : Walked cfg s lqe k w) (hk : k < cfg.numSubLines) (type : lqe.type = .evict)
    (path : lqe.path ≠ []) :
      Meets (fun _ => False) (Walked cfg s lqe (k + 1)) (w.visit cfg t k) := by
  have visit : w.visit cfg t k = (w.lookAt cfg k).evict cfg t k := by
    unfold Walk.visit
    dsimp only [look]
    rw [h.type, type]
    rfl
  rw [visit]
  unfold Walk.evict
  dsimp only [count_entry]
  cases he : (w.lookAt cfg k).entry with
  | none => exact ((handled_none h hk he).count _).deleteAtLast h
  | some e =>
    have handled := handled_some .invalid h hk he (by rw [type]; rfl)
    have counted := fun f g => (handled.countFirst f).countFirst g
    dsimp only
    split
    · split
      · rename_i sent
        exact (counted _ _).sent h sent
      · rename_i unsent
        exact (counted _ _).giveBack h (Bool.eq_false_iff.mpr unsent) path
    · exact (counted _ _).deleteAtLast h

theorem visit_mToX (h : Walked cfg s lqe k w) (hk : k < cfg.numSubLines)
    (type : lqe.type = .mToM ∨ lqe.type = .mToS) (path : lqe.path ≠ []) :
    Meets (fun _ => False) (Walked cfg s lqe (k + 1)) (w.visit cfg t k) := by
  have visit : w.visit cfg t k = (w.lookAt cfg k).mToX cfg t := by
    unfold Walk.visit
    dsimp only [look]
    rw [h.type]
    rcases type with type | type <;> rw [type] <;> rfl
  have finish : ∀ w₁ : Walk C, Handled cfg lqe k w w₁ →
    Meets (fun _ => False) (Walked cfg s lqe (k + 1))
      (if w₁.sentToL2 then return w₁ else w₁.giveBack cfg t) := fun w₁ handled => by
    split
    · rename_i sent
      exact handled.sent h sent
    · rename_i unsent
      exact handled.giveBack h (Bool.eq_false_iff.mpr unsent) path
  rw [visit]
  refine finish _ ?_
  dsimp only [count_entry]
  cases he : (w.lookAt cfg k).entry with
  | none => exact (handled_none h hk he).count _
  | some e =>
    have same : ((w.lookAt cfg k).count fun st =>
        { st with numCoherencyAccess := st.numCoherencyAccess + 1 }).lqe.type = lqe.type := h.type
    dsimp only
    rw [same]
    by_cases modified : e.state = .modified
    · rw [if_neg (not_not.mpr modified)]
      rcases type with type | type
      · rw [if_pos type]
        have handled := handled_some .invalid h hk he (by rw [type, modified]; rfl)
        exact (handled.countFirst _).countFirst _
      · rw [if_neg (by rw [type]; decide)]
        have handled := handled_some .shared h hk he (by rw [type, modified]; rfl)
        exact handled.countFirst _
    · rw [if_pos modified]
      have fixed : rule lqe.type e.state = e.state := by
        rcases type with type | type <;> rw [type] <;> revert modified <;> cases e.state
          <;> simp [rule]
      exact (handled_same h hk he fixed).count _

end Step

theorem visits_walked {k m : Nat} (h : Walked cfg s lqe k w) (last : k + m = cfg.numSubLines)
    (step : ∀ k w, Walked cfg s lqe k w → k < cfg.numSubLines →
      Meets (fun _ => False) (Walked cfg s lqe (k + 1)) (w.visit cfg t k)) :
    Meets (fun _ => False) (Walked cfg s lqe cfg.numSubLines)
      (w.visits cfg t (List.range' k m)) := by
  induction m generalizing k w with
  | zero =>
    rw [Nat.add_zero] at last
    exact last ▸ h
  | succ m ih =>
    rw [List.range'_succ]
    unfold visits
    rw [meets_bind]
    exact (step k w h (by omega)).mono (fun w' h' => ih h' (by omega)) fun _ h => h

theorem walked_start (cfg : L1Config C) (s : CacheL1 C) (lqe : Lqe C) :
    Walked cfg s lqe 0 { cache := s, lqe } where
  type := rfl
  address := rfl
  tags := rfl
  stale e he := by
    simp [entry] at he
  passed := ⟨fun _ => ⟨rfl, rfl⟩, fun _ none => absurd none cfg.numSubLines_pos.ne,
    fun _ _ => rfl, nofun⟩

end Walk

/-- A reply is done for the line that it is for: the lines here that are present follow their rule,
nothing else changes, and the element goes to the second level, or is deleted, once. -/
structure DoneFor (cfg : L1Config C) (s : CacheL1 C) (lqe : Lqe C) (s' : CacheL1 C)
    (effects : Effects C) : Prop where
  lines : ∀ set < cfg.numSets,
    s'.tags set = ruled (rule lqe.type) (cfg.Covers lqe.address) s.tags set
  once : (∃ call, effects.calls = [call] ∧ call.callee = cfg.cachel2 ∧ effects.deleted = []) ∨
    (effects.calls = [] ∧ effects.deleted = [lqe])

theorem foldl_lines {f : CoherenceState → CoherenceState} {tags : Nat → List L1Entry} {set : Nat}
    (hset : set < cfg.numSets) :
    (List.range cfg.numSubLines).foldl
      (fun tags index => ruleLine cfg f tags (Walk.lineAt cfg lqe index))
      tags set = ruled f (cfg.Covers lqe.address) tags set := by
  have lines : (List.range cfg.numSubLines).foldl
      (fun tags index => ruleLine cfg f tags (Walk.lineAt cfg lqe index)) tags =
      (cfg.lines lqe.address).foldl (ruleLine cfg f) tags := by
    unfold L1Config.lines
    rw [List.foldl_map]
    rfl
  rw [lines, foldl_ruleLine _ (cfg.lines_nodup lqe.address) hset]
  exact ruled_congr rfl fun tag => L1Config.mem_lines

theorem Walk.Passed.once {w : Walk C} (h : Walk.Passed cfg lqe True w) :
    (∃ call, w.effects.calls = [call] ∧ call.callee = cfg.cachel2 ∧ w.effects.deleted = []) ∨
      (w.effects.calls = [] ∧ w.effects.deleted = [lqe]) := by
  cases hsent : w.sentToL2 with
  | true =>
    obtain ⟨⟨call, calls, callee⟩, deleted⟩ := h.sent hsent
    exact .inl ⟨call, calls, callee, deleted⟩
  | false => exact .inr ⟨(h.kept hsent).2, h.freed hsent trivial⟩

theorem Walk.Walked.doneFor {w : Walk C} {s : CacheL1 C}
    (h : Walk.Walked cfg s lqe cfg.numSubLines w) :
    DoneFor cfg s lqe w.cache w.effects where
  lines set hset := by
    rw [h.tags]
    exact foldl_lines hset
  once := Walk.Passed.once ⟨h.passed.kept, fun unsent _ => h.passed.freed unsent rfl,
    fun _ no => absurd trivial no, h.passed.sent⟩

end CacheL1
end McSim
