import McSim.TrafficDirectory
import McSim.TrafficL1
import McSim.TrafficL2
import McSim.TrafficMemory

/-! What each component of a machine does with the elements it takes, in the terms of the
machine. -/

namespace McSim

open Contract Weighing

variable {C : Type}

namespace Part

variable {w : Weight C} {part : C → Part C} {c : C} {fee t : Nat}

/-- The name of a component, and the neighbours it relies on -/
def Wired (part : C → Part C) (c : C) : Part C → Prop
  | cachel1 cfg _ => cfg.self = c
  | cachel2 cfg _ => cfg.self = c
  | directory cfg =>
    cfg.self = c ∧ (part cfg.memoryController).isMc ∧ (part cfg.crossbar).isCache = false
  | memoryController cfg => (part cfg.directory).isCache = false
  | _ => True

/-- Nacks are where their stacks say, and nothing that is pending in an L2 carries a stack. -/
def Sound (c : C) : (p : Part C) → p.State → Prop
  | cachel1 _ _, s => ∀ lqe ∈ CacheL1.replies s, lqe.type = .nack → lqe.path.head? = some c
  | cachel2 _ _, s => CacheL2.Quiets s ∧
      ∀ lqe ∈ CacheL2.replies s, lqe.type = .nack → lqe.path.head? = some c
  | crossbar _, s => Crossbar.Straight s
  | _, _ => True

theorem sound_init (c : C) (p : Part C) : p.Sound c p.init := by
  cases p with
  | cachel1 cfg n => exact fun lqe h => by cases h
  | cachel2 cfg n => exact ⟨CacheL2.quiets_init n, fun lqe h => by cases h⟩
  | crossbar cfg => exact Crossbar.straight_init
  | core | directory | memoryController => trivial

structure Takes (w : Weight C) (part : C → Part C) (c : C) (p : Part C) (s : p.State)
    (call : Call C) (r : p.Result) : Prop where
  weighs : ∃ k, Sends w part k r.calls ∧
    ∀ lines, w.inside lines p r.state + k ≤ w.inside lines p s + w.charge part call
  counts : p.counts r.state = p.counts s
  sound : p.Sound c r.state

theorem Takes.waits {p : Part C} {s : p.State} {call : Call C} {r : p.Result} (calls : r.calls = [])
    (weighs : ∀ lines, w.inside lines p r.state ≤ w.inside lines p s + w.charge part call)
    (counts : p.counts r.state = p.counts s) (sound : p.Sound c r.state) :
      Takes w part c p s call r := by
  refine ⟨⟨0, ?_, weighs⟩, counts, sound⟩
  rw [calls]
  exact .nil

section Add
variable {call : Call C}

theorem charge_req {p : Part C} (hp : part call.callee = p) (hm : p.isMc = false)
    (hk : call.kind = .req) : w.charge part call = w.whole call.lqe := by
  rw [Weight.charge, hk, hp]
  exact if_neg (by rw [hm]; exact Bool.false_ne_true)

theorem aimed_of_routed {p : Part C} (hp : part call.callee = p) (hc : p.isCache)
    (routed : Routed part call) (hk : call.kind = .rep) (hn : call.lqe.type = .nack) :
    call.lqe.path.head? = some call.callee := by
  have aimed := routed hn
  rw [hk] at aimed
  exact aimed (by rwa [hp])

theorem addL1_takes {cfg : L1Config C} {n : Nat} {s : CacheL1 C} (source : C)
    (hp : part call.callee = cachel1 cfg n) (sound : (cachel1 cfg n).Sound call.callee s)
    (routed : Routed part call) : Meets (fun _ => True)
      (Takes w part call.callee (cachel1 cfg n) s call) ((cachel1 cfg n).add source call s) := by
  unfold add
  dsimp only
  split
  · rename_i hk
    exact .waits rfl (fun _ => by rw [charge_req hp rfl hk]; exact (CacheL1.inL1_addReq s _ _).le) rfl
      sound
  · rename_i hk
    refine .waits rfl
      (fun _ => by rw [w.charge_rep part hk]; exact (CacheL1.inL1_addRep s _ _).le) rfl ?_
    intro lqe mem hn
    rcases CacheL1.mem_replies_addRep.mp mem with rfl | mem
    · exact aimed_of_routed hp rfl routed hk hn
    · exact sound lqe mem hn
  · trivial

theorem addL2_takes {cfg : L2Config C} {n : Nat} {s : CacheL2 C} (source : C)
    (hp : part call.callee = cachel2 cfg n) (sound : (cachel2 cfg n).Sound call.callee s)
    (routed : Routed part call) : Meets (fun _ => True)
      (Takes w part call.callee (cachel2 cfg n) s call) ((cachel2 cfg n).add source call s) := by
  unfold add
  dsimp only
  split
  · rename_i hk
    exact .waits rfl (fun _ => by rw [charge_req hp rfl hk]; exact (CacheL2.inL2_addReq s _ _).le) rfl
      sound
  · rename_i hk
    refine .waits rfl
      (fun _ => by rw [w.charge_rep part hk]; exact (CacheL2.inL2_addRep s _ _).le) rfl ⟨sound.1, ?_⟩
    intro lqe mem hn
    rcases CacheL2.mem_replies_addRep.mp mem with rfl | mem
    · exact aimed_of_routed hp rfl routed hk hn
    · exact sound.2 lqe mem hn
  · trivial

theorem addDirectory_takes {cfg : DirConfig C} {s : Directory C} (source : C)
    (hp : part call.callee = directory cfg) : Meets (fun _ => True)
      (Takes w part call.callee (directory cfg) s call) ((directory cfg).add source call s) := by
  unfold add
  dsimp only
  split
  · rename_i hk
    exact .waits rfl
      (fun _ => by rw [charge_req hp rfl hk]; exact (Directory.inDirectory_addReq _).le) rfl trivial
  · rename_i hk
    exact .waits rfl
      (fun _ => by rw [w.charge_rep part hk]; exact (Directory.inDirectory_addRep _).le) rfl trivial
  · trivial

theorem incoming_le_charge {cfg : CrossbarConfig C} (source : C)
    (hp : part call.callee = crossbar cfg) :
    w.incoming (priority call.kind) (call.lqe, source) ≤ w.charge part call := by
  unfold Weight.incoming
  split
  · exact Nat.zero_le _
  · cases hk : call.kind with
    | req => exact (charge_req hp rfl hk).ge
    | rep => exact (w.charge_rep part hk).ge
    | crq =>
      rw [Weight.charge, hk]
      exact le_rfl

theorem named_of_routed (routed : Routed part call) :
    Crossbar.Named (priority call.kind) call.lqe := fun hc hn => by
  have way := routed hn
  cases hk : call.kind with
  | req | rep =>
    rw [hk] at hc
    cases hc
  | crq =>
    rw [hk] at way
    exact way

theorem addCrossbar_takes {cfg : CrossbarConfig C} {s : Crossbar C} (source : C)
    (hp : part call.callee = crossbar cfg) (sound : s.Straight) (routed : Routed part call) :
    Meets (fun _ => True) (Takes w part call.callee (crossbar cfg) s call)
      ((crossbar cfg).add source call s) := by
  have named := named_of_routed routed
  have joins : ∀ r : Result (crossbar cfg), r.calls = [] →
      w.inCrossbar cfg r.state =
        w.inCrossbar cfg s + w.incoming (priority call.kind) (call.lqe, source) →
      Crossbar.Straight r.state → Takes w part call.callee (crossbar cfg) s call r :=
    fun r calls weighs straight => .waits calls
      (fun _ => weighs.trans_le (Nat.add_le_add_left (incoming_le_charge source hp) _)) rfl straight
  obtain ⟨callee, kind, time, lqe, flits⟩ := call
  cases kind with
  | req =>
    exact joins _ rfl (Crossbar.inCrossbar_addEvent _ s _ source) (.addEvent sound named source)
  | crq | rep =>
    cases flits with
    | none =>
      exact joins _ rfl (Crossbar.inCrossbar_addEvent _ s _ source) (.addEvent sound named source)
    | some n =>
      exact joins _ rfl (Crossbar.inCrossbar_addFlits _ s _ n source)
        (.addFlits sound named n source)

theorem addMc_takes {cfg : McConfig C} {s : MemoryController C} (source : C)
    (hp : part call.callee = memoryController cfg)
    (wired : (memoryController cfg).Wired part call.callee) :
    Meets (fun _ => True) (Takes w part call.callee (memoryController cfg) s call)
      ((memoryController cfg).add source call s) := by
  have charged : call.kind ≠ .crq → w.load call.lqe = w.charge part call := fun hk => by
    cases hk' : call.kind with
    | req =>
      rw [Weight.charge, hk', hp]
      exact (if_pos rfl).symm
    | rep => exact (w.charge_rep part hk').symm
    | crq => exact (hk hk').elim
  obtain ⟨k, sends, weighs⟩ := MemoryController.addReqEvent_sends w wired s call.time call.lqe
  unfold add
  dsimp only
  split
  · rename_i hk
    exact ⟨⟨k, sends, fun _ => by rw [← charged (by simp [hk])]; exact weighs⟩, rfl, trivial⟩
  · rename_i hk
    exact ⟨⟨k, sends, fun _ => by rw [← charged (by simp [hk])]; exact weighs⟩, rfl, trivial⟩
  · trivial

theorem add_takes {p : Part C} {s : p.State} (source : C) (hp : part call.callee = p)
    (wired : p.Wired part call.callee) (sound : p.Sound call.callee s)
    (routed : Routed part call) :
    Meets (fun _ => True) (Takes w part call.callee p s call) (p.add source call s) := by
  cases p with
  | core => exact .waits rfl (fun _ => Nat.le_add_right _ _) rfl trivial
  | cachel1 cfg n => exact addL1_takes source hp sound routed
  | cachel2 cfg n => exact addL2_takes source hp sound routed
  | directory cfg => exact addDirectory_takes source hp
  | crossbar cfg => exact addCrossbar_takes source hp sound routed
  | memoryController cfg => exact addMc_takes source hp wired

end Add

/-- What a call of `process_event` costs, and that it pays for what it counts -/
structure Steps (w : Weight C) (part : C → Part C) (c : C) (fee : Nat) (p : Part C) (s : p.State)
    (r : p.Result) : Prop where
  weighs : ∃ near : Finset Nat, ∀ lines, near ⊆ lines →
    w.inside lines p r.state + weigh (w.charge part) r.calls + fee * (p.counts r.state).numNack +
        fee * (p.counts s).misses ≤
      w.inside lines p s + fee * (p.counts s).numNack + fee * (p.counts r.state).misses
  routed : ∀ call ∈ r.calls, Routed part call
  counted : (p.counts r.state).misses + (p.counts s).accesses ≤
    (p.counts s).misses + (p.counts r.state).accesses
  sound : p.Sound c r.state

theorem Steps.of_pays {p : Part C} {s : p.State} {r : p.Result}
    (pays : ∃ n, (∀ lines, w.inside lines p r.state + n = w.inside lines p s) ∧
      Pays w part fee n (p.counts s) (p.counts r.state) r.calls) (sound : p.Sound c r.state) :
    Steps w part c fee p s r := by
  obtain ⟨n, inside, pays⟩ := pays
  refine ⟨⟨∅, fun lines _ => ?_⟩, pays.routed, pays.counted, sound⟩
  have := inside lines
  have := pays.weighs
  omega

theorem Steps.of_sends {p : Part C} {s : p.State} {r : p.Result}
    (same : p.counts r.state = p.counts s) (weighs : ∃ near : Finset Nat, ∀ lines, near ⊆ lines →
      w.inside lines p r.state + weigh (w.charge part) r.calls ≤ w.inside lines p s)
    (routed : ∀ call ∈ r.calls, Routed part call) (sound : p.Sound c r.state) :
    Steps w part c fee p s r := by
  obtain ⟨near, less⟩ := weighs
  refine ⟨⟨near, fun lines sub => ?_⟩, routed, ?_, sound⟩
  · rw [same]
    have := less lines sub
    omega
  · rw [same]

/-- A nack is for a request that was counted as a miss. `unpaid` are the serial numbers of the
upgrades that the cache has passed down. -/
def NackOk (t : Nat) (unpaid : Finset (Option Nat)) : (p : Part C) → p.State → Prop
  | cachel1 cfg _, s => ∀ lqe ∈ (CacheL1.takeEvents cfg t s).repQ.head?, lqe.type = .nack →
      lqe.serial ∉ unpaid
  | cachel2 cfg _, s => ∀ lqe ∈ (CacheL2.takeEvents cfg t s).repQ.head?, lqe.type = .nack →
      lqe.serial ∉ unpaid
  | _, _ => True

instance (t : Nat) (unpaid : Finset (Option Nat)) :
    (p : Part C) → (s : p.State) → Decidable (p.NackOk t unpaid s)
  | cachel1 cfg _, s => inferInstanceAs (Decidable (∀ lqe ∈ (CacheL1.takeEvents cfg t s).repQ.head?,
      lqe.type = .nack → lqe.serial ∉ unpaid))
  | cachel2 cfg _, s => inferInstanceAs (Decidable (∀ lqe ∈ (CacheL2.takeEvents cfg t s).repQ.head?,
      lqe.type = .nack → lqe.serial ∉ unpaid))
  | core, _ | directory _, _ | crossbar _, _ | memoryController _, _ =>
    inferInstanceAs (Decidable True)

structure Priced (w : Weight C) (c : C) (p : Part C) (fee : Nat) (paid : Finset (Option Nat)) :
    Prop where
  cost : Fee w c fee paid
  still : p.isCache = false → fee = 0
  fresh : p.isL1 → w.of [c] none = 0
  top : p.isL1 = false → ∀ path, ∀ serial ∉ paid, w.of path serial + fee ≤ w.of (c :: path) serial

section Process
variable [LinearOrder C]

theorem upgrades_of_reply1 {cfg : L1Config C} {n : Nat} {s : CacheL1 C} {lqe : Lqe C}
    (h : lqe ∈ (CacheL1.takeEvents cfg t s).repQ.head?) : (cachel1 cfg n).upgrades t s = [] := by
  unfold upgrades
  dsimp only
  split
  · rename_i hq
    rw [hq] at h
    cases h
  · rfl

theorem upgrades_of_requests1 {cfg : L1Config C} {n : Nat} {s : CacheL1 C}
    (h : (CacheL1.takeEvents cfg t s).repQ = []) : (cachel1 cfg n).upgrades t s =
      CacheL1.upgrades cfg t { CacheL1.takeEvents cfg t s with
        reqQs := fun bank => ((CacheL1.takeEvents cfg t s).reqQs bank).tail }
        (CacheL1.frontRequests cfg (CacheL1.takeEvents cfg t s)) := by
  unfold upgrades
  dsimp only
  split
  · rfl
  · rename_i full
    exact (full h).elim

theorem upgrades_of_reply2 {cfg : L2Config C} {n : Nat} {s : CacheL2 C} {lqe : Lqe C}
    (h : lqe ∈ (CacheL2.takeEvents cfg t s).repQ.head?) : (cachel2 cfg n).upgrades t s = [] := by
  unfold upgrades
  dsimp only
  split
  · rename_i hq
    rw [hq] at h
    cases h
  · rfl

theorem upgrades_of_requests2 {cfg : L2Config C} {n : Nat} {s : CacheL2 C}
    (h : (CacheL2.takeEvents cfg t s).repQ = []) : (cachel2 cfg n).upgrades t s =
      CacheL2.upgrades cfg t { CacheL2.takeEvents cfg t s with
        reqQs := fun bank => ((CacheL2.takeEvents cfg t s).reqQs bank).tail }
        (CacheL2.frontRequests cfg (CacheL2.takeEvents cfg t s)) := by
  unfold upgrades
  dsimp only
  split
  · rfl
  · rename_i full
    exact (full h).elim

variable {unpaid : Finset (Option Nat)}

theorem processL1_steps {cfg : L1Config C} {n : Nat} {s : CacheL1 C} (self : cfg.self = c)
    (priced : Priced w c (cachel1 cfg n) fee
      (unpaid ∪ ((cachel1 cfg n).upgrades t s).toFinset))
    (sound : (cachel1 cfg n).Sound c s) (ok : (cachel1 cfg n).NackOk t unpaid s) :
    Meets (fun _ => True) (Steps w part c fee (cachel1 cfg n) s) ((cachel1 cfg n).process t s) := by
  subst self
  show Meets _ _ (CacheL1.processEvent cfg t s >>= _)
  rw [meets_bind]
  refine (CacheL1.processEvent_stepped part priced.cost (priced.fresh rfl) (fun lqe next hn => ?_)
    fun hq serial mem => ?_).mono (fun r step => ?_) fun _ h => h
  · have late := ok lqe next hn
    have waits := CacheL1.mem_replies_takeEvents.mp
      (List.mem_append_right _ (List.mem_of_mem_head? next))
    rw [upgrades_of_reply1 next, List.toFinset_nil, Finset.union_empty]
    exact ⟨late, sound lqe waits hn⟩
  · refine Finset.mem_union_right _ (List.mem_toFinset.mpr ?_)
    rw [upgrades_of_requests1 hq]
    exact mem
  · obtain ⟨n, inside, pays⟩ := step.pays
    exact Steps.of_pays ⟨n, fun _ => inside, pays⟩ fun lqe mem => sound lqe (step.replies lqe mem)

theorem processL2_steps {cfg : L2Config C} {n : Nat} {s : CacheL2 C} (self : cfg.self = c)
    (priced : Priced w c (cachel2 cfg n) fee
      (unpaid ∪ ((cachel2 cfg n).upgrades t s).toFinset))
    (sound : (cachel2 cfg n).Sound c s) (ok : (cachel2 cfg n).NackOk t unpaid s) :
    Meets (fun _ => True) (Steps w part c fee (cachel2 cfg n) s) ((cachel2 cfg n).process t s) := by
  subst self
  show Meets _ _ (CacheL2.processEvent cfg t s >>= _)
  rw [meets_bind]
  refine Meets.mono (CacheL2.processEvent_stepped part sound.1 priced.cost (fun lqe next hn => ?_)
    fun hq serial mem => ?_) (fun r step => ?_) fun _ h => h
  · have late := ok lqe next hn
    have waits := CacheL2.mem_replies_takeEvents.mp
      (List.mem_append_right _ (List.mem_of_mem_head? next))
    obtain ⟨path, hp⟩ := List.head?_eq_some_iff.mp (sound.2 lqe waits hn)
    rw [w.load_stack lqe (congrArg cargo hn), Weight.whole, hp]
    refine priced.top rfl path lqe.serial ?_
    rw [upgrades_of_reply2 next, List.toFinset_nil, Finset.union_empty]
    exact late
  · refine Finset.mem_union_right _ (List.mem_toFinset.mpr ?_)
    rw [upgrades_of_requests2 hq]
    exact mem
  · obtain ⟨n, inside, pays⟩ := step.pays
    exact Steps.of_pays ⟨n, fun _ => inside, pays⟩ ⟨step.quiets,
      fun lqe mem => sound.2 lqe (step.replies lqe mem)⟩

theorem processDirectory_steps {cfg : DirConfig C} {s : Directory C}
    {paid : Finset (Option Nat)} (wired : (directory cfg).Wired part c)
    (priced : Priced w c (directory cfg) fee paid) :
    Meets (fun _ => True) (Steps w part c fee (directory cfg) s) ((directory cfg).process t s) := by
  obtain ⟨rfl, memory, crossbar⟩ := wired
  have placed : Directory.Placed w part cfg := ⟨fun path serial => by
    have := priced.cost.push path serial
    rwa [priced.still rfl] at this, memory, crossbar⟩
  show Meets _ _ (Directory.processEvent cfg t s >>= _)
  rw [meets_bind]
  refine (Directory.processEvent_turns placed).mono (fun r turn => ?_) fun _ h => h
  obtain ⟨k, sends, near, less⟩ := turn
  refine Steps.of_sends rfl ⟨near, fun lines sub => ?_⟩ sends.routed trivial
  have := less lines sub
  have := sends.weighs
  show w.inDirectory lines r.1 + weigh (w.charge part) r.2.calls ≤ w.inDirectory lines s
  omega

theorem process_steps {p : Part C} {s : p.State} (wired : p.Wired part c)
    (priced : Priced w c p fee (unpaid ∪ (p.upgrades t s).toFinset)) (sound : p.Sound c s)
    (ok : p.NackOk t unpaid s) :
    Meets (fun _ => True) (Steps w part c fee p s) (p.process t s) := by
  cases p with
  | core => exact Steps.of_sends rfl ⟨∅, fun _ _ => le_rfl⟩ (fun _ h => by cases h) trivial
  | cachel1 cfg n => exact processL1_steps wired priced sound ok
  | cachel2 cfg n => exact processL2_steps wired priced sound ok
  | directory cfg => exact processDirectory_steps wired priced
  | crossbar cfg =>
    show Meets _ _ (Crossbar.processEvent cfg s t >>= _)
    rw [meets_bind]
    refine (Crossbar.processEvent_passed w part sound).mono (fun r passed => ?_) fun _ h => h
    exact Steps.of_sends rfl ⟨∅, fun _ _ => passed.weighs⟩ passed.routed passed.straight
  | memoryController cfg =>
    show Meets _ _ (MemoryController.processEvent cfg t s >>= _)
    rw [meets_bind]
    refine (MemoryController.processEvent_sends w wired).mono (fun r turn => ?_) fun _ h => h
    obtain ⟨k, sends, less⟩ := turn
    refine Steps.of_sends rfl ⟨∅, fun _ _ => ?_⟩ sends.routed trivial
    have := sends.weighs
    show w.inMc r.1 + weigh (w.charge part) r.2.calls ≤ w.inMc s
    omega

end Process
end Part

end McSim
