import McSim.Machine
import McSim.Lib.Weighing

/-! What is on its way through a machine.
A weight is given to the stack of an element and its serial number. A request weighs what its stack
weighs, and a reply what it carries of the stack of a request. -/

namespace McSim

open Weighing

variable {C : Type}

/-- What a reply carries: the stack of a request, or one below the cache that has the owner L1 give
its line up, or nothing -/
inductive Cargo
  | stack
  | below
  | nothing
deriving DecidableEq

def cargo : EventType → Cargo
  | .read | .write | .writeNd | .eRd | .sRd | .sRdWr | .nack | .rdBypass | .rdDirInfoReq => .stack
  | .mToS | .mToM => .below
  | _ => .nothing

structure Weight (C : Type) where
  of : List C → Option Nat → Nat
  empty : of [] none = 0
  tail_le : ∀ path serial, of path.tail serial ≤ of path serial

namespace Weight

variable (w : Weight C)

def whole (lqe : Lqe C) : Nat := w.of lqe.path lqe.serial

def load (lqe : Lqe C) : Nat :=
  match cargo lqe.type with
  | .stack => w.whole lqe
  | .below => w.of lqe.path.tail lqe.serial
  | .nothing => 0

theorem load_stack (lqe : Lqe C) (h : cargo lqe.type = .stack) : w.load lqe = w.whole lqe := by
  rw [load, h]

theorem load_below (lqe : Lqe C) (h : cargo lqe.type = .below) :
    w.load lqe = w.of lqe.path.tail lqe.serial := by
  rw [load, h]

theorem load_nothing (lqe : Lqe C) (h : cargo lqe.type = .nothing) : w.load lqe = 0 := by
  rw [load, h]

theorem load_le_whole (lqe : Lqe C) : w.load lqe ≤ w.whole lqe := by
  have tail := w.tail_le lqe.path lqe.serial
  unfold load
  split
  · exact le_rfl
  · exact tail
  · exact Nat.zero_le _

theorem whole_pop {lqe : Lqe C} {c : C} {path : List C} (h : lqe.path = c :: path) :
    w.whole { lqe with path } ≤ w.whole lqe := by
  have tail := w.tail_le lqe.path lqe.serial
  rw [h] at tail
  rw [whole, whole, h]
  exact tail

theorem load_pop {lqe : Lqe C} {c : C} {path : List C} (h : lqe.path = c :: path) :
    w.load { lqe with path } ≤ w.load lqe := by
  have tail : path = lqe.path.tail := by rw [h]; rfl
  subst tail
  unfold load
  show (match cargo lqe.type with | .stack => _ | .below => _ | .nothing => _) ≤ _
  cases cargo lqe.type with
  | stack => exact w.tail_le _ _
  | below => exact w.tail_le _ _
  | nothing => exact le_rfl

/-- What a call adds to its callee. A memory controller keeps the replies of directories. -/
def charge (part : C → Part C) (call : Call C) : Nat :=
  match call.kind with
  | .req => if (part call.callee).isMc then w.load call.lqe else w.whole call.lqe
  | .rep => w.load call.lqe
  | .crq => w.load { call.lqe with path := call.lqe.path.tail }

theorem charge_req_le (part : C → Part C) {call : Call C} (h : call.kind = .req) :
    w.charge part call ≤ w.whole call.lqe := by
  rw [charge, h]
  dsimp only
  split
  · exact w.load_le_whole _
  · exact le_rfl

theorem charge_rep (part : C → Part C) {call : Call C} (h : call.kind = .rep) :
    w.charge part call = w.load call.lqe := by
  rw [charge, h]

end Weight

/-- A nack that a cache is handed has the cache on top of its stack. On the way through the crossbar
the top is there twice. -/
def Routed (part : C → Part C) (call : Call C) : Prop :=
  call.lqe.type = .nack →
    match call.kind with
    | .req => True
    | .rep => (part call.callee).isCache → call.lqe.path.head? = some call.callee
    | .crq => call.lqe.path.head? = call.lqe.path.tail.head?

theorem routed_of_type {part : C → Part C} {call : Call C} (h : call.lqe.type ≠ .nack) :
    Routed part call := fun hn => (h hn).elim

theorem routed_of_head {part : C → Part C} {call : Call C} (h : call.kind = .rep)
    (hp : call.lqe.path.head? = some call.callee) : Routed part call := by
  intro _
  rw [h]
  exact fun _ => hp

/-- Calls that weigh no more than `n` and send no nack astray -/
structure Sends (w : Weight C) (part : C → Part C) (n : Nat) (calls : List (Call C)) : Prop where
  weighs : weigh (w.charge part) calls ≤ n
  routed : ∀ call ∈ calls, Routed part call

namespace Sends

variable {w : Weight C} {part : C → Part C} {n n' : Nat} {calls calls' : List (Call C)}

theorem nil : Sends w part n [] := ⟨Nat.zero_le n, fun _ h => by cases h⟩

theorem one {call : Call C} (h : w.charge part call ≤ n) (hr : Routed part call) :
    Sends w part n [call] :=
  ⟨by simpa using h, fun _ hc => List.mem_singleton.mp hc ▸ hr⟩

theorem mono (h : Sends w part n calls) (hn : n ≤ n') : Sends w part n' calls :=
  ⟨h.weighs.trans hn, h.routed⟩

theorem append (h : Sends w part n calls) (h' : Sends w part n' calls') :
    Sends w part (n + n') (calls ++ calls') := by
  refine ⟨?_, fun call hc => ?_⟩
  · rw [weigh_append]
    exact Nat.add_le_add h.weighs h'.weighs
  · exact (List.mem_append.mp hc).elim (h.routed call) (h'.routed call)

theorem cons {call : Call C} (h : Sends w part n [call]) (h' : Sends w part n' calls') :
    Sends w part (n + n') (call :: calls') := h.append h'

theorem free (h : ∀ call ∈ calls, w.charge part call = 0 ∧ call.lqe.type ≠ .nack) :
    Sends w part 0 calls :=
  ⟨(weigh_eq_zero fun call hc => (h call hc).1).le, fun call hc => routed_of_type (h call hc).2⟩

end Sends

/-- What a cache does with elements that weigh `n`. A nack takes the fee of one miss back. -/
structure Pays (w : Weight C) (part : C → Part C) (fee n : Nat) (k k' : Counts)
    (calls : List (Call C)) :
    Prop where
  weighs : weigh (w.charge part) calls + fee * k'.numNack + fee * k.misses ≤
    n + fee * k.numNack + fee * k'.misses
  routed : ∀ call ∈ calls, Routed part call
  counted : k'.misses + k.accesses ≤ k.misses + k'.accesses

namespace Pays

variable {w : Weight C} {part : C → Part C} {fee n n' : Nat} {k k' k'' : Counts}
  {calls calls' : List (Call C)}

theorem of_sends (h : Sends w part n calls) (same : k' = k) : Pays w part fee n k k' calls := by
  subst same
  refine ⟨?_, h.routed, le_rfl⟩
  have := h.weighs
  omega

theorem mono (h : Pays w part fee n k k' calls) (hn : n ≤ n') : Pays w part fee n' k k' calls := by
  have := h.weighs
  exact ⟨by omega, h.routed, h.counted⟩

theorem nack (h : Sends w part n' calls) (hn : n' + fee ≤ n)
    (counts : k' = { k with numNack := k.numNack + 1 }) : Pays w part fee n k k' calls := by
  subst counts
  refine ⟨?_, h.routed, le_rfl⟩
  have := h.weighs
  show _ + fee * (k.numNack + 1) + fee * k.misses ≤ _ + _ + fee * k.misses
  rw [Nat.mul_add]
  omega

theorem answer (h : Sends w part n calls) (nacks : k'.numNack = k.numNack)
    (misses : k'.misses = k.misses) (accesses : k'.accesses = k.accesses + 1) :
    Pays w part fee n k k' calls := by
  refine ⟨?_, h.routed, by omega⟩
  have := h.weighs
  rw [nacks, misses]
  omega

theorem miss (h : Sends w part (n + fee) calls) (nacks : k'.numNack = k.numNack)
    (misses : k'.misses = k.misses + 1) (accesses : k'.accesses = k.accesses + 1) :
    Pays w part fee n k k' calls := by
  refine ⟨?_, h.routed, by omega⟩
  have := h.weighs
  rw [nacks, misses, Nat.mul_add]
  omega

theorem trans (h : Pays w part fee n k k' calls) (h' : Pays w part fee n' k' k'' calls') :
    Pays w part fee (n + n') k k'' (calls ++ calls') := by
  have first := h.weighs
  have second := h'.weighs
  have counted := h.counted
  have counted' := h'.counted
  refine ⟨?_, fun call hc => ?_, by omega⟩
  · rw [weigh_append]
    omega
  · exact (List.mem_append.mp hc).elim (h.routed call) (h'.routed call)

end Pays

/-- What a component costs a weight. Its name on a stack costs at most `fee`, nothing for the serial
numbers in `paid`; for the others a nack that takes it off again gives the fee back. -/
structure Fee (w : Weight C) (c : C) (fee : Nat) (paid : Finset (Option Nat)) : Prop where
  push : ∀ path serial, w.of (c :: path) serial ≤ w.of path serial + fee
  free : ∀ path, ∀ serial ∈ paid, w.of (c :: path) serial ≤ w.of path serial
  back : ∀ path, path ≠ [] → ∀ serial ∉ paid, w.of path serial + fee ≤ w.of (c :: path) serial

section Replies
variable {repEvent : List (Nat × Lqe C)} {repQ : List (Lqe C)} {t : Nat} {lqe lqe' : Lqe C}

def waitingReplies (repEvent : List (Nat × Lqe C)) (repQ : List (Lqe C)) : List (Lqe C) :=
  repEvent.map (·.2) ++ repQ

theorem mem_waitingReplies_insert : lqe ∈ waitingReplies (Multimap.insert t lqe' repEvent) repQ ↔
    lqe = lqe' ∨ lqe ∈ waitingReplies repEvent repQ := by
  have perm := (Multimap.insert_perm t lqe' repEvent).map (·.2)
  rw [waitingReplies, waitingReplies, List.mem_append, perm.mem_iff, List.map_cons, List.mem_cons,
    List.mem_append, or_assoc]

theorem mem_waitingReplies_take :
    lqe ∈ waitingReplies (repEvent.dropWhile fun e => e.1 = t)
        (repQ ++ (Multimap.front t repEvent).map (·.2)) ↔
      lqe ∈ waitingReplies repEvent repQ := by
  have split : repEvent.map (·.2) = (Multimap.front t repEvent).map (·.2) ++
      (repEvent.dropWhile fun e => e.1 = t).map (·.2) := by
    rw [← List.map_append, Multimap.front, List.takeWhile_append_dropWhile]
  rw [waitingReplies, waitingReplies, split]
  simp only [List.mem_append]
  tauto

end Replies

namespace Weight

variable (w : Weight C)

def inCache (numBanks : Nat) (reqEvent repEvent : List (Nat × Lqe C)) (repQ : List (Lqe C))
    (reqQs : Nat → List (Lqe C)) : Nat :=
  weigh w.whole (reqEvent.map (·.2)) + weigh w.load (repEvent.map (·.2)) + weigh w.load repQ +
    ∑ bank ∈ Finset.range numBanks, weigh w.whole (reqQs bank)

def inL1 (cfg : L1Config C) (s : CacheL1 C) : Nat :=
  w.inCache cfg.numBanks s.reqEvent s.repEvent s.repQ s.reqQs

def inL2 (cfg : L2Config C) (s : CacheL2 C) : Nat :=
  w.inCache cfg.numBanks s.reqEvent s.repEvent s.repQ s.reqQs

def held (e : Option (DirEntry C)) : Nat := weigh w.whole (e.bind (·.pending)).toList

/-- In a directory, as far as the entries of some lines are concerned -/
def inDirectory (lines : Finset Nat) (s : Directory C) : Nat :=
  weigh w.whole (s.reqEvent.map (·.2)) + weigh w.load (s.repEvent.map (·.2)) +
    weigh w.whole s.reqQ + weigh w.load s.repQ + ∑ line ∈ lines, w.held (s.dir line)

def incoming (cls : NocPriority) (e : Lqe C × C) : Nat :=
  if e.1.dummy then 0
  else
    match cls with
    | .req => w.whole e.1
    | .rep => w.load e.1
    | .crq => w.load { e.1 with path := e.1.path.tail }

def queued (e : NocPriority × Lqe C × C) : Nat :=
  if e.2.1.dummy then 0 else if e.1 = .req then w.whole e.2.1 else w.load e.2.1

def inCrossbar (cfg : CrossbarConfig C) (s : Crossbar C) : Nat :=
  weigh (w.incoming .req) (s.reqEvents.map (·.2)) + weigh (w.incoming .crq)
    (s.crqEvents.map (·.2)) +
    weigh (w.incoming .rep) (s.repEvents.map (·.2)) +
    ∑ port ∈ Finset.range cfg.numPorts, weigh w.queued (s.queues port)

def inMc (s : MemoryController C) : Nat :=
  weigh w.load (s.reqEvent.map (·.2)) + weigh w.load s.reqL

def inside (lines : Finset Nat) : (p : Part C) → p.State → Nat
  | .core, _ => 0
  | .cachel1 cfg _, s => w.inL1 cfg s
  | .cachel2 cfg _, s => w.inL2 cfg s
  | .directory _, s => w.inDirectory lines s
  | .crossbar cfg, s => w.inCrossbar cfg s
  | .memoryController _, s => w.inMc s

variable {w}

section Cache
variable {numBanks : Nat} {reqEvent repEvent : List (Nat × Lqe C)} {repQ : List (Lqe C)}
  {reqQs : Nat → List (Lqe C)}

theorem inCache_addReq (t : Nat) (lqe : Lqe C) :
    w.inCache numBanks (Multimap.insert t lqe reqEvent) repEvent repQ reqQs =
      w.inCache numBanks reqEvent repEvent repQ reqQs + w.whole lqe := by
  simp only [inCache, weigh_insert]
  omega

theorem inCache_addRep (t : Nat) (lqe : Lqe C) :
    w.inCache numBanks reqEvent (Multimap.insert t lqe repEvent) repQ reqQs =
      w.inCache numBanks reqEvent repEvent repQ reqQs + w.load lqe := by
  simp only [inCache, weigh_insert]
  omega

theorem inCache_take (t : Nat) {bank : Lqe C → Nat} (h : ∀ lqe, bank lqe < numBanks) :
    w.inCache numBanks (reqEvent.dropWhile fun e => e.1 = t) (repEvent.dropWhile fun e => e.1 = t)
        (repQ ++ (Multimap.front t repEvent).map (·.2))
        (((Multimap.front t reqEvent).map (·.2)).foldl (fun qs lqe =>
          Function.update qs (bank lqe) (qs (bank lqe) ++ [lqe])) reqQs) =
      w.inCache numBanks reqEvent repEvent repQ reqQs := by
  have reqs := weigh_front (f := w.whole) t reqEvent
  have reps := weigh_front (f := w.load) t repEvent
  simp only [inCache, weigh_deal h, weigh_append]
  omega

theorem inCache_cons (lqe : Lqe C) : w.inCache numBanks reqEvent repEvent (lqe :: repQ) reqQs =
    w.inCache numBanks reqEvent repEvent repQ reqQs + w.load lqe := by
  simp only [inCache, weigh_cons]
  omega

theorem inCache_heads : w.inCache numBanks reqEvent repEvent repQ reqQs =
    w.inCache numBanks reqEvent repEvent repQ (fun bank => (reqQs bank).tail) +
      weigh w.whole ((List.range numBanks).filterMap fun bank => (reqQs bank).head?) := by
  have heads := weigh_heads (f := w.whole) numBanks reqQs
  simp only [inCache]
  omega

end Cache

theorem held_le_inDirectory {lines lines' : Finset Nat} (h : lines ⊆ lines') (s : Directory C) :
    w.inDirectory lines s ≤ w.inDirectory lines' s := by
  have less := Finset.sum_le_sum_of_subset (f := fun line => w.held (s.dir line)) h
  simp only [inDirectory]
  omega

theorem inside_subset {lines lines' : Finset Nat} (h : lines ⊆ lines') (p : Part C) (s : p.State) :
    w.inside lines p s ≤ w.inside lines' p s := by
  cases p with
  | directory cfg => exact held_le_inDirectory h s
  | core | cachel1 | cachel2 | crossbar | memoryController => exact le_rfl

variable {w' : Weight C}

theorem whole_mono (h : ∀ path serial, w.of path serial ≤ w'.of path serial) (lqe : Lqe C) :
    w.whole lqe ≤ w'.whole lqe := h _ _

theorem load_mono (h : ∀ path serial, w.of path serial ≤ w'.of path serial) (lqe : Lqe C) :
    w.load lqe ≤ w'.load lqe := by
  unfold load
  split
  · exact h _ _
  · exact h _ _
  · exact le_rfl

theorem incoming_mono (h : ∀ path serial, w.of path serial ≤ w'.of path serial) (cls : NocPriority)
    (e : Lqe C × C) : w.incoming cls e ≤ w'.incoming cls e := by
  unfold incoming
  split
  · exact le_rfl
  · cases cls with
    | req => exact h _ _
    | rep => exact load_mono h _
    | crq => exact load_mono h _

theorem queued_mono (h : ∀ path serial, w.of path serial ≤ w'.of path serial)
    (e : NocPriority × Lqe C × C) : w.queued e ≤ w'.queued e := by
  unfold queued
  split
  · exact le_rfl
  · split
    · exact h _ _
    · exact load_mono h _

theorem inCache_mono (h : ∀ path serial, w.of path serial ≤ w'.of path serial) (numBanks : Nat)
    (reqEvent repEvent : List (Nat × Lqe C)) (repQ : List (Lqe C)) (reqQs : Nat → List (Lqe C)) :
    w.inCache numBanks reqEvent repEvent repQ reqQs ≤
      w'.inCache numBanks reqEvent repEvent repQ reqQs := by
  unfold inCache
  gcongr
  · exact weigh_mono (whole_mono h) _
  · exact weigh_mono (load_mono h) _
  · exact weigh_mono (load_mono h) _
  · exact weigh_mono (whole_mono h) _

theorem inside_mono (h : ∀ path serial, w.of path serial ≤ w'.of path serial) (lines : Finset Nat)
    (p : Part C) (s : p.State) : w.inside lines p s ≤ w'.inside lines p s := by
  cases p with
  | core => exact le_rfl
  | cachel1 cfg n => exact inCache_mono h _ _ _ _ _
  | cachel2 cfg n => exact inCache_mono h _ _ _ _ _
  | directory cfg =>
    show w.inDirectory lines s ≤ w'.inDirectory lines s
    unfold inDirectory
    gcongr
    · exact weigh_mono (whole_mono h) _
    · exact weigh_mono (load_mono h) _
    · exact weigh_mono (whole_mono h) _
    · exact weigh_mono (load_mono h) _
    · exact weigh_mono (whole_mono h) _
  | crossbar cfg =>
    show w.inCrossbar cfg s ≤ w'.inCrossbar cfg s
    unfold inCrossbar
    gcongr
    · exact weigh_mono (incoming_mono h _) _
    · exact weigh_mono (incoming_mono h _) _
    · exact weigh_mono (incoming_mono h _) _
    · exact weigh_mono (queued_mono h) _
  | memoryController cfg =>
    show w.inMc s ≤ w'.inMc s
    unfold inMc
    gcongr
    · exact weigh_mono (load_mono h) _
    · exact weigh_mono (load_mono h) _

theorem inside_init (lines : Finset Nat) (p : Part C) : w.inside lines p p.init = 0 := by
  cases p <;> simp [inside, Part.init, inL1, inL2, inCache, inDirectory, inCrossbar, inMc, held,
    CacheL1.init, CacheL2.init]

end Weight
end McSim
