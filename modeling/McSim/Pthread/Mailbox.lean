import McSim.Pthread.Pts
import Mathlib.Data.List.Infix

/-! The mailboxes between the frontend processes and the simulator.
Every process shares a message and two flags with the simulator, which serves one process at a time.
Reads and writes of a flag are atomic; a message may be read and written for as long as the model
says. -/

namespace McSim.Pthread

/-- Where a frontend is: between two calls, where it also fills in its next message, spinning on
`mmap_flag[1]`, behind the spinning, behind `sync_with_mcsim`, behind its destructor, or killed. -/
inductive FrontendPc
  | running | waiting | released | reading | gone | killed
deriving DecidableEq, Repr

/-- Where the loop of `main` is: spinning on `mmap_flag[0]`, behind the spinning, in the first
`memcpy`, behind it, in the second `memcpy`, behind it, or behind the loop. -/
inductive Phase
  | polling | seen | copying | serving | replying | releasing | halted
deriving DecidableEq, Repr

/-- One process, with the `buffer` that the simulator keeps for it. Ghost: the messages it has sent,
those that have been processed with their answers, and the answers it has read. -/
structure PtsProcess where
  message : PtsMessage := {}
  flag0 : Bool := true
  flag1 : Bool := true
  pc : FrontendPc := .running
  buffer : PtsMessage := { type := .constructor }
  sent : List PtsMessage := []
  processed : List (PtsMessage × PtsMessage) := []
  returned : List PtsMessage := []

structure Mailboxes where
  procs : Nat → PtsProcess := fun _ => {}
  currPid : Nat := 0
  anyThread : Bool := true
  phase : Phase := .polling

/-- One atomic step. The simulator finds out what it answers, and for which process, by itself. -/
inductive MailEvent
  | write (i : Nat) (m : PtsMessage)
  | send (i : Nat)
  | see (i : Nat)
  | raise (i : Nat)
  | finish (i : Nat)
  | poll
  | take
  | copy
  | kill
  | serve (r : Reply) (next : Option Nat)
  | reply
  | release

/-- The second `memcpy` leaves `val` out. -/
def PtsMessage.putHeader (m buffer : PtsMessage) : PtsMessage :=
  { buffer with instr := m.instr, str := m.str }

namespace Mailboxes

def setProc (s : Mailboxes) (i : Nat) (p : PtsProcess) : Mailboxes :=
  { s with procs := Function.update s.procs i p }

def curr (s : Mailboxes) : PtsProcess := s.procs s.currPid

/-- A message is processed when its answer is in some buffer. -/
def record (s : Mailboxes) (i : Nat) (req rep : PtsMessage) : Mailboxes :=
  s.setProc i { s.procs i with processed := (s.procs i).processed ++ [(req, rep)] }

/-- Hthread `r.hthread` of process `j` goes on: the answer to `req` is written to the buffer of that
process. -/
def resume (s : Mailboxes) (req : PtsMessage) (r : Reply) (j : Nat) : Mailboxes :=
  let p := s.procs j
  let buffer := { p.buffer with
    type := .resumeSimulation, uint32Val := r.hthread, uint64Val := r.time }
  ({ s with currPid := j, phase := .replying }.setProc j { p with buffer }).record s.currPid req
    buffer

/-- The `switch`; `next` is the process of the hthread to resume, if any. -/
def serve (numProcesses : Nat) (s : Mailboxes) (r : Reply) (next : Option Nat) : Option Mailboxes :=
  let p := s.curr
  let req := p.buffer
  match req.type, next with
  | .invalid, _ | .constructor, _ => none
  | .resumeSimulation, none => none
  | .resumeSimulation, some j => if j < numProcesses then some (s.resume req r j) else none
  | .destructor, none =>
    some ({ s with anyThread := false, phase := .replying }.record s.currPid req req)
  | .destructor, some j =>
    if j < numProcesses then
      some ((s.setProc s.currPid { p with buffer := { req with uint32Val := r.value } }).resume req
        r j)
    else none
  | _, _ =>
    if req.type = .addInstruction ∧ req.uint32Val = 0 then none
    else some (({ s with phase := .replying }.setProc s.currPid
      { p with buffer := req.answered r }).record s.currPid req (req.answered r))

def step (numProcesses : Nat) (s : Mailboxes) : MailEvent → Option Mailboxes
  | .write i m =>
    let p := s.procs i
    if i < numProcesses ∧ p.pc = .running then some (s.setProc i { p with message := m }) else none
  | .send i =>
    -- `mmap_flag[0] = false`; a destructor does not wait
    let p := s.procs i
    if i < numProcesses ∧ p.pc = .running then
      some (s.setProc i { p with
        flag0 := false, sent := p.sent ++ [p.message]
        pc := if p.message.type = .destructor then .gone else .waiting })
    else none
  | .see i =>
    let p := s.procs i
    if p.pc = .waiting ∧ p.flag1 = false then some (s.setProc i { p with pc := .released })
      else none
  | .raise i =>
    let p := s.procs i
    if p.pc = .released then some (s.setProc i { p with flag1 := true, pc := .reading }) else none
  | .finish i =>
    let p := s.procs i
    if p.pc = .reading then
      some (s.setProc i { p with returned := p.returned ++ [p.message], pc := .running })
    else none
  | .poll =>
    if s.phase = .polling ∧ s.curr.flag0 = false then some { s with phase := .seen } else none
  | .take =>
    if s.phase = .seen then
      some ({ s with phase := .copying }.setProc s.currPid { s.curr with flag0 := true })
    else none
  | .copy =>
    if s.phase = .copying then
      some ({ s with phase := .serving }.setProc s.currPid { s.curr with buffer := s.curr.message })
    else none
  | .kill =>
    -- enough instructions have been fetched
    if s.phase = .serving then
      some { s with phase := .halted, procs := fun i => { s.procs i with pc := .killed } }
    else none
  | .serve r next => if s.phase = .serving then s.serve numProcesses r next else none
  | .reply =>
    if s.phase = .replying then
      some ({ s with phase := .releasing }.setProc s.currPid
        { s.curr with message := s.curr.message.putHeader s.curr.buffer })
    else none
  | .release =>
    if s.phase = .releasing then
      some ({ s with phase := if s.anyThread then .polling else .halted }.setProc s.currPid
        { s.curr with flag1 := false })
    else none

inductive Run (numProcesses : Nat) (ok : Mailboxes → MailEvent → Prop) : Mailboxes → Prop
  | init : Run numProcesses ok {}
  | step {s s'} (e : MailEvent) : Run numProcesses ok s → ok s e →
      s.step numProcesses e = some s' → Run numProcesses ok s'

/-- The simulator is in one of the two copies from and to the message of process `i`. -/
def Uses (s : Mailboxes) (i : Nat) : Prop :=
  s.currPid = i ∧ (s.phase = .copying ∨ s.phase = .replying)

/-- A frontend that has not sent its message yet, or is reading the answer. -/
def Owns (p : PtsProcess) : Prop := p.pc = .running ∨ p.pc = .reading

/-- Calls and answers belong together: the k-th answer that a process has read is the one to its
k-th message, of the same type; what it has sent is processed in order, once, but for a last message
that is on its way. -/
structure Paired (s : Mailboxes) : Prop where
  replies : ∀ i, (s.procs i).returned <+: (s.procs i).processed.map Prod.snd
  once : ∀ i, (s.procs i).processed.map Prod.fst <+: (s.procs i).sent ∧
    (s.procs i).sent.length ≤ (s.procs i).processed.length + 1
  typed : ∀ (i k : Nat) (req rep : PtsMessage), (s.procs i).sent[k]? = some req →
    (s.procs i).returned[k]? = some rep → rep.type = req.type
  apart : ∀ i, s.Uses i → ¬ Owns (s.procs i)
  live : s.curr.pc = .waiting → s.phase = .polling → s.curr.flag0 = false ∨ s.curr.flag1 = false

/-- A hthread to resume is one of the process that is being served. -/
def Stays (s : Mailboxes) : MailEvent → Prop
  | .serve _ (some j) =>
    s.curr.buffer.type = .resumeSimulation ∨ s.curr.buffer.type = .destructor → j = s.currPid
  | _ => True

instance (s : Mailboxes) : DecidablePred s.Stays
  | .serve _ (some j) => inferInstanceAs (Decidable (s.curr.buffer.type = .resumeSimulation ∨
      s.curr.buffer.type = .destructor → j = s.currPid))
  | .serve _ none => isTrue trivial
  | .write _ _ => isTrue trivial
  | .send _ => isTrue trivial
  | .see _ => isTrue trivial
  | .raise _ => isTrue trivial
  | .finish _ => isTrue trivial
  | .poll => isTrue trivial
  | .take => isTrue trivial
  | .copy => isTrue trivial
  | .kill => isTrue trivial
  | .reply => isTrue trivial
  | .release => isTrue trivial

def follow (ok : Mailboxes → MailEvent → Prop) [∀ s, DecidablePred (ok s)] (numProcesses : Nat)
    (s : Mailboxes) : List MailEvent → Option Mailboxes
  | [] => some s
  | e :: es =>
    if ok s e then (s.step numProcesses e).bind fun s => follow ok numProcesses s es else none

variable {n : Nat} {s s' : Mailboxes} {p p' : PtsProcess}

/-- The calls of a process that are over, those that have been processed since, and the messages
that belong to the latter or are on their way. -/
def Log (p : PtsProcess) (open' : List (PtsMessage × PtsMessage)) (asked : List PtsMessage) :
    Prop :=
  ∃ done : List (PtsMessage × PtsMessage), p.returned = done.map Prod.snd ∧
    (∀ r ∈ done, r.2.type = r.1.type) ∧ p.processed = done ++ open' ∧
    p.sent = done.map Prod.fst ++ asked

/-- A message lies in the mailbox. Only a destructor does not wait for its answer. -/
def Posted (p : PtsProcess) : Prop :=
  Log p [] [p.message] ∧ (p.pc ≠ .gone → p.message.type ≠ .destructor)

def Answering (p : PtsProcess) : Prop :=
  Log p [(p.message, p.buffer)] [p.message] ∧ p.message.putHeader p.buffer = p.buffer ∧
    (p.pc ≠ .gone → p.buffer.type = p.message.type)

def Answered (p : PtsProcess) : Prop :=
  ∃ req : PtsMessage, Log p [(req, p.message)] [req] ∧
    (p.pc ≠ .gone → p.message.type = req.type)

def Asking (p : PtsProcess) : Phase → Prop
  | .polling => p.flag0 = false ∧ p.flag1 = true ∧ Posted p ∨
      p.flag0 = true ∧ p.flag1 = false ∧ Answered p
  | .seen => p.flag0 = false ∧ p.flag1 = true ∧ Posted p
  | .copying => p.flag0 = true ∧ p.flag1 = true ∧ Posted p
  | .serving => p.flag0 = true ∧ p.flag1 = true ∧ Posted p ∧ p.buffer = p.message
  | .replying => p.flag0 = true ∧ p.flag1 = true ∧ Answering p
  | .releasing => p.flag0 = true ∧ p.flag1 = true ∧ Answered p
  | .halted => False

def Balanced (p : PtsProcess) : Prop :=
  Log p [] [] ∨ (∃ req, Log p [] [req]) ∨ ∃ req rep, Log p [(req, rep)] [req]

/-- Where the two sides of a mailbox can be at the same time. -/
def Turn (p : PtsProcess) (ph : Phase) : Prop :=
  match p.pc with
  | .running => ph = .polling ∧ p.flag0 = true ∧ p.flag1 = true ∧ Log p [] []
  | .waiting => Asking p ph
  | .released => ph = .polling ∧ p.flag0 = true ∧ p.flag1 = false ∧ Answered p
  | .reading => ph = .polling ∧ p.flag0 = true ∧ p.flag1 = true ∧ Answered p
  | .gone => Asking p ph ∨ ph = .halted ∧ Answered p
  | .killed => ph = .halted ∧ Balanced p

def view (s : Mailboxes) (i : Nat) : Phase :=
  if i = s.currPid ∨ (s.procs i).pc = .killed then s.phase else .polling

def Inv (s : Mailboxes) : Prop := ∀ i, Turn (s.procs i) (s.view i)

theorem Asking.balanced {ph : Phase} (h : Asking p ph) : Balanced p := by
  have posted : Posted p → Balanced p := fun h => .inr (.inl ⟨_, h.1⟩)
  have answered : Answered p → Balanced p := fun ⟨req, log, _⟩ => .inr (.inr ⟨req, _, log⟩)
  cases ph with
  | polling =>
    rcases h with ⟨-, -, h⟩ | ⟨-, -, h⟩
    · exact posted h
    · exact answered h
  | seen => exact posted h.2.2
  | copying => exact posted h.2.2
  | serving => exact posted h.2.2.1
  | replying => exact .inr (.inr ⟨_, _, h.2.2.1⟩)
  | releasing => exact answered h.2.2
  | halted => exact h.elim

theorem Turn.balanced {ph : Phase} (h : Turn p ph) : Balanced p := by
  have answered : Answered p → Balanced p := fun ⟨req, log, _⟩ => .inr (.inr ⟨req, _, log⟩)
  unfold Turn at h
  split at h
  · exact .inl h.2.2.2
  · exact h.balanced
  · exact answered h.2.2.2
  · exact answered h.2.2.2
  · rcases h with h | ⟨-, h⟩
    · exact h.balanced
    · exact answered h
  · exact h.2

theorem Log.replies {os : List (PtsMessage × PtsMessage)} {qs : List PtsMessage} (h : Log p os qs) :
    p.returned <+: p.processed.map Prod.snd := by
  obtain ⟨done, hr, -, hp, -⟩ := h
  rw [hr, hp, List.map_append]
  exact List.prefix_append _ _

theorem Log.once {os : List (PtsMessage × PtsMessage)} {qs : List PtsMessage} (h : Log p os qs)
    (hq : os.map Prod.fst <+: qs) (few : qs.length ≤ os.length + 1) :
    p.processed.map Prod.fst <+: p.sent ∧ p.sent.length ≤ p.processed.length + 1 := by
  obtain ⟨done, -, -, hp, hs⟩ := h
  rw [hp, hs, List.map_append]
  refine ⟨(List.prefix_append_right_inj _).mpr hq, ?_⟩
  simp only [List.length_append, List.length_map]
  omega

theorem Log.typed {os : List (PtsMessage × PtsMessage)} {qs : List PtsMessage} (h : Log p os qs)
    {k : Nat} {req rep : PtsMessage} (hreq : p.sent[k]? = some req)
    (hrep : p.returned[k]? = some rep) : rep.type = req.type := by
  obtain ⟨done, hr, ht, -, hs⟩ := h
  rw [hr, List.getElem?_map] at hrep
  obtain ⟨r, hk, rfl⟩ := Option.map_eq_some_iff.mp hrep
  have lt : k < done.length := (List.getElem?_eq_some_iff.mp hk).1
  rw [hs, List.getElem?_append_left (by rwa [List.length_map]), List.getElem?_map, hk] at hreq
  cases hreq
  exact ht r (List.mem_of_getElem? hk)

theorem Inv.paired (h : Inv s) : Paired s where
  replies i := by
    rcases (h i).balanced with log | ⟨_, log⟩ | ⟨_, _, log⟩ <;> exact log.replies
  once i := by
    rcases (h i).balanced with log | ⟨_, log⟩ | ⟨_, _, log⟩
    · exact log.once List.prefix_rfl (by simp)
    · exact log.once List.nil_prefix (by simp)
    · exact log.once List.prefix_rfl (by simp)
  typed i k req rep hreq hrep := by
    rcases (h i).balanced with log | ⟨_, log⟩ | ⟨_, _, log⟩ <;> exact log.typed hreq hrep
  apart i := by
    rintro ⟨rfl, busy⟩ owns
    have turn := h s.currPid
    rw [view, if_pos (.inl rfl)] at turn
    have polling : s.phase = .polling := by
      unfold Turn at turn
      rcases owns with own | own <;> rw [own] at turn <;> exact turn.1
    rw [polling] at busy
    rcases busy with busy | busy <;> cases busy
  live waits polls := by
    have turn := h s.currPid
    rw [view, if_pos (.inl rfl), polls] at turn
    unfold Turn at turn
    change s.curr.pc = _ at waits
    unfold curr at waits ⊢
    rw [waits] at turn
    exact turn.imp And.left fun h => h.2.1

theorem Inv.front (h : Inv s) {i : Nat} (alive : (s.procs i).pc ≠ .killed)
    (alive' : p'.pc ≠ .killed) (turn : ∀ ph, Turn (s.procs i) ph → Turn p' ph) :
    Inv (s.setProc i p') := by
  intro j
  have hj := h j
  by_cases hji : j = i
  · subst hji
    have proc : (s.setProc j p').procs j = p' := Function.update_self _ _ _
    have same : (s.setProc j p').view j = s.view j := by
      unfold view
      rw [proc]
      simp only [alive, alive', or_false]
      rfl
    rw [same, proc]
    exact turn _ hj
  · have proc : (s.setProc i p').procs j = s.procs j := Function.update_of_ne hji _ _
    have same : (s.setProc i p').view j = s.view j := by
      unfold view
      rw [proc]
      rfl
    rw [same, proc]
    exact hj

theorem send_turn (running : p.pc = .running) {ph : Phase} (h : Turn p ph) :
    Turn { p with
      flag0 := false, sent := p.sent ++ [p.message]
      pc := if p.message.type = .destructor then .gone else .waiting } ph := by
  unfold Turn at h
  rw [running] at h
  obtain ⟨rfl, -, up, done, hr, ht, hp, hs⟩ := h
  have log : Log { p with
      flag0 := false, sent := p.sent ++ [p.message]
      pc := if p.message.type = .destructor then .gone else .waiting } [] [p.message] :=
    ⟨done, hr, ht, hp, by rw [hs, List.append_nil]⟩
  unfold Turn
  by_cases last : p.message.type = .destructor
  · simp only [if_pos last] at log ⊢
    exact .inl (.inl ⟨rfl, up, log, fun ne => absurd rfl ne⟩)
  · simp only [if_neg last] at log ⊢
    exact .inl ⟨rfl, up, log, fun _ => last⟩

theorem see_turn (waits : p.pc = .waiting) (down : p.flag1 = false) {ph : Phase} (h : Turn p ph) :
    Turn { p with pc := .released } ph := by
  unfold Turn at h
  rw [waits] at h
  change Asking p ph at h
  have raised : p.flag1 ≠ true := by
    rw [down]
    decide
  cases ph with
  | polling =>
    rcases h with ⟨-, up, -⟩ | ⟨first, -, req, log, type⟩
    · exact absurd up raised
    · refine ⟨rfl, first, down, req, log, fun _ => type ?_⟩
      rw [waits]
      decide
  | halted => exact h.elim
  | _ => exact absurd h.2.1 raised

theorem raise_turn (released : p.pc = .released) {ph : Phase} (h : Turn p ph) :
    Turn { p with flag1 := true, pc := .reading } ph := by
  unfold Turn at h
  rw [released] at h
  obtain ⟨rfl, first, -, req, log, type⟩ := h
  refine ⟨rfl, first, rfl, req, log, fun _ => type ?_⟩
  rw [released]
  decide

theorem finish_turn (reads : p.pc = .reading) {ph : Phase} (h : Turn p ph) :
    Turn { p with returned := p.returned ++ [p.message], pc := .running } ph := by
  unfold Turn at h
  rw [reads] at h
  obtain ⟨rfl, first, up, req, ⟨done, hr, ht, hp, hs⟩, type⟩ := h
  refine ⟨rfl, first, up, done ++ [(req, p.message)], ?_, fun r hm => ?_, ?_, ?_⟩
  · simp [hr]
  · rcases List.mem_append.mp hm with hm | hm
    · exact ht r hm
    · rw [List.mem_singleton.mp hm]
      refine type ?_
      rw [reads]
      decide
  · rw [List.append_nil]
    exact hp
  · simpa using hs

theorem Turn.asking {ph : Phase} (h : Turn p ph) (busy : ph ≠ .polling) (goes : ph ≠ .halted) :
    (p.pc = .waiting ∨ p.pc = .gone) ∧ Asking p ph := by
  unfold Turn at h
  split at h
  · exact absurd h.1 busy
  · exact ⟨.inl ‹_›, h⟩
  · exact absurd h.1 busy
  · exact absurd h.1 busy
  · exact ⟨.inr ‹_›, h.resolve_right fun h => goes h.1⟩
  · exact absurd h.1 goes

theorem Asking.turn {ph : Phase} (h : Asking p ph) (pc : p.pc = .waiting ∨ p.pc = .gone) :
    Turn p ph := by
  unfold Turn
  rcases pc with pc | pc <;> rw [pc]
  · exact h
  · exact .inl h

theorem Inv.back (h : Inv s) (goes : s.phase ≠ .halted)
    (procs : s'.procs = Function.update s.procs s.currPid p') (same : s'.currPid = s.currPid)
    (turn : Turn p' s'.phase) : Inv s' := by
  intro j
  by_cases hj : j = s.currPid
  · subst hj
    rw [view, if_pos (.inl same.symm), procs, Function.update_self]
    exact turn
  · have proc : s'.procs j = s.procs j := by
      rw [procs]
      exact Function.update_of_ne hj _ _
    have turn := h j
    have lives : (s.procs j).pc ≠ .killed := by
      intro dead
      rw [view, if_pos (.inr dead)] at turn
      unfold Turn at turn
      rw [dead] at turn
      exact goes turn.1
    have away : ∀ s₁ : Mailboxes, s₁.currPid = s.currPid → s₁.procs j = s.procs j →
        s₁.view j = .polling := by
      intro s₁ hc hp
      unfold view
      rw [hc, hp]
      exact if_neg (not_or.mpr ⟨hj, lives⟩)
    rw [away s' same proc, proc]
    rw [away s rfl rfl] at turn
    exact turn

theorem Inv.curr (h : Inv s) : Turn s.curr s.phase := by
  have turn := h s.currPid
  rwa [view, if_pos (.inl rfl)] at turn

theorem poll_turn (down : p.flag0 = false) (h : Turn p .polling) : Turn p .seen := by
  have lowered : p.flag0 ≠ true := by
    rw [down]
    decide
  have asking : Asking p .polling → Asking p .seen := fun h => by
    rcases h with h | ⟨up, -⟩
    · exact h
    · exact absurd up lowered
  unfold Turn at h ⊢
  split at h
  · exact absurd h.2.1 lowered
  · exact asking h
  · exact absurd h.2.1 lowered
  · exact absurd h.2.1 lowered
  · exact .inl (asking (h.resolve_right fun h => Phase.noConfusion h.1))
  · cases h.1

theorem take_turn (h : Turn p .seen) : Turn { p with flag0 := true } .copying := by
  obtain ⟨pc, -, up, posted⟩ := h.asking (by decide) (by decide)
  exact Asking.turn (p := { p with flag0 := true }) ⟨rfl, up, posted⟩ pc

theorem copy_turn (h : Turn p .copying) : Turn { p with buffer := p.message } .serving := by
  obtain ⟨pc, first, up, posted⟩ := h.asking (by decide) (by decide)
  exact Asking.turn (p := { p with buffer := p.message }) ⟨first, up, posted, rfl⟩ pc

theorem serve_turn (h : Turn p .serving) {rep : PtsMessage} (val : p.buffer.putHeader rep = rep)
    (type : rep.type = p.buffer.type ∨ p.buffer.type = .destructor) :
    Turn { p with buffer := rep, processed := p.processed ++ [(p.buffer, rep)] } .replying := by
  obtain ⟨pc, first, up, ⟨⟨done, hr, ht, hp, hs⟩, alive⟩, same⟩ := h.asking (by decide) (by decide)
  rw [same] at val type ⊢
  refine Asking.turn (p := { p with buffer := rep, processed := p.processed ++ [(p.message, rep)] })
    ⟨first, up, ⟨done, hr, ht, ?_, hs⟩, val, fun ne => ?_⟩ pc
  · rw [hp, List.append_nil]
  · exact type.resolve_right (alive ne)

theorem reply_turn (h : Turn p .replying) :
    Turn { p with message := p.message.putHeader p.buffer } .releasing := by
  obtain ⟨pc, first, up, log, val, type⟩ := h.asking (by decide) (by decide)
  refine Asking.turn (p := { p with message := p.message.putHeader p.buffer })
    ⟨first, up, p.message, ?_, type⟩ pc
  rw [val]
  exact log

theorem release_turn (h : Turn p .releasing) :
    Turn { p with flag1 := false } .polling ∧
      (p.pc = .gone → Turn { p with flag1 := false } .halted) := by
  obtain ⟨pc, first, -, answered⟩ := h.asking (by decide) (by decide)
  refine ⟨Asking.turn (p := { p with flag1 := false }) (.inr ⟨first, rfl, answered⟩) pc,
    fun gone => ?_⟩
  obtain ⟨req, log, -⟩ := answered
  unfold Turn
  rw [gone]
  exact .inr ⟨rfl, req, log, fun ne => absurd rfl ne⟩

@[simp] theorem answered_type (m : PtsMessage) (r : Reply) : (m.answered r).type = m.type := by
  unfold PtsMessage.answered
  split <;> rfl

theorem putHeader_answered (m : PtsMessage) (r : Reply) :
    m.putHeader (m.answered r) = m.answered r := by
  unfold PtsMessage.answered
  split <;> rfl

/-- Once the last thread is gone, the simulator only answers the destructor. -/
structure Sound (s : Mailboxes) : Prop where
  turns : Inv s
  last : s.anyThread = false → s.curr.pc = .gone ∧
    (s.phase = .replying ∨ s.phase = .releasing ∨ s.phase = .halted)

theorem Sound.front (h : Sound s) {i : Nat} {pc : FrontendPc} (here : (s.procs i).pc = pc)
    (alive : pc ≠ .killed ∧ pc ≠ .gone) (alive' : p'.pc ≠ .killed)
    (turn : ∀ ph, Turn (s.procs i) ph → Turn p' ph) : Sound (s.setProc i p') where
  turns := h.turns.front (here ▸ alive.1) alive' turn
  last none := by
    obtain ⟨gone, phase⟩ := h.last none
    refine ⟨?_, phase⟩
    have other : s.currPid ≠ i := by
      rintro rfl
      exact alive.2 (here.symm.trans gone)
    show (Function.update s.procs i p' s.currPid).pc = .gone
    rw [Function.update_of_ne other]
    exact gone

structure Serves (s : Mailboxes) (rep : PtsMessage) (s' : Mailboxes) : Prop where
  val : s.curr.buffer.putHeader rep = rep
  type : rep.type = s.curr.buffer.type ∨ s.curr.buffer.type = .destructor
  pid : s'.currPid = s.currPid
  phase : s'.phase = .replying
  procs : s'.procs = Function.update s.procs s.currPid
    { s.curr with buffer := rep, processed := s.curr.processed ++ [(s.curr.buffer, rep)] }
  last : s'.anyThread = s.anyThread ∨ s.curr.buffer.type = .destructor

theorem resume_serves {s₁ : Mailboxes} {r : Reply} {req : PtsMessage}
    (pid : s₁.currPid = s.currPid) (thread : s₁.anyThread = s.anyThread)
    (procs : s₁.procs = Function.update s.procs s.currPid { s.curr with buffer := req })
    (val : s.curr.buffer.putHeader req = req)
    (type : s.curr.buffer.type = .resumeSimulation ∨ s.curr.buffer.type = .destructor) :
    ∃ rep, Serves s rep (s₁.resume s.curr.buffer r s.currPid) := by
  have here : s₁.procs s.currPid = { s.curr with buffer := req } := by
    rw [procs, Function.update_self]
  refine ⟨{ req with type := .resumeSimulation, uint32Val := r.hthread, uint64Val := r.time }, ?_,
    ?_, rfl, rfl, ?_, .inl thread⟩
  · rw [← val]
    rfl
  · exact type.imp_left Eq.symm
  · unfold resume record setProc
    simp only [pid, here, procs, Function.update_self, Function.update_idem]

theorem serve_serves {r : Reply} {next : Option Nat} (stays : s.Stays (.serve r next))
    (hs : s.serve n r next = some s') : ∃ rep, Serves s rep s' := by
  have same : s.curr.buffer.putHeader s.curr.buffer = s.curr.buffer := rfl
  have own : s.procs = Function.update s.procs s.currPid
      { s.curr with buffer := s.curr.buffer } := (Function.update_eq_self _ _).symm
  unfold serve at hs
  dsimp only at hs
  split at hs
  · cases hs
  · cases hs
  · cases hs
  · rename_i j type
    split at hs
    · cases hs
      obtain rfl : j = s.currPid := stays (.inl type)
      exact resume_serves rfl rfl own same (.inl type)
    · cases hs
  · rename_i type
    cases hs
    refine ⟨s.curr.buffer, same, .inl rfl, rfl, rfl, rfl, .inr type⟩
  · rename_i j type
    split at hs
    · cases hs
      obtain rfl : j = s.currPid := stays (.inr type)
      exact resume_serves rfl rfl rfl rfl (.inr type)
    · cases hs
  · split at hs
    · cases hs
    · cases hs
      refine ⟨s.curr.buffer.answered r, putHeader_answered _ _, .inl (answered_type _ _), rfl, rfl,
        ?_, .inl rfl⟩
      unfold record setProc
      simp only [Function.update_self, Function.update_idem]

theorem Sound.goesOn (h : Sound s) (phase : s.phase = .polling ∨ s.phase = .seen ∨
    s.phase = .copying ∨ s.phase = .serving) : s.anyThread = true := by
  by_contra none
  obtain ⟨-, late⟩ := h.last (Bool.eq_false_iff.mpr none)
  rcases phase with phase | phase | phase | phase <;> rw [phase] at late <;>
    rcases late with late | late | late <;> cases late

theorem Sound.early (h : Sound s) (phase : s.phase = .polling ∨ s.phase = .seen ∨
    s.phase = .copying ∨ s.phase = .serving) (turns : Inv s') (same : s'.anyThread = s.anyThread) :
    Sound s' where
  turns := turns
  last none := absurd ((h.goesOn phase).symm.trans (same.symm.trans none)) (by decide)

theorem Sound.write (h : Sound s) {i : Nat} (pc : (s.procs i).pc = .running) (m : PtsMessage) :
    Sound (s.setProc i { s.procs i with message := m }) := by
  refine h.front pc (by decide) ?_ fun ph turn => ?_
  · dsimp only
    rw [pc]
    decide
  · unfold Turn at turn ⊢
    rw [pc] at turn
    simp only [pc]
    exact turn

theorem Sound.send (h : Sound s) {i : Nat} (pc : (s.procs i).pc = .running) :
    Sound (s.setProc i { s.procs i with
      flag0 := false, sent := (s.procs i).sent ++ [(s.procs i).message]
      pc := if (s.procs i).message.type = .destructor then .gone else .waiting }) := by
  refine h.front pc (by decide) ?_ fun ph turn => send_turn pc turn
  dsimp only
  split <;> decide

theorem Sound.poll (h : Sound s) (phase : s.phase = .polling) (down : s.curr.flag0 = false) :
    Sound { s with phase := .seen } := by
  have turn := h.turns.curr
  rw [phase] at turn
  exact h.early (.inl phase)
    (h.turns.back (by rw [phase]; decide) (Function.update_eq_self _ _).symm rfl
      (poll_turn down turn)) rfl

theorem Sound.take (h : Sound s) (phase : s.phase = .seen) :
    Sound ({ s with phase := .copying }.setProc s.currPid { s.curr with flag0 := true }) := by
  have turn := h.turns.curr
  rw [phase] at turn
  exact h.early (.inr (.inl phase))
    (h.turns.back (by rw [phase]; decide) rfl rfl (take_turn turn)) rfl

theorem Sound.copy (h : Sound s) (phase : s.phase = .copying) :
    Sound ({ s with phase := .serving }.setProc s.currPid
      { s.curr with buffer := s.curr.message }) := by
  have turn := h.turns.curr
  rw [phase] at turn
  exact h.early (.inr (.inr (.inl phase)))
    (h.turns.back (by rw [phase]; decide) rfl rfl (copy_turn turn)) rfl

theorem Sound.kill (h : Sound s) (phase : s.phase = .serving) :
    Sound { s with phase := .halted, procs := fun i => { s.procs i with pc := .killed } } := by
  refine h.early (.inr (.inr (.inr phase))) (fun i => ?_) rfl
  have view : Mailboxes.view { s with
      phase := .halted, procs := fun i => { s.procs i with pc := .killed } } i = .halted :=
    if_pos (.inr rfl)
  rw [view]
  refine ⟨rfl, ?_⟩
  rcases (h.turns i).balanced with log | ⟨req, log⟩ | ⟨req, rep, log⟩
  · exact .inl log
  · exact .inr (.inl ⟨req, log⟩)
  · exact .inr (.inr ⟨req, rep, log⟩)

theorem Sound.serve (h : Sound s) (phase : s.phase = .serving) {rep : PtsMessage}
    (serves : Serves s rep s') : Sound s' := by
  have turn := h.turns.curr
  rw [phase] at turn
  refine ⟨h.turns.back (by rw [phase]; decide) serves.procs serves.pid ?_, fun none => ?_⟩
  · rw [serves.phase]
    exact serve_turn turn serves.val serves.type
  · have goes := h.goesOn (.inr (.inr (.inr phase)))
    have last := serves.last.resolve_left fun same =>
      absurd (goes.symm.trans (same.symm.trans none)) (by decide)
    obtain ⟨-, -, -, ⟨-, alive⟩, same⟩ := turn.asking (by decide) (by decide)
    refine ⟨?_, .inl serves.phase⟩
    unfold Mailboxes.curr at last same alive ⊢
    rw [serves.pid, serves.procs, Function.update_self]
    by_contra ne
    exact alive ne (same ▸ last)

theorem Sound.reply (h : Sound s) (phase : s.phase = .replying) :
    Sound ({ s with phase := .releasing }.setProc s.currPid
      { s.curr with message := s.curr.message.putHeader s.curr.buffer }) := by
  have turn := h.turns.curr
  rw [phase] at turn
  refine ⟨h.turns.back (by rw [phase]; decide) rfl rfl (reply_turn turn),
    fun none => ⟨?_, .inr (.inl rfl)⟩⟩
  show (Function.update s.procs s.currPid _ s.currPid).pc = .gone
  rw [Function.update_self]
  exact (h.last none).1

theorem Sound.release (h : Sound s) (phase : s.phase = .releasing) :
    Sound ({ s with phase := if s.anyThread then .polling else .halted }.setProc s.currPid
      { s.curr with flag1 := false }) := by
  have turn := h.turns.curr
  rw [phase] at turn
  refine ⟨h.turns.back (by rw [phase]; decide) rfl rfl ?_, fun none => ⟨?_, .inr (.inr ?_)⟩⟩
  · show Turn _ (if s.anyThread then .polling else .halted)
    split
    · exact (release_turn turn).1
    · rename_i none
      exact (release_turn turn).2 (h.last (Bool.eq_false_iff.mpr none)).1
  · show (Function.update s.procs s.currPid _ s.currPid).pc = .gone
    rw [Function.update_self]
    exact (h.last none).1
  · change s.anyThread = false at none
    show (if s.anyThread then Phase.polling else .halted) = .halted
    rw [none]
    rfl

theorem Sound.step (h : Sound s) {e : MailEvent} (stays : s.Stays e) (hs : s.step n e = some s') :
    Sound s' := by
  cases e <;> simp only [Mailboxes.step, Option.ite_none_right_eq_some, Option.some.injEq] at hs <;>
    obtain ⟨enabled, hs⟩ := hs
  case write i m => exact hs ▸ h.write enabled.2 m
  case send i => exact hs ▸ h.send enabled.2
  case see i =>
    exact hs ▸ h.front enabled.1 (by decide) FrontendPc.noConfusion
      fun _ turn => see_turn enabled.1 enabled.2 turn
  case raise i =>
    exact hs ▸ h.front enabled (by decide) FrontendPc.noConfusion fun _ turn => raise_turn enabled turn
  case finish i =>
    exact hs ▸ h.front enabled (by decide) FrontendPc.noConfusion fun _ turn => finish_turn enabled turn
  case poll => exact hs ▸ h.poll enabled.1 enabled.2
  case take => exact hs ▸ h.take enabled
  case copy => exact hs ▸ h.copy enabled
  case kill => exact hs ▸ h.kill enabled
  case serve r next =>
    obtain ⟨rep, serves⟩ := serve_serves stays hs
    exact h.serve enabled serves
  case reply => exact hs ▸ h.reply enabled
  case release => exact hs ▸ h.release enabled

theorem init_sound : Sound {} where
  turns i := by
    have polling : ({} : Mailboxes).view i = .polling := by
      unfold view
      split <;> rfl
    rw [polling]
    exact ⟨rfl, rfl, rfl, [], rfl, fun _ h => absurd h List.not_mem_nil, rfl, rfl⟩
  last none := Bool.noConfusion none

/-- As long as every hthread to resume is one of the process that is served, calls and answers
belong together. -/
theorem run_paired (h : Run n Stays s) : Paired s := by
  have sound : Sound s := by
    induction h with
    | init => exact init_sound
    | step e _ stays hs ih => exact ih.step stays hs
  exact sound.turns.paired

theorem Run.last {ok : Mailboxes → MailEvent → Prop} [∀ s, DecidablePred (ok s)] (h : Run n ok s)
    (es : List MailEvent) (ends : (follow ok n s es).isSome = true) :
    Run n ok ((follow ok n s es).getD s) := by
  obtain ⟨s', hs⟩ := Option.isSome_iff_exists.mp ends
  rw [hs]
  clear ends
  change Run n ok s'
  induction es generalizing s with
  | nil =>
    cases hs
    exact h
  | cons e es ih =>
    unfold follow at hs
    split at hs
    · rename_i allowed
      obtain ⟨s₁, one, rest⟩ := Option.bind_eq_some_iff.mp hs
      exact ih (h.step e allowed one) rest
    · cases hs

def asks (i : Nat) (type : PtsMsgType) : List MailEvent :=
  [.write i { type }, .send i, .poll, .take, .copy]

def answers (i : Nat) (r : Reply) (next : Option Nat) : List MailEvent :=
  [.serve r next, .reply, .release, .see i, .raise i, .finish i]

/-- The first of two processes asks for the number of hthreads and then to resume, and goes on
itself. -/
theorem run_paired_same : ∃ s, Run 2 Stays s ∧
    (s.procs 0).returned.map PtsMessage.type = [.getNumHthreads, .resumeSimulation] ∧ Paired s := by
  let events : List MailEvent := asks 0 .getNumHthreads ++ answers 0 { value := 4 } none ++
    asks 0 .resumeSimulation ++ answers 0 { hthread := 0, time := 5 } (some 0)
  have run : Run 2 Stays ((follow Stays 2 {} events).getD {}) := Run.init.last events
    (by decide +kernel)
  exact ⟨_, run, by decide +kernel, run_paired run⟩

/-- The second process has started and asks for the number of hthreads, while the first one asks to
resume and a hthread of the second one is to go on: the second one takes the number of that hthread
for the number of hthreads, and nothing that it has sent is processed. -/
theorem resumed_early : ∃ s, Run 2 (fun _ _ => True) s ∧
    (s.procs 1).sent.map PtsMessage.type = [.getNumHthreads] ∧
    (s.procs 1).returned.map PtsMessage.type = [.resumeSimulation] ∧
    (s.procs 1).processed.length = 0 ∧ ¬ Paired s := by
  let events : List MailEvent := [.write 1 { type := .getNumHthreads }, .send 1] ++
    asks 0 .getNumHthreads ++ answers 0 { value := 4 } none ++
    asks 0 .resumeSimulation ++ answers 1 { hthread := 0, time := 5 } (some 1)
  let s := (follow (fun _ _ => True) 2 {} events).getD {}
  have run : Run 2 (fun _ _ => True) s := Run.init.last events (by decide +kernel)
  have none : (s.procs 1).processed.length = 0 := by decide +kernel
  have one : (s.procs 1).returned.length = 1 := by decide +kernel
  refine ⟨s, run, by decide +kernel, by decide +kernel, none, fun h => ?_⟩
  have short := (h.replies 1).length_le
  rw [List.length_map, none, one] at short
  exact absurd short (by decide)

end Mailboxes
end McSim.Pthread
