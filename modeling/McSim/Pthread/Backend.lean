import McSim.Component
import McSim.Lib.Blocks
import McSim.Pthread.FlowControl
import McSim.Pthread.Mailbox

/-! The loop of `main`.
The runfile gives each process its threads, and these get the hthreads of the simulator one after
the other. The loop hands on what the processes ask for, under the hthreads and addresses that are
theirs, until enough instructions have been fetched. -/

namespace McSim.Pthread

open Contract

/-- A `[[run]]` table. The parser stops the program when a key has a value of another type. -/
structure RunTable where
  type : Option String := none
  numThreads : Option Int := none
  traceFile : Option String := none
  path : Option String := none
  arg : Option String := none
  numInstrsToSkipFirst : Option Int := none

/-- `PTSProcess`, as the runfile describes it -/
structure RunProcess where
  numThreads : Int
  numInstrsToSkipFirst : Int
  tidToHtid : Nat
  traceName : String := ""
  directory : String
  progNArgv : List String
deriving DecidableEq, Repr

structure ProcessDescription where
  ptsProcesses : List RunProcess := []
  numHthreads : Nat := 0
deriving DecidableEq, Repr

/-- `std::isspace` -/
def isSpace (c : Char) : Bool := c == ' ' || (9 ≤ c.toNat && c.toNat ≤ 13)

/-- `ss >> word`, with what is left of the stream. It fails when there is no word. -/
def extract (ss : List Char) : List Char × List Char :=
  let ss := ss.dropWhile isSpace
  (ss.takeWhile fun c => !isSpace c, ss.dropWhile fun c => !isSpace c)

/-- The loop over the words of `arg`. It ends after a read that has failed, whose empty word it
keeps. -/
def readWords : Nat → List Char → List String
  | 0, _ => []
  | n + 1, ss =>
    let r := extract ss
    if r.1 = [] then [""] else String.ofList r.1 :: readWords n r.2

def progNArgv (arg : String) : List String := readWords (arg.toList.length + 1) arg.toList

/-- What a trace is told to skip: `-trace_skip_first`, with `-instrs_skip` of the command line at
hand -/
def RunProcess.traceSkipFirst (p : RunProcess) (instrsSkip : String) : String :=
  if 1 < p.progNArgv.length then p.progNArgv.getLast?.getD "" else instrsSkip

namespace ProcessDescription

def process (offset : Nat) (run : RunTable) (type : String) : Except Abort RunProcess :=
  let skip := (run.numInstrsToSkipFirst.getD 0).bmod (2 ^ 32)
  if type = "pintool" then
    match run.numThreads, run.path, run.arg with
    | some numThreads, some directory, some arg => return {
        numThreads := numThreads.bmod (2 ^ 32), numInstrsToSkipFirst := skip, tidToHtid := offset
        directory, progNArgv := progNArgv arg }
    | _, _, _ => .error .fatal
  else if type = "trace" then
    match run.traceFile, run.path, run.arg with
    | some traceName, some directory, some arg => return {
        numThreads := 1, numInstrsToSkipFirst := skip, tidToHtid := offset, traceName, directory
        progNArgv := progNArgv arg }
    | _, _, _ => .error .fatal
  else .error .fatal

def add (d : ProcessDescription) (run : RunTable) : Except Abort ProcessDescription :=
  match run.type with
  | none => return d
  | some type => do
    let process ← process d.numHthreads run type
    return {
      ptsProcesses := d.ptsProcesses ++ [process]
      numHthreads := ((d.numHthreads + process.numThreads) % 2 ^ 32).toNat }

/-- `ProcessDescription::ProcessDescription` -/
def read (runs : List RunTable) : Except Abort ProcessDescription := runs.foldlM add {}

def htidToTid (d : ProcessDescription) : List Nat :=
  d.ptsProcesses.flatMap fun p => List.range p.numThreads.toNat

def htidToPid (d : ProcessDescription) : List Nat :=
  d.ptsProcesses.zipIdx.flatMap fun p => List.replicate p.1.numThreads.toNat p.2

end ProcessDescription

/-- What `main` takes from the machine description -/
structure BackendConfig where
  numHthreads : Nat
  addrOffsetLsb : Nat := 48
  interleaveBaseBit : Nat := 14
  maxTotalInstrs : Nat := 1000000000
  numInstrsPerTh : Nat := 0

namespace Link

variable (link : Link)

def hthreadOf (tid : Nat) : Nat := (link.tidToHtid + tid) % 2 ^ 32

def op : Op → Op
  | .addInstruction x =>
    .addInstruction { link.instr x with hthreadid := link.hthreadOf x.hthreadid }
  | .setStackNSize tid stack stacksize =>
    .setStackNSize (link.hthreadOf tid) ((stack + link.offset) % 2 ^ 64) stacksize
  | .setActive tid isActive => .setActive (link.hthreadOf tid) isActive
  | op => op

end Link

namespace Op

def hthread : Op → Option Nat
  | addInstruction x => some x.hthreadid
  | setStackNSize hthread _ _ | setActive hthread _ => some hthread
  | _ => none

def addresses : Op → List Nat
  | addInstruction x => [x.waddr, x.raddr, x.raddr2, x.ip]
  | setStackNSize _ stack _ => [stack]
  | _ => []

def isInstruction : Op → Bool
  | addInstruction _ => true
  | _ => false

/-- A thread has ended. -/
def isEnd : Op → Bool
  | resumeSimulation _ killed => killed
  | _ => false

end Op

/-- `fetched` is `num_fetched_instrs` of the simulator and `numFetchedInstrs` that of `main`;
`interrupted` tells that every process has got a `SIGINT`. Ghost: the operations that have been
handed on, each with its process. -/
structure Backend where
  mail : Mailboxes := {}
  nactive : Nat
  fetched : Nat
  numFetchedInstrs : Nat → Nat := fun _ => 0
  numThPassedInstrCount : Nat := 0
  interrupted : Bool := false
  performed : List (Nat × Op)

/-- The loop takes a message, or anything else happens to the mailboxes. -/
inductive BackendEvent
  | mail (e : MailEvent)
  | serve (r : Reply)

namespace Backend

variable (cfg : BackendConfig) (d : ProcessDescription)

def link (pid : Nat) : Link where
  pid := pid
  tidToHtid := (d.ptsProcesses[pid]?.map RunProcess.tidToHtid).getD 0
  addrOffsetLsb := cfg.addrOffsetLsb
  interleaveBaseBit := cfg.interleaveBaseBit

/-- Every process but the first has its first hthread woken up, with an empty instruction. -/
def preload (p : RunProcess × Nat) : List (Nat × Op) :=
  [(p.2, .addInstruction { hthreadid := p.1.tidToHtid, currTime := 0 }),
    (p.2, .setActive p.1.tidToHtid true)]

def start : Except Abort Backend :=
  let woken := d.ptsProcesses.zipIdx.drop 1
  if ∃ p ∈ woken, cfg.numHthreads ≤ p.1.tidToHtid then .error .undefined
  else if cfg.numHthreads < d.numHthreads ∨ d.ptsProcesses = [] then .error .fatal
  else return { nactive := d.numHthreads, fetched := woken.length, performed := woken.flatMap preload }

def isOver (s : Backend) : Prop :=
  cfg.maxTotalInstrs ≤ s.fetched ∨ d.numHthreads ≤ s.numThPassedInstrCount

instance (s : Backend) : Decidable (s.isOver cfg d) :=
  inferInstanceAs (Decidable (cfg.maxTotalInstrs ≤ s.fetched ∨
    d.numHthreads ≤ s.numThPassedInstrCount))

def ended (s : Backend) (ops : List Op) : Backend :=
  if ops.any Op.isEnd then
    let nactive := (s.nactive + 2 ^ 32 - 1) % 2 ^ 32
    { s with nactive, interrupted := s.interrupted || nactive == 0 }
  else s

/-- A batch of `n` instructions counts for the hthread of its first one. -/
def count (s : Backend) (h n : Nat) : Backend :=
  let fetched := s.numFetchedInstrs h
  let passes := 0 < cfg.numInstrsPerTh ∧ fetched < cfg.numInstrsPerTh ∧
    cfg.numInstrsPerTh ≤ (fetched + n) % 2 ^ 64
  { s with
    fetched := (s.fetched + n) % 2 ^ 64
    numThPassedInstrCount := if passes then s.numThPassedInstrCount + 1 else s.numThPassedInstrCount
    numFetchedInstrs := Function.update s.numFetchedInstrs h ((fetched + n) % 2 ^ 64) }

/-- The part of the `switch` that is about instructions -/
def counted (s : Backend) (m : PtsMessage) (ops : List Op) : Except Abort Backend :=
  match m.type, ops.head?.bind Op.hthread with
  | .addInstruction, some h =>
    if instrBatchSize < m.uint32Val ∨ d.htidToPid.length ≤ h then .error .undefined
    else return s.count cfg h m.uint32Val
  | _, _ => return s

/-- The process of the hthread that the simulator goes on with; there may be none when a process has
ended. -/
def next (m : PtsMessage) (r : Reply) : Except Abort (Option Nat) :=
  match m.type, d.htidToPid[r.hthread]? with
  | .resumeSimulation, some pid => return some pid
  | .resumeSimulation, none => .error .undefined
  | .destructor, pid =>
    if r.hthread = cfg.numHthreads then return none
    else
      match pid with
      | some pid => return some pid
      | none => .error .undefined
  | _, _ => return none

/-- What goes back: a thread of the process instead of a hthread, and the number of hthreads as the
machine description has it -/
def answer (m : PtsMessage) (r : Reply) : Reply :=
  { r with
    hthread := d.htidToTid[r.hthread]?.getD 0
    value := if m.type = .getNumHthreads ∨ m.type = .destructor then cfg.numHthreads else r.value }

def act (s : Backend) (e : MailEvent) : Except Abort Backend :=
  match s.mail.step d.ptsProcesses.length e with
  | none => .error .undefined
  | some mail => return { s with mail }

/-- The operations of a message, as the loop hands them on. It stops at a type that it does not know
and at an empty batch. -/
def opsOf (m : PtsMessage) (pid : Nat) : Except Abort (List Op) :=
  match m.ops with
  | .ok ops => return ops.map (link cfg d pid).op
  | .error _ =>
    if m.type = .invalid ∨ m.type = .constructor ∨ m.type = .addInstruction ∧
      m.uint32Val = 0 then .error .fatal
    else .error .undefined

/-- The body of the loop, between the two copies -/
def serve (s : Backend) (r : Reply) : Except Abort Backend :=
  let m := s.mail.curr.buffer
  let pid := s.mail.currPid
  if s.isOver cfg d then s.act d .kill
  else do
    let ops ← opsOf cfg d m pid
    -- the simulator looks its cores up by hthread
    if ∃ h ∈ ops.filterMap Op.hthread, cfg.numHthreads ≤ h then .error .undefined
    else
      let s ← (s.ended ops).counted cfg d m ops
      let next ← next cfg d m r
      { s with performed := s.performed ++ ops.map (pid, ·) }.act d (.serve (answer cfg d m r) next)

/-- The processes are killed, and messages are served, by the loop alone. -/
def step (s : Backend) : BackendEvent → Except Abort Backend
  | .mail .kill | .mail (.serve ..) => .error .undefined
  | .mail e => s.act d e
  | .serve r => s.serve cfg d r

inductive Run (ok : Backend → BackendEvent → Prop) : Backend → Prop
  | start {s} : start cfg d = .ok s → Run ok s
  | step {s s'} (e : BackendEvent) : Run ok s → ok s e → s.step cfg d e = .ok s' → Run ok s'

end Backend

namespace ProcessDescription

variable {d d' : ProcessDescription} {runs : List RunTable}

def sizes (d : ProcessDescription) : List Nat := d.ptsProcesses.map fun p => p.numThreads.toNat

/-- No number of threads is negative, and they do not add up to too many. -/
structure Fits (d : ProcessDescription) : Prop where
  counts : ∀ p ∈ d.ptsProcesses, 0 ≤ p.numThreads
  total : d.sizes.sum < 2 ^ 32

structure Dealt (d : ProcessDescription) : Prop where
  numHthreads : d.numHthreads = d.sizes.sum
  tidToHtid : ∀ pid p, d.ptsProcesses[pid]? = some p → p.tidToHtid = Blocks.start d.sizes pid

theorem htidToTid_eq (d : ProcessDescription) : d.htidToTid = Blocks.ranks d.sizes := by
  unfold htidToTid Blocks.ranks sizes
  rw [List.flatMap_map]

theorem htidToPid_eq (d : ProcessDescription) : d.htidToPid = Blocks.owners d.sizes := by
  unfold htidToPid Blocks.owners sizes
  rw [List.zipIdx_map, List.flatMap_map]
  rfl

theorem readWords_ends (n : Nat) (ss : List Char) (long : ss.length < n) :
    ∃ words, readWords n ss = words ++ [""] := by
  induction n generalizing ss with
  | zero => exact absurd long (Nat.not_lt_zero _)
  | succ n ih =>
    unfold readWords
    dsimp only
    split
    · exact ⟨[], rfl⟩
    · rename_i word
      have split : (extract ss).1.length + (extract ss).2.length ≤ ss.length := by
        unfold extract
        dsimp only
        rw [← List.length_append, List.takeWhile_append_dropWhile]
        exact (List.dropWhile_sublist _).length_le
      have taken := List.length_pos_iff.mpr word
      obtain ⟨words, rest⟩ := ih (extract ss).2 (by omega)
      exact ⟨_ :: words, by rw [rest]; rfl⟩

theorem progNArgv_ends (arg : String) : ∃ words, progNArgv arg = words ++ [""] :=
  readWords_ends _ _ (Nat.lt_succ_self _)

theorem process_made {offset : Nat} {run : RunTable} {type : String} {p : RunProcess}
    (h : process offset run type = .ok p) : p.tidToHtid = offset ∧
      p.progNArgv.getLast? = some "" := by
  have last : ∀ arg, (progNArgv arg).getLast? = some "" := fun arg => by
    obtain ⟨words, ends⟩ := progNArgv_ends arg
    rw [ends, List.getLast?_concat]
  unfold process at h
  dsimp only at h
  split at h
  · split at h
    · cases h
      exact ⟨rfl, last _⟩
    · cases h
  · split at h
    · split at h
      · cases h
        exact ⟨rfl, last _⟩
      · cases h
    · cases h

theorem add_cases {run : RunTable} (h : d.add run = .ok d') : d' = d ∨
    ∃ p : RunProcess, (p.tidToHtid = d.numHthreads ∧ p.progNArgv.getLast? = some "") ∧
      d'.ptsProcesses = d.ptsProcesses ++ [p] ∧
        d'.numHthreads = ((d.numHthreads + p.numThreads) % 2 ^ 32).toNat := by
  unfold add at h
  split at h
  · exact .inl (Except.ok.inj h).symm
  · rename_i type htype
    cases made : process d.numHthreads run type with
    | error e => rw [made] at h; cases h
    | ok p =>
      rw [made] at h
      cases h
      exact .inr ⟨p, process_made made, rfl, rfl⟩

theorem dealt_add {run : RunTable} (h : d.Fits → d.Dealt) (added : d.add run = .ok d')
    (fits : d'.Fits) :
    d'.Dealt := by
  rcases add_cases added with rfl | ⟨p, ⟨offset, -⟩, processes, num⟩
  · exact h fits
  · have split : d'.sizes = d.sizes ++ [p.numThreads.toNat] := by
      unfold sizes
      rw [processes, List.map_append]
      rfl
    have sum : d'.sizes.sum = d.sizes.sum + p.numThreads.toNat := by
      rw [split, List.sum_append, List.sum_singleton]
    have total := fits.total
    have old : ∀ q ∈ d.ptsProcesses, 0 ≤ q.numThreads := fun q hq =>
      fits.counts q (by rw [processes]; exact List.mem_append_left _ hq)
    have before : d.Dealt := h ⟨old, by omega⟩
    have count : 0 ≤ p.numThreads :=
      fits.counts p (by rw [processes]; exact List.mem_append_right _ List.mem_cons_self)
    refine ⟨?_, fun pid q hq => ?_⟩
    · rw [num, before.numHthreads, sum]
      omega
    · rw [processes] at hq
      rw [split]
      by_cases old : pid < d.ptsProcesses.length
      · rw [List.getElem?_append_left old] at hq
        rw [before.tidToHtid pid q hq, Blocks.start, Blocks.start, List.take_append_of_le_length]
        rw [sizes, List.length_map]
        exact old.le
      · have last : pid = d.ptsProcesses.length := by
          have short := (List.getElem?_eq_some_iff.mp hq).1
          rw [List.length_append, List.length_singleton] at short
          omega
        subst last
        rw [List.getElem?_concat_length] at hq
        cases hq
        have length : d.ptsProcesses.length = d.sizes.length := (List.length_map _).symm
        rw [offset, before.numHthreads, Blocks.start, length, List.take_left]

theorem read_keeps {I : ProcessDescription → Prop} (init : I {})
    (step : ∀ d run d', I d → d.add run = .ok d' → I d') (h : read runs = .ok d) : I d := by
  have all : ∀ (runs : List RunTable) (d₀ : ProcessDescription), I d₀ →
      runs.foldlM ProcessDescription.add d₀ = .ok d → I d := by
    intro runs
    induction runs with
    | nil =>
      intro d₀ holds done
      cases done
      exact holds
    | cons run runs ih =>
      intro d₀ holds done
      rw [List.foldlM_cons] at done
      cases first : d₀.add run with
      | error e => rw [first] at done; cases done
      | ok d₁ =>
        rw [first] at done
        exact ih d₁ (step d₀ run d₁ holds first) done
  exact all runs {} init h

theorem read_dealt (h : read runs = .ok d) (fits : d.Fits) : d.Dealt :=
  read_keeps (I := fun d => d.Fits → d.Dealt) (fun _ => ⟨rfl, fun pid p hp => by cases hp⟩)
    (fun _ _ _ dealt added => dealt_add dealt added) h fits

/-- No trace is told to skip the number of instructions that its table gives for an argument: it
gets an empty word for it. -/
theorem traceSkipFirst_lost (h : read runs = .ok d) (instrsSkip : String) :
    ∀ p ∈ d.ptsProcesses, 1 < p.progNArgv.length → p.traceSkipFirst instrsSkip = "" := by
  have last : ∀ p ∈ d.ptsProcesses, p.progNArgv.getLast? = some "" := by
    refine read_keeps (I := fun d => ∀ p ∈ d.ptsProcesses, p.progNArgv.getLast? = some "")
      (fun p hp => by cases hp) (fun d run d' all added => ?_) h
    rcases add_cases added with rfl | ⟨p, ⟨-, last⟩, processes, -⟩
    · exact all
    · intro q hq
      rw [processes] at hq
      rcases List.mem_append.mp hq with old | new
      · exact all q old
      · rw [List.mem_singleton.mp new]
        exact last
  intro p hp words
  rw [RunProcess.traceSkipFirst, if_pos words, last p hp]
  rfl

theorem Dealt.length (h : d.Dealt) : d.htidToPid.length = d.numHthreads := by
  rw [htidToPid_eq, Blocks.length_owners, h.numHthreads]

theorem Dealt.owned (h : d.Dealt) (pid tid htid : Nat) :
    (∃ p, d.ptsProcesses[pid]? = some p ∧ tid < p.numThreads.toNat ∧ htid = p.tidToHtid + tid) ↔
      d.htidToPid[htid]? = some pid ∧ d.htidToTid[htid]? = some tid := by
  rw [htidToPid_eq, htidToTid_eq, ← Blocks.holds_iff]
  have size : ∀ n, d.sizes[pid]? = some n ↔ ∃ p, d.ptsProcesses[pid]? = some p ∧
    p.numThreads.toNat = n := by
    intro n
    rw [sizes, List.getElem?_map, Option.map_eq_some_iff]
  constructor
  · rintro ⟨p, hp, lt, rfl⟩
    exact ⟨_, (size _).mpr ⟨p, hp, rfl⟩, lt, by rw [h.tidToHtid pid p hp]⟩
  · rintro ⟨n, hn, lt, rfl⟩
    obtain ⟨p, hp, rfl⟩ := (size n).mp hn
    exact ⟨p, hp, lt, by rw [h.tidToHtid pid p hp]⟩

/-- Every hthread of the runfile is that of one thread of one process, and the tables that the loop
looks it up in say which. -/
theorem hthreads_owned (h : read runs = .ok d) (fits : d.Fits) :
    (∀ htid < d.numHthreads, ∃ pid tid, d.htidToPid[htid]? = some pid ∧
      d.htidToTid[htid]? = some tid) ∧
      ∀ pid tid htid : Nat,
        (∃ p, d.ptsProcesses[pid]? = some p ∧ (tid : Int) < p.numThreads ∧
          htid = p.tidToHtid + tid) ↔
          d.htidToPid[htid]? = some pid ∧ d.htidToTid[htid]? = some tid := by
  have dealt := read_dealt h fits
  refine ⟨fun htid lt => ?_, fun pid tid htid => ?_⟩
  · rw [htidToPid_eq, htidToTid_eq]
    obtain ⟨pid, tid, held⟩ := Blocks.exists_holds (dealt.numHthreads ▸ lt)
    exact ⟨pid, tid, Blocks.holds_iff.mp held⟩
  · rw [← dealt.owned]
    simp only [Int.lt_toNat]

/-- Two programs and a trace; a table without a type is left out. -/
def threeRuns : List RunTable :=
  [{ type := some "pintool", numThreads := some 2, path := some ".", arg := some "" },
    { numThreads := some 4 },
    { type := some "trace", traceFile := some "t", path := some ".", arg := some "" },
    { type := some "pintool", numThreads := some 3, path := some ".", arg := some "" }]

theorem threeRuns_read : ∃ d, read threeRuns = .ok d ∧ (∀ p ∈ d.ptsProcesses, 0 < p.numThreads) ∧
    d.sizes.sum = 6 ∧
      d.ptsProcesses.map (fun p => (p.numThreads, p.tidToHtid)) = [(2, 0), (1, 2), (3, 3)] :=
  Meets.result (by decide +kernel)

/-- The last of the three processes has hthread 5 for its last thread. -/
theorem hthreads_owned_three : ∃ d, read threeRuns = .ok d ∧
    d.htidToPid[5]? = some 2 ∧ d.htidToTid[5]? = some 2 := by
  obtain ⟨d, hd, counts, total, blocks⟩ := threeRuns_read
  have fits : d.Fits := ⟨fun p hp => (counts p hp).le, by rw [total]; decide⟩
  have third : (d.ptsProcesses.map fun p => (p.numThreads, p.tidToHtid))[2]? = some (3, 3) := by
    rw [blocks]
    rfl
  rw [List.getElem?_map, Option.map_eq_some_iff] at third
  obtain ⟨p, hp, block⟩ := third
  obtain ⟨threads, offset⟩ := Prod.mk.inj block
  exact ⟨d, hd, ((hthreads_owned hd fits).2 2 2 5).mp
    ⟨p, hp, by rw [threads]; decide, by rw [offset]⟩⟩

end ProcessDescription
end McSim.Pthread
