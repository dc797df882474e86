import McSim.Pthread.Scheduler

/-! The emulation of the pthread library.
Threads that wait are kept in the queues of mutexes, in the lists of conditions and barriers, and in
the table of joining threads; the scheduler only knows whether a thread is active. A mutex,
condition or barrier is its address. -/

namespace McSim.Pthread

inductive MutexKind
  | fast | recursive | errorcheck
deriving DecidableEq, Repr

/-- `__data` of a `pthread_mutex_t`, its owner as the `pthread_t` that `GetOwner` makes of an
`int` -/
structure Mutex where
  count : UInt32 := 0
  owner : Nat := 0
  kind : MutexKind := .fast

/-- `(pthread_t)(int)owner` -/
def asOwner (t : Nat) : Nat :=
  let low := t % 2 ^ 32
  if low < 2 ^ 31 then low else low + (2 ^ 64 - 2 ^ 32)

structure BarrierWaiters where
  numParticipants : Nat
  waiters : List Nat := []

/-- `PthreadJoinee`; `joiner` is `none` unless `joined`. -/
structure PthreadJoinee where
  done : Bool := false
  joiner : Option Nat := none

/-- `PthreadCancel`: `enabled` and `asynchronous` are its state and type. -/
structure PthreadCancel where
  canceled : Bool := false
  enabled : Bool := true
  asynchronous : Bool := false

def eperm : Nat := 1
def esrch : Nat := 3
def ebusy : Nat := 16
def einval : Nat := 22
def edeadlk : Nat := 35

/-- `PthreadSim`. An empty queue or list stands for no entry in its map. Ghost are, for each mutex,
the threads that came to wait for it, and those that it was passed on to. -/
structure PthreadSim where
  scheduler : Scheduler
  newThreadId : Nat := 0
  mutexes : Nat → Mutex
  spinning : Nat → List Nat := fun _ => []
  waiters : Nat → List (Nat × Nat) := fun _ => []
  barriers : Nat → Option BarrierWaiters := fun _ => none
  joinables : Nat → Option PthreadJoinee := fun _ => none
  joinings : Nat → Option Nat := fun _ => none
  cancels : Nat → Option PthreadCancel := fun _ => none
  queued : Nat → List Nat := fun _ => []
  passed : Nat → List Nat := fun _ => []

namespace PthreadSim

def current (s : PthreadSim) : Nat := s.scheduler.current

/-- A call that was broken off is not made again when its thread goes on. -/
def onceExecuted (s : PthreadSim) (call : PthreadSim → Except Stop (PthreadSim × Nat)) :
    Except Stop (PthreadSim × Nat) :=
  let p := s.scheduler.pthreads s.current
  if s.current ∉ s.scheduler.live then .error .undefined
  else if p.executed = false then
    return ({ s with scheduler := s.scheduler.setThread s.current { p with executed := true } }, 0)
  else call s

def blockThread (s : PthreadSim) (t barrier nPart : Nat) : Except Stop PthreadSim := do
  let scheduler ← s.scheduler.blockThread t barrier nPart
  return { s with scheduler }

def unblockThread (s : PthreadSim) (t : Nat) : Except Stop PthreadSim := do
  let scheduler ← s.scheduler.unblockThread t
  return { s with scheduler }

def addSynchInstruction (s : PthreadSim) (islock isunlock : Bool) (barrier nPart : Nat) :
    Except Stop PthreadSim := do
  let scheduler ← s.scheduler.addSynchInstruction s.current islock isunlock barrier nPart
  return { s with scheduler }

def setMutex (s : PthreadSim) (m : Nat) (x : Mutex) : PthreadSim :=
  { s with mutexes := Function.update s.mutexes m x }

def setSpinning (s : PthreadSim) (m : Nat) (ts : List Nat) : PthreadSim :=
  { s with spinning := Function.update s.spinning m ts }

/-- `PthreadMutexManager::BlockThread` -/
def spin (s : PthreadSim) (t m : Nat) : PthreadSim :=
  { s.setSpinning m (s.spinning m ++ [t]) with
    queued := Function.update s.queued m (s.queued m ++ [t]) }

def lock (s : PthreadSim) (t m : Nat) (trylock : Bool) : Except Stop (PthreadSim × Nat) :=
  let x := s.mutexes m
  if m = 0 then .error .assertion
  else if x.count = 0 then return (s.setMutex m { x with count := 1, owner := asOwner t }, 0)
  else if x.owner = t then
    match x.kind with
    | .fast | .errorcheck => return (if trylock then s else s.spin t m, edeadlk)
    | .recursive => return (s.setMutex m { x with count := x.count + 1 }, 0)
  else return (if trylock then s else s.spin t m, ebusy)

/-- `PthreadMutexManager::UnblockThread`: the first thread in the queue gets the mutex. -/
def passOn (s : PthreadSim) (m : Nat) : Except Stop (PthreadSim × Option Nat) :=
  match s.spinning m with
  | [] => return (s, none)
  | t :: rest => do
    let s := { s.setSpinning m rest with passed := Function.update s.passed m (s.passed m ++ [t]) }
    let (s, _) ← s.lock t m false
    return (s, some t)

/-- `PthreadMutexManager::Unlock`: the thread to go on, and the error -/
def unlock (s : PthreadSim) (t m : Nat) : Except Stop (PthreadSim × Option Nat × Nat) :=
  let x := s.mutexes m
  if m = 0 then .error .assertion
  else if x.kind = .errorcheck ∧ (x.count = 0 ∨ x.owner ≠ t) then return (s, none, eperm)
  else if x.kind = .recursive then
    if x.count = 0 then .error .assertion
    else
      let s := s.setMutex m { x with count := x.count - 1 }
      if x.count - 1 ≠ 0 then return (s, none, 0)
      else do
        let (s, t) ← s.passOn m
        return (s, t, 0)
  else do
    let (s, t) ← (s.setMutex m { x with count := 0 }).passOn m
    return (s, t, 0)

def unblockAny (s : PthreadSim) : Option Nat → Except Stop PthreadSim
  | none => return s
  | some t => s.unblockThread t

def mutexLock (s : PthreadSim) (m : Nat) : Except Stop (PthreadSim × Nat) :=
  s.onceExecuted fun s => do
    let s ← s.addSynchInstruction true false 0 0
    let (s, blocked) ← s.lock s.current m false
    if blocked = 0 then return (s, 0)
    else do
      let s ← s.blockThread s.current 0 0
      return (s, 0)

def mutexTrylock (s : PthreadSim) (m : Nat) : Except Stop (PthreadSim × Nat) :=
  s.onceExecuted fun s => s.lock s.current m true

def mutexUnlock (s : PthreadSim) (m : Nat) : Except Stop (PthreadSim × Nat) :=
  s.onceExecuted fun s => do
    let s ← s.addSynchInstruction false true 0 0
    let (s, t, error) ← s.unlock s.current m
    let s ← s.unblockAny t
    return (s, error)

def setWaiters (s : PthreadSim) (c : Nat) (ws : List (Nat × Nat)) : PthreadSim :=
  { s with waiters := Function.update s.waiters c ws }

def condWait (s : PthreadSim) (c m : Nat) : Except Stop (PthreadSim × Nat) :=
  s.onceExecuted fun s => do
    let t := s.current
    let (s, _) ← s.mutexUnlock m
    let s ← (s.setWaiters c (s.waiters c ++ [(t, m)])).blockThread t 0 0
    return (s, 0)

/-- A thread that has left the list of a condition locks its mutex, or waits for it. -/
def relock (s : PthreadSim) (t m : Nat) : Except Stop PthreadSim := do
  let (s, blocked) ← s.lock t m false
  if blocked = 0 then s.unblockThread t else return s

def condSignal (s : PthreadSim) (c : Nat) : Except Stop (PthreadSim × Nat) :=
  s.onceExecuted fun s =>
    match s.waiters c with
    | [] => return (s, 0)
    | (t, m) :: rest => do
      let s ← (s.setWaiters c rest).relock t m
      return (s, 0)

/-- The loop of `pthread_cond_broadcast` -/
def relockAll (c : Nat) : List (Nat × Nat) → PthreadSim → Except Stop PthreadSim
  | [], s => return s
  | (t, m) :: rest, s => do
    let s ← (s.setWaiters c rest).relock t m
    relockAll c rest s

def condBroadcast (s : PthreadSim) (c : Nat) : Except Stop (PthreadSim × Nat) :=
  s.onceExecuted fun s => do
    let s ← relockAll c (s.waiters c) s
    return (s, 0)

def setBarrier (s : PthreadSim) (b : Nat) (x : Option BarrierWaiters) : PthreadSim :=
  { s with barriers := Function.update s.barriers b x }

def barrierInit (s : PthreadSim) (b num : Nat) : Except Stop (PthreadSim × Nat) :=
  s.onceExecuted fun s => return (s.setBarrier b (some { numParticipants := num }), 0)

def barrierDestroy (s : PthreadSim) (b : Nat) : Except Stop (PthreadSim × Nat) :=
  s.onceExecuted fun s =>
    match s.barriers b with
    | none => .error .assertion
    | some _ => return (s.setBarrier b none, 0)

/-- The loop of `pthread_barrier_wait`: everyone leaves, and goes on unless it is the last to
come. -/
def releaseAll (b : Nat) (x : BarrierWaiters) (last : Nat) :
    List Nat → PthreadSim → Except Stop PthreadSim
  | [], s => return s
  | t :: rest, s => do
    let s := s.setBarrier b (some { x with waiters := rest })
    let s ← if last = t then pure s else s.unblockThread t
    releaseAll b x last rest s

def barrierWait (s : PthreadSim) (b : Nat) : Except Stop (PthreadSim × Nat) :=
  s.onceExecuted fun s =>
    match s.barriers b with
    | none => .error .assertion
    | some x => do
      let t := s.current
      let x := { x with waiters := x.waiters ++ [t] }
      let s := s.setBarrier b (some x)
      if x.waiters.length = x.numParticipants then do
        let s ← s.addSynchInstruction false false b x.numParticipants
        let s ← releaseAll b x t x.waiters s
        return (s, 0)
      else do
        let s ← s.blockThread t b x.numParticipants
        return (s, 0)

def setJoinee (s : PthreadSim) (t : Nat) (x : Option PthreadJoinee) : PthreadSim :=
  { s with joinables := Function.update s.joinables t x }

def setJoining (s : PthreadSim) (t : Nat) (joinee : Option Nat) : PthreadSim :=
  { s with joinings := Function.update s.joinings t joinee }

def joinKill (s : PthreadSim) (t : Nat) : Except Stop (PthreadSim × Option Nat) :=
  match s.joinables t with
  | none => return (s, none)
  | some x =>
    match x.joiner with
    | some joiner =>
      if s.joinings joiner = some t then
        return ((s.setJoining joiner none).setJoinee t none, some joiner)
      else .error .assertion
    | none => return (s.setJoinee t (some { x with done := true }), none)

def joinThreads (s : PthreadSim) (joiner joinee : Nat) : Except Stop (PthreadSim × Bool) :=
  if joiner = joinee then .error .assertion
  else
    match s.joinables joinee with
    | none => .error .assertion
    | some x =>
      if x.joiner.isSome then .error .assertion
      else if x.done then return (s.setJoinee joinee none, false)
      else if (s.joinings joiner).isSome then .error .assertion
      else
        return ((s.setJoinee joinee (some { x with joiner := some joiner })).setJoining joiner
          (some joinee), true)

def setCancel (s : PthreadSim) (t : Nat) (x : Option PthreadCancel) : PthreadSim :=
  { s with cancels := Function.update s.cancels t x }

/-- What `pthread_exit` and `pthread_cancel` do about a thread that ends -/
def endThread (s : PthreadSim) (t : Nat) : Except Stop PthreadSim := do
  let (s, joiner) ← s.joinKill t
  let s ← s.unblockAny joiner
  if (s.cancels t).isNone then .error .assertion
  else do
    let scheduler ← s.scheduler.killThread t
    return { s.setCancel t none with scheduler }

def exit (s : PthreadSim) : Except Stop (PthreadSim × Nat) :=
  s.onceExecuted fun s => do
    let s ← s.endThread s.current
    let scheduler ← s.scheduler.resumeSimulation true true
    return ({ s with scheduler }, 0)

def testcancel (s : PthreadSim) : Except Stop (PthreadSim × Nat) :=
  s.onceExecuted fun s =>
    match s.cancels s.current with
    | none => .error .undefined
    | some x => if x.canceled then s.exit else return (s, 0)

/-- A cancelled thread does not come back from `pthread_testcancel`. -/
def join (s : PthreadSim) (t : Nat) : Except Stop (PthreadSim × Nat) :=
  s.onceExecuted fun s =>
    match s.cancels s.current with
    | none => .error .undefined
    | some x =>
      if x.canceled then s.exit
      else do
        let (s, blocked) ← s.joinThreads s.current t
        if blocked then do
          let s ← s.blockThread s.current 0 0
          return (s, 0)
        else return (s, 0)

def cancel (s : PthreadSim) (t : Nat) : Except Stop (PthreadSim × Nat) :=
  s.onceExecuted fun s =>
    if t ∉ s.scheduler.live then return (s, esrch)
    else
      match s.cancels t with
      | none => .error .undefined
      | some x =>
        if x.enabled ∧ x.asynchronous then
          if t = s.current then .error .assertion
          else do
            let s ← s.endThread t
            return (s, 0)
        else if x.enabled then return (s.setCancel t (some { x with canceled := true }), 0)
        else return (s, 0)

def kill (s : PthreadSim) (t signo : Nat) : Except Stop (PthreadSim × Nat) :=
  s.onceExecuted fun s =>
    if t ∈ s.scheduler.live ∧ signo ≠ 0 then
      match s.cancels t with
      | none => .error .undefined
      | some x => do
        let (s, _) ← (s.setCancel t (some { x with enabled := true, asynchronous := true })).cancel
          t
        return (s, 0)
    else return (s, esrch)

def setcancelstate (s : PthreadSim) (enabled : Bool) : Except Stop (PthreadSim × Nat) :=
  match s.cancels s.current with
  | none => .error .undefined
  | some x => return (s.setCancel s.current (some { x with enabled }), 0)

def setcanceltype (s : PthreadSim) (asynchronous : Bool) : Except Stop (PthreadSim × Nat) :=
  match s.cancels s.current with
  | none => .error .undefined
  | some x => return (s.setCancel s.current (some { x with asynchronous }), 0)

def detach (s : PthreadSim) (t : Nat) : Except Stop (PthreadSim × Nat) :=
  s.onceExecuted fun s =>
    if t ∉ s.scheduler.live then return (s, esrch)
    else
      match s.joinables t with
      | none => return (s, einval)
      | some x => return (if x.joiner.isSome then s else s.setJoinee t none, 0)

def create (s : PthreadSim) (hasStartctxt : Bool) (mapped : Nat) (joinable : Bool) :
    Except Stop (PthreadSim × Nat) := do
  let t := s.newThreadId
  let scheduler ← s.scheduler.addThread t hasStartctxt mapped
  let s := { s with scheduler, newThreadId := t + 1 }
  if joinable ∧ (s.joinables t).isSome then .error .assertion
  else if (s.cancels t).isSome then .error .assertion
  else
    let s := if joinable then s.setJoinee t (some {}) else s
    return (s.setCancel t (some {}), 0)

def mutexInit (s : PthreadSim) (m : Nat) (kind : MutexKind) : Except Stop (PthreadSim × Nat) :=
  if m = 0 then .error .assertion
  else return (s.setMutex m { owner := 2 ^ 64 - 1, kind }, 0)

end PthreadSim

inductive SimCall
  | create (hasStartctxt : Bool) (mapped : Nat) (joinable : Bool)
  | mutexInit (m : Nat) (kind : MutexKind)
  | mutexLock (m : Nat)
  | mutexTrylock (m : Nat)
  | mutexUnlock (m : Nat)
  | condWait (c m : Nat)
  | condSignal (c : Nat)
  | condBroadcast (c : Nat)
  | barrierInit (b num : Nat)
  | barrierDestroy (b : Nat)
  | barrierWait (b : Nat)
  | join (t : Nat)
  | detach (t : Nat)
  | exit
  | cancel (t : Nat)
  | kill (t signo : Nat)
  | testcancel
  | setcancelstate (enabled : Bool)
  | setcanceltype (asynchronous : Bool)
  | processIns (hasContext : Bool) (x : PtsInstr)
  | setStack (stackPtr : Nat)
  | mark (skip spin : Int)

namespace PthreadSim

/-- A call that only the scheduler hears of -/
def schedule (s : PthreadSim) (x : Except Stop Scheduler) : Except Stop (PthreadSim × Nat) := do
  let scheduler ← x
  return ({ s with scheduler }, 0)

def call (s : PthreadSim) : SimCall → Except Stop (PthreadSim × Nat)
  | .create hasStartctxt mapped joinable => s.create hasStartctxt mapped joinable
  | .mutexInit m kind => s.mutexInit m kind
  | .mutexLock m => s.mutexLock m
  | .mutexTrylock m => s.mutexTrylock m
  | .mutexUnlock m => s.mutexUnlock m
  | .condWait c m => s.condWait c m
  | .condSignal c => s.condSignal c
  | .condBroadcast c => s.condBroadcast c
  | .barrierInit b num => s.barrierInit b num
  | .barrierDestroy b => s.barrierDestroy b
  | .barrierWait b => s.barrierWait b
  | .join t => s.join t
  | .detach t => s.detach t
  | .exit => s.exit
  | .cancel t => s.cancel t
  | .kill t signo => s.kill t signo
  | .testcancel => s.testcancel
  | .setcancelstate enabled => s.setcancelstate enabled
  | .setcanceltype asynchronous => s.setcanceltype asynchronous
  | .processIns hasContext x => s.schedule (s.scheduler.processIns hasContext x)
  | .setStack stackPtr => s.schedule (s.scheduler.setStack stackPtr)
  | .mark skip spin => s.onceExecuted fun s => s.schedule (s.scheduler.mark skip spin)

/-- The emulation before its first thread: mutexes that are initialized, and free -/
def start (numHthreads : Nat) (replies : Nat → Reply) (ignoreSkipInstrs : Bool)
    (kinds : Nat → MutexKind) : PthreadSim :=
  { scheduler := .start numHthreads replies ignoreSkipInstrs
    mutexes := fun m => { kind := kinds m } }

end PthreadSim
end McSim.Pthread
