import McSim.Lib.Weighing
import McSim.Pthread.Backend

/-! Runs of the loop of `main`. -/

namespace McSim.Pthread

open Contract

namespace Mailboxes

variable {n : Nat} {s s' : Mailboxes} {e : MailEvent}

/-- A message that is served leaves every frontend where it is, and the next process is one of those
that there are. -/
theorem serve_moves {r : Reply} {next : Option Nat} (h : s.serve n r next = some s') :
    (s'.currPid = s.currPid ∨ s'.currPid < n) ∧ ∀ i, (s'.procs i).pc = (s.procs i).pc := by
  have put : ∀ (m : Mailboxes) i (p : PtsProcess), p.pc = (m.procs i).pc → ∀ j,
      ((m.setProc i p).procs j).pc = (m.procs j).pc := by
    intro m i p same j
    have procs : (m.setProc i p).procs = Function.update m.procs i p := rfl
    rw [procs]
    by_cases hj : j = i
    · subst hj
      rw [Function.update_self, same]
    · rw [Function.update_of_ne hj]
  have records : ∀ (m : Mailboxes) i req rep j, ((m.record i req rep).procs j).pc =
    (m.procs j).pc :=
    fun m i req rep => put m i _ (by rfl)
  have resumes : ∀ (m : Mailboxes) req j k, ((m.resume req r j).procs k).pc = (m.procs k).pc :=
    fun m req j k => (records _ _ _ _ k).trans
      (put { m with currPid := j, phase := .replying } j _ (by rfl) k)
  unfold serve at h
  dsimp only at h
  split at h
  · cases h
  · cases h
  · cases h
  · split at h
    · rename_i lt
      cases h
      exact ⟨.inr lt, resumes s _ _⟩
    · cases h
  · cases h
    exact ⟨.inl rfl, records { s with anyThread := false, phase := .replying } _ _ _⟩
  · split at h
    · rename_i lt
      cases h
      exact ⟨.inr lt, fun i => (resumes _ _ _ i).trans (put s s.currPid _ (by rfl) i)⟩
    · cases h
  · split at h
    · cases h
    · cases h
      exact ⟨.inl rfl, fun i =>
        (records _ _ _ _ i).trans (put { s with phase := .replying } s.currPid _ (by rfl) i)⟩

theorem step_moves (h : s.step n e = some s') : (s'.currPid = s.currPid ∨ s'.currPid < n) ∧
    (e ≠ .kill → ∀ i, (s'.procs i).pc = .killed → (s.procs i).pc = .killed) := by
  have put : ∀ (m : Mailboxes) i (p : PtsProcess), p.pc ≠ .killed ∨ p.pc = (m.procs i).pc → ∀ j,
      ((m.setProc i p).procs j).pc = .killed → (m.procs j).pc = .killed := by
    intro m i p alive j dead
    have procs : (m.setProc i p).procs = Function.update m.procs i p := rfl
    rw [procs] at dead
    by_cases hj : j = i
    · subst hj
      rw [Function.update_self] at dead
      rcases alive with alive | same
      · exact absurd dead alive
      · rw [← same, dead]
    · rwa [Function.update_of_ne hj] at dead
  cases e with
  | serve r next =>
    simp only [step] at h
    split at h
    · obtain ⟨pid, same⟩ := serve_moves h
      exact ⟨pid, fun _ i dead => by rw [← same i, dead]⟩
    · cases h
  | kill =>
    simp only [step] at h
    split at h
    · cases h
      exact ⟨.inl rfl, fun h => absurd rfl h⟩
    · cases h
  | poll =>
    simp only [step] at h
    split at h
    · cases h
      exact ⟨.inl rfl, fun _ i dead => dead⟩
    · cases h
  | send i =>
    simp only [step] at h
    split at h
    · cases h
      refine ⟨.inl rfl, fun _ => put s i _ (.inl ?_)⟩
      dsimp only
      split <;> exact fun dead => by cases dead
    · cases h
  | write i m =>
    simp only [step] at h
    split at h
    · cases h
      exact ⟨.inl rfl, fun _ => put s i _ (.inr (by rfl))⟩
    · cases h
  | see i | raise i | finish i =>
    simp only [step] at h
    split at h
    · cases h
      exact ⟨.inl rfl, fun _ => put s i _ (.inl fun dead => by cases dead)⟩
    · cases h
  | take | copy | reply | release =>
    simp only [step] at h
    split at h
    · cases h
      exact ⟨.inl rfl, fun _ => put s s.currPid _ (.inr (by rfl))⟩
    · cases h

end Mailboxes

namespace Backend

variable {cfg : BackendConfig} {d : ProcessDescription} {s s' : Backend} {r : Reply}

theorem act_cases {e : MailEvent} (h : s.act d e = .ok s') :
    ∃ mail, s.mail.step d.ptsProcesses.length e = some mail ∧ s' = { s with mail } := by
  unfold act at h
  split at h
  · cases h
  · rename_i mail hm
    exact ⟨mail, hm, (Except.ok.inj h).symm⟩

structure Served (cfg : BackendConfig) (d : ProcessDescription) (s : Backend) (r : Reply)
    (s' : Backend) (ops : List Op) (next : Option Nat) : Prop where
  goesOn : ¬ s.isOver cfg d
  handed : opsOf cfg d s.mail.curr.buffer s.mail.currPid = .ok ops
  cores : ∀ op ∈ ops, ∀ h ∈ op.hthread, h < cfg.numHthreads
  resumes : Backend.next cfg d s.mail.curr.buffer r = .ok next
  mail : s.mail.step d.ptsProcesses.length (.serve (answer cfg d s.mail.curr.buffer r) next) =
    some s'.mail
  performed : s'.performed = s.performed ++ ops.map (s.mail.currPid, ·)
  counted : ∃ c, (s.ended ops).counted cfg d s.mail.curr.buffer ops = .ok c ∧
    c.nactive = s'.nactive ∧ c.fetched = s'.fetched ∧ c.numFetchedInstrs = s'.numFetchedInstrs ∧
    c.numThPassedInstrCount = s'.numThPassedInstrCount ∧ c.interrupted = s'.interrupted

theorem ended_mail (ops : List Op) :
    (s.ended ops).mail = s.mail ∧ (s.ended ops).performed = s.performed := by
  unfold ended
  split <;> exact ⟨rfl, rfl⟩

theorem counted_cases {c : Backend} {m : PtsMessage} {ops : List Op}
    (done : s.counted cfg d m ops = .ok c) :
    (∃ h, ops.head?.bind Op.hthread = some h ∧ m.type = .addInstruction ∧ m.uint32Val ≤ 32 ∧
      h < d.htidToPid.length ∧ c = s.count cfg h m.uint32Val) ∨
      c = s ∧ (m.type = .addInstruction → ops.head?.bind Op.hthread = none) := by
  unfold counted at done
  split at done
  · rename_i h type first
    split at done
    · cases done
    · rename_i fine
      rw [not_or, Nat.not_lt, Nat.not_le] at fine
      exact .inl ⟨h, first, type, fine.1, fine.2, (Except.ok.inj done).symm⟩
  · rename_i other
    exact .inr ⟨(Except.ok.inj done).symm,
      fun type => Option.eq_none_iff_forall_ne_some.mpr fun h => other h type⟩

theorem counted_mail {c : Backend} {m : PtsMessage} {ops : List Op}
    (done : s.counted cfg d m ops = .ok c) :
    c.mail = s.mail ∧ c.performed = s.performed := by
  rcases counted_cases done with ⟨h, -, -, -, -, rfl⟩ | ⟨rfl, -⟩ <;> exact ⟨rfl, rfl⟩

theorem serve_cases (h : s.serve cfg d r = .ok s') :
    (s.isOver cfg d ∧ ∃ mail, s.mail.step d.ptsProcesses.length .kill = some mail ∧
      s' = { s with mail }) ∨
      ∃ ops next, Served cfg d s r s' ops next := by
  unfold serve at h
  dsimp only at h
  split at h
  · rename_i last
    exact .inl ⟨last, act_cases h⟩
  · rename_i goesOn
    cases hops : opsOf cfg d s.mail.curr.buffer s.mail.currPid with
    | error e => rw [hops] at h; cases h
    | ok ops =>
      rw [hops] at h
      simp only [bind, Except.bind] at h
      split at h
      · cases h
      · rename_i cores
        cases hc : (s.ended ops).counted cfg d s.mail.curr.buffer ops with
        | error e => rw [hc] at h; cases h
        | ok c =>
          rw [hc] at h
          dsimp only at h
          cases hn : Backend.next cfg d s.mail.curr.buffer r with
          | error e => rw [hn] at h; cases h
          | ok next =>
            rw [hn] at h
            obtain ⟨mail, hm, rfl⟩ := act_cases h
            obtain ⟨sameMail, samePerformed⟩ := counted_mail hc
            rw [(ended_mail ops).1] at sameMail
            rw [(ended_mail ops).2] at samePerformed
            refine .inr ⟨ops, next, goesOn, hops, fun op hop a ha => ?_, hn, ?_, ?_, c, hc, rfl,
              rfl, rfl, rfl, rfl⟩
            · by_contra out
              exact cores ⟨a, List.mem_filterMap.mpr ⟨op, hop, ha⟩, Nat.not_lt.mp out⟩
            · dsimp only at hm
              rw [sameMail] at hm
              exact hm
            · exact congrArg (· ++ ops.map (s.mail.currPid, ·)) samePerformed

theorem step_cases {e : BackendEvent} (h : s.step cfg d e = .ok s') :
    (∃ m mail, e = .mail m ∧ s.mail.step d.ptsProcesses.length m = some mail ∧
      s' = { s with mail } ∧
      m ≠ .kill ∧ ∀ r next, m ≠ .serve r next) ∨
      ∃ r, e = .serve r ∧ s.serve cfg d r = .ok s' := by
  cases e with
  | serve r => exact .inr ⟨r, rfl, h⟩
  | mail m =>
    cases m with
    | kill | serve => cases h
    | write | send | see | raise | finish | poll | take | copy | reply | release =>
      obtain ⟨mail, hm, same⟩ := act_cases h
      exact .inl ⟨_, mail, rfl, hm, same, by simp, by simp⟩

structure Started (cfg : BackendConfig) (d : ProcessDescription) (s : Backend) : Prop where
  cores : ∀ p ∈ d.ptsProcesses.zipIdx.drop 1, p.1.tidToHtid < cfg.numHthreads
  enough : d.numHthreads ≤ cfg.numHthreads
  some : d.ptsProcesses ≠ []
  is : s = {
    nactive := d.numHthreads, fetched := d.ptsProcesses.length - 1
    performed := (d.ptsProcesses.zipIdx.drop 1).flatMap preload }

theorem start_cases (h : start cfg d = .ok s) : Started cfg d s := by
  unfold start at h
  dsimp only at h
  split at h
  · cases h
  · rename_i cores
    split at h
    · cases h
    · rename_i fine
      rw [not_or, Nat.not_lt] at fine
      refine ⟨fun p hp => ?_, fine.1, fine.2, ?_⟩
      · by_contra out
        exact cores ⟨p, hp, Nat.not_lt.mp out⟩
      · rw [← Except.ok.inj h, List.length_drop, List.length_zipIdx]

/-- What holds at the start, and is kept by what happens to the mailboxes and by each message that
is served, holds in every run. -/
theorem Run.keeps {ok : Backend → BackendEvent → Prop} {I : Backend → Prop} (run : Run cfg d ok s)
    (start : ∀ s, Started cfg d s → I s)
    (act : ∀ s e mail, I s → (∀ r next, e ≠ .serve r next) → (e = .kill → s.isOver cfg d) →
      s.mail.step d.ptsProcesses.length e = some mail → I { s with mail })
    (serve : ∀ s r s' ops next, I s → ok s (.serve r) → Served cfg d s r s' ops next → I s') :
      I s := by
  induction run with
  | start h => exact start _ (start_cases h)
  | @step s s' e _ allowed hs ih =>
    rcases step_cases hs with ⟨m, mail, rfl, hm, rfl, goesOn, notServe⟩ | ⟨r, rfl, hs⟩
    · exact act s m mail ih notServe (fun kill => absurd kill goesOn) hm
    · rcases serve_cases hs with ⟨last, mail, hm, rfl⟩ | ⟨ops, next, served⟩
      · exact act s .kill mail ih (fun _ _ h => by cases h) (fun _ => last) hm
      · exact serve s r s' ops next ih allowed served

/-- A run of the loop is a run of the mailboxes. A condition on these is one on the messages that
are served. -/
theorem Run.mailboxes {ok : Backend → BackendEvent → Prop} {meets : Mailboxes → MailEvent → Prop}
    (quiet : ∀ (m : Mailboxes) e, (∀ r next, e ≠ .serve r next) → meets m e)
    (serve : ∀ (s s' : Backend) r ops next, Served cfg d s r s' ops next →
      s.mail.currPid < d.ptsProcesses.length →
      meets s.mail (.serve (answer cfg d s.mail.curr.buffer r) next))
    (run : Run cfg d ok s) :
    Mailboxes.Run d.ptsProcesses.length meets s.mail ∧ s.mail.currPid < d.ptsProcesses.length := by
  refine run.keeps (I := fun s => Mailboxes.Run d.ptsProcesses.length meets s.mail ∧
    s.mail.currPid < d.ptsProcesses.length) (fun s started => ?_)
      (fun s e mail ih notServe _ hm => ?_)
    (fun s r s' ops next ih _ served => ?_)
  · rw [started.is]
    exact ⟨.init, List.length_pos_iff.mpr started.some⟩
  · refine ⟨ih.1.step e (quiet s.mail e notServe) hm, ?_⟩
    rcases (Mailboxes.step_moves hm).1 with same | lt
    · exact same.symm ▸ ih.2
    · exact lt
  · refine ⟨ih.1.step _ (serve s s' r ops next served ih.2) served.mail, ?_⟩
    rcases (Mailboxes.step_moves served.mail).1 with same | lt
    · exact same.symm ▸ ih.2
    · exact lt

theorem htidToPid_lt {htid pid : Nat} (h : d.htidToPid[htid]? = some pid) :
    pid < d.ptsProcesses.length := by
  obtain ⟨p, mem, hp⟩ := List.mem_flatMap.mp (List.mem_of_getElem? h)
  rw [(List.mem_replicate.mp hp).2]
  simpa using List.snd_lt_of_mem_zipIdx mem

theorem next_cases {m : PtsMessage} {pid : Nat} (h : next cfg d m r = .ok (some pid)) :
    d.htidToPid[r.hthread]? = some pid := by
  unfold next at h
  split at h
  · rename_i found
    cases h
    exact found
  · cases h
  · split at h
    · cases h
    · split at h
      · rename_i found
        cases h
        exact found
      · cases h
  · cases h

theorem calls_paired {ok : Backend → BackendEvent → Prop} (one : d.ptsProcesses.length = 1)
    (run : Run cfg d ok s) : s.mail.Paired := by
  have mails : Mailboxes.Run d.ptsProcesses.length Mailboxes.Stays s.mail := by
    refine (run.mailboxes (fun m e notServe => ?_) fun s s' r ops next served lt => ?_).1
    · cases e with
      | serve r next => exact absurd rfl (notServe r next)
      | write | send | see | raise | finish | poll | take | copy | kill | reply | release => trivial
    · cases next with
      | none => trivial
      | some j =>
        intro _
        have hj := htidToPid_lt (next_cases served.resumes)
        omega
  have sound : ∀ m, Mailboxes.Run d.ptsProcesses.length Mailboxes.Stays m → m.Sound := by
    intro m run
    induction run with
    | init => exact Mailboxes.init_sound
    | step e _ stays hs ih => exact ih.step stays hs
  exact (sound s.mail mails).turns.paired

/-- The message of process `pid` names threads that the runfile gives it, and addresses that leave
room for the number of the process. -/
def Keeps (cfg : BackendConfig) (d : ProcessDescription) (pid : Nat) (op : Op) : Prop :=
  (∀ tid ∈ op.hthread, tid < (d.ptsProcesses[pid]?.map fun p => p.numThreads.toNat).getD 0) ∧
    ∀ a ∈ op.addresses, a + pid <<< cfg.interleaveBaseBit < 2 ^ cfg.addrOffsetLsb

instance (pid : Nat) : DecidablePred (Keeps cfg d pid) :=
  fun _ => inferInstanceAs (Decidable (_ ∧ _))

def Proper (cfg : BackendConfig) (d : ProcessDescription) (s : Backend) : BackendEvent → Prop
  | .mail _ => True
  | .serve _ => Meets (fun _ => True) (fun asked => ∀ op ∈ asked, Keeps cfg d s.mail.currPid op)
      s.mail.curr.buffer.ops

instance (s : Backend) : DecidablePred (Proper cfg d s)
  | .mail _ => isTrue trivial
  | .serve _ => inferInstanceAs (Decidable (Meets (fun _ => True)
      (fun asked => ∀ op ∈ asked, Keeps cfg d s.mail.currPid op) s.mail.curr.buffer.ops))

/-- An operation is about a hthread of the process, and the upper bits of its addresses name the
process. -/
def Owned (cfg : BackendConfig) (d : ProcessDescription) (pid : Nat) (op : Op) : Prop :=
  (∀ htid ∈ op.hthread, d.htidToPid[htid]? = some pid) ∧
    ∀ a ∈ op.addresses, a = 0 ∨ a >>> cfg.addrOffsetLsb = pid

theorem op_hthread (link : Link) (op : Op) :
    (link.op op).hthread = op.hthread.map link.hthreadOf := by
  cases op <;> rfl

theorem op_addresses (link : Link) (op : Op) :
    ∀ a ∈ (link.op op).addresses, a = 0 ∨ ∃ b ∈ op.addresses, a = (b + link.offset) % 2 ^ 64 := by
  have access : ∀ b, link.access b = 0 ∨ link.access b = (b + link.offset) % 2 ^ 64 := by
    intro b
    unfold Link.access
    split
    · rename_i none
      rw [none]
      exact .inl rfl
    · exact .inr rfl
  intro a ha
  cases op with
  | addInstruction x =>
    rcases List.mem_cons.mp ha with rfl | ha
    · exact (access x.waddr).imp_right fun h => ⟨x.waddr, by simp [Op.addresses], h⟩
    rcases List.mem_cons.mp ha with rfl | ha
    · exact (access x.raddr).imp_right fun h => ⟨x.raddr, by simp [Op.addresses], h⟩
    rcases List.mem_cons.mp ha with rfl | ha
    · exact (access x.raddr2).imp_right fun h => ⟨x.raddr2, by simp [Op.addresses], h⟩
    · exact .inr ⟨x.ip, by simp [Op.addresses], List.mem_singleton.mp ha⟩
  | setStackNSize tid stack stacksize =>
    exact .inr ⟨stack, List.mem_singleton_self _, List.mem_singleton.mp ha⟩
  | resumeSimulation | setActive | getNumHthreads | getParamUint64 | getParamBool | getCurrTime =>
    cases ha

theorem offset_upper {pid b n : Nat} (lt : pid < n) (space : n * 2 ^ cfg.addrOffsetLsb ≤ 2 ^ 64)
    (clear : b + pid <<< cfg.interleaveBaseBit < 2 ^ cfg.addrOffsetLsb) :
    ((b + (link cfg d pid).offset) % 2 ^ 64) >>> cfg.addrOffsetLsb = pid := by
  have place : b + (link cfg d pid).offset =
      b + pid <<< cfg.interleaveBaseBit + pid * 2 ^ cfg.addrOffsetLsb := by
    show b + (pid <<< cfg.addrOffsetLsb + pid <<< cfg.interleaveBaseBit) = _
    rw [Nat.shiftLeft_eq pid cfg.addrOffsetLsb]
    omega
  have top : (pid + 1) * 2 ^ cfg.addrOffsetLsb ≤ n * 2 ^ cfg.addrOffsetLsb :=
    Nat.mul_le_mul_right _ lt
  rw [Nat.add_mul, Nat.one_mul] at top
  rw [place, Nat.mod_eq_of_lt (by omega), Nat.shiftRight_eq_div_pow,
    Nat.add_mul_div_right _ _ (Nat.two_pow_pos _), Nat.div_eq_of_lt clear, Nat.zero_add]

theorem Keeps.owned (dealt : d.Dealt) (fits : d.Fits)
    (space : d.ptsProcesses.length * 2 ^ cfg.addrOffsetLsb ≤ 2 ^ 64) {pid : Nat} {op : Op}
    (keeps : Keeps cfg d pid op) : Owned cfg d pid ((link cfg d pid).op op) := by
  have thread : ∀ tid ∈ op.hthread, ∃ p, d.ptsProcesses[pid]? = some p ∧
    tid < p.numThreads.toNat := by
    intro tid mem
    have lt := keeps.1 tid mem
    cases hp : d.ptsProcesses[pid]? with
    | none =>
      rw [hp] at lt
      exact absurd lt (Nat.not_lt_zero _)
    | some p =>
      rw [hp] at lt
      exact ⟨p, rfl, lt⟩
  refine ⟨fun htid mem => ?_, fun a mem => ?_⟩
  · rw [op_hthread] at mem
    obtain ⟨tid, htid', rfl⟩ := Option.map_eq_some_iff.mp mem
    obtain ⟨p, hp, lt⟩ := thread tid htid'
    have owner := ((dealt.owned pid tid (p.tidToHtid + tid)).mp ⟨p, hp, lt, rfl⟩).1
    have inside : p.tidToHtid + tid < d.numHthreads := by
      rw [← dealt.length]
      exact (List.getElem?_eq_some_iff.mp owner).1
    have total := dealt.numHthreads ▸ fits.total
    have same : (link cfg d pid).hthreadOf tid = p.tidToHtid + tid := by
      unfold Link.hthreadOf link
      rw [hp]
      exact Nat.mod_eq_of_lt (inside.trans total)
    rw [same]
    exact owner
  · rcases op_addresses _ _ a mem with zero | ⟨b, hb, rfl⟩
    · exact .inl zero
    · have named : ∃ tid, tid ∈ op.hthread := by
        cases op with
        | addInstruction x => exact ⟨_, rfl⟩
        | setStackNSize tid => exact ⟨tid, rfl⟩
        | resumeSimulation | setActive | getNumHthreads | getParamUint64 | getParamBool
            | getCurrTime =>
          cases hb
      obtain ⟨tid, htid⟩ := named
      obtain ⟨p, hp, -⟩ := thread tid htid
      exact .inr (offset_upper (List.getElem?_eq_some_iff.mp hp).1 space (keeps.2 b hb))

theorem opsOf_ok {m : PtsMessage} {pid : Nat} {ops : List Op} (h : opsOf cfg d m pid = .ok ops) :
    ∃ asked, m.ops = .ok asked ∧ ops = asked.map (link cfg d pid).op := by
  unfold opsOf at h
  split at h
  · rename_i asked hm
    exact ⟨asked, hm, (Except.ok.inj h).symm⟩
  · split at h <;> cases h

theorem preload_owned (cfg : BackendConfig) (dealt : d.Dealt)
    (threads : ∀ p ∈ d.ptsProcesses, 0 < p.numThreads) {p : RunProcess × Nat}
    (hp : p ∈ d.ptsProcesses.zipIdx) : ∀ e ∈ preload p, e.1 = p.2 ∧ Owned cfg d p.2 e.2 := by
  have here : d.ptsProcesses[p.2]? = some p.1 := List.mem_zipIdx_iff_getElem?.mp hp
  have some := threads p.1 (List.mem_of_getElem? here)
  have owner := ((dealt.owned p.2 0 (p.1.tidToHtid + 0)).mp ⟨p.1, here, by omega, rfl⟩).1
  intro e he
  unfold preload at he
  rcases List.mem_cons.mp he with rfl | he
  · refine ⟨rfl, fun htid mem => ?_, fun a ha => .inl ?_⟩
    · cases mem
      exact owner
    · simpa [Op.addresses] using ha
  · rw [List.mem_singleton.mp he]
    refine ⟨rfl, fun htid mem => ?_, fun a ha => by cases ha⟩
    cases mem
    exact owner

/-- Whatever is handed on for a process is about hthreads of that process, and about addresses with
its number in their upper bits. So no two processes share a hthread, or an address. -/
theorem processes_apart {runs : List RunTable} (read : ProcessDescription.read runs = .ok d)
    (threads : ∀ p ∈ d.ptsProcesses, 0 < p.numThreads) (total : d.sizes.sum < 2 ^ 32)
    (space : d.ptsProcesses.length * 2 ^ cfg.addrOffsetLsb ≤ 2 ^ 64)
    (run : Run cfg d (Proper cfg d) s) :
    ∀ e ∈ s.performed, (∀ htid ∈ e.2.hthread, d.htidToPid[htid]? = some e.1) ∧
      ∀ a ∈ e.2.addresses, a = 0 ∨ a >>> cfg.addrOffsetLsb = e.1 := by
  have fits : d.Fits := ⟨fun p hp => (threads p hp).le, total⟩
  have dealt := ProcessDescription.read_dealt read fits
  refine run.keeps (I := fun s => ∀ e ∈ s.performed, Owned cfg d e.1 e.2) (fun s started e he => ?_)
    (fun s e mail ih _ _ _ => ih) fun s r s' ops next ih proper served e he => ?_
  · rw [started.is] at he
    obtain ⟨p, hp, mem⟩ := List.mem_flatMap.mp he
    obtain ⟨pid, owned⟩ := preload_owned cfg dealt threads (List.mem_of_mem_drop hp) e mem
    exact pid ▸ owned
  · rw [served.performed] at he
    rcases List.mem_append.mp he with old | new
    · exact ih e old
    · obtain ⟨op, hop, rfl⟩ := List.mem_map.mp new
      obtain ⟨asked, hm, rfl⟩ := opsOf_ok served.handed
      obtain ⟨op, ha, rfl⟩ := List.mem_map.mp hop
      exact (Meets.of_ok proper hm op ha).owned dealt fits space

def follow (cfg : BackendConfig) (d : ProcessDescription) (s : Backend) :
    List BackendEvent → Except Abort Backend
  | [] => return s
  | e :: es =>
    if Proper cfg d s e then s.step cfg d e >>= fun s => follow cfg d s es else .error .undefined

theorem Run.follow {es : List BackendEvent} (run : Run cfg d (Proper cfg d) s)
    (h : Backend.follow cfg d s es = .ok s') : Run cfg d (Proper cfg d) s' := by
  induction es generalizing s with
  | nil =>
    cases h
    exact run
  | cons e es ih =>
    unfold Backend.follow at h
    split at h
    · rename_i proper
      cases hs : s.step cfg d e with
      | error a => rw [hs] at h; cases h
      | ok next =>
        rw [hs] at h
        exact ih (run.step e proper hs) h
    · cases h

def twoHthreads : BackendConfig := { numHthreads := 2, maxTotalInstrs := 3, numInstrsPerTh := 1 }

def asks (i : Nat) (m : PtsMessage) (r : Reply) : List BackendEvent :=
  [.mail (.write i m), .mail (.send i), .mail .poll, .mail .take, .mail .copy, .serve r]

def store (addr : Nat) : PtsMessage :=
  PtsMessage.putInstr { type := .addInstruction, uint32Val := 1 } 0
    { hthreadid := 0, currTime := 0, waddr := addr, ip := 4096 }

def replied : List BackendEvent := [.mail .reply, .mail .release]

def heard (i : Nat) : List BackendEvent := [.mail (.see i), .mail (.raise i), .mail (.finish i)]

def play (es : List BackendEvent) : Except Abort (ProcessDescription × Backend) := do
  let run : RunTable := { type := some "pintool", numThreads := some 1, path := some ".", arg := some "" }
  let d ← ProcessDescription.read [run, run]
  let s ← start twoHthreads d
  let s ← follow twoHthreads d s es
  return (d, s)

theorem play_run {es : List BackendEvent} {q : ProcessDescription × Backend} (h : play es = .ok q) :
    (∃ runs, ProcessDescription.read runs = .ok q.1) ∧
      Run twoHthreads q.1 (Proper twoHthreads q.1) q.2 := by
  unfold play at h
  dsimp only at h
  generalize [_, _] = runs at h
  cases hd : ProcessDescription.read runs with
  | error a => rw [hd] at h; cases h
  | ok d =>
    rw [hd] at h
    simp only [bind, Except.bind] at h
    cases hs : start twoHthreads d with
    | error a => rw [hs] at h; cases h
    | ok s =>
      rw [hs] at h
      dsimp only at h
      split at h
      · cases h
      · rename_i s' follows
        cases h
        exact ⟨⟨runs, hd⟩, (Run.start hs).follow follows⟩

/-- Both store to one address of theirs, one after the other, and meet the limit of three
instructions. -/
def twoStores : List BackendEvent :=
  asks 0 (store 64) {} ++ replied ++ heard 0 ++ asks 0 { type := .resumeSimulation }
    { hthread := 1 } ++
    replied ++ asks 1 (store 64) {} ++ replied ++ heard 1 ++ asks 1 { type := .getCurrTime } {}

theorem twoStores_result :
    ∃ q, play twoStores = .ok q ∧ (∀ p ∈ q.1.ptsProcesses, 0 < p.numThreads) ∧
    q.1.sizes.sum < 2 ^ 32 ∧ q.1.ptsProcesses.length * 2 ^ 48 ≤ 2 ^ 64 ∧
    q.2.performed.map (fun e => (e.1, e.2.addresses.head?)) = [(1, some 0), (1, none),
      (0, some 64), (0, none), (1, some (64 + 2 ^ 48 + 2 ^ 14))] := Meets.result (by decide +kernel)

/-- The two stores go to different addresses. -/
theorem processes_apart_of_stores : ∃ q, play twoStores = .ok q ∧
    q.2.performed.map (fun e => (e.1, e.2.addresses.head?)) = [(1, some 0), (1, none),
      (0, some 64), (0, none), (1, some (64 + 2 ^ 48 + 2 ^ 14))] ∧
    ∀ e ∈ q.2.performed, (∀ htid ∈ e.2.hthread, q.1.htidToPid[htid]? = some e.1) ∧
      ∀ a ∈ e.2.addresses, a = 0 ∨ a >>> 48 = e.1 := by
  obtain ⟨q, hq, threads, total, space, performed⟩ := twoStores_result
  obtain ⟨⟨runs, read⟩, run⟩ := play_run hq
  exact ⟨q, hq, performed, processes_apart read threads total space run⟩

theorem batch_length {m : PtsMessage} {n : Nat} {xs : List PtsInstr} (h : m.batch n = .ok xs) :
    xs.length = n := by
  induction n generalizing xs with
  | zero =>
    cases h
    rfl
  | succ n ih =>
    unfold PtsMessage.batch at h
    cases before : m.batch n with
    | error e => rw [before] at h; cases h
    | ok ys =>
      rw [before] at h
      simp only [bind, Except.bind] at h
      split at h
      · cases h
      · cases h
        rw [List.length_append, ih before]
        rfl

theorem ops_cases {m : PtsMessage} {asked : List Op} (h : m.ops = .ok asked) :
    (m.type = .addInstruction ∧ asked.length = m.uint32Val ∧ 0 < m.uint32Val ∧
      ∀ op ∈ asked, ∃ x, op = .addInstruction x) ∨
      m.type ≠ .addInstruction ∧ ∃ op, asked = [op] ∧ op.isInstruction = false := by
  unfold PtsMessage.ops at h
  cases type : m.type with
  | resumeSimulation | setStackNSize | setActive | getNumHthreads | getCurrTime | destructor =>
    rw [type] at h
    cases h
    exact .inr ⟨by decide, _, rfl, rfl⟩
  | getParamUint64 | getParamBool =>
    rw [type] at h
    dsimp only at h
    split at h
    · cases h
    · cases h
      exact .inr ⟨by decide, _, rfl, rfl⟩
  | addInstruction =>
    rw [type] at h
    dsimp only at h
    split at h
    · cases h
    · rename_i some
      cases batch : m.batch m.uint32Val with
      | error e => rw [batch] at h; cases h
      | ok xs =>
        rw [batch] at h
        cases h
        refine .inl ⟨rfl, ?_, Nat.pos_of_ne_zero some, fun op hop => ?_⟩
        · rw [List.length_map, batch_length batch]
        · obtain ⟨x, -, rfl⟩ := List.mem_map.mp hop
          exact ⟨x, rfl⟩
  | invalid | constructor =>
    rw [type] at h
    cases h

def passed (cfg : BackendConfig) (d : ProcessDescription) (num : Nat → Nat) : Finset Nat :=
  (Finset.range d.htidToPid.length).filter fun h => 0 < cfg.numInstrsPerTh ∧
    cfg.numInstrsPerTh ≤ num h

theorem card_passed {num : Nat → Nat} {h n : Nat} (inside : h < d.htidToPid.length) :
    (passed cfg d (Function.update num h (num h + n))).card = (passed cfg d num).card +
      if 0 < cfg.numInstrsPerTh ∧ num h < cfg.numInstrsPerTh ∧ cfg.numInstrsPerTh ≤ num h + n then 1
      else 0 := by
  have mem : ∀ (f : Nat → Nat) j, j ∈ passed cfg d f ↔
      j < d.htidToPid.length ∧ 0 < cfg.numInstrsPerTh ∧ cfg.numInstrsPerTh ≤ f j := by
    intro f j
    rw [passed, Finset.mem_filter, Finset.mem_range]
  have here : Function.update num h (num h + n) h = num h + n := Function.update_self ..
  have there : ∀ j, j ≠ h → Function.update num h (num h + n) j = num j :=
    fun j hj => Function.update_of_ne hj ..
  split
  · rename_i passes
    have new : h ∉ passed cfg d num :=
      fun old => absurd ((mem _ _).mp old).2.2 (Nat.not_le.mpr passes.2.1)
    rw [← Finset.card_insert_of_notMem new]
    refine congrArg Finset.card (Finset.ext fun j => ?_)
    rw [Finset.mem_insert, mem, mem]
    by_cases hj : j = h
    · subst hj
      rw [here]
      exact ⟨fun _ => .inl rfl, fun _ => ⟨inside, passes.1, passes.2.2⟩⟩
    · rw [there j hj]
      exact ⟨.inr, fun old => old.resolve_left hj⟩
  · rename_i stays
    rw [Nat.add_zero]
    refine congrArg Finset.card (Finset.ext fun j => ?_)
    rw [mem, mem]
    by_cases hj : j = h
    · subst hj
      rw [here]
      omega
    · rw [there j hj]

/-- Every instruction counts for one hthread, but for those that processes are woken up with. -/
structure Counted (cfg : BackendConfig) (d : ProcessDescription) (s : Backend) : Prop where
  instructions : s.performed.countP (fun e => e.2.isInstruction) = s.fetched
  sum : ∑ h ∈ Finset.range d.htidToPid.length,
  s.numFetchedInstrs h + (d.ptsProcesses.length - 1) = s.fetched
  numPassed : s.numThPassedInstrCount = (passed cfg d s.numFetchedInstrs).card
  bound : s.fetched ≤ max (d.ptsProcesses.length - 1) (cfg.maxTotalInstrs + 31)
  killed : ∀ i, (s.mail.procs i).pc = .killed → s.isOver cfg d

theorem count_preloads (ps : List (RunProcess × Nat)) :
    (ps.flatMap preload).countP (fun e => e.2.isInstruction) = ps.length := by
  induction ps with
  | nil => rfl
  | cons p ps ih =>
    rw [List.flatMap_cons, List.countP_append, ih, List.length_cons, Nat.add_comm]
    rfl

theorem counted_start (started : Started cfg d s) : Counted cfg d s := by
  have length : (d.ptsProcesses.zipIdx.drop 1).length = d.ptsProcesses.length - 1 := by
    rw [List.length_drop, List.length_zipIdx]
  have none : passed cfg d (fun _ => 0) = ∅ :=
    Finset.filter_eq_empty_iff.mpr fun h _ some => absurd some.2 (Nat.not_le.mpr some.1)
  rw [started.is]
  refine ⟨(count_preloads _).trans length, ?_, ?_, le_max_left _ _, fun i dead => by cases dead⟩
  · dsimp only
    rw [Finset.sum_const_zero, Nat.zero_add]
  · dsimp only
    rw [none, Finset.card_empty]

theorem ended_same (ops : List Op) : (s.ended ops).fetched = s.fetched ∧
    (s.ended ops).numFetchedInstrs = s.numFetchedInstrs ∧
    (s.ended ops).numThPassedInstrCount = s.numThPassedInstrCount := by
  unfold ended
  split <;> exact ⟨rfl, rfl, rfl⟩

theorem op_isInstruction (link : Link) (op : Op) :
    (link.op op).isInstruction = op.isInstruction := by
  cases op <;> rfl

theorem Served.counts {ops : List Op} {next : Option Nat} (served : Served cfg d s r s' ops next) :
    (∃ h n, h < d.htidToPid.length ∧ n ≤ 32 ∧ ops.countP Op.isInstruction = n ∧
      s'.fetched = (s.count cfg h n).fetched ∧
        s'.numFetchedInstrs = (s.count cfg h n).numFetchedInstrs ∧
      s'.numThPassedInstrCount = (s.count cfg h n).numThPassedInstrCount) ∨
      ops.countP Op.isInstruction = 0 ∧ s'.fetched = s.fetched ∧
        s'.numFetchedInstrs = s.numFetchedInstrs ∧
        s'.numThPassedInstrCount = s.numThPassedInstrCount := by
  obtain ⟨asked, hm, rfl⟩ := opsOf_ok served.handed
  obtain ⟨c, done, -, fetched, num, passed, -⟩ := served.counted
  have same := ended_same (s := s) (asked.map (link cfg d s.mail.currPid).op)
  have instructions : (asked.map (link cfg d s.mail.currPid).op).countP Op.isInstruction =
      asked.countP Op.isInstruction := by
    rw [List.countP_map]
    exact List.countP_congr fun op _ => by rw [Function.comp_apply, op_isInstruction]
  rw [instructions, ← fetched, ← num, ← passed]
  rcases ops_cases hm with ⟨type, length, some, all⟩ | ⟨type, op, rfl, plain⟩
  · have count : asked.countP Op.isInstruction = s.mail.curr.buffer.uint32Val := by
      rw [← length, List.countP_eq_length]
      intro op hop
      obtain ⟨x, rfl⟩ := all op hop
      rfl
    obtain ⟨op, rest, rfl⟩ := List.exists_cons_of_length_pos (length ▸ some)
    obtain ⟨x, rfl⟩ := all op List.mem_cons_self
    rcases counted_cases done with ⟨h, -, -, few, inside, rfl⟩ | ⟨-, empty⟩
    · refine .inl ⟨h, _, inside, few, count, ?_⟩
      unfold Backend.count
      dsimp only
      rw [same.1, same.2.1, same.2.2]
      exact ⟨rfl, rfl, rfl⟩
    · cases empty type
  · rcases counted_cases done with ⟨-, -, batch, -⟩ | ⟨rfl, -⟩
    · exact absurd batch type
    · exact .inr ⟨by rw [List.countP_singleton, plain]; rfl, same⟩

theorem Counted.serve (h : Counted cfg d s)
    (small : max (d.ptsProcesses.length - 1) (cfg.maxTotalInstrs + 31) < 2 ^ 64)
    {ops : List Op} {next : Option Nat} (served : Served cfg d s r s' ops next) :
      Counted cfg d s' := by
  have room : s.fetched < cfg.maxTotalInstrs := by
    by_contra full
    exact served.goesOn (.inl (Nat.not_lt.mp full))
  have performed : s'.performed.countP (fun e => e.2.isInstruction) =
      s.fetched + ops.countP Op.isInstruction := by
    rw [served.performed, List.countP_append, h.instructions, List.countP_map]
    rfl
  have killed : ∀ i, (s'.mail.procs i).pc = .killed → s'.isOver cfg d := fun i dead =>
    absurd (h.killed i ((Mailboxes.step_moves served.mail).2 (by simp) i dead)) served.goesOn
  rcases served.counts with ⟨htid, n, inside, few, count, fetched, num, passes⟩ | ⟨count, fetched,
    num, passes⟩
  · have sum := h.sum
    have share : s.numFetchedInstrs htid ≤ ∑ h ∈ Finset.range d.htidToPid.length,
    s.numFetchedInstrs h :=
      Finset.single_le_sum (fun _ _ => Nat.zero_le _) (Finset.mem_range.mpr inside)
    have total : (s.fetched + n) % 2 ^ 64 = s.fetched + n := Nat.mod_eq_of_lt (by omega)
    have own : (s.numFetchedInstrs htid + n) % 2 ^ 64 = s.numFetchedInstrs htid + n :=
      Nat.mod_eq_of_lt (by omega)
    have fetched' : s'.fetched = s.fetched + n := fetched.trans total
    have num' : s'.numFetchedInstrs =
        Function.update s.numFetchedInstrs htid (s.numFetchedInstrs htid + n) := by
      rw [num, Backend.count, own]
    refine ⟨?_, ?_, ?_, ?_, killed⟩
    · rw [performed, count, fetched']
    · have change := Weighing.sum_update s.numFetchedInstrs (fun _ a => a)
        (Finset.mem_range.mpr inside)
        (s.numFetchedInstrs htid + n)
      rw [num', fetched']
      omega
    · rw [passes, num', card_passed inside, Backend.count, own, ← h.numPassed]
      dsimp only
      split <;> rfl
    · rw [fetched']
      omega
  · refine ⟨?_, ?_, ?_, ?_, killed⟩
    · rw [performed, count, fetched, Nat.add_zero]
    · rw [num, fetched]
      exact h.sum
    · rw [passes, num]
      exact h.numPassed
    · rw [fetched]
      exact h.bound

/-- The loop counts every instruction that it hands on, once in all and once for a hthread, but for
the one that a process is woken up with. It hands on one batch behind the limit at most. When it
kills the processes, so many instructions have been handed on, or so many hthreads have got their
number. -/
theorem loop_limits {ok : Backend → BackendEvent → Prop}
    (small : max (d.ptsProcesses.length - 1) (cfg.maxTotalInstrs + 31) < 2 ^ 64)
    (run : Run cfg d ok s) :
    s.performed.countP (fun e => e.2.isInstruction) = s.fetched ∧
      ∑ h ∈ Finset.range d.htidToPid.length,
      s.numFetchedInstrs h + (d.ptsProcesses.length - 1) = s.fetched ∧
      s.fetched ≤ max (d.ptsProcesses.length - 1) (cfg.maxTotalInstrs + 31) ∧
      s.numThPassedInstrCount = (passed cfg d s.numFetchedInstrs).card ∧
      ∀ i, (s.mail.procs i).pc = .killed →
        cfg.maxTotalInstrs ≤ s.fetched ∨ d.numHthreads ≤ s.numThPassedInstrCount := by
  have counted : Counted cfg d s := by
    refine run.keeps (I := Counted cfg d) (fun s started => counted_start started)
      (fun s e mail ih _ last hm => ?_) fun s r s' ops next ih _ served => ih.serve small served
    refine ⟨ih.instructions, ih.sum, ih.numPassed, ih.bound, fun i dead => ?_⟩
    by_cases kill : e = .kill
    · exact last kill
    · exact ih.killed i ((Mailboxes.step_moves hm).2 kill i dead)
  exact ⟨counted.instructions, counted.sum, counted.bound, counted.numPassed, counted.killed⟩

theorem twoStores_killed : ∃ q, play twoStores = .ok q ∧
    max (q.1.ptsProcesses.length - 1) (twoHthreads.maxTotalInstrs + 31) < 2 ^ 64 ∧
    (q.2.mail.procs 0).pc = .killed ∧ q.2.fetched = 3 := Meets.result (by decide +kernel)

/-- Both hthreads have got their one instruction, and three instructions have been handed on. -/
theorem loop_limits_of_stores : ∃ q, play twoStores = .ok q ∧ (q.2.mail.procs 0).pc = .killed ∧
    q.2.performed.countP (fun e => e.2.isInstruction) = 3 ∧
    (3 ≤ q.2.fetched ∨ q.1.numHthreads ≤ q.2.numThPassedInstrCount) := by
  obtain ⟨q, hq, small, killed, fetched⟩ := twoStores_killed
  obtain ⟨instructions, -, -, -, limit⟩ := loop_limits small (play_run hq).2
  exact ⟨q, hq, killed, instructions.trans fetched, limit 0 killed⟩

end Backend
end McSim.Pthread
