import Znu.Sched.Frame

/-! # The process table

No process is in the table twice, `process_count` counts the entries, pids are distinct, and
`current_process_index` is the slot of the current process if it is any.
-/

namespace Znu.Sched

open Machine Kernel Lib Function State Finset Option Nat

variable {frame : Frame} {regs : Option Frame} {s : State} {t : Thread}

namespace State

variable {s' : State} {p q : Ptr} {i : Slot} {f : Thread → Thread}

/-- The number of entries that are not `NULL`. -/
def occupied (s : State) : Nat := (univ.filter fun i => (s.processes i).isSome).card

structure Inv (s : State) : Prop where
  once : ∀ i j p, s.processes i = some p → s.processes j = some p → i = j
  count : s.processCount = s.occupied
  listed : ∀ i p, s.processes i = some p → p ∈ s.allocated
  idle : s.idleProcess ∈ s.allocated
  below : ∀ p ∈ s.allocated, (s.threads p).pid.toNat < s.nextPid.toNat
  distinct : ∀ p ∈ s.allocated, ∀ q ∈ s.allocated, (s.threads p).pid = (s.threads q).pid → p = q
  index : ∀ i, s.currentProcessIndex = some i → ∃ p, s.currentProcess = some p ∧ s.processes i = some p

lemma occupied_add (free : s.processes i = none) :
    (univ.filter fun j => (update s.processes i (some p) j).isSome).card = s.occupied + 1 := by
  have grown : (univ.filter fun j => (update s.processes i (some p) j).isSome) =
      insert i (univ.filter fun j => (s.processes j).isSome) := by
    ext j
    by_cases here : j = i <;> simp [here]
  rw [grown, card_insert_of_notMem (by simp [free]), occupied]

lemma occupied_remove (taken : s.processes i = some p) :
    (univ.filter fun j => (update s.processes i none j).isSome).card + 1 = s.occupied := by
  have shrunk : (univ.filter fun j => (update s.processes i none j).isSome) =
      (univ.filter fun j => (s.processes j).isSome).erase i := by
    ext j
    by_cases here : j = i <;> simp [here]
  rw [shrunk, card_erase_add_one (by simp [taken]), occupied]

namespace Inv

/-- The invariant depends on the pids only. -/
lemma of_pids (inv : s.Inv) {R : Thread → Thread → Prop} (kept : Kept R s s')
    (pids : ∀ t t', R t t' → t'.pid = t.pid) : s'.Inv where
  once := by
    rw [kept.processes]
    exact inv.once
  count := by
    rw [kept.processCount, inv.count, occupied, occupied, kept.processes]
  listed := by
    rw [kept.processes, kept.allocated]
    exact inv.listed
  idle := by
    rw [kept.idle, kept.allocated]
    exact inv.idle
  below p inside := by
    rw [kept.allocated] at inside
    rw [pids _ _ (kept.threads p inside), kept.nextPid]
    exact inv.below p inside
  distinct p inside q inside' same := by
    rw [kept.allocated] at inside inside'
    rw [pids _ _ (kept.threads p inside), pids _ _ (kept.threads q inside')] at same
    exact inv.distinct p inside q inside' same
  index := by
    rw [kept.index, kept.current, kept.processes]
    exact inv.index

lemma mildly (inv : s.Inv) (mildly : Mildly s s') : s'.Inv :=
  inv.of_pids mildly fun _ _ mild => mild.pid

section

variable (inv : s.Inv)

include inv

lemma rethread {threads : Ptr → Thread} (pids : ∀ p, (threads p).pid = (s.threads p).pid) :
    State.Inv { s with threads := threads } :=
  inv.of_pids (R := fun t t' => t'.pid = t.pid)
    ⟨rfl, rfl, rfl, rfl, rfl, rfl, rfl, rfl, rfl, rfl, rfl, rfl, fun p _ => pids p⟩ fun _ _ => id

lemma modify (p : Ptr) (pids : ∀ t, (f t).pid = t.pid) : (s.modify p f).Inv :=
  inv.of_pids (R := fun t t' => t'.pid = t.pid) (Kept.modify (fun _ => rfl) fun _ => pids _) fun _ _ => id

lemma modifyTty (t : TtyId) (g : Tty → Tty) : (s.modifyTty t g).Inv := { inv with }

lemma scribble (free : p ∉ s.allocated) : (s.modify p fun _ => t).Inv :=
  inv.mildly (Kept.modify Mild.refl fun inside => absurd inside free)

lemma kthreadSleepMs (ms : Nat) : (s.kthreadSleepMs ms).Inv := by
  rw [State.kthreadSleepMs]
  split
  · exact inv
  rename_i p _
  split
  · exact inv.modify p fun _ => rfl
  · exact inv

lemma kthreadExit (code : CInt) : (s.kthreadExit code).Inv := by
  rw [State.kthreadExit]
  split
  · exact inv
  rename_i p _
  have ended := inv.modify p (f := fun t => { t with state := .zombie, exitCode := code }) fun _ => rfl
  simp only
  split
  · exact ended
  next parent _ => exact ended.modify parent fun t => by split <;> rfl

lemma ttyBlock (t : TtyId) : (s.ttyBlock t).Inv := by
  rw [State.ttyBlock]
  split
  · exact inv
  next p _ => exact (inv.modifyTty t _).modify p fun _ => rfl

lemma ttyInputChar (t : TtyId) (c : UInt8) : (s.ttyInputChar t c).Inv := by
  obtain ⟨ttys, threads, same, mild⟩ := ttyInputChar_threads s t c
  rw [same]
  exact { inv.rethread fun p => (mild p).pid with }

lemma exec (image : Image) : (s.exec image).Inv := by
  rw [State.exec]
  split
  · exact inv
  next p _ => exact { inv.modify p (f := populate image s.fpu) fun _ => rfl with }

lemma setFs (addr : Word) : (s.setFs addr).Inv := by
  rw [State.setFs]
  split
  · exact { inv with }
  · exact inv

lemma setRunning (p : Ptr) : (s.setRunning p).Inv := inv.modify p fun _ => rfl

lemma saveFpu : s.saveFpu.Inv := by
  rw [State.saveFpu]
  split
  · exact inv
  rename_i old _
  split
  · exact inv
  · exact inv.modify old fun _ => rfl

lemma switchSpace (next : Ptr) : (s.switchSpace next).Inv := by
  rw [switchSpace_eq]
  exact { inv with }

lemma addProcess (inside : p ∈ s.allocated) : (s.addProcess p).1.Inv := by
  rw [State.addProcess]
  split
  · exact inv
  rename_i missing
  split
  · exact inv
  rename_i i found
  have free := processTableFindFreeSlot_some found
  have absent := processTableFind_none missing
  refine { inv with
    once := fun j k q atJ atK => ?_
    count := ?_
    listed := fun j q atJ => ?_
    index := fun j isJ => ?_ }
  · by_cases hereJ : j = i <;> by_cases hereK : k = i
    · rw [hereJ, hereK]
    · simp only [hereJ, update_self, update_of_ne hereK] at atJ atK
      exact absurd (atJ ▸ atK) (absent k)
    · simp only [hereK, update_self, update_of_ne hereJ] at atJ atK
      exact absurd (atK ▸ atJ) (absent j)
    · simp only [update_of_ne hereJ, update_of_ne hereK] at atJ atK
      exact inv.once j k q atJ atK
  · simp only [occupied, occupied_add free]
    rw [inv.count]
    rfl
  · by_cases here : j = i
    · simp only [here, update_self, some.injEq] at atJ
      exact atJ ▸ inside
    · simp only [update_of_ne here] at atJ
      exact inv.listed j q atJ
  · obtain ⟨q, isCurrent, atJ⟩ := inv.index j isJ
    have other : j ≠ i := fun here => by
      rw [here, free] at atJ
      cases atJ
    refine ⟨q, isCurrent, ?_⟩
    simp only [update_of_ne other]
    exact atJ

lemma processRemove (p : Ptr) : (s.processRemove p).Inv ∧ ∀ i, (s.processRemove p).processes i ≠ some p := by
  rw [State.processRemove]
  split
  next missing => exact ⟨inv, processTableFind_none missing⟩
  rename_i i found
  have taken := processTableFind_some found
  have shrunk := occupied_remove taken
  have kept : ∀ {j q}, update s.processes i none j = some q → j ≠ i ∧ s.processes j = some q := by
    intro j q atJ
    by_cases here : j = i
    · rw [here, update_self] at atJ
      cases atJ
    · rw [update_of_ne here] at atJ
      exact ⟨here, atJ⟩
  refine ⟨{ inv with
    once := fun j k q atJ atK => ?_
    count := ?_
    listed := fun j q atJ => ?_
    index := fun j isJ => ?_ }, fun j atJ => ?_⟩
  · exact inv.once j k q (kept atJ).2 (kept atK).2
  · have count := inv.count
    have positive : 0 < s.processCount := by omega
    simp only [occupied, if_pos positive]
    omega
  · exact inv.listed j q (kept atJ).2
  · simp only at isJ
    split at isJ
    · cases isJ
    rename_i other
    obtain ⟨q, isCurrent, atJ⟩ := inv.index j isJ
    have elsewhere : j ≠ i := fun here => other (here ▸ isJ)
    refine ⟨q, isCurrent, ?_⟩
    simp only [update_of_ne elsewhere]
    exact atJ
  · exact (kept atJ).1 (inv.once j i p (kept atJ).2 taken)

lemma processDestroy (gone : ∀ i, s.processes i ≠ some p) : (s.processDestroy p).Inv := by
  rw [State.processDestroy]
  split
  · exact inv
  rename_i other
  refine { inv with
    listed := fun i q atI => mem_erase.mpr ⟨?_, inv.listed i q atI⟩
    idle := mem_erase.mpr ⟨Ne.symm other, inv.idle⟩
    below := fun q inside => inv.below q (mem_of_mem_erase inside)
    distinct := fun q inside q' inside' =>
      inv.distinct q (mem_of_mem_erase inside) q' (mem_of_mem_erase inside') }
  exact fun here => gone i (here ▸ atI)

lemma allocate (fresh : s.Fresh p) (pid : t.pid = s.nextPid) :
    ({ s with nextPid := s.nextPid + 1 }.allocate p t).Inv := by
  obtain ⟨free, room⟩ := fresh
  have next : (s.nextPid + 1).toNat = s.nextPid.toNat + 1 := by
    exact mod_eq_of_lt room
  have old : ∀ q ∈ s.allocated, update s.threads p t q = s.threads q := by
    intro q inside
    exact update_of_ne (ne_of_mem_of_not_mem inside free) ..
  have pids : ∀ q ∈ s.allocated, (update s.threads p t q).pid ≠ s.nextPid := by
    intro q inside same
    have below := inv.below q inside
    rw [old q inside] at same
    rw [same] at below
    exact lt_irrefl _ below
  refine { inv with
    listed := fun i q atI => mem_insert_of_mem (inv.listed i q atI)
    idle := mem_insert_of_mem inv.idle
    below := fun q inside => ?_
    distinct := fun q inside q' inside' same => ?_ }
  · simp only [State.allocate, next]
    rcases mem_insert.mp inside with rfl | inside
    · rw [update_self, pid]
      exact lt_succ_self _
    · rw [old q inside]
      exact (inv.below q inside).trans (lt_succ_self _)
  · simp only [State.allocate] at same
    rcases mem_insert.mp inside with here | inside <;> rcases mem_insert.mp inside' with here' | inside'
    · exact here.trans here'.symm
    · rw [here, update_self, pid] at same
      exact absurd same.symm (pids q' inside')
    · rw [here', update_self, pid] at same
      exact absurd same (pids q inside)
    · rw [old q inside, old q' inside'] at same
      exact inv.distinct q inside q' inside' same

lemma skipPid (room : s.nextPid.toNat + 1 < 2 ^ 64) : Inv { s with nextPid := s.nextPid + 1 } := by
  refine { inv with below := fun p inside => (inv.below p inside).trans ?_ }
  exact (lt_succ_self _).trans_eq (mod_eq_of_lt room).symm

lemma switchTo {next : Ptr} (listed : s.processes i = some next) : (s.switchTo i next).Inv := by
  have same := (inv.saveFpu.switchSpace next).setRunning next
  refine { same with index := fun j isJ => ⟨next, rfl, ?_⟩ }
  cases isJ
  exact (switchTo_processes i next).symm ▸ listed

end

lemma outcome (inv : s.Inv) (outcome : Outcome s regs s' frame) : s'.Inv := by
  cases outcome with
  | nothing _ => exact inv
  | stay old => exact inv.setRunning old
  | idle => exact { inv with index := fun j isJ => by cases isJ }
  | same i next frame _ listed _ isCurrent =>
    have same := inv.setRunning next
    refine { same with index := fun j isJ => ⟨next, isCurrent, ?_⟩ }
    cases isJ
    exact listed
  | switch i next _ listed => exact inv.switchTo listed

section

variable (inv : s.Inv)

include inv

lemma scheduler (done : s.scheduler regs = some (s', frame)) : s'.Inv :=
  (inv.mildly (.prepared s regs)).outcome (schedule_outcome done)

lemma endProcess (p : Ptr) (code : CInt) : (s.endProcess p code).Inv := by
  obtain ⟨threads, same, mild⟩ := endProcess_threads s p code
  rw [same]
  have ended := (inv.modify p (f := fun t => { t with exitCode := code, state := .zombie })
    fun _ => rfl).rethread fun q => (mild q).elim fun _ mild => mild.pid
  exact { ended with index := fun j isJ => by cases isJ }

lemma doWait (pid : CInt) (status : Word) : (s.doWait pid status).1.Inv := by
  rw [State.doWait]
  split
  · exact inv
  rename_i parent _
  split
  next child _ =>
    obtain ⟨removed, gone⟩ := inv.processRemove child
    exact (removed.processDestroy gone).modify parent fun _ => rfl
  · split
    · exact inv.modify parent (f := beginWait pid) fun _ => rfl
    · exact inv

lemma createProcessFromElf (fresh : s.Fresh p) (image : Image) (loaded : Bool) :
    (s.createProcessFromElf p image loaded).Inv := by
  have skipped := inv.skipPid fresh.2
  cases loaded with
  | false => exact { skipped with }
  | true => exact { inv.allocate fresh (t := { System.createProcess s.currentPid s.nextPid
      image.kstack image.entry image.stack with
        pml4 := image.pml4, isKthread := false, waitChannel := none
        sseState := initFpu s.fpu, tlsBase := image.tlsBase }) rfl with }

lemma cloneProcess (fresh : s.Fresh p) (src : Ptr) (regs : Frame) (copy : Option Copy) :
    (s.cloneProcess src p regs copy).Inv := by
  rw [State.cloneProcess]
  split
  · exact inv
  cases copy with
  | none => exact inv.skipPid fresh.2
  | some copy => exact (inv.allocate fresh rfl).addProcess (mem_insert_self p _)

lemma startInit (inside : p ∈ s.allocated) (isNone : s.currentProcess = none) : (s.startInit p).Inv := by
  have added := (inv.addProcess inside).setRunning p
  refine { added with index := fun j isJ => ?_ }
  obtain ⟨q, isCurrent, -⟩ := inv.index j (by
    rw [← isJ]
    simp only [State.startInit, State.addProcess, State.vmmSwitch, State.setRunning, State.modify]
    split
    · rfl
    split <;> rfl)
  cases isNone.symm.trans isCurrent

end

end Inv

end State

lemma Step.inv {s' : State} {e : Op} (inv : s.Inv) (step : Step s e s') : s'.Inv := by
  cases step.stepped with
  | addProcess inside => exact inv.addProcess inside
  | createProcessFromElf fresh => exact inv.createProcessFromElf fresh _ _
  | startInit isNone inside => exact inv.startInit inside isNone
  | kthreadCreate fresh => exact (inv.allocate fresh rfl).addProcess (mem_insert_self _ _)
  | cloneProcess fresh => exact inv.cloneProcess fresh _ _ _
  | @scheduler tick _ _ _ done => exact (inv.mildly (.ticked s tick)).scheduler done
  | doWait => exact inv.doWait _ _
  | @doExit q code _ _ _ done => exact (inv.endProcess q code).scheduler done
  | kthreadSleepMs => exact inv.kthreadSleepMs _
  | @kthreadWake p => exact inv.mildly (.kthreadWake s p)
  | kthreadExit => exact inv.kthreadExit _
  | @raise p signum => exact inv.mildly (.raise s p signum)
  | ttyBlock => exact inv.ttyBlock _
  | ttyGet | ttySet => exact inv.modifyTty _ _
  | ttyInputChar => exact inv.ttyInputChar _ _
  | exec => exact inv.exec _
  | setFs => exact inv.setFs _
  | compute => exact { inv with }
  | scribble free => exact inv.scribble free

lemma State.Booted.inv (booted : s.Booted) (idle : Ptr) (kstack loop : Word) :
    (s.initScheduler idle kstack loop).Inv where
  once i j p atI := by cases atI
  count := by simp [initScheduler, occupied]
  listed i p atI := by cases atI
  idle := mem_insert_self idle _
  below p inside := by
    simp only [initScheduler, booted.empty, mem_insert, notMem_empty, or_false] at inside
    simp only [initScheduler, inside, update_self, booted.first]
    exact one_pos
  distinct p inside q inside' _ := by
    simp only [initScheduler, booted.empty, mem_insert, notMem_empty, or_false] at inside inside'
    rw [inside, inside']
  index i isI := by cases isI

/-- What the table promises. -/
structure State.TableOk (s : State) : Prop where
  once : ∀ i j p, s.processes i = some p → s.processes j = some p → i = j
  count : s.processCount = s.occupied
  pids : ∀ i j p q, s.processes i = some p → s.processes j = some q →
    (s.threads p).pid = (s.threads q).pid → p = q
  index : s.currentProcessIndex = none ∨
    ∃ i p, s.currentProcessIndex = some i ∧ s.currentProcess = some p ∧ s.processes i = some p

lemma State.Inv.tableOk (inv : s.Inv) : s.TableOk where
  once := inv.once
  count := inv.count
  pids i j p q atI atJ := inv.distinct p (inv.listed i p atI) q (inv.listed j q atJ)
  index := by
    cases isIndex : s.currentProcessIndex with
    | none => exact .inl rfl
    | some i =>
      obtain ⟨p, isCurrent, atI⟩ := inv.index i isIndex
      exact .inr ⟨i, p, rfl, isCurrent, atI⟩

/-- The table is as promised after every call in every run. -/
theorem process_table_ok {s s' : State} {idle : Ptr} {kstack loop : Word} {es : List Op}
    (booted : s.Booted) (run : Run Step (s.initScheduler idle kstack loop) es s') : s'.TableOk :=
  (run.invariant (fun _ _ _ inv step => Step.inv inv step) (booted.inv idle kstack loop)).tableOk

/-- The first process forks, its child exits, and the slot is free again. -/
def forkExitWait : List Op :=
  [.createProcessFromElf 2 ⟨0x400000, 0x7fff0000, 0x8000, 0x2000, 0⟩ true, .startInit 2,
    .cloneProcess 2 3 zeroFrame (some ⟨0x3000, 0x10000⟩), .scheduler true zeroFrame,
    .scheduler true zeroFrame, .doExit 7, .doWait (-1) 0, .addProcess 2]

theorem reaped_table_ok :
    ∃ s, Run Step (State.blank.initScheduler 1 0x4000 0) forkExitWait s ∧ s.TableOk := by
  obtain ⟨s, run, -⟩ := run_of_check (blank.initScheduler 1 0x4000 0) forkExitWait
    (fun _ => true) (by decide +kernel)
  exact ⟨s, run, process_table_ok blank_booted run⟩

end Znu.Sched
