import RecoverOs.Fs.Bio
import RecoverOs.Logic.Interference

namespace RecoverOs.Fs

open Bytes Transition Interference Device

variable {τ : Type} [DecidableEq τ]

/-- How an action may fail to go on: its caller sleeps on a taken lock or for an interrupt that is still expected, or
    `busy_wait` has reached its limit. -/
def Waits (s : Ide τ) : Act → Halt → Prop
  | .down .lock, .refused => s.lock = 0
  | .down .diskDone, .refused => s.expectingIntr = true
  | .busyWait timeLimit, .panic => timeLimit = 1
  | _, _ => False

structure Traced (τ : Type) where
  ide : Ide τ
  owner : Option τ
  spec : BlockDisks τ

def ownerAfter (t : τ) (owner : Option τ) : Act → Option τ
  | .down .lock => some t
  | .up .lock => none
  | _ => owner

/-- A read takes effect when it gets the sectors, a modification when it gives them back. -/
def commitsAt : Act → Bool → Bool
  | .port (.insw _ _ _), false => true
  | .port (.outsw _ _ _), true => true
  | _, _ => false

def specAfter (t : τ) (i : Act) (spec : BlockDisks τ) : BlockDisks τ :=
  match spec.pending t with
  | .called r => if commitsAt i r.modify then spec.commit t r else spec
  | _ => spec

def tracedAct (hd : HD) (t : τ) (i : Act) (s : Traced τ) : Except Halt (List Act × Traced τ) := do
  let (more, ide) ← act hd t i s.ide
  return (more, { ide := ide, owner := ownerAfter t s.owner i, spec := specAfter t i s.spec })

def Pending.isCalled : Pending → Bool
  | .called _ => true
  | _ => false

def PendingApart (pending : τ → Pending) : Prop :=
  ∀ t u r other, t ≠ u → pending t = .called r → pending u = .called other → r.modify = true → other.modify = true →
    r.slave = other.slave → r.bid ≠ other.bid

structure Glob (s : Traced τ) : Prop where
  disk : ∀ slave bid i, i < blockSize → s.spec.disk slave bid i = s.ide.media slave (blockSize * bid + i)
  free : s.owner = none → s.ide.lock = 1 ∧ s.ide.busy = false ∧ s.ide.expectingIntr = false ∧ s.ide.diskDone = 0
  taken : ∀ t, s.owner = some t → s.ide.lock = 0
  expecting : s.ide.expectingIntr = true → s.ide.diskDone = 0
  apart : PendingApart s.spec.pending

def Signal (s s' : Ide τ) : Prop :=
  (s'.expectingIntr = s.expectingIntr ∧ s'.diskDone = s.diskDone) ∨
    (s.expectingIntr = true ∧ s'.expectingIntr = false ∧ s'.diskDone = s.diskDone + 1)

/-- The others leave the holder of the lock alone with the drive, and a block that is being modified unchanged. -/
structure Rely (t : τ) (s s' : Traced τ) : Prop where
  iobuf : s'.ide.iobuf t = s.ide.iobuf t
  buf : s'.ide.buf t = s.ide.buf t
  pending : s'.spec.pending t = s.spec.pending t
  glob : Glob s → Glob s'
  held : s.owner = some t → s'.owner = some t ∧ s'.ide.regs = s.ide.regs ∧
    (s'.ide.busy = true → s.ide.busy = true) ∧ Signal s.ide s'.ide
  kept : Glob s → ∀ r, s.spec.pending t = .called r → r.modify = true → ∀ i, i < blockSize →
    s'.ide.media r.slave (blockSize * r.bid + i) = s.ide.media r.slave (blockSize * r.bid + i)

omit [DecidableEq τ] in
theorem Signal.trans {r s s' : Ide τ} (first : Signal r s) (second : Signal s s') : Signal r s' := by
  unfold Signal at *
  grind

omit [DecidableEq τ] in
theorem Rely.refl (t : τ) (s : Traced τ) : Rely t s s where
  iobuf := rfl
  buf := rfl
  pending := rfl
  glob := id
  held := fun own => ⟨own, rfl, id, .inl ⟨rfl, rfl⟩⟩
  kept := fun _ _ _ _ _ _ => rfl

omit [DecidableEq τ] in
theorem Rely.trans {t : τ} {r s s' : Traced τ} (first : Rely t r s) (second : Rely t s s') : Rely t r s' := by
  constructor
  case iobuf => rw [second.iobuf, first.iobuf]
  case buf => rw [second.buf, first.buf]
  case pending => rw [second.pending, first.pending]
  case glob => exact fun glob => second.glob (first.glob glob)
  case held =>
    intro own
    obtain ⟨still, regs, busy, signal⟩ := first.held own
    obtain ⟨last, regs', busy', signal'⟩ := second.held still
    exact ⟨last, regs'.trans regs, fun more => busy (busy' more), signal.trans signal'⟩
  case kept =>
    intro glob request called modify i inside
    have still : s.spec.pending t = .called request := first.pending.trans called
    rw [second.kept (first.glob glob) request still modify i inside, first.kept glob request called modify i inside]

def channelTasks (τ : Type) [DecidableEq τ] (hd : HD) : Setting (Traced τ) τ Act Halt where
  act := tracedAct hd
  rely := Rely
  guar := fun t s s' => Glob s' ∧ ∀ u, u ≠ t → Rely u s s'
  may := fun i s halt => Waits s.ide i halt
  refl := Rely.refl
  trans := fun _ _ _ _ first second => first.trans second
  compatible := fun _ u _ _ other guar => guar.2 u other

def Signalled (armed : Bool) (s : Ide τ) : Prop :=
  if armed then (s.expectingIntr = true ∧ s.diskDone = 0) ∨ (s.expectingIntr = false ∧ s.diskDone = 1)
  else s.expectingIntr = false ∧ s.diskDone = 0

/-- A task in its call, and the bytes `block` of the block that it modifies. -/
structure Calling (t : τ) (p : Pending) (io b block : Buffer) (s : Traced τ) : Prop where
  pending : s.spec.pending t = p
  iobuf : s.ide.iobuf t = io
  buf : s.ide.buf t = b
  glob : Glob s
  kept : ∀ r, p = .called r → r.modify = true → ∀ i, i < blockSize →
    s.ide.media r.slave (blockSize * r.bid + i) = block i

structure Holding (t : τ) (regs : Channel) (ready armed : Bool) (p : Pending) (io b block : Buffer) (s : Traced τ) :
    Prop extends Calling t p io b block s where
  owner : s.owner = some t
  regs : s.ide.regs = regs
  ready : ready = true → s.ide.busy = false
  signal : Signalled armed s.ide

variable {t : τ} {p : Pending} {io b block : Buffer} {s s' : Traced τ} {regs : Channel} {ready armed : Bool}
  {hd : HD} {goal : Traced τ → Prop} {acts : List Act}

omit [DecidableEq τ] in
theorem Signalled.after (before : Signalled armed s.ide) (signal : Signal s.ide s'.ide) : Signalled armed s'.ide := by
  unfold Signalled Signal at *
  cases armed <;> grind

omit [DecidableEq τ] in
theorem Calling.stable (calling : Calling t p io b block s) (rely : Rely t s s') : Calling t p io b block s' := by
  constructor
  case pending => rw [rely.pending, calling.pending]
  case iobuf => rw [rely.iobuf, calling.iobuf]
  case buf => rw [rely.buf, calling.buf]
  case glob => exact rely.glob calling.glob
  case kept =>
    intro r called modify i inside
    have pending : s.spec.pending t = .called r := calling.pending.trans called
    rw [rely.kept calling.glob r pending modify i inside]
    exact calling.kept r called modify i inside

omit [DecidableEq τ] in
theorem Holding.stable (holding : Holding t regs ready armed p io b block s) (rely : Rely t s s') :
    Holding t regs ready armed p io b block s' := by
  obtain ⟨owner, same, busy, signal⟩ := rely.held holding.owner
  refine ⟨holding.toCalling.stable rely, owner, same.trans holding.regs, ?_, holding.signal.after signal⟩
  intro idle
  have before := holding.ready idle
  cases now : s'.ide.busy with
  | false => rfl
  | true =>
    rw [busy now] at before
    cases before

omit [DecidableEq τ] in
/-- What the holder of the lock does is nothing to the others unless it writes on the drive. -/
theorem rely_of_owner {u : τ} (own : s.owner = some t) (other : u ≠ t) (iobuf : s'.ide.iobuf u = s.ide.iobuf u)
    (buf : s'.ide.buf u = s.ide.buf u) (pending : s'.spec.pending u = s.spec.pending u) (glob : Glob s')
    (kept : Glob s → ∀ r, s.spec.pending u = .called r → r.modify = true → ∀ i, i < blockSize →
      s'.ide.media r.slave (blockSize * r.bid + i) = s.ide.media r.slave (blockSize * r.bid + i)) : Rely u s s' where
  iobuf := iobuf
  buf := buf
  pending := pending
  glob := fun _ => glob
  held := fun theirs => absurd (Option.some.inj (theirs.symm.trans own)) other
  kept := kept

theorem specAfter_quiet {i : Act} (none : ∀ modify, commitsAt i modify = false) (spec : BlockDisks τ) :
    specAfter t i spec = spec := by
  unfold specAfter
  split
  · rw [none, if_neg Bool.false_ne_true]
  · rfl

theorem safe_quiet {i : Act}
    (stops : ∀ s halt, Holding t regs ready armed p io b block s → act hd t i s.ide = .error halt → Waits s.ide i halt)
    (moves : ∀ s more ide, Holding t regs ready armed p io b block s → act hd t i s.ide = .ok (more, ide) →
      ide.media = s.ide.media ∧ ide.iobuf = s.ide.iobuf ∧ ide.buf = s.ide.buf ∧ ide.lock = s.ide.lock ∧
        ∃ ready' armed', (ready' = true → ide.busy = false) ∧ Signalled armed' ide ∧
          ∀ s, Holding t ide.regs ready' armed' p io b block s → Safe (channelTasks τ hd) t goal (more ++ acts) s)
    (still : ∀ u : Option τ, ownerAfter t u i = u) (none : ∀ modify, commitsAt i modify = false)
    (start : Holding t regs ready armed p io b block s) : Safe (channelTasks τ hd) t goal (i :: acts) s := by
  refine Safe.of_assertion (fun _ _ holding rely => Holding.stable holding rely) ?_ ?_ start
  · intro s halt holding failed
    apply stops s halt holding
    simp only [channelTasks, tracedAct, bind_error] at failed
    obtain stopped | ⟨_, _, other⟩ := failed
    · exact stopped
    · cases other
  · intro s more after holding ran
    simp only [channelTasks, tracedAct, bind_ok, pure_ok, Prod.exists, Prod.mk.injEq] at ran
    obtain ⟨_, ide, done, rfl, rfl⟩ := ran
    obtain ⟨media, iobuf, buf, lock, ready', armed', idle, signal, next⟩ := moves s _ ide holding done
    rw [specAfter_quiet none, still]
    have glob : Glob { ide := ide, owner := s.owner, spec := s.spec } := by
      constructor
      case disk =>
        intro slave bid i inside
        show _ = ide.media _ _
        rw [media]
        exact holding.glob.disk slave bid i inside
      case free =>
        intro free
        rw [holding.owner] at free
        cases free
      case taken =>
        intro u owner
        exact lock.trans (holding.glob.taken u owner)
      case expecting =>
        show ide.expectingIntr = true → ide.diskDone = 0
        unfold Signalled at signal
        cases armed' <;> grind
      case apart => exact holding.glob.apart
    refine ⟨⟨glob, ?_⟩, ?_⟩
    · intro u other
      exact rely_of_owner holding.owner other (congrFun iobuf u) (congrFun buf u) rfl glob
        fun _ r _ _ i _ => congrFun (congrFun media r.slave) _
    · apply next
      refine ⟨⟨holding.pending, (congrFun iobuf t).trans holding.iobuf, (congrFun buf t).trans holding.buf, glob, ?_⟩,
        holding.owner, rfl, idle, signal⟩
      intro r called modify i inside
      show ide.media _ _ = _
      rw [media]
      exact holding.kept r called modify i inside

theorem act_outb {s : Ide τ} (idle : s.busy = false) (port : Nat) (value : UInt8) :
    act hd t (.port (.outb port value)) s = .ok ([], { s with
      regs := (s.regs.step (portBase hd) (.outb port value)).1
      busy := decide (port = regCmd hd) }) := by
  simp only [act, portAccess, idle]
  rfl

theorem safe_outb {port : Nat} {value : UInt8} (register : port ≠ regCmd hd)
    (next : ∀ s, Holding t (regs.step (portBase hd) (.outb port value)).1 true armed p io b block s →
      Safe (channelTasks τ hd) t goal acts s)
    (start : Holding t regs true armed p io b block s) :
    Safe (channelTasks τ hd) t goal (.port (.outb port value) :: acts) s := by
  refine safe_quiet ?_ ?_ (fun _ => rfl) (fun _ => rfl) start
  · intro s halt holding failed
    rw [act_outb (holding.ready rfl)] at failed
    cases failed
  · intro s more ide holding ran
    rw [act_outb (holding.ready rfl)] at ran
    cases ran
    refine ⟨rfl, rfl, rfl, rfl, true, armed, fun _ => decide_eq_false register, holding.signal, ?_⟩
    rw [holding.regs]
    exact next

theorem safe_command {cmd : UInt8}
    (next : ∀ s, Holding t { regs with command := some cmd } false armed p io b block s →
      Safe (channelTasks τ hd) t goal acts s)
    (start : Holding t regs true armed p io b block s) :
    Safe (channelTasks τ hd) t goal (.port (.outb (regCmd hd) cmd) :: acts) s := by
  refine safe_quiet ?_ ?_ (fun _ => rfl) (fun _ => rfl) start
  · intro s halt holding failed
    rw [act_outb (holding.ready rfl)] at failed
    cases failed
  · intro s more ide holding ran
    rw [act_outb (holding.ready rfl)] at ran
    cases ran
    refine ⟨rfl, rfl, rfl, rfl, false, armed, fun no => absurd no Bool.false_ne_true, holding.signal, ?_⟩
    rw [holding.regs]
    have given : (regs.step (portBase hd) (.outb (regCmd hd) cmd)).1 = { regs with command := some cmd } := by
      simp [Channel.step, regCmd]
    rw [given]
    exact next

theorem safe_expectIntr
    (next : ∀ s, Holding t regs ready true p io b block s → Safe (channelTasks τ hd) t goal acts s)
    (start : Holding t regs ready false p io b block s) :
    Safe (channelTasks τ hd) t goal (.expectIntr :: acts) s := by
  refine safe_quiet ?_ ?_ (fun _ => rfl) (fun _ => rfl) start
  · intro s halt holding failed
    cases failed
  · intro s more ide holding ran
    cases ran
    refine ⟨rfl, rfl, rfl, rfl, ready, true, holding.ready, .inl ⟨rfl, holding.signal.2⟩, ?_⟩
    rw [show s.ide.regs = regs from holding.regs]
    exact next

theorem safe_diskDone
    (next : ∀ s, Holding t regs ready false p io b block s → Safe (channelTasks τ hd) t goal acts s)
    (start : Holding t regs ready true p io b block s) :
    Safe (channelTasks τ hd) t goal (.down .diskDone :: acts) s := by
  have came : ∀ s : Traced τ, Holding t regs ready true p io b block s → s.ide.diskDone ≠ 0 →
      s.ide.expectingIntr = false ∧ s.ide.diskDone = 1 := by
    intro s holding some_left
    obtain expected | came := holding.signal
    · exact absurd expected.2 some_left
    · exact came
  refine safe_quiet ?_ ?_ (fun _ => rfl) (fun _ => rfl) start
  · intro s halt holding failed
    by_cases zero : s.ide.diskDone = 0
    · have expected : s.ide.expectingIntr = true := by
        obtain expected | came := holding.signal
        · exact expected.1
        · omega
      simp only [act, downValue, zero] at failed
      cases failed
      exact expected
    · simp only [act, downValue, (came s holding zero).2] at failed
      cases failed
  · intro s more ide holding ran
    by_cases zero : s.ide.diskDone = 0
    · simp only [act, downValue, zero] at ran
      cases ran
    · obtain ⟨expecting, one⟩ := came s holding zero
      simp only [act, downValue, one] at ran
      cases ran
      refine ⟨rfl, rfl, rfl, rfl, ready, false, holding.ready, ⟨expecting, rfl⟩, ?_⟩
      rw [show s.ide.regs = regs from holding.regs]
      exact next

theorem safe_busyWait {limit : Nat} (some_left : 0 < limit) (given : regs.command.isSome = true)
    (next : ∀ s, Holding t regs true armed p io b block s → Safe (channelTasks τ hd) t goal acts s)
    (start : Holding t regs ready armed p io b block s) :
    Safe (channelTasks τ hd) t goal (.busyWait limit :: acts) s := by
  induction limit generalizing s with
  | zero => omega
  | succ limit ih =>
    refine safe_quiet ?_ ?_ (fun _ => rfl) (fun _ => rfl) start
    · intro s halt holding failed
      simp only [act, Nat.add_sub_cancel] at failed
      split at failed
      · rename_i last
        cases failed
        exact congrArg Nat.succ last
      · split at failed
        · cases failed
        · rw [holding.regs, given] at failed
          cases failed
    · intro s more ide holding ran
      simp only [act, Nat.add_sub_cancel] at ran
      split at ran
      · cases ran
      · rename_i more_left
        split at ran
        · cases ran
          refine ⟨rfl, rfl, rfl, rfl, ready, armed, holding.ready, holding.signal, ?_⟩
          intro s' later
          rw [holding.regs] at later
          exact ih (by omega) later
        · rename_i idle
          rw [holding.regs, given] at ran
          cases ran
          refine ⟨rfl, rfl, rfl, rfl, true, armed, fun _ => Bool.eq_false_iff.mpr idle, holding.signal, ?_⟩
          rw [holding.regs]
          exact next

theorem safe_outbs {ops : List PortOp}
    (registers : ∀ op ∈ ops, ∃ port value, op = .outb port value ∧ port ≠ regCmd hd)
    (next : ∀ s, Holding t (ops.foldl (fun c op => (c.step (portBase hd) op).1) regs) true armed p io b block s →
      Safe (channelTasks τ hd) t goal acts s)
    (start : Holding t regs true armed p io b block s) : Safe (channelTasks τ hd) t goal (ports ops ++ acts) s := by
  induction ops generalizing regs s with
  | nil => exact next s start
  | cons op ops ih =>
    obtain ⟨port, value, rfl, register⟩ := registers op (List.mem_cons_self ..)
    refine safe_outb register ?_ start
    intro s' later
    exact ih (fun other member => registers other (List.mem_cons_of_mem _ member)) next later

theorem select_registers (hd : HD) (lba : Nat) (secCnt : UInt8) (regs : Channel) :
    (selectDisk hd ++ selectSector hd lba secCnt).foldl (fun c op => (c.step (portBase hd) op).1) regs =
      selected hd lba secCnt regs.command := by
  simp [selectDisk, selectSector, Channel.step, regSectCnt, regLbaL, regLbaM, regLbaH, regDev, selected]

theorem select_outbs (hd : HD) (lba : Nat) (secCnt : UInt8) :
    ∀ op ∈ selectDisk hd ++ selectSector hd lba secCnt, ∃ port value, op = .outb port value ∧ port ≠ regCmd hd := by
  simp [selectDisk, selectSector, regSectCnt, regLbaL, regLbaM, regLbaH, regDev, regCmd]

theorem safe_lock
    (next : ∀ s regs, Holding t regs true false p io b block s → Safe (channelTasks τ hd) t goal acts s)
    (start : Calling t p io b block s) : Safe (channelTasks τ hd) t goal (.down .lock :: acts) s := by
  refine Safe.of_assertion (fun _ _ calling rely => Calling.stable calling rely) ?_ ?_ start
  · intro s halt calling failed
    by_cases zero : s.ide.lock = 0
    · simp only [channelTasks, tracedAct, act, downValue, zero] at failed
      cases failed
      exact zero
    · have free : s.owner = none := by
        cases own : s.owner with
        | none => rfl
        | some u => exact absurd (calling.glob.taken u own) zero
      simp only [channelTasks, tracedAct, act, downValue, (calling.glob.free free).1] at failed
      cases failed
  · intro s more after calling ran
    cases own : s.owner with
    | some u =>
      simp only [channelTasks, tracedAct, act, downValue, calling.glob.taken u own] at ran
      cases ran
    | none =>
      obtain ⟨one, idle, expecting, diskDone⟩ := calling.glob.free own
      simp only [channelTasks, tracedAct, act, downValue, one] at ran
      cases ran
      rw [specAfter_quiet (i := .down .lock) (fun _ => rfl)]
      have glob : Glob { ide := { s.ide with lock := 0 }, owner := some t, spec := s.spec } :=
        ⟨calling.glob.disk, fun free => absurd free (Option.some_ne_none t), fun _ _ => rfl, calling.glob.expecting,
          calling.glob.apart⟩
      refine ⟨⟨glob, ?_⟩, ?_⟩
      · intro u other
        refine ⟨rfl, rfl, rfl, fun _ => glob, ?_, fun _ _ _ _ _ _ => rfl⟩
        intro theirs
        rw [own] at theirs
        cases theirs
      · apply next _ s.ide.regs
        exact ⟨⟨calling.pending, calling.iobuf, calling.buf, glob, calling.kept⟩, rfl, rfl, fun _ => idle,
          expecting, diskDone⟩

theorem safe_unlock (next : ∀ s, Calling t p io b block s → Safe (channelTasks τ hd) t goal acts s)
    (start : Holding t regs true false p io b block s) :
    Safe (channelTasks τ hd) t goal (.up .lock :: acts) s := by
  refine Safe.of_assertion (fun _ _ holding rely => Holding.stable holding rely) ?_ ?_ start
  · intro s halt holding failed
    simp only [channelTasks, tracedAct, act, upValue, holding.glob.taken t holding.owner] at failed
    cases failed
  · intro s more after holding ran
    simp only [channelTasks, tracedAct, act, upValue, holding.glob.taken t holding.owner] at ran
    cases ran
    rw [specAfter_quiet (i := .up .lock) (fun _ => rfl)]
    have glob : Glob { ide := { s.ide with lock := 1 }, owner := none, spec := s.spec } :=
      ⟨holding.glob.disk, fun _ => ⟨rfl, holding.ready rfl, holding.signal⟩,
        fun u owner => absurd owner.symm (Option.some_ne_none u), holding.glob.expecting, holding.glob.apart⟩
    refine ⟨⟨glob, ?_⟩, ?_⟩
    · intro u other
      exact rely_of_owner holding.owner other rfl rfl rfl glob fun _ _ _ _ _ _ => rfl
    · apply next
      exact ⟨holding.pending, holding.iobuf, holding.buf, glob, holding.kept⟩

theorem safe_memcpy {i : Act} {io' b' : Buffer}
    (effect : ∀ s : Ide τ, s.iobuf t = io → s.buf t = b → act hd t i s = .ok ([], { s with
      iobuf := Function.update s.iobuf t io'
      buf := Function.update s.buf t b' }))
    (still : ∀ u : Option τ, ownerAfter t u i = u) (none : ∀ modify, commitsAt i modify = false)
    (next : ∀ s, Calling t p io' b' block s → Safe (channelTasks τ hd) t goal acts s)
    (start : Calling t p io b block s) : Safe (channelTasks τ hd) t goal (i :: acts) s := by
  refine Safe.of_assertion (fun _ _ calling rely => Calling.stable calling rely) ?_ ?_ start
  · intro s halt calling failed
    simp only [channelTasks, tracedAct, effect s.ide calling.iobuf calling.buf] at failed
    cases failed
  · intro s more after calling ran
    simp only [channelTasks, tracedAct, effect s.ide calling.iobuf calling.buf] at ran
    cases ran
    rw [specAfter_quiet none, still]
    have glob := calling.glob
    refine ⟨⟨⟨glob.disk, glob.free, glob.taken, glob.expecting, glob.apart⟩, ?_⟩, ?_⟩
    · intro u other
      refine ⟨Function.update_of_ne other _ _, Function.update_of_ne other _ _, rfl, ?_, ?_, fun _ _ _ _ _ _ => rfl⟩
      · exact fun glob => ⟨glob.disk, glob.free, glob.taken, glob.expecting, glob.apart⟩
      · exact fun own => ⟨own, rfl, id, .inl ⟨rfl, rfl⟩⟩
    · apply next
      exact ⟨calling.pending, Function.update_self .., Function.update_self ..,
        ⟨glob.disk, glob.free, glob.taken, glob.expecting, glob.apart⟩, calling.kept⟩

theorem safe_copyOut {count off : Nat}
    (next : ∀ s, Calling t p io (copy b 0 (fun i => io (off + i)) count) block s →
      Safe (channelTasks τ hd) t goal acts s)
    (start : Calling t p io b block s) : Safe (channelTasks τ hd) t goal (.copyOut count off :: acts) s := by
  refine safe_memcpy ?_ (fun _ => rfl) (fun _ => rfl) next start
  intro s iobuf buf
  rw [act, ← iobuf, ← buf, Function.update_eq_self]

theorem safe_copyIn {count off : Nat}
    (next : ∀ s, Calling t p (copy io off b count) b block s → Safe (channelTasks τ hd) t goal acts s)
    (start : Calling t p io b block s) : Safe (channelTasks τ hd) t goal (.copyIn count off :: acts) s := by
  refine safe_memcpy ?_ (fun _ => rfl) (fun _ => rfl) next start
  intro s iobuf buf
  rw [act, ← iobuf, ← buf, Function.update_eq_self]

def Request.transfer (r : Request) : Transfer where
  slave := r.slave
  sector := r.bid * sectsPerBlock
  count := sectsPerBlock
  addr := 0
  size := blockSize

theorem clipped_eq {count off : Nat} (sum : off + count < 2 ^ 64) :
    clipped count off = if blockSize < off + count then blockSize - off else count := by
  rw [clipped, Nat.mod_eq_of_lt sum]

theorem blockRead_page {disk : Disk} {bid count off : Nat} {page : Buffer} (fits : off ≤ blockSize)
    (sum : off + count < 2 ^ 64) (same : ∀ i, i < blockSize → page i = disk bid i) :
    copy b 0 (fun i => page (off + i)) (clipped count off) = blockRead disk bid b count off := by
  have less : (if blockSize < off + count then blockSize - off else count) ≤ blockSize - off := by split <;> omega
  rw [blockRead, if_neg (by omega), clipped_eq sum]
  generalize (if blockSize < off + count then blockSize - off else count) = n at less
  funext i
  unfold copy
  split
  · show page (off + (i - 0)) = disk bid (off + (i - 0))
    apply same
    omega
  · rfl

theorem moveIn_block (s : Ide τ) (r : Request) : s.moveIn t r.transfer = { s with
    iobuf := Function.update s.iobuf t
      (copy (s.iobuf t) 0 (fun i => s.media r.slave (blockSize * r.bid + i)) blockSize) } := by
  have size : min (512 * r.transfer.count) r.transfer.size = blockSize := rfl
  have sector : 512 * r.transfer.sector = blockSize * r.bid := by
    simp only [Request.transfer, sectsPerBlock, blockSize]
    omega
  rw [Ide.moveIn, size, sector]
  rfl

omit [DecidableEq τ] in
theorem moveOut_block (s : Ide τ) (r : Request) : s.moveOut t r.transfer = { s with
    media := Function.update s.media r.slave
      (copy (s.media r.slave) (blockSize * r.bid) (s.iobuf t) blockSize) } := by
  have size : min (512 * r.transfer.count) r.transfer.size = blockSize := rfl
  have sector : 512 * r.transfer.sector = blockSize * r.bid := by
    simp only [Request.transfer, sectsPerBlock, blockSize]
    omega
  have page : (fun i => s.iobuf t (r.transfer.addr + i)) = s.iobuf t := by
    funext i
    exact congrArg (s.iobuf t) (Nat.zero_add i)
  rw [Ide.moveOut, size, sector, page]
  rfl

theorem act_insw {s : Ide τ} {addr count : Nat} {r : Request} (idle : s.busy = false) (same : s.regs = regs)
    (given : regs.command = some cmdReadSector) (moves : regs.transfer addr (2 * count) = r.transfer) :
    act hd t (.port (.insw (regData hd) addr count)) s = .ok ([], { s with
      regs := { regs with command := none }
      iobuf := Function.update s.iobuf t
        (copy (s.iobuf t) 0 (fun i => s.media r.slave (blockSize * r.bid + i)) blockSize) }) := by
  have stepped : s.regs.step (portBase hd) (.insw (regData hd) addr count) =
      ({ regs with command := none }, some r.transfer) := by
    rw [same, Channel.step, if_pos ⟨rfl, given⟩, moves]
  simp only [act, portAccess, idle, stepped]
  exact congrArg (fun ide => Except.ok ([], ide)) (moveIn_block _ r)

theorem act_outsw {s : Ide τ} {addr count : Nat} {r : Request} (idle : s.busy = false) (same : s.regs = regs)
    (given : regs.command = some cmdWriteSector) (moves : regs.transfer addr (2 * count) = r.transfer) :
    act hd t (.port (.outsw (regData hd) addr count)) s = .ok ([], { s with
      regs := { regs with command := none }
      media := Function.update s.media r.slave
        (copy (s.media r.slave) (blockSize * r.bid) (s.iobuf t) blockSize) }) := by
  have stepped : s.regs.step (portBase hd) (.outsw (regData hd) addr count) =
      ({ regs with command := none }, some r.transfer) := by
    rw [same, Channel.step, if_pos ⟨rfl, given⟩, moves]
  simp only [act, portAccess, idle, stepped]
  exact congrArg (fun ide => Except.ok ([], ide)) (moveOut_block _ r)

theorem called_of_update {f : τ → Pending} {other : Request} {u : τ} (settled : p.isCalled = false)
    (called : Function.update f t p u = .called other) : f u = .called other := by
  by_cases same : u = t
  · rw [same, Function.update_self] at called
    rw [called] at settled
    cases settled
  · rw [Function.update_of_ne same] at called
    exact called

theorem PendingApart.settled {f : τ → Pending} (apart : PendingApart f) (settled : p.isCalled = false) :
    PendingApart (Function.update f t p) := by
  intro u v first second other left right
  exact apart u v first second other (called_of_update settled left) (called_of_update settled right)

theorem safe_insw_read {r : Request} {addr count : Nat} (reads : r.modify = false) (buf : b = r.buf)
    (fits : r.off ≤ blockSize) (sum : r.off + r.count < 2 ^ 64) (given : regs.command = some cmdReadSector)
    (moves : regs.transfer addr (2 * count) = r.transfer)
    (next : ∀ s page result, copy b 0 (fun i => page (r.off + i)) (clipped r.count r.off) = result →
      Holding t { regs with command := none } true false (.done r result) page b block s →
        Safe (channelTasks τ hd) t goal acts s)
    (start : Holding t regs true false (.called r) io b block s) :
    Safe (channelTasks τ hd) t goal (.port (.insw (regData hd) addr count) :: acts) s := by
  refine Safe.of_assertion (fun _ _ holding rely => Holding.stable holding rely) ?_ ?_ start
  · intro s halt holding failed
    simp only [channelTasks, tracedAct, act_insw (holding.ready rfl) holding.regs given moves] at failed
    cases failed
  · intro s more after holding ran
    simp only [channelTasks, tracedAct, act_insw (holding.ready rfl) holding.regs given moves] at ran
    cases ran
    have spec : specAfter t (.port (.insw (regData hd) addr count)) s.spec = { s.spec with
        pending := Function.update s.spec.pending t
          (.done r (blockRead (s.spec.disk r.slave) r.bid r.buf r.count r.off)) } := by
      simp [specAfter, holding.pending, commitsAt, reads, BlockDisks.commit]
    rw [spec]
    have glob := holding.glob
    have whole : ∀ i, i < blockSize →
        copy (s.ide.iobuf t) 0 (fun i => s.ide.media r.slave (blockSize * r.bid + i)) blockSize i =
          s.spec.disk r.slave r.bid i := by
      intro i inside
      rw [copy_inside (Nat.zero_le i) (by omega), Nat.sub_zero]
      exact (glob.disk r.slave r.bid i inside).symm
    refine ⟨⟨⟨glob.disk, glob.free, glob.taken, glob.expecting, glob.apart.settled rfl⟩, ?_⟩, ?_⟩
    · intro u other
      exact rely_of_owner holding.owner other (Function.update_of_ne other _ _) rfl (Function.update_of_ne other _ _)
        ⟨glob.disk, glob.free, glob.taken, glob.expecting, glob.apart.settled rfl⟩ fun _ _ _ _ _ _ => rfl
    · refine next _ _ _ (blockRead_page fits sum whole) ?_
      refine ⟨⟨?_, Function.update_self .., holding.buf,
        ⟨glob.disk, glob.free, glob.taken, glob.expecting, glob.apart.settled rfl⟩, ?_⟩, holding.owner, rfl,
        holding.ready, holding.signal⟩
      · rw [buf]
        exact Function.update_self ..
      · intro other called
        cases called

theorem safe_insw_modify {r : Request} {addr count : Nat} (modifies : r.modify = true)
    (given : regs.command = some cmdReadSector) (moves : regs.transfer addr (2 * count) = r.transfer)
    (next : ∀ s page, (∀ i, i < blockSize → page i = block i) →
      Holding t { regs with command := none } true false (.called r) page b block s →
        Safe (channelTasks τ hd) t goal acts s)
    (start : Holding t regs true false (.called r) io b block s) :
    Safe (channelTasks τ hd) t goal (.port (.insw (regData hd) addr count) :: acts) s := by
  refine Safe.of_assertion (fun _ _ holding rely => Holding.stable holding rely) ?_ ?_ start
  · intro s halt holding failed
    simp only [channelTasks, tracedAct, act_insw (holding.ready rfl) holding.regs given moves] at failed
    cases failed
  · intro s more after holding ran
    simp only [channelTasks, tracedAct, act_insw (holding.ready rfl) holding.regs given moves] at ran
    cases ran
    have spec : specAfter t (.port (.insw (regData hd) addr count)) s.spec = s.spec := by
      simp [specAfter, holding.pending, commitsAt, modifies]
    rw [spec]
    have glob := holding.glob
    refine ⟨⟨⟨glob.disk, glob.free, glob.taken, glob.expecting, glob.apart⟩, ?_⟩, ?_⟩
    · intro u other
      exact rely_of_owner holding.owner other (Function.update_of_ne other _ _) rfl rfl
        ⟨glob.disk, glob.free, glob.taken, glob.expecting, glob.apart⟩ fun _ _ _ _ _ _ => rfl
    · refine next _ (copy (s.ide.iobuf t) 0 (fun i => s.ide.media r.slave (blockSize * r.bid + i)) blockSize) ?_ ?_
      · intro i inside
        rw [copy_inside (Nat.zero_le i) (by omega), Nat.sub_zero]
        exact holding.kept r rfl modifies i inside
      · exact ⟨⟨holding.pending, Function.update_self .., holding.buf,
          ⟨glob.disk, glob.free, glob.taken, glob.expecting, glob.apart⟩, holding.kept⟩, holding.owner, rfl,
          holding.ready, holding.signal⟩

theorem copy_block {media page : Buffer} {bid other i : Nat} (inside : i < blockSize) :
    copy media (blockSize * bid) page blockSize (blockSize * other + i) =
      if other = bid then page i else media (blockSize * other + i) := by
  by_cases same : other = bid
  · rw [same, if_pos rfl, copy_inside (by omega) (by omega), Nat.add_sub_cancel_left]
  · rw [if_neg same]
    apply copy_outside
    unfold blockSize at *
    omega

theorem safe_outsw {r : Request} {addr count : Nat} (modifies : r.modify = true) (buf : b = r.buf)
    (fits : r.off ≤ blockSize) (sum : r.off + r.count < 2 ^ 64)
    (page : ∀ i, i < blockSize → io i = copy block r.off b (clipped r.count r.off) i)
    (given : regs.command = some cmdWriteSector) (moves : regs.transfer addr (2 * count) = r.transfer)
    (next : ∀ s, Holding t { regs with command := none } true armed (.done r b) io b block s →
      Safe (channelTasks τ hd) t goal acts s)
    (start : Holding t regs true armed (.called r) io b block s) :
    Safe (channelTasks τ hd) t goal (.port (.outsw (regData hd) addr count) :: acts) s := by
  refine Safe.of_assertion (fun _ _ holding rely => Holding.stable holding rely) ?_ ?_ start
  · intro s halt holding failed
    simp only [channelTasks, tracedAct, act_outsw (holding.ready rfl) holding.regs given moves] at failed
    cases failed
  · intro s more after holding ran
    simp only [channelTasks, tracedAct, act_outsw (holding.ready rfl) holding.regs given moves] at ran
    cases ran
    have spec : specAfter t (.port (.outsw (regData hd) addr count)) s.spec = {
        disk := Function.update s.spec.disk r.slave
          (blockModify (s.spec.disk r.slave) r.bid r.buf r.count r.off)
        pending := Function.update s.spec.pending t (.done r r.buf) } := by
      simp [specAfter, holding.pending, commitsAt, modifies, BlockDisks.commit]
    rw [spec, holding.iobuf]
    have glob := holding.glob
    have after : Glob { ide := { s.ide with
        regs := { regs with command := none }
        media := Function.update s.ide.media r.slave
          (copy (s.ide.media r.slave) (blockSize * r.bid) io blockSize) }, owner := s.owner, spec := {
        disk := Function.update s.spec.disk r.slave
          (blockModify (s.spec.disk r.slave) r.bid r.buf r.count r.off)
        pending := Function.update s.spec.pending t (.done r r.buf) } } := by
      refine ⟨?_, glob.free, glob.taken, glob.expecting, glob.apart.settled rfl⟩
      intro slave bid i inside
      show Function.update s.spec.disk r.slave _ slave bid i = Function.update s.ide.media r.slave _ slave _
      by_cases drive : slave = r.slave
      · rw [drive, Function.update_self, Function.update_self, copy_block inside, blockModify, if_neg (by omega)]
        by_cases same : bid = r.bid
        · have before := holding.kept r rfl modifies i inside
          rw [same, Function.update_self, if_pos rfl, page i inside, clipped_eq sum, buf]
          unfold copy
          rw [glob.disk r.slave r.bid i inside, before]
        · rw [Function.update_of_ne same, if_neg same]
          exact glob.disk r.slave bid i inside
      · rw [Function.update_of_ne drive, Function.update_of_ne drive]
        exact glob.disk slave bid i inside
    refine ⟨⟨after, ?_⟩, ?_⟩
    · intro u other
      refine rely_of_owner holding.owner other rfl rfl (Function.update_of_ne other _ _) after ?_
      intro _ request called modify i inside
      show Function.update s.ide.media r.slave _ request.slave _ = _
      by_cases drive : request.slave = r.slave
      · have distinct := glob.apart u t request r other called holding.pending modify modifies drive
        rw [drive, Function.update_self, copy_block inside, if_neg distinct]
      · rw [Function.update_of_ne drive]
    · apply next
      refine ⟨⟨?_, holding.iobuf, holding.buf, after, ?_⟩, holding.owner, rfl, holding.ready, holding.signal⟩
      · rw [buf]
        exact Function.update_self ..
      · intro other called
        cases called

theorem loopActs_one {secCnt : Nat} {turn : Nat → List Act} (few : secCnt < 256) : loopActs secCnt turn 0 = turn 0 := by
  rw [loopActs, if_pos (Nat.zero_le _), loopActs, if_neg (by omega), List.append_nil]

def blockOp : UInt8 := UInt8.ofNat (secsOp sectsPerBlock 0)

theorem request_read (hd : HD) (lba : Nat) (acts : List Act) :
    request hd sectsPerBlock (readTurn hd lba 0 sectsPerBlock) ++ acts =
      .down .lock :: (ports (selectDisk hd ++ selectSector hd lba blockOp) ++
        (.expectIntr :: .port (.outb (regCmd hd) cmdReadSector) :: .down .diskDone :: .busyWait timeLimit ::
          .port (.insw (regData hd) 0 (sizeInByte blockOp / 2)) :: .up .lock :: acts)) := by
  rw [request, loopActs_one (by decide)]
  simp [readTurn, cmdOutActs, cmdOut, readFromSector, ports, blockOp]

theorem request_write (hd : HD) (lba : Nat) (acts : List Act) :
    request hd sectsPerBlock (writeTurn hd lba 0 sectsPerBlock) ++ acts =
      .down .lock :: (ports (selectDisk hd ++ selectSector hd lba blockOp) ++
        (.expectIntr :: .port (.outb (regCmd hd) cmdWriteSector) :: .busyWait timeLimit ::
          .port (.outsw (regData hd) 0 (sizeInByte blockOp / 2)) :: .down .diskDone :: .up .lock :: acts)) := by
  rw [request, loopActs_one (by decide)]
  simp [writeTurn, cmdOutActs, cmdOut, write2sector, ports, blockOp]

theorem block_chunk {r : Request} (small : r.bid * sectsPerBlock + sectsPerBlock < 2 ^ 28) :
    chunk r.hd (r.bid * sectsPerBlock) 0 sectsPerBlock 0 = r.transfer := by
  have inside : r.bid * sectsPerBlock + 0 < 2 ^ 28 := by omega
  have slave := chunk_slave r.hd 0 sectsPerBlock inside
  have sector : (r.bid * sectsPerBlock + 0) % 2 ^ 28 = r.bid * sectsPerBlock := Nat.mod_eq_of_lt inside
  rw [chunk, Request.transfer, Transfer.mk.injEq]
  exact ⟨slave, sector, rfl, rfl, rfl⟩

theorem block_transfer {r : Request} (small : r.bid * sectsPerBlock + sectsPerBlock < 2 ^ 28) (command : Option UInt8) :
    (selected r.hd (r.bid * sectsPerBlock) blockOp command).transfer 0 (2 * (sizeInByte blockOp / 2)) = r.transfer :=
  (selected_transfer r.hd (r.bid * sectsPerBlock) 0 sectsPerBlock 0 command).trans (block_chunk small)

theorem safe_readBlock {r : Request} (small : r.bid * sectsPerBlock + sectsPerBlock < 2 ^ 28)
    (data : ∀ s regs, regs.command = some cmdReadSector →
      regs.transfer 0 (2 * (sizeInByte blockOp / 2)) = r.transfer → Holding t regs true false p io b block s →
        Safe (channelTasks τ r.hd) t goal
          (.port (.insw (regData r.hd) 0 (sizeInByte blockOp / 2)) :: .up .lock :: acts) s)
    (start : Calling t p io b block s) : Safe (channelTasks τ r.hd) t goal
      (request r.hd sectsPerBlock (readTurn r.hd (r.bid * sectsPerBlock) 0 sectsPerBlock) ++ acts) s := by
  rw [request_read]
  refine safe_lock ?_ start
  intro s regs locked
  refine safe_outbs (select_outbs _ _ _) ?_ locked
  intro s chosen
  rw [select_registers] at chosen
  refine safe_expectIntr ?_ chosen
  intro s expecting
  refine safe_command ?_ expecting
  intro s commanded
  refine safe_diskDone ?_ commanded
  intro s came
  refine safe_busyWait (by decide) rfl ?_ came
  intro s ready
  exact data s _ rfl (block_transfer small _) ready

theorem safe_writeBlock {r : Request} (modifies : r.modify = true) (buf : b = r.buf) (fits : r.off ≤ blockSize)
    (sum : r.off + r.count < 2 ^ 64) (small : r.bid * sectsPerBlock + sectsPerBlock < 2 ^ 28)
    (page : ∀ i, i < blockSize → io i = copy block r.off b (clipped r.count r.off) i)
    (next : ∀ s, Calling t (.done r b) io b block s → Safe (channelTasks τ r.hd) t goal acts s)
    (start : Calling t (.called r) io b block s) : Safe (channelTasks τ r.hd) t goal
      (request r.hd sectsPerBlock (writeTurn r.hd (r.bid * sectsPerBlock) 0 sectsPerBlock) ++ acts) s := by
  rw [request_write]
  refine safe_lock ?_ start
  intro s regs locked
  refine safe_outbs (select_outbs _ _ _) ?_ locked
  intro s chosen
  rw [select_registers] at chosen
  refine safe_expectIntr ?_ chosen
  intro s expecting
  refine safe_command ?_ expecting
  intro s commanded
  refine safe_busyWait (by decide) rfl ?_ commanded
  intro s ready
  refine safe_outsw modifies buf fits sum page rfl (block_transfer small _) ?_ ready
  intro s written
  refine safe_diskDone ?_ written
  intro s came
  exact safe_unlock next came

/-- What holds of a task when its program is done. -/
def Finished (t : τ) (s : Traced τ) : Prop :=
  match s.spec.pending t with
  | .idle => True
  | .called _ => False
  | .done _ buf => s.ide.buf t = buf

theorem safe_finished {r : Request} (start : Calling t (.done r b) io b block s) :
    Safe (channelTasks τ hd) t (Finished t) [] s := by
  refine Safe.of_end (fun _ _ calling rely => Calling.stable calling rely) ?_ start
  intro s calling
  simp only [Finished, calling.pending]
  exact calling.buf

theorem channelTasks_congr {hd hd' : HD} (same : portBase hd = portBase hd') :
    channelTasks τ hd = channelTasks τ hd' := by
  have accesses : (portAccess hd : τ → Ide τ → PortOp → Except Halt (Ide τ)) = portAccess hd' := by
    funext t s op
    unfold portAccess regCmd
    rw [same]
  unfold channelTasks tracedAct act
  rw [accesses]

theorem acts_ok {hdCnt : Nat} {r : Request} (present : r.hd.number < hdCnt) (fits : r.off ≤ blockSize) :
    r.acts hdCnt = .ok (if r.modify then
        request r.hd sectsPerBlock (readTurn r.hd (r.bid * sectsPerBlock) 0 sectsPerBlock) ++
          .copyIn (clipped r.count r.off) r.off ::
            (request r.hd sectsPerBlock (writeTurn r.hd (r.bid * sectsPerBlock) 0 sectsPerBlock) ++ [])
      else request r.hd sectsPerBlock (readTurn r.hd (r.bid * sectsPerBlock) 0 sectsPerBlock) ++
        [.copyOut (clipped r.count r.off) r.off]) := by
  have checked : decide (0 < sectsPerBlock ∧ r.hd.number < hdCnt) = true := decide_eq_true ⟨by decide, present⟩
  have within : ¬ blockSize < r.off := by omega
  rw [Request.acts, blockModifyActs, blockReadActs, if_neg within, if_neg within, ideReadActs, ideWriteActs, checked]
  cases r.modify with
  | false => rfl
  | true =>
    rw [if_pos rfl, if_pos rfl, List.append_nil]
    exact congrArg Except.ok (by simp)

theorem safe_call {hdCnt : Nat} {r : Request} (valid : r.Valid hdCnt hd) (fits : r.off ≤ blockSize)
    (made : r.acts hdCnt = .ok acts) (start : Calling t (.called r) io r.buf block s) :
    Safe (channelTasks τ hd) t (Finished t) acts s := by
  rw [acts_ok valid.present fits] at made
  rw [← channelTasks_congr valid.channel]
  cases kind : r.modify with
  | false =>
    rw [kind, if_neg Bool.false_ne_true] at made
    cases made
    refine safe_readBlock valid.small ?_ start
    intro s regs given moves ready
    refine safe_insw_read kind rfl fits valid.sum given moves ?_ ready
    intro s page result copied after
    refine safe_unlock ?_ after
    intro s calling
    refine safe_copyOut ?_ calling
    intro s done
    rw [copied] at done
    exact safe_finished done
  | true =>
    rw [kind, if_pos rfl] at made
    cases made
    refine safe_readBlock valid.small ?_ start
    intro s regs given moves ready
    refine safe_insw_modify kind given moves ?_ ready
    intro s page same after
    refine safe_unlock ?_ after
    intro s calling
    refine safe_copyIn ?_ calling
    intro s patched
    refine safe_writeBlock kind rfl fits valid.sum valid.small ?_ (fun s done => safe_finished done) patched
    intro i inside
    unfold copy
    rw [same i inside]

end RecoverOs.Fs
