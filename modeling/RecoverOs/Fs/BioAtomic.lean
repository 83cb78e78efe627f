import RecoverOs.Fs.BioCalls
import RecoverOs.Logic.Refinement

namespace RecoverOs.Fs

open Bytes Transition Interference Device

variable {τ : Type} [DecidableEq τ] {t : τ} {p : Pending} {b : Buffer} {hd : HD}
  {hdCnt : Nat} {owner : Option τ} {m : Bio τ} {a : BlockDisks τ} {r : Request}

structure StandsFor (hdCnt : Nat) (hd : HD) (owner : Option τ) (s : Bio τ) (a : BlockDisks τ) : Prop where
  glob : Glob { ide := s.ide, owner := owner, spec := a }
  safe : ∀ t, Safe (channelTasks τ hd) t (Finished t) (s.rest t) { ide := s.ide, owner := owner, spec := a }
  call : ∀ t, (a.pending t).request = s.call t
  valid : ∀ t r, s.call t = some r → r.Valid hdCnt hd

theorem StandsFor.idle (stands : StandsFor hdCnt hd owner m a) (free : m.call t = none) : a.pending t = .idle := by
  have none := (stands.call t).trans free
  cases pending : a.pending t with
  | idle => rfl
  | _ =>
    rw [pending] at none
    cases none

theorem StandsFor.renewed {acts : List Act} {call : Option Request} (stands : StandsFor hdCnt hd owner m a)
    (apart : PendingApart (Function.update a.pending t p)) (request : p.request = call)
    (valid : ∀ r, call = some r → r.Valid hdCnt hd)
    (safe : ∀ s : Traced τ, s.ide = { m.ide with buf := Function.update m.ide.buf t b } →
      s.spec = { a with pending := Function.update a.pending t p } → Glob s →
        Safe (channelTasks τ hd) t (Finished t) acts s) :
    StandsFor hdCnt hd owner
      { ide := { m.ide with buf := Function.update m.ide.buf t b }
        rest := Function.update m.rest t acts
        call := Function.update m.call t call }
      { a with pending := Function.update a.pending t p } := by
  have glob : Glob {
      ide := { m.ide with buf := Function.update m.ide.buf t b }
      owner := owner
      spec := { a with pending := Function.update a.pending t p } } :=
    ⟨stands.glob.disk, stands.glob.free, stands.glob.taken, stands.glob.expecting, apart⟩
  refine ⟨glob, ?_, ?_, ?_⟩
  · intro u
    show Safe _ _ _ (Function.update m.rest t acts u) _
    by_cases self : u = t
    · rw [self, Function.update_self]
      exact safe _ rfl rfl glob
    · rw [Function.update_of_ne self]
      apply (stands.safe u).rely
      refine ⟨rfl, Function.update_of_ne self .., Function.update_of_ne self .., fun _ => glob, ?_,
        fun _ _ _ _ _ _ => rfl⟩
      exact fun own => ⟨own, rfl, id, .inl ⟨rfl, rfl⟩⟩
  · intro u
    show (Function.update a.pending t p u).request = Function.update m.call t call u
    by_cases self : u = t
    · rw [self, Function.update_self, Function.update_self, request]
    · rw [Function.update_of_ne self, Function.update_of_ne self, stands.call u]
  · intro u other
    show Function.update m.call t call u = some other → _
    by_cases self : u = t
    · rw [self, Function.update_self]
      exact valid other
    · rw [Function.update_of_ne self]
      exact stands.valid u other

theorem StandsFor.apart (stands : StandsFor hdCnt hd owner m a) (apart : Apart m r) :
    PendingApart (Function.update a.pending t (.called r)) := by
  have mine : ∀ u other, a.pending u = .called other → r.modify = true → other.modify = true →
      other.slave = r.slave → other.bid ≠ r.bid := by
    intro u other called modify also drive
    apply apart modify u other _ also drive
    rw [← stands.call u, called]
    rfl
  intro u v first second other left right modify also drive
  by_cases self : u = t
  · have theirs : v ≠ t := fun same => other (self.trans same.symm)
    rw [self, Function.update_self] at left
    rw [Function.update_of_ne theirs] at right
    cases left
    exact (mine v second right modify also drive.symm).symm
  · rw [Function.update_of_ne self] at left
    by_cases theirs : v = t
    · rw [theirs, Function.update_self] at right
      cases right
      exact mine u first left also modify drive
    · rw [Function.update_of_ne theirs] at right
      exact stands.glob.apart u v first second other left right modify also drive

theorem StandsFor.moved {ide : Ide τ} (stands : StandsFor hdCnt hd owner m a)
    (glob : Glob { ide := ide, owner := owner, spec := a }) (iobuf : ide.iobuf = m.ide.iobuf)
    (buf : ide.buf = m.ide.buf) (media : ide.media = m.ide.media) (regs : ide.regs = m.ide.regs)
    (busy : ide.busy = true → m.ide.busy = true) (signal : Signal m.ide ide) :
    StandsFor hdCnt hd owner { m with ide := ide } a := by
  refine ⟨glob, fun u => ?_, stands.call, stands.valid⟩
  apply (stands.safe u).rely
  exact ⟨congrFun iobuf u, congrFun buf u, rfl, fun _ => glob, fun own => ⟨own, regs, busy, signal⟩,
    fun _ r _ _ _ _ => congrFun (congrFun media r.slave) _⟩

theorem blockRead_beyond {disk : Disk} {bid count off : Nat} (beyond : blockSize < off) :
    blockRead disk bid b count off = b := by
  rw [blockRead, if_pos beyond]

theorem commit_beyond (beyond : blockSize < r.off) :
    a.commit t r = { a with pending := Function.update a.pending t (.done r r.buf) } := by
  unfold BlockDisks.commit
  rw [blockRead_beyond beyond, blockModify, if_pos beyond, Function.update_eq_self]
  split <;> rfl

theorem step_call (idle : a.pending t = .idle) :
    a.step (.call t r) = .ok { a with pending := Function.update a.pending t (.called r) } := by
  simp only [BlockDisks.step, idle]

theorem step_commit (pending : a.pending t = .called r) : a.step (.commit t) = .ok (a.commit t r) := by
  simp only [BlockDisks.step, pending]

theorem step_ret {buf : Buffer} (pending : a.pending t = .done r buf) :
    a.step (.ret t) = .ok { a with pending := Function.update a.pending t .idle } := by
  simp only [BlockDisks.step, pending]

theorem acts_beyond (beyond : blockSize < r.off) : r.acts hdCnt = .ok [] := by
  rw [Request.acts, blockModifyActs, blockReadActs, if_pos beyond, if_pos beyond, ite_self]

theorem result_eq (sum : r.off + r.count < 2 ^ 64) : r.result = min r.count (blockSize - r.off) := by
  rw [Request.result, clipped_eq sum]
  split
  · omega
  · split <;> omega

def Matched (hdCnt : Nat) (hd : HD) (a : BlockDisks τ) (shown : List (BlockEvent τ)) (next : Bio τ) : Prop :=
  ∃ ops after, run BlockDisks.step a ops = .ok after ∧ trace BlockDisks.step BlockDisks.visible a ops = shown ∧
    ∃ owner, StandsFor hdCnt hd owner next after

theorem StandsFor.silent (stands : StandsFor hdCnt hd owner m a) : Matched hdCnt hd a [] m :=
  ⟨[], a, rfl, rfl, owner, stands⟩

theorem StandsFor.called {acts : List Act} (stands : StandsFor hdCnt hd owner m a) (valid : r.Valid hdCnt hd)
    (apart : Apart m r) (free : m.call t = none) (made : r.acts hdCnt = .ok acts) :
    Matched hdCnt hd a [.call t r] {
      ide := { m.ide with buf := Function.update m.ide.buf t r.buf }
      rest := Function.update m.rest t acts
      call := Function.update m.call t (some r) } := by
  have idle := stands.idle free
  have theirs : ∀ other, some r = some other → other.Valid hdCnt hd := by
    intro other same
    cases same
    exact valid
  by_cases fits : r.off ≤ blockSize
  · refine ⟨[.call t r], _, run_cons.mpr ⟨_, step_call idle, rfl⟩, trace_cons (step_call idle), owner, ?_⟩
    refine stands.renewed (stands.apart apart) rfl theirs ?_
    intro s ide spec glob
    refine safe_call valid fits made (?_ : Calling t (.called r) (s.ide.iobuf t) r.buf
      (fun i => s.ide.media r.slave (blockSize * r.bid + i)) s)
    refine ⟨?_, rfl, ?_, glob, ?_⟩
    · rw [spec]
      exact Function.update_self ..
    · rw [ide]
      exact Function.update_self ..
    · intro other same _ i _
      cases same
      rfl
  · have beyond : blockSize < r.off := by omega
    rw [acts_beyond beyond] at made
    cases made
    have waits : (Function.update a.pending t (.called r)) t = .called r := Function.update_self ..
    have committed := @step_commit τ _ t { a with pending := Function.update a.pending t (.called r) } r waits
    rw [commit_beyond beyond, Function.update_idem] at committed
    refine ⟨[.call t r, .commit t], _, run_cons.mpr ⟨_, step_call idle, run_cons.mpr ⟨_, committed, rfl⟩⟩, ?_, owner,
      ?_⟩
    · rw [trace_cons (step_call idle), trace_cons committed]
      rfl
    · refine stands.renewed (stands.glob.apart.settled rfl) rfl theirs ?_
      intro s ide spec glob
      refine safe_finished (?_ : Calling t (.done r r.buf) (s.ide.iobuf t) r.buf (s.ide.buf t) s)
      refine ⟨?_, rfl, ?_, glob, ?_⟩
      · rw [spec]
        exact Function.update_self ..
      · rw [ide]
        exact Function.update_self ..
      · intro other same
        cases same

theorem StandsFor.result (stands : StandsFor hdCnt hd owner m a) (called : m.call t = some r)
    (nothing : m.rest t = []) : a.pending t = .done r (m.ide.buf t) := by
  have own := stands.safe t
  rw [nothing] at own
  have finished := own.ends
  have request := (stands.call t).trans called
  cases pending : a.pending t with
  | idle =>
    rw [pending] at request
    cases request
  | called other =>
    simp only [Finished, pending] at finished
  | done other buf =>
    rw [pending] at request
    cases request
    simp only [Finished, pending] at finished
    rw [finished]

theorem StandsFor.returned (stands : StandsFor hdCnt hd owner m a) (called : m.call t = some r)
    (nothing : m.rest t = []) : Matched hdCnt hd a [.ret t r.result (m.ide.buf t)]
      { m with call := Function.update m.call t none } := by
  have pending := stands.result called nothing
  refine ⟨[.ret t], _, run_cons.mpr ⟨_, step_ret pending, rfl⟩, ?_, owner, ?_⟩
  · rw [trace_cons (step_ret pending)]
    simp only [BlockDisks.visible, pending]
    rw [result_eq (stands.valid t r called).sum]
    rfl
  · have empty : Function.update m.rest t [] = m.rest := by rw [← nothing, Function.update_eq_self]
    have same : Function.update m.ide.buf t (m.ide.buf t) = m.ide.buf := Function.update_eq_self ..
    rw [← empty]
    show StandsFor hdCnt hd owner { ide := { m.ide with buf := m.ide.buf }, rest := _, call := _ } _
    rw [← same]
    refine stands.renewed (stands.glob.apart.settled rfl) rfl (fun _ no => absurd no.symm (Option.some_ne_none _)) ?_
    intro s ide spec glob
    apply Safe.done
    intro s' rely
    have idle : s'.spec.pending t = .idle := by
      rw [rely.pending, spec]
      exact Function.update_self ..
    simp only [Finished, idle]

/-- How a step may fail: an operation that is not offered, or an action that waits. -/
def Stops (m : Bio τ) : BioOp τ → Halt → Prop
  | .exec t, halt => match m.rest t with
    | [] => halt = .refused
    | i :: _ => Waits m.ide i halt
  | .call _ _, halt => halt = .refused
  | .ret _, halt => halt = .refused
  | _, _ => False

theorem StandsFor.stops {op : BioOp τ} {halt : Halt} (stands : StandsFor hdCnt hd owner m a)
    (allowed : Allowed hdCnt hd m op) (failed : Bio.step hdCnt hd m op = .error halt) : Stops m op halt := by
  have offered : ∀ {condition : Bool} {halt : Halt}, offer condition = .error halt → halt = .refused := by
    intro condition halt closed
    cases condition with
    | false =>
      cases closed
      rfl
    | true => cases closed
  cases op with
  | call t r =>
    simp only [Bio.step, bind_error] at failed
    obtain closed | ⟨_, _, stopped | ⟨_, _, other⟩⟩ := failed
    · exact offered closed
    · by_cases fits : r.off ≤ blockSize
      · rw [acts_ok allowed.1.present fits] at stopped
        cases stopped
      · rw [acts_beyond (by omega)] at stopped
        cases stopped
    · cases other
  | exec t =>
    simp only [Stops]
    cases remaining : m.rest t with
    | nil =>
      simp only [Bio.step, remaining] at failed
      cases failed
      rfl
    | cons i acts =>
      have own := stands.safe t
      rw [remaining] at own
      apply own.stops
      simp only [Bio.step, remaining, bind_error] at failed
      obtain stopped | ⟨_, _, other⟩ := failed
      · simp only [channelTasks, tracedAct, stopped]
        rfl
      · cases other
  | ret t =>
    simp only [Bio.step, bind_error] at failed
    obtain closed | ⟨_, _, other⟩ := failed
    · exact offered closed
    · cases other
  | ready => cases failed
  | intr =>
    simp only [Bio.step, bind_error] at failed
    obtain stopped | ⟨_, _, other⟩ := failed
    · unfold intrHdHandle at stopped
      split at stopped
      · rename_i expecting
        rw [stands.glob.expecting expecting] at stopped
        cases stopped
      · cases stopped
    · cases other

def patch (modify : Bool) (off : Nat) (byte : UInt8) : Request where
  modify := modify
  hd := .ata0m
  bid := 3
  buf := fun _ => byte
  count := 1
  off := off

def zeroDisks : Bio Nat := Bio.start ⟨0, 0, 0, 0, 0, none⟩ (fun _ _ => 0) (fun _ _ => 0) (fun _ _ => 0)

def oneRequest (t : Nat) : List (BioOp Nat) :=
  List.replicate 9 (.exec t) ++ [.ready, .intr] ++ List.replicate 4 (.exec t)

def overlapping : List (BioOp Nat) :=
  [.call 0 (patch true 0 7), .call 1 (patch true 1 9)] ++ oneRequest 0 ++ oneRequest 1 ++ [.exec 0, .exec 1] ++
    oneRequest 0 ++ [.ret 0] ++ oneRequest 1 ++ [.ret 1]

theorem overlapping_loses_byte : ∃ m, run (Bio.step 1 .ata0m) zeroDisks overlapping = .ok m ∧
    m.ide.media false (blockSize * 3) = 0 ∧ m.ide.media false (blockSize * 3 + 1) = 9 := by
  have evaluated : endsIn (run (Bio.step 1 .ata0m) zeroDisks overlapping)
      (fun m => decide (m.ide.media false (blockSize * 3) = 0 ∧ m.ide.media false (blockSize * 3 + 1) = 9)) = true := by
    decide +kernel
  obtain ⟨m, ran, lost⟩ := exists_of_endsIn evaluated
  exact ⟨m, ran, of_decide_eq_true lost⟩

end RecoverOs.Fs
