import RecoverOs.Fs.Contents
import RecoverOs.Fs.Growth
import RecoverOs.Fs.InodeSessions

namespace RecoverOs.Fs

open Bytes Transition

def overlay (old : Nat → UInt8) (buf : Buffer) (nbyte offset k : Nat) : UInt8 :=
  if offset ≤ k ∧ k < offset + nbyte then buf (k - offset) else old k

structure Overwritten (created : Nat → Prop) (s after : State) (p : Ptr) (iNo : Nat) (buf : Buffer) (nbyte offset : Nat) :
    Prop where
  size : fileSize after iNo = max (fileSize s iNo) (offset + nbyte)
  read : ∀ o n, 1 ≤ n → o + n < 2 ^ 64 → ∃ data, inodeRead after p n o = .ok (min n (fileSize after iNo - o), data) ∧
    ∀ b < min n (fileSize after iNo - o), data b = overlay (content s iNo) buf nbyte offset (o + b)
  others : ∀ jNo, created jNo → jNo ≠ iNo → fileSize after jNo = fileSize s jNo ∧
    ∀ k < fileSize s jNo, content after jNo k = content s jNo k
  marks : ∀ jNo < inodeCntMax, inodeMark after jNo = inodeMark s jNo
  table : ∀ jNo < inodeCntMax, jNo ≠ iNo → tableInode after jNo = tableInode s jNo

/-- Files are byte arrays in every state in which the owned blocks are distinct and marked. -/
theorem file_is_byte_array (base : Nat) (created : Nat → Prop) (s : State) (p : Ptr) (iNo : Nat) (buf : Buffer)
    (nbyte offset : Nat) (inv : OwnInv base created s) (isOpen : IsOpen s p iNo) (inside : offset ≤ fileSize s iNo)
    (_some : 1 ≤ nbyte) (small : offset + nbyte ≤ ndirect * blockSize)
    (enough : neededBlocks s p (offset + nbyte) ≤ freeBlocks s) :
    ∃ after, inodeWrite s p buf nbyte offset = .ok ((nbyte : Int), after) ∧
      Overwritten created s after p iNo buf nbyte offset := by
  obtain ⟨result, after, ran, written⟩ := @inodeWrite_spec base created s p iNo buf nbyte offset inv isOpen small (.inl _some)
  obtain ⟨rfl, size, bytes⟩ := written.done (inodeWrite_enough small enough ran)
  have afterOpen := isOpen.same written.steady.toSameCache
  refine ⟨after, ran, size, ?_, ?_, written.marks, written.table⟩
  · intro o n one fits
    obtain ⟨data, read, copied⟩ := inodeRead_spec written.own.cache afterOpen fits (.inl one)
    refine ⟨data, read, ?_⟩
    intro b bound
    rw [copied b bound, overlay]
    exact bytes (o + b) (by omega) (by omega)
  · intro jNo member differs
    exact ⟨written.others.size jNo ⟨member, differs⟩, written.others.byte jNo ⟨member, differs⟩⟩

/-- The root directory and a new file of 100 bytes, which is then written from byte 90 to the middle of a fourth block. -/
theorem file_is_byte_array_grown : ∃ fs s after, format (fun _ _ => 7) ⟨64, 800⟩ = .ok fs ∧
    run Session.step (Session.start fs) [.diskInodeCreate, .inodeOpen 1, .inodeWrite 1 (fun _ => 5) 100 0] = .ok s ∧
    inodeWrite s.fs 1 (fun _ => 9) 14000 90 = .ok (14000, after) ∧
    Overwritten (· ∈ s.created) s.fs after 1 1 (fun _ => 9) 14000 90 := by
  have evaluated : endsIn (format (fun _ _ => 7) ⟨64, 800⟩) (fun fs =>
      endsIn (run Session.step (Session.start fs) [.diskInodeCreate, .inodeOpen 1, .inodeWrite 1 (fun _ => 5) 100 0])
        fun s => decide (s.fs.openInodes = [1] ∧ (s.fs.inode 1).iNo = 1 ∧ 90 ≤ fileSize s.fs 1 ∧
          neededBlocks s.fs 1 14090 ≤ freeBlocks s.fs)) = true := by
    decide +kernel
  obtain ⟨fs, formatted, rest⟩ := exists_of_endsIn evaluated
  obtain ⟨s, ran, facts⟩ := exists_of_endsIn rest
  obtain ⟨opened, number, inside, enough⟩ := of_decide_eq_true facts
  have inv := run_invariant (fun s op after inv _ ran => session_step s op after inv ran)
    (format_start formatted) (meets_true Session.step (Session.start fs) _) ran
  have isOpen : IsOpen s.fs 1 1 := ⟨by rw [opened]; exact List.mem_singleton.mpr rfl, number⟩
  obtain ⟨after, write, overwritten⟩ := file_is_byte_array _ _ s.fs 1 1 (fun _ => 9) 14000 90 inv.own isOpen inside
    (by decide) (by decide) enough
  exact ⟨fs, s, after, formatted, ran, write, overwritten⟩

end RecoverOs.Fs
